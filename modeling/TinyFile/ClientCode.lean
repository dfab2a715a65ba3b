import TinyFile.App
import TinyFile.RequestFlow
import TinyFile.ServicerBookkeeping

/-!
# A client and its own code

In the system a call carries its file along, and the dispatcher and the workers of a
client pass exchanges on. The client's own code knows request ids only: the files are
in `requestMap`, and so are the results. What a thread of the client does with the one
it does with the other.
-/
namespace TinyFile.System

def requests (s : System) : List Request := s.exchanges.map Exchange.request

def requestIdOf (requests : List Request) (n : ℕ) : ℕ :=
  (requests[n]?.map fun r => r.requestId).getD 0

/-- What `createHandler` makes of a response. -/
def handlerOf (requests : List Request) (n : ℕ) : Servicer.Handler :=
  ⟨requestIdOf requests n, (requests[n]?.map fun r => r.src).getD []⟩

def Call.message (call : Call) : Servicer.RequestMessage := ⟨call.requestId, call.fileSize⟩

def Dispatcher.toServicer (requests : List Request) : Dispatcher → Servicer.Dispatcher
  | .sendLoop => .sendLoop
  | .posting call => .posting call.message
  | .receiveLoop => .receiveLoop
  | .pushing n => .pushing (requestIdOf requests n)

/-- The call that a worker of the service has taken and not responded to. -/
def ServiceWorker.unanswered (c : ℕ) (requests : List Request) : ServiceWorker → Option Call
  | .allocating r _ => r.callOf c
  | .responding n => requests[n]?.bind (Request.callOf c)
  | _ => none

/-- The calls of a client that the service has taken and not responded to. -/
def withService (s : System) (c : ℕ) : List Call :=
  (s.registration.callOf c).toList ++ s.pending.filterMap (Request.callOf c) ++
    s.workers.filterMap (ServiceWorker.unanswered c s.requests)

/-- The calls of a client that have not been completed. -/
def underWay (s : System) (c : ℕ) : List Call := s.downstream c ++ s.upstream c

/-- A client of the system and the client's own code; the order in which workers hold
handlers and the service holds requests does not matter. -/
structure Matches (h : Client) (requests : List Request) (withService underWay : List Call)
    (v : Servicer) : Prop where
  numWorkers : v.numWorkers = h.numWorkers
  nextRequestId : v.nextRequestId = h.nextRequestId
  requestQueue : v.requestQueue = h.requestQueue.map Call.requestId
  requestsInFlight : v.requestsInFlight = h.requestsInFlight
  dispatcher : v.dispatcher = h.dispatcher.toServicer requests
  clientToServer : v.clientToServer = h.clientToServer.map Call.message
  serving : v.serving.Perm (withService.map Call.requestId)
  serverToClient : v.serverToClient = h.serverToClient.map (requestIdOf requests)
  requestResponseQueue : v.requestResponseQueue =
    h.requestResponseQueue.map (requestIdOf requests)
  handlers : v.handlers.Perm ((h.workers.filterMap ClientWorker.processed).map
    (handlerOf requests))
  entries : ∀ call ∈ underWay, v.requestMap call.requestId = some ⟨call.requestId, call.src, none⟩

section UnderWay

variable {cfg : Config} {s s' : System} {c : ℕ}

theorem underWay_step {ev : Event} (hinv : Invariant cfg s) (hstep : s.step cfg ev = some s') :
    (completed c s ev ++ s'.underWay c).Perm (s.underWay c ++ submitted c s ev) := by
  have hdown := (downstream_step (c := c) hinv hstep).append_right (s'.upstream c)
  rw [List.append_assoc, List.append_assoc (s.downstream c), upstream_step hstep,
    ← List.append_assoc (s.downstream c)] at hdown
  exact hdown

theorem sublist_filterMap {α β : Type*} {f g : α → Option β} (h : ∀ a, f a = none ∨ f a = g a)
    (l : List α) : (l.filterMap f).Sublist (l.filterMap g) := by
  induction l with
  | nil => exact List.Sublist.refl _
  | cons a l ih =>
    cases hg : g a with
    | none =>
      have hf : f a = none := (h a).elim id fun hsame => hsame.trans hg
      rwa [List.filterMap_cons_none hf, List.filterMap_cons_none hg]
    | some b =>
      rw [List.filterMap_cons_some hg]
      rcases h a with hnone | hsame
      · rw [List.filterMap_cons_none hnone]
        exact ih.cons b
      · rw [List.filterMap_cons_some (hsame.trans hg)]
        exact ih.cons_cons b

/-- A completed exchange leaves the calls under way and stays among the requested ones. -/
theorem underWay_sublist (s : System) (c : ℕ) :
    (s.underWay c).Sublist (s.requested c ++ s.upstream c) := by
  have hexchanges := sublist_filterMap (f := Exchange.callOf c)
    (g := fun e => e.request.callOf c) (fun e => by
      rw [Exchange.callOf]
      cases e.completed
      · exact .inr rfl
      · exact .inl rfl) s.exchanges
  exact (hexchanges.append_left _).append_right _

theorem Numbered.underWay_nodup (h : Numbered s) (c : ℕ) :
    ((s.underWay c).map Call.requestId).Nodup :=
  ((h c).nodup_iff.mpr List.nodup_range).sublist ((underWay_sublist s c).map _)

theorem Numbered.lt_of_underWay (h : Numbered s) {call : Call} (hcall : call ∈ s.underWay c) :
    call.requestId < (s.clients c).nextRequestId :=
  List.mem_range.mp ((h c).mem_iff.mp (List.mem_map_of_mem ((underWay_sublist s c).mem hcall)))

/-- The response in a client's hands is for a call under way. -/
theorem Invariant.request_of_response (hinv : Invariant cfg s) {n : ℕ}
    (hn : n ∈ (s.clients c).responses) :
    ∃ r, s.requests[n]? = some r ∧ r.clientId = c ∧ r.toCall ∈ s.underWay c := by
  obtain ⟨-, e, he, hclient, hopen⟩ := hinv.responses c n hn
  refine ⟨e.request, by rw [requests, List.getElem?_map, he, Option.map_some], hclient, ?_⟩
  refine List.mem_append_left _ (List.mem_append_right _ (List.mem_filterMap.mpr
    ⟨e, List.mem_of_getElem? he, ?_⟩))
  rw [Exchange.callOf, hopen]
  exact if_pos hclient

end UnderWay

section ClientSteps

variable {h h' : Client} {requests : List Request} {withService withService' underWay : List Call}
  {v : Servicer} {n : ℕ} {right : List UInt8 → List UInt8 → Prop}

theorem requestIdOf_eq {r : Request} (hr : requests[n]? = some r) :
    requestIdOf requests n = r.requestId := by
  rw [requestIdOf, hr, Option.map_some, Option.getD_some]

theorem handlerOf_eq {r : Request} (hr : requests[n]? = some r) :
    handlerOf requests n = ⟨r.requestId, r.src⟩ := by
  rw [handlerOf, requestIdOf_eq hr, hr, Option.map_some, Option.getD_some]

theorem Matches.submit (hm : Matches h requests withService underWay v)
    (hbooks : Servicer.Bookkeeping v) (src : List UInt8) (small : src.length < SizeT.modulus)
    (hold : ∀ call ∈ underWay, call.requestId < h.nextRequestId) :
    Matches (h.submit src small) requests withService
      (underWay ++ [⟨h.nextRequestId, src, small⟩]) (v.callServiceAsync src) where
  numWorkers := hm.numWorkers
  nextRequestId := congrArg (· + 1) hm.nextRequestId
  requestQueue := by
    simp [Servicer.callServiceAsync, Servicer.submit, Client.submit, hm.requestQueue,
      hm.nextRequestId]
  requestsInFlight := hm.requestsInFlight
  dispatcher := hm.dispatcher
  clientToServer := hm.clientToServer
  serving := hm.serving
  serverToClient := hm.serverToClient
  requestResponseQueue := hm.requestResponseQueue
  handlers := hm.handlers
  entries := by
    intro call hcall
    have hmap := Servicer.requestMap_submit hbooks src call.requestId
    refine hmap.trans ?_
    rw [hm.nextRequestId]
    rcases List.mem_append.mp hcall with hcall | hcall
    · rw [if_neg (hold call hcall).ne]
      exact hm.entries call hcall
    · obtain rfl := List.mem_singleton.mp hcall
      exact if_pos rfl

/-- One turn of the loop in `sendRequests`; the client's code takes two steps where it
sends a request. -/
theorem Matches.sendRequests (hm : Matches h requests withService underWay v)
    (hsafe : v.fault = none) (hd : h.dispatcher = .sendLoop)
    (hqueue : ∀ call ∈ h.requestQueue, call ∈ underWay) :
    ∃ ds v', (Servicer.machine h.numWorkers).RunIf (fun u e => u.answers right e) v ds v' ∧
      Matches h.sendRequests requests withService underWay v' ∧ v'.completed = v.completed := by
  have hpc : v.dispatcher = .sendLoop := by rw [hm.dispatcher, hd, Dispatcher.toServicer]
  have hnext : (Servicer.machine h.numWorkers).next v .dispatch = some v.sendRequests := by
    simp [Servicer.machine, Servicer.next, hsafe, Servicer.dispatch, hpc]
  have hrequestQueue := hm.requestQueue
  unfold Client.sendRequests
  split
  · next hq =>
    rw [hq, List.map_nil] at hrequestQueue
    refine ⟨[.dispatch], { v with dispatcher := .receiveLoop }, .cons ?_ trivial (.nil _),
      { hm with dispatcher := rfl }, rfl⟩
    rw [hnext, Servicer.sendRequests, hrequestQueue]
  · next call rest hq =>
    rw [hq, List.map_cons] at hrequestQueue
    split_ifs with hroom
    · have hentry := hm.entries call (hqueue call (hq ▸ List.mem_cons_self))
      have hvroom : v.requestsInFlight < v.numWorkers := by
        rwa [hm.requestsInFlight, hm.numWorkers]
      let building : Servicer := { v with
        requestQueue := rest.map Call.requestId
        taken := v.taken ++ [call.requestId]
        requestsInFlight := v.requestsInFlight + 1
        dispatcher := .building call.requestId }
      have hfirst : v.sendRequests = building := by
        simp only [Servicer.sendRequests, hrequestQueue, if_pos hvroom, hentry, building]
      have hsecond : (Servicer.machine h.numWorkers).next building .dispatch =
          some { building with dispatcher := .posting call.message } := by
        simp [Servicer.machine, Servicer.next, hsafe, Servicer.dispatch, building,
          Servicer.buildMessage, hentry, Call.message, Call.fileSize, Servicer.Request.fileSize]
      exact ⟨[.dispatch, .dispatch], { building with dispatcher := .posting call.message },
        .cons (hfirst ▸ hnext) trivial (.cons hsecond trivial (.nil _)),
        { hm with
          requestQueue := rfl
          requestsInFlight := congrArg (· + 1) hm.requestsInFlight
          dispatcher := rfl }, rfl⟩
    · refine ⟨[.dispatch], { v with dispatcher := .receiveLoop }, .cons ?_ trivial (.nil _),
        { hm with dispatcher := rfl }, rfl⟩
      have hvroom : ¬ v.requestsInFlight < v.numWorkers := by
        rwa [hm.requestsInFlight, hm.numWorkers]
      rw [hnext, Servicer.sendRequests, hrequestQueue]
      simp only [if_neg hvroom]

/-- The dispatcher's next step. -/
theorem Matches.dispatch {exchanges : List Exchange}
    (hm : Matches h requests withService underWay v) (hsafe : v.fault = none)
    (hqueue : ∀ call ∈ h.requestQueue, call ∈ underWay)
    (hstep : h.dispatch exchanges = some h') :
    ∃ ds v', (Servicer.machine h.numWorkers).RunIf (fun u e => u.answers right e) v ds v' ∧
      Matches h' requests withService underWay v' ∧ v'.completed = v.completed := by
  have hpc := hm.dispatcher
  have hone : ∀ {v'}, v.dispatch = some v' → (Servicer.machine h.numWorkers).RunIf
      (fun u e => u.answers right e) v [.dispatch] v' := fun hv' =>
    .cons (by simpa [Servicer.machine, Servicer.next, hsafe] using hv') trivial (.nil _)
  simp only [Client.dispatch] at hstep
  split at hstep
  · next hd =>
    cases hstep
    exact hm.sendRequests hsafe hd hqueue
  · next call hd =>
    rw [hd, Dispatcher.toServicer] at hpc
    simp only [Client.mqSend] at hstep
    split_ifs at hstep with hroom
    cases hstep
    have hvroom : v.clientToServer.length < CLIENT_MAX_MSG := by
      rwa [hm.clientToServer, List.length_map]
    refine ⟨[.dispatch], { v with
      clientToServer := v.clientToServer ++ [call.message]
      sent := v.sent ++ [call.message]
      dispatcher := .sendLoop }, hone ?_, { hm with clientToServer := ?_, dispatcher := rfl }, rfl⟩
    · simp only [Servicer.dispatch, hpc, Servicer.mqSend, if_pos hvroom]
    · simp [hm.clientToServer]
  · next hd =>
    cases hstep
    rw [hd, Dispatcher.toServicer] at hpc
    have hserverToClient := hm.serverToClient
    unfold Client.receiveResponses
    split
    · next hq =>
      rw [hq, List.map_nil] at hserverToClient
      refine ⟨[.dispatch], { v with dispatcher := .sendLoop }, hone ?_,
        { hm with dispatcher := rfl }, rfl⟩
      simp only [Servicer.dispatch, hpc, Servicer.receiveResponses, hserverToClient]
    · next n rest hq =>
      rw [hq, List.map_cons] at hserverToClient
      refine ⟨[.dispatch], { v with
        serverToClient := rest.map (requestIdOf requests)
        dispatcher := .pushing (requestIdOf requests n) }, hone ?_,
        { hm with serverToClient := rfl, dispatcher := rfl }, rfl⟩
      simp only [Servicer.dispatch, hpc, Servicer.receiveResponses, hserverToClient]
  · next n hd =>
    obtain ⟨e, -, rfl⟩ := Option.map_eq_some_iff.mp hstep
    unfold Client.pushResponse
    split
    · refine ⟨[.dispatch], { v with
        requestResponseQueue := v.requestResponseQueue ++ [requestIdOf requests n]
        dispatcher := .receiveLoop }, hone ?_,
        { hm with requestResponseQueue := ?_, dispatcher := rfl }, rfl⟩
      · rw [hd, Dispatcher.toServicer] at hpc
        simp only [Servicer.dispatch, hpc]
      · simp [hm.requestResponseQueue]
    · -- the throw ends the process with the response still in hand
      exact ⟨[], v, .nil v, { hm with }, rfl⟩

/-- A worker takes a response. -/
theorem Matches.scheduleRequest {j : ℕ} {rest : List ℕ} {r : Request}
    (hm : Matches h requests withService underWay v) (hsafe : v.fault = none)
    (hlength : h.workers.length = h.numWorkers) (hw : h.workers[j]? = some .idle)
    (hq : h.requestResponseQueue = n :: rest) (hr : requests[n]? = some r)
    (hcall : r.toCall ∈ underWay) :
    ∃ v', Servicer.next v .scheduleRequest = some v' ∧
      Matches { h with requestResponseQueue := rest, workers := h.workers.set j (.processing n) }
        requests withService underWay v' ∧ v'.completed = v.completed := by
  have hheld := Slots.perm_get ClientWorker.processed hw
  have hnew := Slots.perm_set ClientWorker.processed hw (.processing n)
  have hfree : v.handlers.length < v.numWorkers := by
    have hothers := List.length_filterMap_le ClientWorker.processed (h.workers.eraseIdx j)
    have hlt := (List.getElem?_eq_some_iff.mp hw).1
    have hidle := hheld.length_eq
    rw [List.length_eraseIdx_of_lt hlt] at hothers
    simp only [ClientWorker.processed, Option.toList_none, List.nil_append, Slots.others] at hidle
    rw [hm.handlers.length_eq, List.length_map, hm.numWorkers, hidle]
    omega
  have hvq := hm.requestResponseQueue
  rw [hq, List.map_cons, requestIdOf_eq hr] at hvq
  have hentry := hm.entries r.toCall hcall
  refine ⟨{ v with
    requestResponseQueue := rest.map (requestIdOf requests)
    handlers := v.handlers ++ [⟨r.requestId, r.src⟩] }, ?_,
    { hm with requestResponseQueue := rfl, handlers := ?_ }, rfl⟩
  · simp [Servicer.next, hsafe, Servicer.scheduleRequest, hfree, hvq, hentry]
  · refine (hm.handlers.append_right _).trans ?_
    refine List.Perm.trans ?_ (hnew.map (handlerOf requests)).symm
    refine List.perm_append_comm.trans ?_
    simp only [ClientWorker.processed, Option.toList_some, Option.toList_none, List.map_cons,
      List.cons_append, List.nil_append, handlerOf_eq hr] at hheld ⊢
    exact (hheld.map _).cons _

/-- A worker completes its request. -/
theorem Matches.complete {j : ℕ} {underWay' : List Call} {r : Request}
    (hm : Matches h requests withService underWay v) (data : List UInt8) (hsafe : v.fault = none)
    (hw : h.workers[j]? = some (.processing n)) (hr : requests[n]? = some r)
    (hcall : r.toCall ∈ underWay)
    (hrest : ∀ call ∈ underWay', call ∈ underWay ∧ call.requestId ≠ r.requestId) :
    ∃ i v', Servicer.next v (.completeRequest i data) = some v' ∧
      (∀ handler ∈ v.handlers[i]?, handler.src = r.src) ∧
      Matches (h.completeRequest j n) requests withService underWay' v' ∧
      v'.completed = v.completed ++ [(r.requestId, data)] := by
  have hheld := (Slots.perm_get ClientWorker.processed hw).map (handlerOf requests)
  have hnew := (Slots.perm_set ClientWorker.processed hw (.destroying n)).map (handlerOf requests)
  simp only [ClientWorker.processed, Option.toList_some, Option.toList_none, List.cons_append,
    List.nil_append, List.map_cons, handlerOf_eq hr] at hheld hnew
  have hhandlers := hm.handlers.trans hheld
  obtain ⟨i, hlt, hi⟩ := List.getElem_of_mem (hhandlers.mem_iff.mpr List.mem_cons_self)
  have hentry := hm.entries r.toCall hcall
  refine ⟨i, { v with
    handlers := v.handlers.eraseIdx i
    requestsInFlight := SizeT.pred v.requestsInFlight
    requestMap := fun id =>
      if id = r.requestId then some ⟨r.requestId, r.src, some data⟩ else v.requestMap id
    completed := v.completed ++ [(r.requestId, data)] }, ?_, fun handler hhandler => ?_, ?_, rfl⟩
  · simp [Servicer.next, hsafe, Servicer.completeRequest, List.getElem?_eq_getElem hlt, hi, hentry]
  · rw [List.getElem?_eq_getElem hlt, hi] at hhandler
    cases hhandler
    rfl
  · refine { hm with
      requestsInFlight := congrArg SizeT.pred hm.requestsInFlight
      handlers := ?_
      entries := fun call hc => ?_ }
    · have herase := (List.getElem_cons_eraseIdx_perm hlt).trans hhandlers
      rw [hi] at herase
      exact (herase.cons_inv).trans hnew.symm
    · obtain ⟨hc, hne⟩ := hrest call hc
      exact (if_neg hne).trans (hm.entries call hc)

/-- The service takes a message. -/
theorem Matches.poll {call : Call} {rest : List Call}
    (hm : Matches h requests withService underWay v) (hsafe : v.fault = none)
    (hq : h.clientToServer = call :: rest) (hservice : withService'.Perm (call :: withService)) :
    ∃ v', Servicer.next v .serve = some v' ∧
      Matches { h with clientToServer := rest } requests withService' underWay v' ∧
      v'.completed = v.completed := by
  have hvq := hm.clientToServer
  rw [hq, List.map_cons] at hvq
  refine ⟨{ v with
    clientToServer := rest.map Call.message
    serving := v.serving ++ [call.requestId] }, ?_,
    { hm with clientToServer := rfl, serving := ?_ }, rfl⟩
  · simp [Servicer.next, hsafe, Servicer.serve, hvq, Call.message]
  · refine List.Perm.trans ?_ (hservice.map Call.requestId).symm
    exact List.perm_append_comm.trans (hm.serving.cons _)

/-- The service responds. -/
theorem Matches.respond {r : Request} (hm : Matches h requests withService underWay v)
    (hsafe : v.fault = none) (hr : requests[n]? = some r)
    (hroom : h.serverToClient.length < CLIENT_MAX_MSG)
    (hservice : withService.Perm (r.toCall :: withService')) :
    ∃ v', Servicer.next v (.answer r.requestId) = some v' ∧
      Matches { h with serverToClient := h.serverToClient ++ [n] } requests withService'
        underWay v' ∧ v'.completed = v.completed := by
  have hserving := hm.serving.trans (hservice.map Call.requestId)
  rw [List.map_cons] at hserving
  have hmem : r.requestId ∈ v.serving := hserving.mem_iff.mpr List.mem_cons_self
  have hvroom : v.serverToClient.length < CLIENT_MAX_MSG := by
    rwa [hm.serverToClient, List.length_map]
  refine ⟨{ v with
    serving := v.serving.erase r.requestId
    serverToClient := v.serverToClient ++ [r.requestId] }, ?_,
    { hm with serving := ?_, serverToClient := ?_ }, rfl⟩
  · simp [Servicer.next, hsafe, Servicer.answer, hmem, hvroom]
  · exact ((List.perm_cons_erase hmem).symm.trans hserving).cons_inv
  · simp [hm.serverToClient, requestIdOf_eq hr]

/-- Requests are only ever added. -/
theorem requestIdOf_append {requests' : List Request} (hmore : requests <+: requests')
    (hn : n < requests.length) : requestIdOf requests' n = requestIdOf requests n := by
  obtain ⟨more, rfl⟩ := hmore
  rw [requestIdOf, requestIdOf, List.getElem?_append_left hn]

theorem handlerOf_append {requests' : List Request} (hmore : requests <+: requests')
    (hn : n < requests.length) : handlerOf requests' n = handlerOf requests n := by
  obtain ⟨more, rfl⟩ := hmore
  rw [handlerOf, handlerOf, requestIdOf_append (List.prefix_append _ _) hn,
    List.getElem?_append_left hn]

/-- Two states of a client that its own code cannot tell apart. -/
structure Client.Alike (h h' : Client) : Prop where
  numWorkers : h'.numWorkers = h.numWorkers
  nextRequestId : h'.nextRequestId = h.nextRequestId
  requestQueue : h'.requestQueue = h.requestQueue
  requestsInFlight : h'.requestsInFlight = h.requestsInFlight
  dispatcher : h'.dispatcher = h.dispatcher
  clientToServer : h'.clientToServer = h.clientToServer
  serverToClient : h'.serverToClient = h.serverToClient
  requestResponseQueue : h'.requestResponseQueue = h.requestResponseQueue
  workers : h'.workers.filterMap ClientWorker.processed = h.workers.filterMap ClientWorker.processed

theorem Client.Alike.refl (h : Client) : h.Alike h := ⟨rfl, rfl, rfl, rfl, rfl, rfl, rfl, rfl, rfl⟩

theorem Matches.quiet {requests' : List Request} {underWay' : List Call}
    (hm : Matches h requests withService underWay v) (halike : h.Alike h')
    (hmore : requests <+: requests') (hlt : ∀ n ∈ h.responses, n < requests.length)
    (hservice : withService'.Perm withService) (hrest : ∀ call ∈ underWay', call ∈ underWay) :
    Matches h' requests' withService' underWay' v where
  numWorkers := hm.numWorkers.trans halike.numWorkers.symm
  nextRequestId := hm.nextRequestId.trans halike.nextRequestId.symm
  requestQueue := by rw [hm.requestQueue, halike.requestQueue]
  requestsInFlight := hm.requestsInFlight.trans halike.requestsInFlight.symm
  dispatcher := by
    rw [hm.dispatcher, halike.dispatcher]
    cases hd : h.dispatcher with
    | pushing n =>
      have hn : n ∈ h.responses := by simp [Client.responses, Client.untaken, hd,
        Dispatcher.received]
      rw [Dispatcher.toServicer, Dispatcher.toServicer, requestIdOf_append hmore (hlt n hn)]
    | sendLoop => rfl
    | posting call => rfl
    | receiveLoop => rfl
  clientToServer := by rw [hm.clientToServer, halike.clientToServer]
  serving := hm.serving.trans (hservice.map Call.requestId).symm
  serverToClient := by
    rw [hm.serverToClient, halike.serverToClient]
    exact List.map_congr_left fun n hn => (requestIdOf_append hmore (hlt n (by
      simp [Client.responses, Client.untaken, hn]))).symm
  requestResponseQueue := by
    rw [hm.requestResponseQueue, halike.requestResponseQueue]
    exact List.map_congr_left fun n hn => (requestIdOf_append hmore (hlt n (by
      simp [Client.responses, Client.untaken, hn]))).symm
  handlers := by
    rw [halike.workers]
    refine hm.handlers.trans (List.Perm.of_eq (List.map_congr_left fun n hn => ?_))
    exact (handlerOf_append hmore (hlt n (List.mem_append_right _ hn))).symm
  entries := fun call hcall => hm.entries call (hrest call hcall)

end ClientSteps

end TinyFile.System
