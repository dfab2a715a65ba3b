import TinyFile.Exclusivity
import TinyFile.Flow

/-!
# The way of a request

A call waits in the client's queue, travels to the registration thread and from
there to the scheduler, is given a segment and completed. Up to the scheduler
the calls of a client stay in order; behind it the workers may overtake each
other, but no call is lost and none is answered twice. In runs in which each
handler outlives the client's last read, the answer to a call is its own file,
compressed.
-/
namespace TinyFile.System

def Request.callOf (c : ℕ) (r : Request) : Option Call :=
  if r.clientId = c then some r.toCall else none

def Registration.callOf (c : ℕ) : Registration → Option Call
  | .enqueueing r => r.callOf c
  | .polling => none

def Dispatcher.call : Dispatcher → Option Call
  | .posting call => some call
  | _ => none

def ServiceWorker.callOf (c : ℕ) : ServiceWorker → Option Call
  | .allocating r _ => r.callOf c
  | _ => none

def Exchange.callOf (c : ℕ) (e : Exchange) : Option Call :=
  if e.completed then none else e.request.callOf c

/-- The calls of a client on their way to the scheduler, oldest first. -/
def upstream (s : System) (c : ℕ) : List Call :=
  (s.registration.callOf c).toList ++ (s.clients c).clientToServer ++
    (s.clients c).dispatcher.call.toList ++ (s.clients c).requestQueue

/-- The calls of a client that the scheduler has accepted and no worker of the
client has completed. -/
def downstream (s : System) (c : ℕ) : List Call :=
  s.pending.filterMap (Request.callOf c) ++ s.workers.filterMap (ServiceWorker.callOf c) ++
    s.exchanges.filterMap (Exchange.callOf c)

/-- The calls of a client behind the scheduler, where `f` says what an exchange counts for. -/
def behind (s : System) (c : ℕ) (f : Exchange → Option Call) : List Call :=
  s.pending.filterMap (Request.callOf c) ++ s.workers.filterMap (ServiceWorker.callOf c) ++
    s.exchanges.filterMap f

/-- The calls of a client that the scheduler has accepted so far. -/
def requested (s : System) (c : ℕ) : List Call := s.behind c fun e => e.request.callOf c

/-- The exchange that a worker of the client is about to complete. -/
def Event.completes (c : ℕ) (s : System) : Event → Option Exchange
  | .complete d j =>
      if d = c then
        ((s.clients c).workers[j]?.bind ClientWorker.processed).bind (fun n => s.exchanges[n]?)
      else none
  | _ => none

/-! What a step takes in or puts out for a client. -/

def submitted (c : ℕ) (s : System) : Event → List Call
  | .submit d src =>
      if d = c then
        if small : src.length < SizeT.modulus then
          [⟨(s.clients c).nextRequestId, src, small⟩]
        else []
      else []
  | _ => []

def accepted (c : ℕ) (s : System) : Event → List Call
  | .enqueue => (s.registration.callOf c).toList
  | _ => []

def completed (c : ℕ) (s : System) (ev : Event) : List Call :=
  ((ev.completes c s).map (fun e => e.request.toCall)).toList

/-- What `completeRequest` is given. -/
def answered (c : ℕ) (s : System) (ev : Event) : List (ℕ × List UInt8) :=
  ((ev.completes c s).map
    (fun e => (e.request.requestId, e.transfer.client.compressedData))).toList

/-- The answer that a call should have. -/
def Call.answer (cfg : Config) (call : Call) : ℕ × List UInt8 :=
  (call.requestId, cfg.compress call.src)

section Upstream

variable {cfg : Config} {s s' : System} {c : ℕ}

theorem upstream_congr (hr : s'.registration.callOf c = s.registration.callOf c)
    (hsent : (s'.clients c).clientToServer = (s.clients c).clientToServer)
    (hcall : (s'.clients c).dispatcher.call = (s.clients c).dispatcher.call)
    (hqueue : (s'.clients c).requestQueue = (s.clients c).requestQueue) :
    s'.upstream c = s.upstream c := by
  rw [upstream, upstream, hr, hsent, hcall, hqueue]

/-- A step of one client that leaves its calls alone. -/
theorem upstream_setClient {d : ℕ} {h : Client}
    (hsent : h.clientToServer = (s.clients d).clientToServer)
    (hcall : h.dispatcher.call = (s.clients d).dispatcher.call)
    (hqueue : h.requestQueue = (s.clients d).requestQueue) :
    (s.setClient d h).upstream c = s.upstream c := by
  by_cases hc : c = d
  · subst hc
    refine upstream_congr rfl ?_ ?_ ?_ <;> rw [clients_setClient]
    · exact hsent
    · exact hcall
    · exact hqueue
  · refine upstream_congr rfl ?_ ?_ ?_ <;> rw [clients_setClient_of_ne s h hc]

/-- The client's own part of the way. -/
def Client.upstream (h : Client) : List Call :=
  h.clientToServer ++ h.dispatcher.call.toList ++ h.requestQueue

/-- The dispatcher moves a call on, and keeps their order. -/
theorem Client.upstream_dispatch {h h' : Client} {exchanges : List Exchange}
    (hstep : h.dispatch exchanges = some h') : h'.upstream = h.upstream := by
  simp only [Client.dispatch] at hstep
  split at hstep
  · next hpc =>
    cases hstep
    simp only [Client.sendRequests]
    split
    · simp [Client.upstream, hpc, Dispatcher.call]
    · next call rest hq =>
      split_ifs
      · simp [Client.upstream, hpc, hq, Dispatcher.call]
      · simp [Client.upstream, hpc, Dispatcher.call]
  · next call hpc =>
    simp only [Client.mqSend] at hstep
    split_ifs at hstep
    cases hstep
    simp [Client.upstream, hpc, Dispatcher.call]
  · next hpc =>
    cases hstep
    simp only [Client.receiveResponses]
    split <;> simp [Client.upstream, hpc, Dispatcher.call]
  · next n hpc =>
    obtain ⟨e, -, rfl⟩ := Option.map_eq_some_iff.mp hstep
    simp only [Client.pushResponse]
    split <;> simp [Client.upstream, hpc, Dispatcher.call]

theorem upstream_eq (s : System) (c : ℕ) :
    s.upstream c = (s.registration.callOf c).toList ++ (s.clients c).upstream := by
  simp only [upstream, Client.upstream, List.append_assoc]

/-- Up to the scheduler: first come, first served. -/
theorem upstream_step {ev : Event} (hstep : s.step cfg ev = some s') :
    accepted c s ev ++ s'.upstream c = s.upstream c ++ submitted c s ev := by
  have hsame : ∀ s₁ : System, s₁.upstream c = s.upstream c →
      [] ++ s₁.upstream c = s.upstream c ++ [] := by
    intro s₁ h
    rw [List.nil_append, List.append_nil, h]
  cases ev with
  | submit d src =>
    obtain ⟨small, rfl⟩ := submit_cases hstep
    by_cases hd : d = c
    · subst hd
      simp only [accepted, submitted, if_true, small, dif_pos, upstream, Client.submit,
        setClient, List.nil_append, List.append_assoc]
    · simp only [accepted, submitted, hd, if_false]
      refine hsame _ (upstream_congr rfl ?_ ?_ ?_) <;>
        rw [clients_setClient_of_ne s _ (Ne.symm hd)]
  | dispatch d =>
    obtain ⟨h', hdispatch, rfl⟩ := dispatch_cases hstep
    refine hsame _ ?_
    by_cases hd : c = d
    · subst hd
      rw [upstream_eq, upstream_eq, clients_setClient, Client.upstream_dispatch hdispatch]
      rfl
    · refine upstream_congr rfl ?_ ?_ ?_ <;> rw [clients_setClient_of_ne s h' hd]
  | scheduleRequest d j =>
    obtain ⟨n, rest, -, -, rfl⟩ := scheduleRequest_cases hstep
    exact hsame _ (upstream_setClient rfl rfl rfl)
  | process d j =>
    obtain ⟨n, e, m', t', -, -, -, rfl⟩ := process_cases hstep
    exact hsame _ (upstream_setClient (s := { s.setExchange n _ with memory := m' }) rfl rfl rfl)
  | complete d j =>
    obtain ⟨n, e, -, -, -, rfl⟩ := complete_cases hstep
    exact hsame _ (upstream_setClient (h := (s.clients d).completeRequest j n) rfl rfl rfl)
  | destroy d j =>
    obtain ⟨n, e, -, -, rfl⟩ := destroy_cases hstep
    exact hsame _ (upstream_setClient rfl rfl rfl)
  | poll d =>
    obtain ⟨call, rest, hr, hq, rfl⟩ := poll_cases hstep
    refine hsame _ ?_
    by_cases hd : d = c
    · subst hd
      simp [upstream, setClient, hr, hq, Registration.callOf, Request.callOf]
    · have hclient := clients_setClient_of_ne s { s.clients d with clientToServer := rest }
        (Ne.symm hd)
      refine upstream_congr ?_ (congrArg Client.clientToServer hclient)
        (congrArg (fun h => h.dispatcher.call) hclient) (congrArg Client.requestQueue hclient)
      simp [hr, Registration.callOf, Request.callOf, hd]
  | enqueue =>
    obtain ⟨request, hr, -, rfl⟩ := enqueue_cases hstep
    simp [accepted, submitted, upstream, hr, Registration.callOf]
  | schedule w i =>
    obtain ⟨request, -, -, -, rfl⟩ := schedule_cases hstep
    exact hsame _ rfl
  | allocate w =>
    obtain ⟨request, requestSize, -, ⟨fault, -, rfl⟩ | ⟨gs, m, -, rfl⟩⟩ := allocate_cases hstep
    · exact hsame _ rfl
    · exact hsame _ rfl
  | respond w =>
    obtain ⟨n, e, -, -, ⟨fault, rfl⟩ | ⟨-, -, rfl⟩⟩ := respond_cases hstep
    · exact hsame _ rfl
    · exact hsame _ (upstream_setClient (s := s.setWorker w _) rfl rfl rfl)
  | serve w =>
    obtain ⟨n, e, m', t', -, -, -, rfl⟩ := serve_cases hstep
    exact hsame _ rfl
  | destroyHandler w =>
    obtain ⟨n, e, -, -, -, rfl⟩ := destroyHandler_cases hstep
    exact hsame _ rfl

end Upstream

section Downstream

variable {cfg : Config} {s s' : System} {c : ℕ} {f : Exchange → Option Call}

/-- Only the scheduler, its workers and the exchanges matter. -/
theorem behind_congr (hpending : s'.pending = s.pending)
    (hworkers : s'.workers.filterMap (ServiceWorker.callOf c) =
      s.workers.filterMap (ServiceWorker.callOf c))
    (hexchanges : s'.exchanges.filterMap f = s.exchanges.filterMap f) :
    s'.behind c f = s.behind c f := by
  rw [behind, behind, hpending, hworkers, hexchanges]

/-- A worker that holds no call before and after its step. -/
theorem behind_setWorker {w : ℕ} {pc : ServiceWorker} (hw : s.workers[w]? = some pc)
    (pc' : ServiceWorker) (hpc : pc.callOf c = none) (hpc' : pc'.callOf c = none) :
    (s.setWorker w pc').behind c f = s.behind c f :=
  behind_congr rfl (Slots.filterMap_set (ServiceWorker.callOf c) hw (hpc'.trans hpc.symm)) rfl

/-- A step of an exchange that counts for the same. -/
theorem behind_setExchange {n : ℕ} {e : Exchange} (he : s.exchanges[n]? = some e)
    (e' : Exchange) (hsame : f e' = f e) : (s.setExchange n e').behind c f = s.behind c f :=
  behind_congr rfl rfl (Slots.filterMap_set f he hsame)

/-- A worker takes a request of the scheduler. -/
theorem behind_schedule {w i : ℕ} (hstep : s.step cfg (.schedule w i) = some s') :
    (s'.behind c f).Perm (s.behind c f) := by
  obtain ⟨request, hw, hi, -, rfl⟩ := schedule_cases hstep
  have hpending := Slots.perm_get (Request.callOf c) hi
  have hold := Slots.perm_get (ServiceWorker.callOf c) hw
  have hnew := fun requestSize => Slots.perm_set (ServiceWorker.callOf c) hw
    (.allocating request requestSize)
  refine List.perm_iff_count.mpr fun call => ?_
  have hcount := hpending.count_eq call
  have hcount' := hold.count_eq call
  have hcount'' := fun requestSize => (hnew requestSize).count_eq call
  simp only [ServiceWorker.callOf, Option.toList_none, List.count_append, List.count_nil,
    Slots.others] at hcount hcount' hcount''
  simp only [behind, setWorker, List.count_append, hcount'']
  omega

/-- A request is given a segment. -/
theorem behind_allocate {w : ℕ} (hopen : ∀ e, e.completed = false → f e = e.request.callOf c)
    (hstep : s.step cfg (.allocate w) = some s') : (s'.behind c f).Perm (s.behind c f) := by
  obtain ⟨request, requestSize, hw, ⟨fault, -, rfl⟩ | ⟨gs, m, -, rfl⟩⟩ := allocate_cases hstep
  · exact List.Perm.refl _
  have hold := Slots.perm_get (ServiceWorker.callOf c) hw
  have hnew := Slots.perm_set (ServiceWorker.callOf c) hw (.responding s.exchanges.length)
  refine List.perm_iff_count.mpr fun call => ?_
  have hcount := hold.count_eq call
  have hcount' := hnew.count_eq call
  simp only [ServiceWorker.callOf, Option.toList_none, List.count_append, List.count_nil]
    at hcount hcount'
  have hexchange : ∀ e : Exchange, e.completed = false → e.request = request →
      ((s.exchanges ++ [e]).filterMap f).count call =
        (s.exchanges.filterMap f).count call + (request.callOf c).toList.count call := by
    intro e hcompleted hrequest
    rw [List.filterMap_append, List.count_append]
    simp only [List.filterMap_cons, List.filterMap_nil, hopen e hcompleted, hrequest]
    cases request.callOf c <;> rfl
  simp only [behind, granted, setWorker, List.count_append, hcount', hexchange]
  omega

/-- What the scheduler accepts stays behind it, until an exchange is completed. -/
theorem behind_step {ev : Event} (hopen : ∀ e, e.completed = false → f e = e.request.callOf c)
    (htransfer : ∀ e t', f { e with transfer := t' } = f e) (hev : ∀ d j, ev ≠ .complete d j)
    (hstep : s.step cfg ev = some s') :
    (s'.behind c f).Perm (s.behind c f ++ accepted c s ev) := by
  have hsame : ∀ s₁ : System, (s₁.behind c f).Perm (s.behind c f) →
      (s₁.behind c f).Perm (s.behind c f ++ []) := by
    intro s₁ h
    rwa [List.append_nil]
  have hrefl : ∀ s₁ : System, s₁.behind c f = s.behind c f →
      (s₁.behind c f).Perm (s.behind c f ++ []) :=
    fun s₁ h => hsame s₁ (h ▸ List.Perm.refl _)
  cases ev with
  | submit d src =>
    obtain ⟨small, rfl⟩ := submit_cases hstep
    exact hrefl _ rfl
  | dispatch d =>
    obtain ⟨h', -, rfl⟩ := dispatch_cases hstep
    exact hrefl _ rfl
  | scheduleRequest d j =>
    obtain ⟨n, rest, -, -, rfl⟩ := scheduleRequest_cases hstep
    exact hrefl _ rfl
  | process d j =>
    obtain ⟨n, e, m', t', -, he, -, rfl⟩ := process_cases hstep
    exact hrefl _ (behind_setExchange he { e with transfer := t' } (htransfer e t'))
  | complete d j => exact absurd rfl (hev d j)
  | destroy d j =>
    obtain ⟨n, e, -, -, rfl⟩ := destroy_cases hstep
    exact hrefl _ rfl
  | poll d =>
    obtain ⟨call, rest, -, -, rfl⟩ := poll_cases hstep
    exact hrefl _ rfl
  | enqueue =>
    obtain ⟨request, hr, -, rfl⟩ := enqueue_cases hstep
    simp only [accepted, hr, Registration.callOf, behind, List.filterMap_append, List.append_assoc]
    refine List.Perm.append_left _ (List.perm_iff_count.mpr fun call => ?_)
    have hone : [request].filterMap (Request.callOf c) = (request.callOf c).toList := by
      cases h : request.callOf c <;> simp [h]
    simp only [hone, List.count_append]
    omega
  | schedule w i => exact hsame _ (behind_schedule hstep)
  | allocate w => exact hsame _ (behind_allocate hopen hstep)
  | respond w =>
    obtain ⟨n, e, hw, -, ⟨fault, rfl⟩ | ⟨-, -, rfl⟩⟩ := respond_cases hstep
    · exact hrefl _ rfl
    · exact hrefl _ (behind_setWorker hw (.serving n) rfl rfl)
  | serve w =>
    obtain ⟨n, e, m', t', -, he, -, rfl⟩ := serve_cases hstep
    exact hrefl _ (behind_setExchange he { e with transfer := t' } (htransfer e t'))
  | destroyHandler w =>
    obtain ⟨n, e, hw, -, -, rfl⟩ := destroyHandler_cases hstep
    exact hrefl _ (behind_setWorker hw .idle rfl rfl)

/-- A worker of the client completes an exchange. -/
theorem downstream_complete {d j : ℕ} (hinv : Invariant cfg s)
    (hstep : s.step cfg (.complete d j) = some s') :
    (completed c s (.complete d j) ++ s'.downstream c).Perm (s.downstream c) := by
  obtain ⟨n, e, hw, he, -, rfl⟩ := complete_cases hstep
  obtain ⟨-, e', he', hclient, hopen⟩ := hinv.responses d n (mem_responses_of_processing hw)
  rw [he] at he'
  cases he'
  have hemit : completed c s (.complete d j) = (e.callOf c).toList := by
    by_cases hd : d = c
    · subst hd
      simp [completed, Event.completes, hw, he, ClientWorker.processed, Exchange.callOf,
        Request.callOf, hopen, hclient]
    · simp [completed, Event.completes, hd, Exchange.callOf, Request.callOf, hopen, hclient]
  have hold := Slots.perm_get (Exchange.callOf c) he
  have hnew := Slots.perm_set (Exchange.callOf c) he { e with completed := true }
  refine List.perm_iff_count.mpr fun call => ?_
  have hcount := hold.count_eq call
  have hcount' := hnew.count_eq call
  simp only [Exchange.callOf, hopen, Bool.false_eq_true, if_false, if_true, Option.toList_none,
    List.count_append, List.count_nil] at hcount hcount'
  simp only [hemit, downstream, setClient, setExchange, List.count_append, hcount',
    Exchange.callOf, hopen, Bool.false_eq_true, if_false]
  omega

/-- Behind the scheduler no call is lost, and none is completed twice. -/
theorem downstream_step {ev : Event} (hinv : Invariant cfg s) (hstep : s.step cfg ev = some s') :
    (completed c s ev ++ s'.downstream c).Perm (s.downstream c ++ accepted c s ev) := by
  have hrest : (∀ d j, ev ≠ .complete d j) →
      (s'.downstream c).Perm (s.downstream c ++ accepted c s ev) :=
    fun hev => behind_step (f := Exchange.callOf c)
      (fun e hopen => by rw [Exchange.callOf, hopen]; rfl) (fun _ _ => rfl) hev hstep
  cases ev with
  | complete d j =>
    have hperm := downstream_complete (c := c) hinv hstep
    simpa [accepted] using hperm
  | _ => exact hrest fun _ _ h => by cases h

/-- The calls that the scheduler has accepted are never forgotten. -/
theorem requested_step {ev : Event} (hstep : s.step cfg ev = some s') :
    (s'.requested c).Perm (s.requested c ++ accepted c s ev) := by
  have hrest : (∀ d j, ev ≠ .complete d j) →
      (s'.requested c).Perm (s.requested c ++ accepted c s ev) :=
    fun hev => behind_step (fun _ _ => rfl) (fun _ _ => rfl) hev hstep
  cases ev with
  | complete d j =>
    obtain ⟨n, e, -, he, -, rfl⟩ := complete_cases hstep
    have hsame := behind_setExchange (c := c) (f := fun e => e.request.callOf c) he
      { e with completed := true } rfl
    simp only [accepted, List.append_nil]
    exact List.Perm.of_eq hsame
  | _ => exact hrest fun _ _ h => by cases h

end Downstream

section Runs

variable {cfg : Config} {s s' : System} {es : List Event} {ok : System → Event → Prop}

theorem invariant_next {ev : Event} (hinv : Invariant cfg s)
    (hnext : (machine cfg).next s ev = some s') : Invariant cfg s' :=
  invariant_step hinv (step_of_next hnext)

/-- What a step of one client leaves alone in it, it leaves alone in all clients. -/
theorem read_setClient {α : Type*} (f : Client → α) {c d : ℕ} {h : Client}
    (hsame : f h = f (s.clients d)) : f ((s.setClient d h).clients c) = f (s.clients c) := by
  by_cases hc : c = d
  · rw [hc, clients_setClient, hsame]
  · rw [clients_setClient_of_ne s h hc]

theorem Client.nextRequestId_dispatch {h h' : Client} {exchanges : List Exchange}
    (hstep : h.dispatch exchanges = some h') : h'.nextRequestId = h.nextRequestId := by
  simp only [Client.dispatch] at hstep
  split at hstep
  · cases hstep
    simp only [Client.sendRequests]
    split
    · rfl
    · split_ifs <;> rfl
  · simp only [Client.mqSend] at hstep
    split_ifs at hstep
    cases hstep
    rfl
  · cases hstep
    simp only [Client.receiveResponses]
    split <;> rfl
  · obtain ⟨e, -, rfl⟩ := Option.map_eq_some_iff.mp hstep
    simp only [Client.pushResponse]
    split <;> rfl

/-- The calls of a client are numbered as they are made. -/
theorem nextRequestId_step {ev : Event} (c : ℕ) (hstep : s.step cfg ev = some s') :
    List.range (s'.clients c).nextRequestId =
      List.range (s.clients c).nextRequestId ++ (submitted c s ev).map Call.requestId := by
  have hsame : (s'.clients c).nextRequestId = (s.clients c).nextRequestId →
      List.range (s'.clients c).nextRequestId =
        List.range (s.clients c).nextRequestId ++ ([] : List Call).map Call.requestId := by
    intro h
    rw [h, List.map_nil, List.append_nil]
  cases ev with
  | submit d src =>
    obtain ⟨small, rfl⟩ := submit_cases hstep
    by_cases hd : d = c
    · subst hd
      simp only [submitted, if_true, small, dif_pos, clients_setClient, Client.submit,
        List.range_succ, List.map_cons, List.map_nil]
    · simp only [submitted, hd, if_false]
      exact hsame (by rw [clients_setClient_of_ne s _ (Ne.symm hd)])
  | dispatch d =>
    obtain ⟨h', hdispatch, rfl⟩ := dispatch_cases hstep
    exact hsame (read_setClient Client.nextRequestId (Client.nextRequestId_dispatch hdispatch))
  | scheduleRequest d j =>
    obtain ⟨n, rest, -, -, rfl⟩ := scheduleRequest_cases hstep
    exact hsame (read_setClient Client.nextRequestId rfl)
  | process d j =>
    obtain ⟨n, e, m', t', -, -, -, rfl⟩ := process_cases hstep
    exact hsame (read_setClient Client.nextRequestId
      (s := { s.setExchange n _ with memory := m' }) rfl)
  | complete d j =>
    obtain ⟨n, e, -, -, -, rfl⟩ := complete_cases hstep
    exact hsame (read_setClient Client.nextRequestId
      (h := (s.clients d).completeRequest j n) rfl)
  | destroy d j =>
    obtain ⟨n, e, -, -, rfl⟩ := destroy_cases hstep
    exact hsame (read_setClient Client.nextRequestId rfl)
  | poll d =>
    obtain ⟨call, rest, -, -, rfl⟩ := poll_cases hstep
    exact hsame (read_setClient Client.nextRequestId
      (h := { s.clients d with clientToServer := rest }) rfl)
  | enqueue =>
    obtain ⟨request, -, -, rfl⟩ := enqueue_cases hstep
    exact hsame rfl
  | schedule w i =>
    obtain ⟨request, -, -, -, rfl⟩ := schedule_cases hstep
    exact hsame rfl
  | allocate w =>
    obtain ⟨request, requestSize, -, ⟨fault, -, rfl⟩ | ⟨gs, m, -, rfl⟩⟩ := allocate_cases hstep
    · exact hsame rfl
    · exact hsame rfl
  | respond w =>
    obtain ⟨n, e, -, -, ⟨fault, rfl⟩ | ⟨-, -, rfl⟩⟩ := respond_cases hstep
    · exact hsame rfl
    · exact hsame (read_setClient Client.nextRequestId (s := s.setWorker w _) rfl)
  | serve w =>
    obtain ⟨n, e, m', t', -, -, -, rfl⟩ := serve_cases hstep
    exact hsame rfl
  | destroyHandler w =>
    obtain ⟨n, e, -, -, -, rfl⟩ := destroyHandler_cases hstep
    exact hsame rfl

theorem nextRequestId_mono {ev : Event} (c : ℕ) (hstep : s.step cfg ev = some s') :
    (s.clients c).nextRequestId ≤ (s'.clients c).nextRequestId := by
  have hcount := congrArg List.length (nextRequestId_step c hstep)
  rw [List.length_append, List.length_range, List.length_range] at hcount
  omega

/-- A process that has ended does not come back. -/
theorem clientFault_of_next {ev : Event} (c : ℕ) (hnext : s.next cfg ev = some s')
    (hfault : (s'.clients c).fault = none) : (s.clients c).fault = none := by
  have hstep := step_of_next hnext
  have halive : s.alive ev = true := alive_of_next hnext
  have hown : ∀ {d : ℕ}, ((s.clients d).fault.isNone = true) →
      (c ≠ d → s'.clients c = s.clients c) → (s.clients c).fault = none := by
    intro d hd hother
    by_cases hc : c = d
    · exact hc ▸ Option.isNone_iff_eq_none.mp hd
    · rw [← hother hc]
      exact hfault
  cases ev with
  | submit d src =>
    obtain ⟨small, rfl⟩ := submit_cases hstep
    exact hown halive (clients_setClient_of_ne s _)
  | dispatch d =>
    obtain ⟨h', -, rfl⟩ := dispatch_cases hstep
    exact hown halive (clients_setClient_of_ne s _)
  | scheduleRequest d j =>
    obtain ⟨n, rest, -, -, rfl⟩ := scheduleRequest_cases hstep
    exact hown halive (clients_setClient_of_ne s _)
  | process d j =>
    obtain ⟨n, e, m', t', -, -, -, rfl⟩ := process_cases hstep
    exact hown halive (clients_setClient_of_ne s _)
  | complete d j =>
    obtain ⟨n, e, -, -, -, rfl⟩ := complete_cases hstep
    exact hown halive (clients_setClient_of_ne s _)
  | destroy d j =>
    obtain ⟨n, e, -, -, rfl⟩ := destroy_cases hstep
    exact hown halive (clients_setClient_of_ne s _)
  | poll d =>
    obtain ⟨call, rest, -, -, rfl⟩ := poll_cases hstep
    rwa [← read_setClient Client.fault (h := { s.clients d with clientToServer := rest }) rfl]
  | enqueue =>
    obtain ⟨request, -, -, rfl⟩ := enqueue_cases hstep
    exact hfault
  | schedule w i =>
    obtain ⟨request, -, -, -, rfl⟩ := schedule_cases hstep
    exact hfault
  | allocate w =>
    obtain ⟨request, requestSize, -, ⟨fault, -, rfl⟩ | ⟨gs, m, -, rfl⟩⟩ := allocate_cases hstep
    · exact hfault
    · exact hfault
  | respond w =>
    obtain ⟨n, e, -, -, ⟨fault, rfl⟩ | ⟨-, -, rfl⟩⟩ := respond_cases hstep
    · exact hfault
    · have hsame := read_setClient Client.fault (s := s.setWorker w (.serving n)) (c := c)
        (h := { s.clients e.request.clientId with
          serverToClient := (s.clients e.request.clientId).serverToClient ++ [n] })
        (d := e.request.clientId) rfl
      exact hsame ▸ hfault
  | serve w =>
    obtain ⟨n, e, m', t', -, -, -, rfl⟩ := serve_cases hstep
    exact hfault
  | destroyHandler w =>
    obtain ⟨n, e, -, -, -, rfl⟩ := destroyHandler_cases hstep
    exact hfault

/-- The ids of a client's calls are values of an `int`; the call with the last of them
ends the process. -/
def IdsFit (s : System) : Prop :=
  ∀ c, (s.clients c).nextRequestId ≤ INT_MAX + 1 ∧
    ((s.clients c).fault = none → (s.clients c).nextRequestId ≤ INT_MAX)

theorem IdsFit.next {ev : Event} (h : IdsFit s) (hnext : s.next cfg ev = some s') :
    IdsFit s' := by
  intro c
  obtain ⟨hle, hlive⟩ := h c
  have hstep := step_of_next hnext
  by_cases hsubmit : ∃ src, ev = .submit c src
  · obtain ⟨src, rfl⟩ := hsubmit
    have hids := hlive (Option.isNone_iff_eq_none.mp (alive_of_next hnext))
    obtain ⟨small, rfl⟩ := submit_cases hstep
    simp only [clients_setClient, Client.submit]
    refine ⟨by omega, fun hnone => ?_⟩
    split_ifs at hnone
    omega
  · have hnone : submitted c s ev = [] := by
      cases ev with
      | submit d src =>
        refine if_neg fun hd => hsubmit ⟨src, ?_⟩
        rw [hd]
      | _ => rfl
    have hcount := congrArg List.length (nextRequestId_step c hstep)
    rw [hnone, List.length_append, List.length_range, List.length_range, List.length_map,
      List.length_nil, Nat.add_zero] at hcount
    rw [hcount]
    exact ⟨hle, fun hfault => hlive (clientFault_of_next c hnext hfault)⟩

theorem idsFit_of_reachable (h : (machine cfg).Reachable s) : IdsFit s :=
  h.invariant (fun _ => ⟨Nat.zero_le _, fun _ => Nat.zero_le _⟩) fun _ _ _ hs hnext => hs.next hnext

/-- The calls that a client has made so far have the ids from zero on. -/
theorem submitted_ids (h : (machine cfg).RunIf ok (init cfg) es s) (c : ℕ) :
    ((machine cfg).emitted (submitted c) (init cfg) es).map Call.requestId =
      List.range (s.clients c).nextRequestId := by
  have hstep : ∀ s ev s', True → (machine cfg).next s ev = some s' → ok s ev →
      [] ++ List.range (s'.clients c).nextRequestId =
        List.range (s.clients c).nextRequestId ++ (submitted c s ev).map Call.requestId :=
    fun _ _ _ _ hnext _ => nextRequestId_step c (step_of_next hnext)
  have hflow := h.fifo (fun _ => True) (fun s => List.range (s.clients c).nextRequestId) _ _
    (fun _ _ _ _ _ _ => trivial) hstep trivial
  rw [Machine.emitted_nothing, List.nil_append] at hflow
  rw [Machine.map_emitted, hflow]
  rfl

/-- The scheduler accepts the calls of a client in the order in which they are made. -/
theorem accepted_in_order (h : (machine cfg).RunIf ok (init cfg) es s) (c : ℕ) :
    (machine cfg).emitted (accepted c) (init cfg) es ++ s.upstream c =
      (machine cfg).emitted (submitted c) (init cfg) es := by
  have hflow := h.fifo (fun _ => True) (fun s => s.upstream c) (submitted c) (accepted c)
    (fun _ _ _ _ _ _ => trivial) (fun _ _ _ _ hnext _ => upstream_step (step_of_next hnext)) trivial
  exact hflow

/-- Every call is completed once or still on its way. -/
theorem calls_conserved (h : (machine cfg).RunIf ok (init cfg) es s) (c : ℕ) :
    ((machine cfg).emitted (completed c) (init cfg) es ++ (s.downstream c ++ s.upstream c)).Perm
      ((machine cfg).emitted (submitted c) (init cfg) es) := by
  have hflow := h.conserve (Invariant cfg) (fun s => s.downstream c) (accepted c) (completed c)
    (fun _ _ _ hs hnext _ => invariant_next hs hnext)
    (fun _ _ _ hs hnext _ => downstream_step hs (step_of_next hnext)) (invariant_init cfg)
  have hstart : (init cfg).downstream c = [] := by
    have hidle : (List.replicate cfg.serviceWorkers ServiceWorker.idle).filterMap
        (ServiceWorker.callOf c) = [] :=
      List.filterMap_eq_nil_iff.mpr fun pc hpc => by rw [List.eq_of_mem_replicate hpc]; rfl
    simp only [downstream, init, List.filterMap_nil, List.append_nil, hidle]
  rw [hstart, List.nil_append] at hflow
  rw [← List.append_assoc, ← accepted_in_order h]
  exact hflow.append_right _

/-- Where a worker completes a call, it has the call's own file. -/
theorem answered_eq {ev : Event} (c : ℕ) (h : Undisturbed cfg s)
    (hstep : s.step cfg ev = some s') :
    answered c s ev = (completed c s ev).map (Call.answer cfg) := by
  cases ev with
  | complete d j =>
    obtain ⟨n, e, hw, he, hphase, -⟩ := complete_cases hstep
    obtain ⟨⟨x, hx, hstage⟩, -⟩ := h n e he
    have hsrc : x.src = e.request.src := congrArg Job.src hx
    have hcompress : x.compress = cfg.compress := congrArg Job.compress hx
    have hdata : e.transfer.client.compressedData = cfg.compress e.request.src := by
      rw [(hstage.finished hphase).1, Session.output, hsrc, hcompress]
    by_cases hd : d = c
    · subst hd
      simp [answered, completed, Event.completes, hw, he, ClientWorker.processed, Call.answer,
        hdata]
    · simp [answered, completed, Event.completes, hd]
  | _ => rfl

/-- The answers of a run are those to its completed calls. -/
theorem emitted_answered
    (h : (machine cfg).RunIf (fun s ev => s.awaitsLastRead ev = true) (init cfg) es s) (c : ℕ) :
    (machine cfg).emitted (answered c) (init cfg) es =
      ((machine cfg).emitted (completed c) (init cfg) es).map (Call.answer cfg) := by
  rw [Machine.map_emitted]
  refine h.emitted_congr (fun s => Invariant cfg s ∧ Undisturbed cfg s) ?_ ?_
    ⟨invariant_init cfg, undisturbed_init cfg⟩
  · intro s ev s' hs hnext hok
    exact ⟨invariant_next hs.1 hnext, undisturbed_step hs.1 hs.2 hok (step_of_next hnext)⟩
  · intro s ev s' hs hnext _
    exact answered_eq c hs.2 (step_of_next hnext)

/-- The calls of a client that have reached the scheduler and those on their way
there have the ids from zero on. -/
def Numbered (s : System) : Prop :=
  ∀ c, ((s.requested c ++ s.upstream c).map Call.requestId).Perm
    (List.range (s.clients c).nextRequestId)

theorem numbered_init (cfg : Config) : Numbered (init cfg) := by
  intro c
  have hidle : (List.replicate cfg.serviceWorkers ServiceWorker.idle).filterMap
      (ServiceWorker.callOf c) = [] :=
    List.filterMap_eq_nil_iff.mpr fun pc hpc => by rw [List.eq_of_mem_replicate hpc]; rfl
  simp [requested, behind, upstream, init, hidle, Registration.callOf, Client.init, Dispatcher.call]

theorem Numbered.step {ev : Event} (h : Numbered s) (hstep : s.step cfg ev = some s') :
    Numbered s' := by
  intro c
  have hcalls : (s'.requested c ++ s'.upstream c).Perm
      (s.requested c ++ s.upstream c ++ submitted c s ev) := by
    have hrequested := (requested_step (c := c) hstep).append_right (s'.upstream c)
    rwa [List.append_assoc, upstream_step hstep, ← List.append_assoc] at hrequested
  have hids := hcalls.map Call.requestId
  have hsplit : (s.requested c ++ s.upstream c ++ submitted c s ev).map Call.requestId =
      (s.requested c ++ s.upstream c).map Call.requestId ++
        (submitted c s ev).map Call.requestId := List.map_append
  rw [hsplit] at hids
  rw [nextRequestId_step c hstep]
  exact hids.trans ((h c).append_right _)

theorem numbered_of_reachable (h : (machine cfg).Reachable s) : Numbered s :=
  h.invariant (numbered_init cfg) fun _ _ _ hs hnext => hs.step (step_of_next hnext)

/-- No request is given a segment twice. -/
theorem Numbered.exchange_unique (h : Numbered s) {n m : ℕ} {e e' : Exchange}
    (hn : s.exchanges[n]? = some e) (hm : s.exchanges[m]? = some e')
    (hclient : e.request.clientId = e'.request.clientId)
    (hid : e.request.requestId = e'.request.requestId) : n = m := by
  have hnodup := (h e.request.clientId).nodup_iff.mpr List.nodup_range
  have hexchanges : ((s.exchanges.filterMap
      fun x => x.request.callOf e.request.clientId).map Call.requestId).Nodup := by
    refine hnodup.sublist (List.Sublist.map _ ?_)
    rw [requested, behind]
    exact (List.sublist_append_right _ _).trans (List.sublist_append_left _ _)
  have hpairs := List.pairwise_filterMap.mp (List.pairwise_map.mp hexchanges)
  obtain ⟨hnlt, rfl⟩ := List.getElem?_eq_some_iff.mp hn
  obtain ⟨hmlt, rfl⟩ := List.getElem?_eq_some_iff.mp hm
  have hne := List.pairwise_iff_getElem.mp hpairs
  have hown : ∀ x : Exchange, x.request.clientId = (s.exchanges[n]).request.clientId →
      x.request.callOf (s.exchanges[n]).request.clientId = some x.request.toCall :=
    fun x hx => if_pos hx
  rcases Nat.lt_trichotomy n m with hlt | heq | hlt
  · exact absurd hid (hne n m hnlt hmlt hlt _ (hown _ rfl) _ (hown _ hclient.symm))
  · exact heq
  · exact absurd hid.symm (hne m n hmlt hnlt hlt _ (hown _ hclient.symm) _ (hown _ rfl))

end Runs

/-- Each call of a client has its own id among the values of an `int`, the scheduler
takes them in order, and each is completed once or still under way. -/
theorem exactly_once {cfg : Config} {s : System} {es : List Event}
    (h : (machine cfg).RunIf (fun _ _ => True) (init cfg) es s) (c : ℕ) :
    let calls := (machine cfg).emitted (submitted c) (init cfg) es
    calls.map Call.requestId = List.range (s.clients c).nextRequestId ∧
      (s.clients c).nextRequestId ≤ INT_MAX + 1 ∧
      (machine cfg).emitted (accepted c) (init cfg) es ++ s.upstream c = calls ∧
      ((machine cfg).emitted (completed c) (init cfg) es ++ (s.downstream c ++ s.upstream c)).Perm
        calls :=
  ⟨submitted_ids h c, (idsFit_of_reachable (Machine.reachable_of_run h.run_eq) c).1,
    accepted_in_order h c, calls_conserved h c⟩

/-- A client has sent its first call to the service; the second one waits. -/
theorem exactly_once_waiting : ∃ s,
    (machine (smallService (fun _ => 1))).run (init (smallService (fun _ => 1)))
      (.submit 1 [7] :: requestRun 1 ++ [.submit 1 []]) = some s ∧
    (s.downstream 1 ++ s.upstream 1).length = 2 := by
  obtain ⟨s, hrun⟩ : ∃ s, (machine (smallService (fun _ => 1))).run
      (init (smallService (fun _ => 1))) (.submit 1 [7] :: requestRun 1 ++ [.submit 1 []]) =
        some s :=
    ⟨_, rfl⟩
  obtain ⟨hids, -, -, hperm⟩ := exactly_once (.of_run hrun) 1
  have hcalls := congrArg List.length hids
  have hnext : (s.clients 1).nextRequestId = 2 := by
    cases hrun
    rfl
  have hlength := hperm.length_eq
  rw [List.length_map, List.length_range, hnext] at hcalls
  rw [hcalls] at hlength
  exact ⟨s, hrun, hlength⟩

/-- What a client's workers deliver, and what its calls under way should still
become, are the client's own files compressed, one for each call. -/
theorem end_to_end {cfg : Config} {s : System} {es : List Event}
    (h : (machine cfg).RunIf (fun s ev => s.awaitsLastRead ev = true) (init cfg) es s) (c : ℕ) :
    ((machine cfg).emitted (answered c) (init cfg) es ++
        (s.downstream c ++ s.upstream c).map (Call.answer cfg)).Perm
      (((machine cfg).emitted (submitted c) (init cfg) es).map (Call.answer cfg)) := by
  rw [emitted_answered h, ← List.map_append]
  exact (calls_conserved h c).map (Call.answer cfg)

theorem end_to_end_one_request : ∃ s,
    (machine (smallService (fun _ => 1))).RunIf (fun s ev => s.awaitsLastRead ev = true)
      (init (smallService (fun _ => 1))) (undisturbedRun ++ [.complete 0 0]) s ∧
    (machine (smallService (fun _ => 1))).emitted (answered 0) (init (smallService (fun _ => 1)))
      (undisturbedRun ++ [.complete 0 0]) = [(0, [3, 8, 1, 2, 3])] := by
  have hmap : ((machine (smallService (fun _ => 1))).runIf (fun s ev => s.awaitsLastRead ev = true)
      (init (smallService (fun _ => 1))) (undisturbedRun ++ [.complete 0 0])).map
      (fun s => s.downstream 0 ++ s.upstream 0) = some [] := by decide +kernel
  obtain ⟨s, hrun, hnone⟩ := Option.map_eq_some_iff.mp hmap
  have hs := Machine.RunIf.of_runIf hrun
  have hperm := end_to_end hs 0
  have hcalls : ((machine (smallService (fun _ => 1))).emitted (submitted 0)
      (init (smallService (fun _ => 1))) (undisturbedRun ++ [.complete 0 0])).map
      (Call.answer (smallService (fun _ => 1))) = [(0, [3, 8, 1, 2, 3])] := by decide +kernel
  rw [hnone, hcalls, List.map_nil, List.append_nil] at hperm
  exact ⟨s, hs, List.perm_singleton.mp hperm⟩

end TinyFile.System
