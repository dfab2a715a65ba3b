import TinyFile.FairRun
import TinyFile.QueueRoom
import TinyFile.RequestFlow
import TinyFile.Work

/-!
# Every call is answered

When no thread that could do work is kept from it for ever, the service answers
every call: as long as a call is under way, some thread can do work, or is one
turn of its loop away from it. This needs a pool and queues that the load cannot
exhaust, and a service that destroys no handler too early.
-/
namespace TinyFile.System

/-- The thread that takes the step; a call is made by a thread of the application. -/
def Event.thread : Event → Option Thread
  | .submit _ _ => none
  | .dispatch c => some (.dispatcher c)
  | .scheduleRequest c j | .process c j | .complete c j | .destroy c j => some (.clientWorker c j)
  | .poll _ | .enqueue => some .registration
  | .schedule w _ | .allocate w | .respond w | .serve w | .destroyHandler w =>
      some (.serviceWorker w)

/-- The threads that matter: a client without workers only polls its queue. -/
def Runs (cfg : Config) : Thread → Prop
  | .dispatcher c => 0 < cfg.numWorkers c
  | _ => True

def Client.HasMessage (h : Client) : Prop :=
  h.sending ≠ h.clientToServer.length ∨ h.serverToClient ++ h.dispatcher.received ≠ [] ∨
    h.requestQueue ≠ [] ∧ h.requestsInFlight < h.numWorkers

/-- The idle turns that a dispatcher with a message takes before it sends or
receives one. -/
def Client.idleTurns (h : Client) : ℕ :=
  match h.dispatcher with
  | .sendLoop => if h.requestQueue ≠ [] ∧ h.requestsInFlight < h.numWorkers then 0 else 1
  | .receiveLoop => if h.serverToClient ≠ [] then 0 else 1
  | .posting _ | .pushing _ => 0

/-- A thread other than a dispatcher can take a step. -/
def Ready (cfg : Config) (s : System) : Thread → Prop
  | .dispatcher _ => False
  | .clientWorker c j =>
      (s.clients c).workers[j]? = some .idle ∧ (s.clients c).requestResponseQueue ≠ [] ∨
      ∃ n e, s.exchanges[n]? = some e ∧
        ((s.clients c).workers[j]? = some (.destroying n) ∨
          (s.clients c).workers[j]? = some (.processing n) ∧ (e.transfer.client.phase = .finished ∨
            (Transfer.clientStep (e.job cfg) s.memory e.transfer).isSome = true))
  | .registration =>
      (s.registration = .polling ∧ ∃ c, (s.clients c).clientToServer ≠ []) ∨
      (s.registration ≠ .polling ∧ s.mutexHeld = false)
  | .serviceWorker w =>
      (s.workers[w]? = some .idle ∧ s.pending ≠ [] ∧ s.mutexHeld = false) ∨
      (∃ r requestSize gs m, s.workers[w]? = some (.allocating r requestSize) ∧
        s.manager.getShmSegment requestSize = .ok (some (gs, m))) ∨
      ∃ n e, s.exchanges[n]? = some e ∧
        (s.workers[w]? = some (.responding n) ∧ e.segment.length ≤ 1532 ∧
            (s.clients e.request.clientId).serverToClient.length < CLIENT_MAX_MSG ∨
          s.workers[w]? = some (.serving n) ∧ (e.transfer.service.phase = .finished ∨
            (Transfer.serviceStep (e.job cfg) s.memory e.transfer).isSome = true))

/-- The thread can do work after so many idle turns. -/
def Helps (cfg : Config) : Thread → ℕ → System → Prop
  | .dispatcher c, turns, s => (s.clients c).HasMessage ∧ turns = (s.clients c).idleTurns
  | t, _, s => s.Ready cfg t

/-- No call of a client that has workers is under way, and the service has its
whole pool. -/
structure Quiet (cfg : Config) (s : System) : Prop where
  calls : ∀ c, 0 < cfg.numWorkers c → s.downstream c ++ s.upstream c = []
  workers : ∀ pc ∈ s.workers, pc = .idle
  pool : s.manager.availableSize = cfg.manager.size

variable {cfg : Config} {k : ℕ} {s s' : System}

section Steps

theorem canMove_of_step {t : Thread} (ev : Event) (hsound : Sound cfg s)
    (hthread : ev.thread = some t) (h : (s.step cfg ev).isSome = true) :
    (machine cfg).CanMove Event.thread t s := by
  have halive : s.alive ev = true := by
    cases ev <;> simp [alive, hsound.fault, hsound.clientFault]
  refine ⟨ev, hthread, ?_⟩
  simp only [machine, next, halive, if_true]
  exact h

theorem Ready.canMove {t : Thread} (hsound : Sound cfg s) (h : s.Ready cfg t) :
    (machine cfg).CanMove Event.thread t s := by
  cases t with
  | dispatcher c => exact h.elim
  | clientWorker c j =>
    rcases h with ⟨hw, hq⟩ | ⟨n, e, he, hw | ⟨hw, hphase | hstep⟩⟩
    · refine canMove_of_step (.scheduleRequest c j) hsound rfl ?_
      obtain ⟨n, rest, hq⟩ := List.exists_cons_of_ne_nil hq
      simp [step, Client.scheduleRequest, hw, hq]
    · refine canMove_of_step (.destroy c j) hsound rfl ?_
      simp [step, destroy, hw, he]
    · refine canMove_of_step (.complete c j) hsound rfl ?_
      simp [step, complete, hw, he, hphase]
    · refine canMove_of_step (.process c j) hsound rfl ?_
      simpa [step, process, hw, he] using hstep
  | registration =>
    rcases h with ⟨hr, c, hq⟩ | ⟨hr, hmutex⟩
    · refine canMove_of_step (.poll c) hsound rfl ?_
      obtain ⟨call, rest, hq⟩ := List.exists_cons_of_ne_nil hq
      simp [step, poll, hr, hq]
    · refine canMove_of_step .enqueue hsound rfl ?_
      cases hr' : s.registration with
      | polling => exact absurd hr' hr
      | enqueueing request => simp [step, enqueue, hr', hmutex]
  | serviceWorker w =>
    rcases h with ⟨hw, hpending, hmutex⟩ | ⟨r, requestSize, gs, m, hw, hgrant⟩ |
      ⟨n, e, he, ⟨hw, hlength, hroom⟩ | ⟨hw, hphase | hstep⟩⟩
    · refine canMove_of_step (.schedule w 0) hsound rfl ?_
      obtain ⟨request, rest, hpending⟩ := List.exists_cons_of_ne_nil hpending
      simp [step, schedule, hw, hpending, hmutex]
    · refine canMove_of_step (.allocate w) hsound rfl ?_
      simp [step, allocate, hw, hgrant]
    · refine canMove_of_step (.respond w) hsound rfl ?_
      have hfits : RegistrationVisitor.checkSize
          (MQServerRequestMessage.getContentSize e.segment.getSegmentIds) = .ok () := by
        rwa [RegistrationVisitor.checkSize_iff, FragmentedShmSegment.getSegmentIds, List.length_map]
      simp [step, respond, hw, he, hfits, hroom]
    · refine canMove_of_step (.destroyHandler w) hsound rfl ?_
      simp [step, destroyHandler, hw, he, hphase]
    · refine canMove_of_step (.serve w) hsound rfl ?_
      simpa [step, serve, hw, he] using hstep

/-- A dispatcher is never blocked, because its queue has room. -/
theorem canMove_dispatcher {c : ℕ} (hcfg : cfg.Serviceable k) (hinv : Invariant cfg s)
    (hflight : InFlight cfg s) (hsound : Sound cfg s) :
    (machine cfg).CanMove Event.thread (.dispatcher c) s := by
  refine canMove_of_step (.dispatch c) hsound rfl ?_
  simp only [step, Option.isSome_map, Client.dispatch]
  split
  · rfl
  · next call hpc =>
    have hsending := hflight.sending_le c
    have hroom := hcfg.room c
    simp only [Client.sending, hpc, Dispatcher.posted] at hsending
    rw [Client.mqSend, if_pos (by omega)]
    rfl
  · rfl
  · next n hpc =>
    obtain ⟨-, e, he, -⟩ := hinv.responses c n (by
      simp [Client.responses, Client.untaken, hpc, Dispatcher.received])
    simp [he]

end Steps

section Steady

/-- Two states that differ in where a dispatcher is, and in nothing else. -/
theorem Ready.setClient {t : Thread} {c : ℕ} {pc : Dispatcher} (h : s.Ready cfg t) :
    (s.setClient c { s.clients c with dispatcher := pc }).Ready cfg t := by
  have hclient : ∀ d, ∃ pc', (s.setClient c { s.clients c with dispatcher := pc }).clients d =
      { s.clients d with dispatcher := pc' } := by
    intro d
    by_cases hd : d = c
    · subst hd
      exact ⟨pc, clients_setClient s d _⟩
    · exact ⟨(s.clients d).dispatcher, clients_setClient_of_ne s _ hd⟩
  cases t with
  | dispatcher d => exact h.elim
  | clientWorker d j =>
    obtain ⟨pc', hd⟩ := hclient d
    simp only [Ready, hd]
    exact h
  | registration =>
    rcases h with ⟨hr, d, hq⟩ | h
    · obtain ⟨pc', hd⟩ := hclient d
      exact .inl ⟨hr, d, by simpa only [hd] using hq⟩
    · exact .inr h
  | serviceWorker w =>
    rcases h with h | h | ⟨n, e, he, ⟨hw, hlength, hroom⟩ | h⟩
    · exact .inl h
    · exact .inr (.inl h)
    · obtain ⟨pc', hd⟩ := hclient e.request.clientId
      exact .inr (.inr ⟨n, e, he, .inl ⟨hw, hlength, by simpa only [hd] using hroom⟩⟩)
    · exact .inr (.inr ⟨n, e, he, .inr h⟩)

theorem Client.HasMessage.sendRequests {h : Client} (hmessage : h.HasMessage)
    (hpc : h.dispatcher = .sendLoop)
    (hq : h.requestQueue = [] ∨ h.numWorkers ≤ h.requestsInFlight) :
    Client.HasMessage { h with dispatcher := .receiveLoop } ∧
      Client.idleTurns { h with dispatcher := .receiveLoop } < h.idleTurns := by
  have hnone : ¬ (h.requestQueue ≠ [] ∧ h.requestsInFlight < h.numWorkers) := by
    rintro ⟨hne, hlt⟩
    rcases hq with hq | hq
    · exact hne hq
    · omega
  have hreceive : h.serverToClient ≠ [] := by
    rcases hmessage with hmessage | hmessage | hmessage
    · simp [Client.sending, hpc, Dispatcher.posted] at hmessage
    · simpa [hpc, Dispatcher.received] using hmessage
    · exact absurd hmessage hnone
  refine ⟨.inr (.inl (by simp [Dispatcher.received, hreceive])), ?_⟩
  simp only [Client.idleTurns, hpc, if_neg hnone, if_pos hreceive]
  decide

theorem Client.HasMessage.receiveResponses {h : Client} (hmessage : h.HasMessage)
    (hpc : h.dispatcher = .receiveLoop) (hq : h.serverToClient = []) :
    Client.HasMessage { h with dispatcher := .sendLoop } ∧
      Client.idleTurns { h with dispatcher := .sendLoop } < h.idleTurns := by
  have hsend : h.requestQueue ≠ [] ∧ h.requestsInFlight < h.numWorkers := by
    rcases hmessage with hmessage | hmessage | hmessage
    · simp [Client.sending, hpc, Dispatcher.posted] at hmessage
    · simp [hpc, hq, Dispatcher.received] at hmessage
    · exact hmessage
  refine ⟨.inr (.inr hsend), ?_⟩
  simp only [Client.idleTurns, hpc, hq, ne_eq, not_true_eq_false, if_false]
  rw [if_pos hsend]
  decide

/-- A dispatcher's idle turn brings it closer to its message, and does not keep
anyone else from helping. -/
theorem helps_setDispatcher {c : ℕ} {pc : Dispatcher} {t : Thread} {turns : ℕ}
    (h : Helps cfg t turns s)
    (hown : (s.clients c).HasMessage → Client.HasMessage { s.clients c with dispatcher := pc } ∧
      Client.idleTurns { s.clients c with dispatcher := pc } < (s.clients c).idleTurns) :
    (Event.thread (.dispatch c) ≠ some t ∧
        Helps cfg t turns (s.setClient c { s.clients c with dispatcher := pc })) ∨
      ∃ turns' < turns,
        Helps cfg t turns' (s.setClient c { s.clients c with dispatcher := pc }) := by
  cases t with
  | dispatcher d =>
    obtain ⟨hmessage, rfl⟩ := h
    by_cases hd : c = d
    · subst hd
      obtain ⟨hstill, hless⟩ := hown hmessage
      refine .inr ⟨_, hless, ?_⟩
      simp only [Helps, clients_setClient]
      exact ⟨hstill, trivial⟩
    · refine .inl ⟨by simpa [Event.thread] using hd, ?_⟩
      simp only [Helps, clients_setClient_of_ne s _ (Ne.symm hd)]
      exact ⟨hmessage, trivial⟩
  | clientWorker d j =>
    exact .inl ⟨by simp [Event.thread],
      Ready.setClient (show s.Ready cfg (.clientWorker d j) from h)⟩
  | registration =>
    exact .inl ⟨by simp [Event.thread], Ready.setClient (show s.Ready cfg .registration from h)⟩
  | serviceWorker w =>
    exact .inl ⟨by simp [Event.thread],
      Ready.setClient (show s.Ready cfg (.serviceWorker w) from h)⟩

theorem helps_idleStep {ev : Event} {t : Thread} {turns : ℕ} (h : Helps cfg t turns s)
    (hidle : IdleStep s ev s') :
    (ev.thread ≠ some t ∧ Helps cfg t turns s') ∨ ∃ turns' < turns, Helps cfg t turns' s' := by
  cases hidle with
  | sendRequests hpc hq =>
    exact helps_setDispatcher h fun hmessage => hmessage.sendRequests hpc hq
  | receiveResponses hpc hq =>
    exact helps_setDispatcher h fun hmessage => hmessage.receiveResponses hpc hq

end Steady

section Progress

/-- The client's part: a response that is with it is processed by a worker. -/
theorem processing_of_stuck {c n : ℕ} (hinv : Invariant cfg s) (hflight : InFlight cfg s)
    (hplaced : Placed cfg s) (hmessage : ¬ (s.clients c).HasMessage)
    (hready : ∀ j, ¬ s.Ready cfg (.clientWorker c j)) (hn : n ∈ (s.clients c).responses) :
    ∃ j : ℕ, (s.clients c).workers[j]? = some (.processing n) := by
  rcases List.mem_append.mp hn with hn' | hn'
  · exfalso
    have hunseen : (s.clients c).serverToClient ++ (s.clients c).dispatcher.received = [] := by
      by_contra hne
      exact hmessage (.inr (.inl hne))
    have hqueue : n ∈ (s.clients c).requestResponseQueue := by
      rw [Client.untaken, hunseen] at hn'
      exact hn'
    -- all workers process other responses, which are then too many
    have hall : ∀ pc ∈ (s.clients c).workers, (ClientWorker.processed pc).isSome = true := by
      intro pc hpc
      obtain ⟨j, hj⟩ := List.mem_iff_getElem?.mp hpc
      cases pc with
      | idle => exact absurd (.inl ⟨hj, List.ne_nil_of_mem hqueue⟩) (hready j)
      | destroying m =>
        have hlt := hplaced.destroying c m hpc
        exact absurd (.inr ⟨m, _, List.getElem?_eq_getElem hlt, .inl hj⟩) (hready j)
      | processing m => rfl
    have hprocessed : ((s.clients c).workers.filterMap ClientWorker.processed).length =
        cfg.numWorkers c := by
      rw [← hplaced.clientWorkers c]
      rw [List.length_filterMap_eq_countP]
      exact List.countP_eq_length.mpr hall
    have hopen : ∀ m ∈ (s.clients c).responses,
        ∃ e, s.exchanges[m]? = some e ∧ e.isOpen c = true := by
      intro m hm
      obtain ⟨-, e, he, hclient, hfresh⟩ := hinv.responses c m hm
      exact ⟨e, he, by simp [Exchange.isOpen, Request.isOf, hclient, hfresh]⟩
    have hcount := Slots.length_le_countP (hinv.responses_nodup c) hopen
    have hpos := List.length_pos_of_mem hqueue
    have hactive := hflight.active c
    have hbound := hflight.bound c
    rw [System.active] at hactive
    simp only [Client.responses, Client.untaken, List.length_append] at hcount
    omega
  · obtain ⟨pc, hpc, hprocessed⟩ := List.mem_filterMap.mp hn'
    obtain ⟨j, hj⟩ := List.mem_iff_getElem?.mp hpc
    cases pc with
    | idle => cases hprocessed
    | destroying m => cases hprocessed
    | processing m =>
      cases hprocessed
      exact ⟨j, hj⟩

/-- A handler of the service that is not about to respond is in `process`. -/
theorem serving_of_mem {n : ℕ} (hn : n ∈ s.handlers) (hnot : .responding n ∉ s.workers) :
    ∃ w : ℕ, s.workers[w]? = some (.serving n) := by
  obtain ⟨pc, hpc, hexchange⟩ := List.mem_filterMap.mp hn
  obtain ⟨w, hw⟩ := List.mem_iff_getElem?.mp hpc
  cases pc with
  | idle => cases hexchange
  | allocating r size => cases hexchange
  | responding m =>
    cases hexchange
    exact absurd hpc hnot
  | serving m =>
    cases hexchange
    exact ⟨w, hw⟩

section Stuck

variable (hcfg : cfg.Serviceable k) (hinv : Invariant cfg s) (hflight : InFlight cfg s)
  (hplaced : Placed cfg s) (hundisturbed : Undisturbed cfg s) (hsound : Sound cfg s)
  (hready : ∀ t, ¬ s.Ready cfg t)
  (hmessage : ∀ c, 0 < cfg.numWorkers c → ¬ (s.clients c).HasMessage)

include hcfg hinv hflight hsound hready in
theorem no_responding_of_stuck (n : ℕ) : .responding n ∉ s.workers := by
  intro hn
  obtain ⟨w, hw⟩ := List.mem_iff_getElem?.mp hn
  have hlt := hinv.handlers_lt n (List.mem_filterMap.mpr ⟨_, hn, rfl⟩)
  have he := List.getElem?_eq_getElem hlt
  have hroom := lt_of_lt_of_le (hflight.responses_lt hinv hw he) (hcfg.room _)
  exact hready (.serviceWorker w)
    (.inr (.inr ⟨n, _, he, .inl ⟨hw, hsound.responding n _ hn he, hroom⟩⟩))

include hready in
theorem serviceStep_of_stuck {w n : ℕ} {e : Exchange} (hw : s.workers[w]? = some (.serving n))
    (he : s.exchanges[n]? = some e) : e.transfer.service.phase ≠ .finished ∧
      Transfer.serviceStep (e.job cfg) s.memory e.transfer = none := by
  constructor
  · intro hphase
    exact hready (.serviceWorker w) (.inr (.inr ⟨n, e, he, .inr ⟨hw, .inl hphase⟩⟩))
  · by_contra hstep
    exact hready (.serviceWorker w) (.inr (.inr ⟨n, e, he, .inr ⟨hw, .inr
      (Option.isSome_iff_ne_none.mpr hstep)⟩⟩))

include hready in
theorem clientStep_of_stuck {c j n : ℕ} {e : Exchange}
    (hw : (s.clients c).workers[j]? = some (.processing n)) (he : s.exchanges[n]? = some e) :
    e.transfer.client.phase ≠ .finished ∧
      Transfer.clientStep (e.job cfg) s.memory e.transfer = none := by
  constructor
  · intro hphase
    exact hready (.clientWorker c j) (.inr ⟨n, e, he, .inr ⟨hw, .inl hphase⟩⟩)
  · by_contra hstep
    exact hready (.clientWorker c j) (.inr ⟨n, e, he, .inr ⟨hw, .inr
      (Option.isSome_iff_ne_none.mpr hstep)⟩⟩)

/-- One of the two handlers of an undisturbed transfer can move. -/
theorem Exchange.Live.progress {e : Exchange} {m : Memory} (h : e.Live cfg m)
    (hnot : ¬ (e.transfer.service.phase = .finished ∧ e.transfer.client.phase = .finished)) :
    Transfer.serviceStep (e.job cfg) m e.transfer ≠ none ∨
      Transfer.clientStep (e.job cfg) m e.transfer ≠ none := by
  obtain ⟨x, hx, hstage⟩ := h
  obtain ⟨side, hside⟩ := hstage.progress hnot
  rw [hx] at hside
  cases side with
  | service => exact .inl (Option.isSome_iff_ne_none.mp hside)
  | client => exact .inr (Option.isSome_iff_ne_none.mp hside)

include hcfg hinv hflight hplaced hundisturbed hsound hready hmessage in
/-- No exchange is open. -/
theorem completed_of_stuck {n : ℕ} {e : Exchange} (he : s.exchanges[n]? = some e) :
    e.completed = true := by
  have hnoresponding := no_responding_of_stuck hcfg hinv hflight hsound hready
  by_contra hopen
  rcases hplaced.located n e he (by simpa using hopen) with hn | hn
  · exact hnoresponding n hn
  · set c := e.request.clientId
    have hworkers : 0 < cfg.numWorkers c := by
      have hactive := active_of_response hinv hn
      have hbound := hflight.bound c
      rw [hflight.active c] at hactive
      omega
    obtain ⟨j, hj⟩ := processing_of_stuck hinv hflight hplaced (hmessage c hworkers)
      (fun j => hready _) hn
    obtain ⟨hphase, hclient⟩ := clientStep_of_stuck hready hj he
    rcases (hundisturbed n e he).1.progress (fun h => hphase h.2) with hstep | hstep
    · by_cases hmem : n ∈ s.handlers
      · obtain ⟨w, hw⟩ := serving_of_mem hmem (hnoresponding n)
        exact hstep (serviceStep_of_stuck hready hw he).2
      · have hfinished := (hinv.tail n e he hmem).service
        exact hstep (by simp only [Transfer.serviceStep, hfinished])
    · exact hstep hclient

include hcfg hinv hflight hplaced hundisturbed hsound hready hmessage in
theorem handlers_of_stuck : s.handlers = [] := by
  refine List.eq_nil_iff_forall_not_mem.mpr fun n hn => ?_
  have hnoresponding := no_responding_of_stuck hcfg hinv hflight hsound hready n
  obtain ⟨w, hw⟩ := serving_of_mem hn hnoresponding
  have he := List.getElem?_eq_getElem (hinv.handlers_lt n hn)
  obtain ⟨hphase, hservice⟩ := serviceStep_of_stuck hready hw he
  have hfinished := hplaced.completed n _ he (completed_of_stuck hcfg hinv hflight hplaced
    hundisturbed hsound hready hmessage he)
  rcases (hundisturbed n _ he).1.progress (fun h => hphase h.1) with hstep | hstep
  · exact hstep hservice
  · exact hstep (by simp only [Transfer.clientStep, hfinished])

include hcfg hinv hflight hplaced hundisturbed hsound hready hmessage in
theorem idle_of_stuck : ∀ pc ∈ s.workers, pc = .idle := by
  have hhandlers := handlers_of_stuck hcfg hinv hflight hplaced hundisturbed hsound hready hmessage
  intro pc hpc
  obtain ⟨w, hw⟩ := List.mem_iff_getElem?.mp hpc
  have hnone : pc.exchange = none := List.filterMap_eq_nil_iff.mp hhandlers pc hpc
  cases pc with
  | idle => rfl
  | allocating r size =>
    exfalso
    have hpool : s.manager.PoolInvariant [] := by
      have hheld := hinv.pool
      rwa [held, hhandlers] at hheld
    have hgrantable : s.manager.Grantable size := by
      obtain ⟨hpos, hmultiple, hle⟩ := (hsound.allocating r size hpc).1
      rw [hinv.same]
      exact ⟨hpos, hmultiple, hle⟩
    obtain ⟨gs, m, hgrant⟩ := hgrantable.granted hpool
    exact hready (.serviceWorker w) (.inr (.inl ⟨r, size, gs, m, hw, hgrant⟩))
  | responding n => cases hnone
  | serving n => cases hnone

include hcfg hinv hflight hplaced hundisturbed hsound hready hmessage in
theorem quiet_of_stuck : Quiet cfg s := by
  have hidle := idle_of_stuck hcfg hinv hflight hplaced hundisturbed hsound hready hmessage
  have hmutex : s.mutexHeld = false := by
    rw [mutexHeld, List.any_eq_false]
    intro pc hpc
    rw [hidle pc hpc]
    decide
  have hregistration : s.registration = .polling := by
    by_contra hr
    exact hready .registration (.inr ⟨hr, hmutex⟩)
  have hsent : ∀ c, (s.clients c).clientToServer = [] := by
    intro c
    by_contra hq
    exact hready .registration (.inl ⟨hregistration, c, hq⟩)
  have hpending : s.pending = [] := by
    by_contra hne
    have hworkers : 0 < s.workers.length := by
      have htwo := hcfg.workers
      rw [hplaced.workers]
      omega
    have hw := List.getElem?_eq_getElem hworkers
    rw [hidle _ (List.getElem_mem hworkers)] at hw
    exact hready (.serviceWorker 0) (.inl ⟨hw, hne, hmutex⟩)
  have hclosed : ∀ c, s.exchanges.filterMap (Exchange.callOf c) = [] := by
    intro c
    refine List.filterMap_eq_nil_iff.mpr fun e he => ?_
    obtain ⟨n, hn⟩ := List.mem_iff_getElem?.mp he
    rw [Exchange.callOf, if_pos (completed_of_stuck hcfg hinv hflight hplaced hundisturbed hsound
      hready hmessage hn)]
  have hallocating : ∀ c, s.workers.filterMap (ServiceWorker.callOf c) = [] := by
    intro c
    refine List.filterMap_eq_nil_iff.mpr fun pc hpc => ?_
    rw [hidle pc hpc]
    rfl
  refine ⟨fun c hworkers => ?_, hidle, ?_⟩
  · have hposted : (s.clients c).sending = (s.clients c).clientToServer.length := by
      by_contra hne
      exact hmessage c hworkers (.inl hne)
    have hcall : (s.clients c).dispatcher.call = none := by
      rw [Client.sending] at hposted
      cases hpc : (s.clients c).dispatcher with
      | posting call =>
        rw [hpc, Dispatcher.posted] at hposted
        omega
      | _ => rfl
    have hnone : (s.clients c).requestsInFlight = 0 := by
      rw [← hflight.active c, active, hposted, hsent, hregistration, hpending]
      have hworkers : s.workers.countP (ServiceWorker.allocatesFor c) = 0 := by
        refine List.countP_eq_zero.mpr fun pc hpc => ?_
        rw [hidle pc hpc]
        simp [ServiceWorker.allocatesFor]
      have hexchanges : s.exchanges.countP (Exchange.isOpen c) = 0 := by
        refine List.countP_eq_zero.mpr fun e he => ?_
        obtain ⟨n, hn⟩ := List.mem_iff_getElem?.mp he
        simp [Exchange.isOpen, completed_of_stuck hcfg hinv hflight hplaced hundisturbed hsound
          hready hmessage hn]
      rw [hworkers, hexchanges]
      rfl
    have hqueue : (s.clients c).requestQueue = [] := by
      by_contra hne
      refine hmessage c hworkers (.inr (.inr ⟨hne, ?_⟩))
      rw [hnone, hflight.numWorkers]
      exact hworkers
    simp [downstream, upstream, hpending, hallocating, hclosed, hregistration, Registration.callOf,
      hsent, hcall, hqueue]
  · have hall := hinv.pool.availableSize_add
    rw [held, handlers_of_stuck hcfg hinv hflight hplaced hundisturbed hsound hready hmessage,
      hinv.same.size] at hall
    simpa using hall

end Stuck

end Progress

/-- A step of a thread, and not of the application, that does no harm. -/
def Serving (s : System) (ev : Event) : Prop := s.harmless ev = true ∧ ev.thread ≠ none

instance (s : System) (ev : Event) : Decidable (s.Serving ev) := inferInstanceAs (Decidable (_ ∧ _))

/-- As long as a call is under way, some thread helps. -/
theorem helpful (hcfg : cfg.Serviceable k) :
    Machine.Helpful (machine cfg) Serving Event.thread (Runs cfg)
      (fun s => (machine cfg).ReachableIf (fun s ev => s.harmless ev = true) s) (work cfg k)
      (Helps cfg) (Quiet cfg) where
  invariant := fun s ev s' hs hnext hok => hs.step hnext hok.1
  helper := by
    intro s hs hnot
    by_contra hnone
    have hinv := invariant_of_reachable hs.reachable
    refine hnot (quiet_of_stuck hcfg hinv (inFlight_of_reachable hs.reachable)
      (placed_of_reachable hs.reachable) (invariants_of_reachable hs).1
      (sound_of_reachable hcfg hs) (fun t ht => ?_) fun c hc hmessage => ?_)
    · cases t with
      | dispatcher c => exact ht
      | clientWorker c j => exact hnone ⟨.clientWorker c j, 0, trivial, ht⟩
      | registration => exact hnone ⟨.registration, 0, trivial, ht⟩
      | serviceWorker w => exact hnone ⟨.serviceWorker w, 0, trivial, ht⟩
    · exact hnone ⟨.dispatcher c, _, hc, hmessage, rfl⟩
  canMove := by
    intro s t turns hs hhelps
    have hsound := sound_of_reachable hcfg hs
    cases t with
    | dispatcher c =>
      exact canMove_dispatcher hcfg (invariant_of_reachable hs.reachable)
        (inFlight_of_reachable hs.reachable) hsound
    | clientWorker c j => exact Ready.canMove hsound hhelps
    | registration => exact Ready.canMove hsound hhelps
    | serviceWorker w => exact Ready.canMove hsound hhelps
  step := by
    intro s ev s' t turns hs hhelps hnext hok
    have hsubmit : ∀ c src, ev ≠ .submit c src := by
      rintro c src rfl
      exact hok.2 rfl
    rcases work_step hcfg (invariant_of_reachable hs.reachable) (inFlight_of_reachable hs.reachable)
      (placed_of_reachable hs.reachable) (invariants_of_reachable hs).1 hsubmit (step_of_next hnext)
      (sound_of_reachable hcfg (hs.step hnext hok.1)) with hless | hidle
    · exact .inl hless
    · exact .inr ⟨hidle.work_eq, helps_idleStep hhelps hidle⟩

theorem emitted_submitted {es : List Event} {ok : System → Event → Prop} (c : ℕ)
    (h : (machine cfg).RunIf ok s es s') (hok : ∀ s ev, ok s ev → ev.thread ≠ none) :
    (machine cfg).emitted (submitted c) s es = [] := by
  have hnone : (machine cfg).emitted (submitted c) s es =
      (machine cfg).emitted (fun _ _ => []) s es := by
    refine h.emitted_congr (fun _ => True) (fun _ _ _ _ _ _ => trivial) ?_ trivial
    intro s ev s' _ _ hthread
    cases ev with
    | submit d src => exact absurd rfl (hok _ _ hthread)
    | _ => rfl
  rw [hnone, Machine.emitted_nothing]

/-- The service and its only client after the client's last call. -/
structure Resting (s : System) : Prop where
  reachable : (machine (lonelyService 1)).ReachableIf (fun s ev => s.harmless ev = true) s
  dispatcher : (s.clients 0).dispatcher = .sendLoop ∨ (s.clients 0).dispatcher = .receiveLoop
  requestQueue : (s.clients 0).requestQueue = []
  serverToClient : (s.clients 0).serverToClient = []
  requestResponseQueue : (s.clients 0).requestResponseQueue = []
  clientToServer : (s.clients 0).clientToServer = []
  clientWorkers : (s.clients 0).workers = [.idle]
  workers : s.workers = List.replicate NUM_WORKERS .idle
  registration : s.registration = .polling
  pending : s.pending = []

theorem Resting.dispatch (h : Resting s) : s.Serving (.dispatch 0) ∧
    ∃ s', (machine (lonelyService 1)).next s (.dispatch 0) = some s' ∧ Resting s' := by
  have hserving : s.Serving (.dispatch 0) := ⟨by
    simp [harmless, awaitsLastRead, grantsReleased, numbersCall],
    by simp [Event.thread]⟩
  have hfault := (no_fault (serviceable_lonely (by decide)) h.reachable).2 0
  have hidle : ∀ pc, (pc = .sendLoop ∨ pc = .receiveLoop) →
      (machine (lonelyService 1)).next s (.dispatch 0) =
        some (s.setClient 0 { s.clients 0 with dispatcher := pc }) →
      ∃ s', (machine (lonelyService 1)).next s (.dispatch 0) = some s' ∧ Resting s' := by
    intro pc hpc hnext
    refine ⟨_, hnext, h.reachable.step hnext hserving.1, ?_, ?_, ?_, ?_, ?_, ?_, h.workers,
      h.registration, h.pending⟩ <;> rw [clients_setClient]
    · exact hpc
    · exact h.requestQueue
    · exact h.serverToClient
    · exact h.requestResponseQueue
    · exact h.clientToServer
    · exact h.clientWorkers
  refine ⟨hserving, ?_⟩
  rcases h.dispatcher with hpc | hpc
  · refine hidle .receiveLoop (.inr rfl) ?_
    simp [machine, next, alive, hfault, step, Client.dispatch, hpc, Client.sendRequests,
      h.requestQueue]
  · refine hidle .sendLoop (.inl rfl) ?_
    simp [machine, next, alive, hfault, step, Client.dispatch, hpc, Client.receiveResponses,
      h.serverToClient]

theorem Resting.stuck (h : Resting s) {t : Thread} (ht : Runs (lonelyService 1) t)
    (hother : Event.thread (.dispatch 0) ≠ some t) :
    ¬ (machine (lonelyService 1)).CanMove Event.thread t s := by
  have hworker : ∀ {c j : ℕ} {pc : ClientWorker}, (s.clients c).workers[j]? = some pc →
      c = 0 ∧ pc = .idle := by
    intro c j pc hw
    have hc := lt_of_worker (serviceable_lonely (by decide))
      (placed_of_reachable h.reachable.reachable) hw
    obtain rfl : c = 0 := by omega
    rw [h.clientWorkers] at hw
    exact ⟨rfl, List.mem_singleton.mp (List.mem_of_getElem? hw)⟩
  have hidle : ∀ {w : ℕ} {pc : ServiceWorker}, s.workers[w]? = some pc → pc = .idle := by
    intro w pc hw
    rw [h.workers] at hw
    exact List.eq_of_mem_replicate (List.mem_of_getElem? hw)
  rintro ⟨ev, hthread, hsome⟩
  obtain ⟨s', hnext⟩ := Option.isSome_iff_exists.mp hsome
  have hstep := step_of_next hnext
  cases ev with
  | submit c src => cases hthread
  | dispatch c =>
    cases hthread
    have hc : c = 0 := by
      by_contra hne
      have hworkers : 0 < (if c = 0 then 1 else 0) := ht
      rw [if_neg hne] at hworkers
      exact lt_irrefl 0 hworkers
    exact hother (by rw [hc]; rfl)
  | scheduleRequest c j =>
    obtain ⟨n, rest, hw, hq, -⟩ := scheduleRequest_cases hstep
    obtain ⟨rfl, -⟩ := hworker hw
    rw [h.requestResponseQueue] at hq
    cases hq
  | process c j =>
    obtain ⟨_, _, _, _, hw, -⟩ := process_cases hstep
    cases (hworker hw).2
  | complete c j =>
    obtain ⟨_, _, hw, -⟩ := complete_cases hstep
    cases (hworker hw).2
  | destroy c j =>
    obtain ⟨_, _, hw, -⟩ := destroy_cases hstep
    cases (hworker hw).2
  | poll c =>
    obtain ⟨call, rest, -, hq, -⟩ := poll_cases hstep
    have hc := lt_of_active (serviceable_lonely (by decide))
      (inFlight_of_reachable h.reachable.reachable) (show 0 < s.active c by
        simp only [active, Client.sending, hq, List.length_cons]
        omega)
    obtain rfl : c = 0 := by omega
    rw [h.clientToServer] at hq
    cases hq
  | enqueue =>
    obtain ⟨request, hr, -⟩ := enqueue_cases hstep
    rw [h.registration] at hr
    cases hr
  | schedule w i =>
    obtain ⟨request, -, hi, -⟩ := schedule_cases hstep
    rw [h.pending] at hi
    cases hi
  | allocate w =>
    obtain ⟨_, _, hw, -⟩ := allocate_cases hstep
    cases hidle hw
  | respond w =>
    obtain ⟨_, _, hw, -⟩ := respond_cases hstep
    cases hidle hw
  | serve w =>
    obtain ⟨_, _, _, _, hw, -⟩ := serve_cases hstep
    cases hidle hw
  | destroyHandler w =>
    obtain ⟨_, _, hw, -⟩ := destroyHandler_cases hstep
    cases hidle hw

end TinyFile.System
