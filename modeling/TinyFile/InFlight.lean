import TinyFile.SystemInvariant

/-!
# The requests in flight

`requestsInFlight` of a client counts the requests that its dispatcher has taken
and its workers have not completed. Each of them is in one place: on its way to
the service, with the scheduler, or an exchange. So these places together hold
at most as many requests of a client as it has workers.
-/
namespace TinyFile.System

def Request.isOf (c : ℕ) (r : Request) : Bool := decide (r.clientId = c)

/-- The request that the dispatcher is about to send. -/
def Dispatcher.posted : Dispatcher → ℕ
  | .posting _ => 1
  | _ => 0

def Registration.enqueues (c : ℕ) : Registration → ℕ
  | .enqueueing r => if r.isOf c then 1 else 0
  | .polling => 0

def ServiceWorker.allocatesFor (c : ℕ) : ServiceWorker → Bool
  | .allocating r _ => r.isOf c
  | _ => false

def Exchange.isOpen (c : ℕ) (e : Exchange) : Bool := e.request.isOf c && !e.completed

/-- The requests between the dispatcher and the registration thread. -/
def Client.sending (h : Client) : ℕ := h.dispatcher.posted + h.clientToServer.length

/-- The requests of a client that are somewhere. -/
def active (s : System) (c : ℕ) : ℕ :=
  (s.clients c).sending + s.registration.enqueues c + s.pending.countP (Request.isOf c) +
    s.workers.countP (ServiceWorker.allocatesFor c) + s.exchanges.countP (Exchange.isOpen c)

structure InFlight (cfg : Config) (s : System) : Prop where
  active : ∀ c, s.active c = (s.clients c).requestsInFlight
  numWorkers : ∀ c, (s.clients c).numWorkers = cfg.numWorkers c
  bound : ∀ c, (s.clients c).requestsInFlight ≤ cfg.numWorkers c

variable {cfg : Config} {s s' : System}

theorem inFlight_init (cfg : Config) : InFlight cfg (init cfg) where
  active := by
    intro c
    have hidle : (List.replicate cfg.serviceWorkers ServiceWorker.idle).countP
        (ServiceWorker.allocatesFor c) = 0 := by
      rw [List.countP_eq_zero]
      intro pc hpc
      rw [List.eq_of_mem_replicate hpc]
      simp [ServiceWorker.allocatesFor]
    simp [System.active, init, Client.init, Client.sending, Dispatcher.posted,
      Registration.enqueues, hidle]
  numWorkers := fun _ => rfl
  bound := fun _ => Nat.zero_le _

section Frame

/-- A step that only moves requests of a client or changes none. -/
theorem InFlight.congr (h : InFlight cfg s)
    (hclient : ∀ c, (s'.clients c).numWorkers = (s.clients c).numWorkers ∧
      (s'.clients c).requestsInFlight = (s.clients c).requestsInFlight)
    (hactive : ∀ c, s'.active c = s.active c) : InFlight cfg s' where
  active := fun c => by rw [hactive, (hclient c).2, h.active]
  numWorkers := fun c => by rw [(hclient c).1, h.numWorkers]
  bound := fun c => by rw [(hclient c).2]; exact h.bound c

/-- A step of one client. -/
theorem InFlight.setClient {c : ℕ} {h' : Client} (h : InFlight cfg s)
    (hsending : h'.sending + (s.clients c).requestsInFlight =
      (s.clients c).sending + h'.requestsInFlight)
    (hnum : h'.numWorkers = (s.clients c).numWorkers)
    (hbound : h'.requestsInFlight ≤ cfg.numWorkers c) : InFlight cfg (s.setClient c h') where
  active := by
    intro d
    have hold := h.active d
    by_cases hd : d = c
    · subst hd
      simp only [System.active, clients_setClient] at hold ⊢
      simp only [System.setClient]
      omega
    · simp only [System.active, clients_setClient_of_ne s h' hd] at hold ⊢
      exact hold
  numWorkers := by
    intro d
    by_cases hd : d = c
    · subst hd
      rw [clients_setClient, hnum, h.numWorkers]
    · rw [clients_setClient_of_ne s h' hd, h.numWorkers]
  bound := by
    intro d
    by_cases hd : d = c
    · subst hd
      rw [clients_setClient]
      exact hbound
    · rw [clients_setClient_of_ne s h' hd]
      exact h.bound d

/-- A step of one client that counts nothing. -/
theorem InFlight.setClient_same {c : ℕ} {h' : Client} (h : InFlight cfg s)
    (hsending : h'.sending = (s.clients c).sending)
    (hflight : h'.requestsInFlight = (s.clients c).requestsInFlight)
    (hnum : h'.numWorkers = (s.clients c).numWorkers) : InFlight cfg (s.setClient c h') :=
  h.setClient (by rw [hsending, hflight]) hnum (hflight ▸ h.bound c)

theorem countP_setWorker {w : ℕ} {pc pc' : ServiceWorker} (hw : s.workers[w]? = some pc) (c : ℕ) :
    (s.setWorker w pc').workers.countP (ServiceWorker.allocatesFor c) +
        (if pc.allocatesFor c then 1 else 0) =
      s.workers.countP (ServiceWorker.allocatesFor c) +
        (if pc'.allocatesFor c then 1 else 0) :=
  Slots.countP_set _ hw pc'

/-- A worker that neither takes a request nor makes an exchange of one. -/
theorem InFlight.setWorker {w : ℕ} {pc pc' : ServiceWorker} (h : InFlight cfg s)
    (hw : s.workers[w]? = some pc) (hpc : ∀ c, pc.allocatesFor c = false)
    (hpc' : ∀ c, pc'.allocatesFor c = false) : InFlight cfg (s.setWorker w pc') := by
  refine h.congr (fun _ => ⟨rfl, rfl⟩) fun c => ?_
  have hcount : (s.setWorker w pc').workers.countP (ServiceWorker.allocatesFor c) + _ = _ :=
    countP_setWorker hw c
  simp only [hpc, hpc', Bool.false_eq_true, if_false, Nat.add_zero] at hcount
  simp only [System.active, hcount]
  rfl

/-- A handler moves an exchange on. -/
theorem InFlight.setExchange {n : ℕ} {e e' : Exchange} (h : InFlight cfg s)
    (he : s.exchanges[n]? = some e) (hsame : ∀ c, e'.isOpen c = e.isOpen c) :
    InFlight cfg (s.setExchange n e') := by
  refine h.congr (fun _ => ⟨rfl, rfl⟩) fun c => ?_
  have hcount : (s.setExchange n e').exchanges.countP (Exchange.isOpen c) = _ :=
    Nat.add_right_cancel ((hsame c) ▸ Slots.countP_set (Exchange.isOpen c) he e')
  simp only [System.active, hcount]
  rfl

end Frame

section Steps

theorem inFlight_dispatch {c : ℕ} (h : InFlight cfg s)
    (hstep : s.step cfg (.dispatch c) = some s') : InFlight cfg s' := by
  obtain ⟨h', hdispatch, rfl⟩ := dispatch_cases hstep
  simp only [Client.dispatch] at hdispatch
  split at hdispatch
  · next hpc =>
    cases hdispatch
    simp only [Client.sendRequests]
    split
    · exact h.setClient_same (by simp [Client.sending, hpc, Dispatcher.posted]) rfl rfl
    · next call rest hq =>
      split_ifs with hroom
      · refine h.setClient ?_ rfl ?_
        · simp only [Client.sending, hpc, Dispatcher.posted]
          omega
        · rw [h.numWorkers c] at hroom
          exact hroom
      · exact h.setClient_same (by simp [Client.sending, hpc, Dispatcher.posted]) rfl rfl
  · next call hpc =>
    simp only [Client.mqSend] at hdispatch
    split_ifs at hdispatch
    cases hdispatch
    refine h.setClient_same ?_ rfl rfl
    simp only [Client.sending, hpc, Dispatcher.posted, List.length_append, List.length_singleton]
    omega
  · next hpc =>
    cases hdispatch
    simp only [Client.receiveResponses]
    split
    · exact h.setClient_same (by simp [Client.sending, hpc, Dispatcher.posted]) rfl rfl
    · exact h.setClient_same (by simp [Client.sending, hpc, Dispatcher.posted]) rfl rfl
  · next n hpc =>
    obtain ⟨e, -, rfl⟩ := Option.map_eq_some_iff.mp hdispatch
    simp only [Client.pushResponse]
    split
    · exact h.setClient_same (by simp [Client.sending, hpc, Dispatcher.posted]) rfl rfl
    · exact h.setClient_same rfl rfl rfl

theorem inFlight_poll {c : ℕ} (h : InFlight cfg s)
    (hstep : s.step cfg (.poll c) = some s') : InFlight cfg s' := by
  obtain ⟨call, rest, hr, hq, rfl⟩ := poll_cases hstep
  refine h.congr (fun d => ?_) (fun d => ?_)
  · by_cases hd : d = c
    · subst hd
      simp
    · simp [clients_setClient_of_ne s _ hd]
  · by_cases hd : d = c
    · subst hd
      simp only [System.active, clients_setClient]
      simp only [System.setClient, hr, hq, Client.sending, Registration.enqueues, Request.isOf,
        List.length_cons, decide_true, if_true]
      omega
    · simp only [System.active, clients_setClient_of_ne s _ hd]
      simp [System.setClient, hr, Registration.enqueues, Request.isOf, Ne.symm hd]

theorem inFlight_enqueue (h : InFlight cfg s)
    (hstep : s.step cfg .enqueue = some s') : InFlight cfg s' := by
  obtain ⟨request, hr, -, rfl⟩ := enqueue_cases hstep
  refine h.congr (fun _ => ⟨rfl, rfl⟩) fun c => ?_
  simp only [System.active, hr, Registration.enqueues, List.countP_append, List.countP_singleton]
  omega

theorem inFlight_schedule {w i : ℕ} (h : InFlight cfg s)
    (hstep : s.step cfg (.schedule w i) = some s') : InFlight cfg s' := by
  obtain ⟨request, hw, hi, -, rfl⟩ := schedule_cases hstep
  refine h.congr (fun _ => ⟨rfl, rfl⟩) fun c => ?_
  obtain ⟨hlt, hget⟩ := List.getElem?_eq_some_iff.mp hi
  have hpending := (List.getElem_cons_eraseIdx_perm hlt).countP_eq (Request.isOf c)
  rw [hget, List.countP_cons] at hpending
  have hcount : ∀ requestSize, (s.setWorker w (.allocating request requestSize)).workers.countP
      (ServiceWorker.allocatesFor c) = s.workers.countP (ServiceWorker.allocatesFor c) +
        (if request.isOf c then 1 else 0) := fun _ => countP_setWorker hw c
  simp only [System.active, hcount]
  simp only [System.setWorker]
  omega

theorem inFlight_allocate {w : ℕ} (h : InFlight cfg s)
    (hstep : s.step cfg (.allocate w) = some s') : InFlight cfg s' := by
  obtain ⟨request, requestSize, hw, hcases⟩ := allocate_cases hstep
  rcases hcases with ⟨fault, -, rfl⟩ | ⟨gs, m, -, rfl⟩
  · exact { h with }
  · refine h.congr (fun _ => ⟨rfl, rfl⟩) fun c => ?_
    have hcount : (s.setWorker w (.responding s.exchanges.length)).workers.countP
        (ServiceWorker.allocatesFor c) + (if request.isOf c then 1 else 0) =
          s.workers.countP (ServiceWorker.allocatesFor c) := countP_setWorker hw c
    simp only [System.active, granted, List.countP_append, List.countP_singleton, Exchange.isOpen,
      Bool.not_false, Bool.and_true]
    simp only [System.setWorker] at hcount ⊢
    omega

theorem inFlight_respond {w : ℕ} (h : InFlight cfg s)
    (hstep : s.step cfg (.respond w) = some s') : InFlight cfg s' := by
  obtain ⟨n, e, hw, -, hcases⟩ := respond_cases hstep
  rcases hcases with ⟨fault, rfl⟩ | ⟨-, -, rfl⟩
  · exact { h with }
  · have h' : InFlight cfg (s.setWorker w (.serving n)) :=
      h.setWorker hw (fun _ => rfl) (fun _ => rfl)
    exact h'.setClient_same rfl rfl rfl

/-- The last step of a request. -/
theorem inFlight_complete {c j : ℕ} (hinv : Invariant cfg s) (h : InFlight cfg s)
    (hstep : s.step cfg (.complete c j) = some s') : InFlight cfg s' := by
  obtain ⟨n, e, hw, he, -, rfl⟩ := complete_cases hstep
  obtain ⟨-, e', he', hc, hopen⟩ := hinv.responses c n (mem_responses_of_processing hw)
  rw [he] at he'
  cases he'
  have hcount : ∀ d, (s.exchanges.set n { e with completed := true }).countP (Exchange.isOpen d) +
      (if d = c then 1 else 0) = s.exchanges.countP (Exchange.isOpen d) := by
    intro d
    have hset := Slots.countP_set (Exchange.isOpen d) he { e with completed := true }
    simp only [Exchange.isOpen, Request.isOf, hopen, hc, Bool.not_true, Bool.and_false,
      Bool.not_false, Bool.and_true, decide_eq_true_eq, Bool.false_eq_true, if_false] at hset
    simp only [eq_comm (a := d)]
    exact hset
  have hpos : 0 < (s.clients c).requestsInFlight := by
    have hactive := h.active c
    have hopened := hcount c
    simp only [System.active] at hactive
    simp only [if_true] at hopened
    omega
  have hclient : ∀ d, ((s.setClient c ((s.clients c).completeRequest j n)).clients d).sending =
        (s.clients d).sending ∧
      ((s.setClient c ((s.clients c).completeRequest j n)).clients d).numWorkers =
        (s.clients d).numWorkers ∧
      ((s.setClient c ((s.clients c).completeRequest j n)).clients d).requestsInFlight +
        (if d = c then 1 else 0) = (s.clients d).requestsInFlight := by
    intro d
    by_cases hd : d = c
    · subst hd
      rw [clients_setClient]
      refine ⟨rfl, rfl, ?_⟩
      simp only [Client.completeRequest, SizeT.pred_of_pos hpos, if_true]
      omega
    · rw [clients_setClient_of_ne s _ hd, if_neg hd]
      exact ⟨rfl, rfl, rfl⟩
  refine ⟨fun d => ?_, fun d => ?_, fun d => ?_⟩
  · obtain ⟨hsending, -, hflight⟩ := hclient d
    have hactive := h.active d
    have hopened := hcount d
    simp only [System.active, System.setExchange] at hactive ⊢
    rw [hsending]
    simp only [System.setClient] at hflight ⊢
    omega
  · obtain ⟨-, hnum, -⟩ := hclient d
    exact hnum.trans (h.numWorkers d)
  · obtain ⟨-, -, hflight⟩ := hclient d
    have hbound := h.bound d
    show ((s.setClient c _).clients d).requestsInFlight ≤ _
    omega

theorem inFlight_step {ev : Event} (hinv : Invariant cfg s) (h : InFlight cfg s)
    (hstep : s.step cfg ev = some s') : InFlight cfg s' := by
  cases ev with
  | submit c src =>
    obtain ⟨small, rfl⟩ := submit_cases hstep
    exact h.setClient_same rfl rfl rfl
  | dispatch c => exact inFlight_dispatch h hstep
  | scheduleRequest c j =>
    obtain ⟨n, rest, -, -, rfl⟩ := scheduleRequest_cases hstep
    exact h.setClient_same rfl rfl rfl
  | process c j =>
    obtain ⟨n, e, m', t', -, he, -, rfl⟩ := process_cases hstep
    have hset : InFlight cfg (s.setExchange n { e with transfer := t' }) :=
      h.setExchange he (fun _ => rfl)
    have h' : InFlight cfg { s.setExchange n { e with transfer := t' } with memory := m' } :=
      { hset with }
    exact h'.setClient_same rfl rfl rfl
  | complete c j => exact inFlight_complete hinv h hstep
  | destroy c j =>
    obtain ⟨n, e, -, -, rfl⟩ := destroy_cases hstep
    exact h.setClient_same rfl rfl rfl
  | poll c => exact inFlight_poll h hstep
  | enqueue => exact inFlight_enqueue h hstep
  | schedule w i => exact inFlight_schedule h hstep
  | allocate w => exact inFlight_allocate h hstep
  | respond w => exact inFlight_respond h hstep
  | serve w =>
    obtain ⟨n, e, m', t', -, he, -, rfl⟩ := serve_cases hstep
    have hset : InFlight cfg (s.setExchange n { e with transfer := t' }) :=
      h.setExchange he (fun _ => rfl)
    exact { hset with }
  | destroyHandler w =>
    obtain ⟨n, e, hw, -, -, rfl⟩ := destroyHandler_cases hstep
    exact { h.setWorker hw (fun _ => rfl) (fun _ => rfl) with }

end Steps

theorem inFlight_of_reachable (h : (machine cfg).Reachable s) : InFlight cfg s := by
  induction h with
  | start => exact inFlight_init cfg
  | step hs hnext _ ih =>
    exact inFlight_step (invariant_of_reachable hs.reachable) ih (step_of_next hnext)

/-- The requests that wait are not more than the first `k` clients have workers, if
these are all. -/
theorem InFlight.pending_length_le_sum {k : ℕ} (h : InFlight cfg s)
    (honly : ∀ c, k ≤ c → cfg.numWorkers c = 0) :
    s.pending.length ≤ ∑ c ∈ Finset.range k, cfg.numWorkers c := by
  have hcount : ∀ c, s.pending.countP (Request.isOf c) ≤ cfg.numWorkers c := by
    intro c
    have hactive := h.active c
    have hbound := h.bound c
    rw [System.active] at hactive
    omega
  refine Slots.length_le_sum Request.clientId (fun r hr => ?_) hcount
  by_contra hge
  have hpos : 0 < s.pending.countP (Request.isOf r.clientId) :=
    List.countP_pos_iff.mpr ⟨r, hr, by simp [Request.isOf]⟩
  have hzero := hcount r.clientId
  rw [honly _ (Nat.le_of_not_lt hge)] at hzero
  omega

end TinyFile.System
