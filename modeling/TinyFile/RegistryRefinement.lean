import TinyFile.Departure
import TinyFile.Registry

/-!
# The service refines the registry

In the service each update of a table is a step of its own, and workers take requests
in between. A visit that registers a client can be thought to happen as a whole when it
comes to the scheduler, and so can one that forgets a client: `behind` is the registry
in which the visit under way has happened completely or not at all. So whenever the
registration thread is between two visits, the tables are those of a registry whose
calls are atomic.
-/
namespace TinyFile

namespace Registry

variable {κ : Type}

/-- The tables of the service. -/
def ofService (s : Service κ) : Registry κ where
  registeredClients := s.registeredClients
  blockingServerToClientQueues := s.blockingServerToClientQueues
  nonBlockingClientToServerQueues := s.nonBlockingClientToServerQueues
  scheduler := s.scheduler

/-- The tables without what the visit has done, or with what it has still to do. -/
def behind (s : Registry κ) (c : ℤ) (blocking nonBlocking : Placement ℤ) :
    Service.Visit → Registry κ
  | .registering _ => { s with registeredClients := s.registeredClients.erase c }
  | .openingServerToClient =>
      { s with
        blockingServerToClientQueues :=
          Service.assign s.blockingServerToClientQueues c true blocking
        nonBlockingClientToServerQueues :=
          Service.assign s.nonBlockingClientToServerQueues c true nonBlocking }
  | .openingClientToServer =>
      { s with
        nonBlockingClientToServerQueues :=
          Service.assign s.nonBlockingClientToServerQueues c true nonBlocking }
  | .closingServerToClient => s
  | .closingClientToServer =>
      { s with
        blockingServerToClientQueues :=
          s.blockingServerToClientQueues.modify c (fun _ => true) }
  | .erasing =>
      { s with
        blockingServerToClientQueues :=
          s.blockingServerToClientQueues.modify c (fun _ => true)
        nonBlockingClientToServerQueues :=
          s.nonBlockingClientToServerQueues.modify c (fun _ => true) }
  | .deregistering =>
      { s with
        registeredClients := insert c s.registeredClients
        blockingServerToClientQueues :=
          s.blockingServerToClientQueues.modify c (fun _ => true)
        nonBlockingClientToServerQueues :=
          s.nonBlockingClientToServerQueues.modify c (fun _ => true) }
  | .erasingQueues =>
      { s with
        blockingServerToClientQueues := s.blockingServerToClientQueues.erase c
        nonBlockingClientToServerQueues := s.nonBlockingClientToServerQueues.erase c }

/-- Whether the visited client is in `registeredClients`, as far as it matters. -/
def Found (s : Registry κ) (c : ℤ) : Service.Visit → Prop
  | .registering _ | .closingServerToClient | .closingClientToServer | .erasing =>
      c ∈ s.registeredClients
  | .deregistering => c ∉ s.registeredClients
  | .openingServerToClient | .openingClientToServer | .erasingQueues => True

/-- The visits do not look at the scheduler's requests. -/
theorem behind_scheduler (s : Registry κ) (c : ℤ) (blocking nonBlocking : Placement ℤ)
    (v : Service.Visit) (scheduler : Scheduler κ) :
    ({ s with scheduler := scheduler } : Registry κ).behind c blocking nonBlocking v =
      { s.behind c blocking nonBlocking v with scheduler := scheduler } := by
  cases v <;> rfl

theorem scheduler_behind (s : Registry κ) (c : ℤ) (blocking nonBlocking : Placement ℤ)
    (v : Service.Visit) : (s.behind c blocking nonBlocking v).scheduler = s.scheduler := by
  cases v <;> rfl

/-- A step leaves the tables and the registration thread alone; a client does not
end the service. -/
structure Aside (s s' : Service κ) (e : Service.Event) : Prop where
  tables : ofService s' = ofService s
  registrationWorker : s'.registrationWorker = s.registrationWorker
  fault : e.isService = false → s'.fault = s.fault

theorem aside_of_move {s s' : Service κ} {c : ℤ} {phase : Service.Phase}
    {messages : List RegistrationMessage} {ids : List ℤ}
    (hm : Service.ClientMove c phase messages ids s s') (e : Service.Event) :
    Aside s s' e where
  tables := by
    simp only [ofService, hm.registeredClients, hm.blocking, hm.nonBlocking, hm.scheduler]
  registrationWorker := hm.registrationWorker
  fault := fun _ => hm.fault

section Refinement

variable [Add κ] [Sub κ] [Mul κ] [Div κ] [NatCast κ] [IntCast κ] [Zero κ] [LT κ] [DecidableLT κ]

/-- What the registry whose calls are atomic has reached, by the turn of the
registration thread. -/
structure Linked (cfg : Config) (t : Service.Turn) (r : Registry κ) : Prop where
  between : (∀ v c, t ≠ .visiting v c) →
    (machine cfg.strategy cfg.serviceWorkers).Reachable r
  visiting : ∀ v c, t = .visiting v c → r.Found c v ∧ ∀ blocking nonBlocking,
    (machine cfg.strategy cfg.serviceWorkers).Reachable (r.behind c blocking nonBlocking v)

variable {cfg : Config} {r : Registry κ} {t t' : Service.Turn}

theorem linked_init (cfg : Config) : Linked cfg .reg (init cfg.serviceWorkers : Registry κ) where
  between := fun _ => .start
  visiting := fun v c h => by cases h

/-- A worker takes a request. -/
theorem reachable_schedule (h : (machine cfg.strategy cfg.serviceWorkers).Reachable r)
    (hcount : r.scheduler.requestCount ≠ 0) {request : Request} {scheduler : Scheduler κ}
    (hrun : r.scheduler.schedule cfg.strategy = .ok (request, scheduler)) :
    (machine cfg.strategy cfg.serviceWorkers).Reachable { r with scheduler := scheduler } := by
  have hnext : (machine cfg.strategy cfg.serviceWorkers).next r .schedule =
      some { r with scheduler := scheduler } := by
    simp only [machine, Registry.next, hcount, hrun, if_false, Except.toOption, Option.map_some]
  exact h.step hnext trivial

theorem Linked.schedule (h : Linked cfg t r) (hcount : r.scheduler.requestCount ≠ 0)
    {request : Request} {scheduler : Scheduler κ}
    (hrun : r.scheduler.schedule cfg.strategy = .ok (request, scheduler)) :
    Linked cfg t { r with scheduler := scheduler } where
  between := fun ht => reachable_schedule (h.between ht) hcount hrun
  visiting := by
    intro v c hv
    obtain ⟨hfound, hreach⟩ := h.visiting v c hv
    refine ⟨by cases v <;> exact hfound, fun blocking nonBlocking => ?_⟩
    have hsame := scheduler_behind r c blocking nonBlocking v
    rw [behind_scheduler]
    exact reachable_schedule (hreach blocking nonBlocking) (hsame.symm ▸ hcount)
      (hsame.symm ▸ hrun)

/-- A call that returns. -/
theorem reachable_call (h : (machine cfg.strategy cfg.serviceWorkers).Reachable r) {x : Call}
    {r' : Registry κ} (hrun : r.call x = (.ok (), r')) :
    (machine cfg.strategy cfg.serviceWorkers).Reachable r' := by
  have hnext : (machine cfg.strategy cfg.serviceWorkers).next r (.call x) = some r' := by
    simp only [machine, Registry.next, hrun]
  exact h.step hnext trivial

theorem linked_of_reachable (h : (machine cfg.strategy cfg.serviceWorkers).Reachable r)
    (ht : ∀ v c, t ≠ .visiting v c) : Linked cfg t r where
  between := fun _ => h
  visiting := fun v c hv => absurd hv (ht v c)

theorem linked_visiting {v : Service.Visit} {c : ℤ} (hfound : r.Found c v)
    (hreach : ∀ blocking nonBlocking, (machine cfg.strategy cfg.serviceWorkers).Reachable
      (r.behind c blocking nonBlocking v)) : Linked cfg (.visiting v c) r where
  between := fun ht => absurd rfl (ht v c)
  visiting := by
    rintro _ _ ⟨rfl, rfl⟩
    exact ⟨hfound, hreach⟩

/-- The visit of a new client happens when it comes to the scheduler. -/
theorem reachable_creation {c priority : ℤ} (hc : c ∈ r.registeredClients)
    (h : (machine cfg.strategy cfg.serviceWorkers).Reachable
      { r with registeredClients := r.registeredClients.erase c })
    (p blocking nonBlocking : Placement ℤ) :
    (machine cfg.strategy cfg.serviceWorkers).Reachable
      { registeredClients := r.registeredClients
        blockingServerToClientQueues :=
          Service.assign r.blockingServerToClientQueues c true blocking
        nonBlockingClientToServerQueues :=
          Service.assign r.nonBlockingClientToServerQueues c true nonBlocking
        scheduler := r.scheduler.registerClient c priority p } := by
  refine reachable_call h
    (x := .visitQueueCreation c priority ⟨true, true, 0, p, blocking, nonBlocking⟩) ?_
  simp only [call, visitQueueCreation, Finset.mem_erase, ne_eq, not_true_eq_false, false_and,
    if_false, Bool.true_eq_false, Finset.insert_erase hc]

/-- The visit that forgets a client happens when it comes to the scheduler. -/
theorem reachable_deletion {c : ℤ} (hc : c ∉ r.registeredClients)
    (h : (machine cfg.strategy cfg.serviceWorkers).Reachable
      (r.behind c (.splice 0) (.splice 0) .deregistering)) {scheduler : Scheduler κ}
    (hrun : r.scheduler.deregisterClient c = .ok scheduler) :
    (machine cfg.strategy cfg.serviceWorkers).Reachable
      { registeredClients := r.registeredClients
        blockingServerToClientQueues := r.blockingServerToClientQueues.erase c
        nonBlockingClientToServerQueues := r.nonBlockingClientToServerQueues.erase c
        scheduler := scheduler } := by
  have hconsistent := consistent_of_reachable h
  have hin : c ∈ insert c r.registeredClients := Finset.mem_insert_self _ _
  have hblocking := UnorderedMap.emplace_of_mem (hconsistent.blocking c hin) false (.splice 0)
  have hnonBlocking :=
    UnorderedMap.emplace_of_mem (hconsistent.nonBlocking c hin) false (.splice 0)
  refine reachable_call h
    (x := .visitQueueDeletion c ⟨true, true, 0, .splice 0, .splice 0, .splice 0⟩) ?_
  simp only [behind] at hblocking hnonBlocking
  simp only [call, visitQueueDeletion, behind, hin, hblocking, hnonBlocking, hrun,
    not_true_eq_false, if_false, Bool.true_eq_false, UnorderedMap.modify_modify,
    UnorderedMap.erase_modify, Finset.erase_insert hc]

variable {s s' : Service κ}

/-- The tables after one step of a visit. -/
theorem Linked.advance {c : ℤ} {p : Placement ℤ} {v : Service.Visit}
    (h : Linked cfg (.visiting v c) (ofService s)) (hadvance : s.Advance c p v s') :
    Linked cfg s'.registrationWorker (ofService s') := by
  obtain ⟨hfound, hreach⟩ := h.visiting v c rfl
  cases hadvance with
  | registering priority _ =>
    exact linked_visiting trivial fun blocking nonBlocking =>
      reachable_creation hfound (hreach blocking nonBlocking) p blocking nonBlocking
  | openingServerToClient _ =>
    exact linked_visiting trivial fun _ nonBlocking => hreach p nonBlocking
  | openingClientToServer _ =>
    exact linked_of_reachable (hreach p p) (by simp)
  | closingServerToClient hopen =>
    refine linked_visiting hfound fun blocking nonBlocking => ?_
    have hsame := UnorderedMap.modify_eq_self hopen (f := fun _ => true) rfl
    simp only [behind, ofService, UnorderedMap.modify_modify, hsame]
    exact hreach blocking nonBlocking
  | closingClientToServer hopen =>
    refine linked_visiting hfound fun blocking nonBlocking => ?_
    have hsame := UnorderedMap.modify_eq_self hopen (f := fun _ => true) rfl
    simp only [behind, ofService, UnorderedMap.modify_modify, hsame]
    exact hreach blocking nonBlocking
  | erasing =>
    refine linked_visiting (Finset.notMem_erase _ _) fun blocking nonBlocking => ?_
    have hsame : insert c (s.registeredClients.erase c) = s.registeredClients :=
      Finset.insert_erase hfound
    simp only [behind, ofService, hsame]
    exact hreach blocking nonBlocking
  | deregistering _ hrun =>
    exact linked_visiting trivial fun _ _ =>
      reachable_deletion hfound (hreach (.splice 0) (.splice 0)) hrun
  | erasingQueues =>
    exact linked_of_reachable (hreach p p) (by simp)

/-- A message starts a visit, or the loop of `reg` goes on. -/
theorem Linked.reg (h : Linked cfg .reg (ofService s)) (hturn : s.registrationWorker = .reg) :
    Linked cfg s.reg.registrationWorker (ofService s.reg) := by
  have hreach := h.between (by simp)
  have hthrow : Linked cfg s.registrationWorker (ofService s) := by
    rw [hturn]
    exact h
  unfold Service.reg
  split
  · exact linked_of_reachable hreach (by simp)
  · exact linked_of_reachable hreach (by simp)
  · next c priority rest _ =>
    split_ifs with hc
    · exact hthrow
    · refine linked_visiting (Finset.mem_insert_self c _) fun _ _ => ?_
      have hsame : (insert c s.registeredClients).erase c = s.registeredClients :=
        Finset.erase_insert hc
      simp only [behind, ofService, hsame]
      exact hreach
  · next c rest _ =>
    split_ifs with hc
    · exact linked_visiting hc fun _ _ => hreach
    · exact hthrow

/-- A request that `dispatch` has received reaches the scheduler. -/
theorem Linked.enqueue {c : ℤ} {request : Service.ClientRequest} {clientIds : List ℤ}
    {p : Placement ℤ} (h : Linked cfg (.enqueueing c request clientIds) (ofService s))
    (hstep : s.enqueue c request clientIds p = some s') (hfault : s'.fault = none) :
    Linked cfg s'.registrationWorker (ofService s') := by
  simp only [Service.enqueue] at hstep
  split_ifs at hstep
  split at hstep
  · next u scheduler hrun =>
    cases hstep
    refine linked_of_reachable (reachable_call (h.between (by simp))
      (x := .enqueue c request.requestId request.fileSize p) ?_) (by simp)
    simp only [call, enqueue, ofService, hrun]
  · cases hstep
    cases hfault

theorem Linked.register {p : Placement ℤ} (h : Linked cfg s.registrationWorker (ofService s))
    (hstep : s.register p = some s') (hfault : s'.fault = none) :
    Linked cfg s'.registrationWorker (ofService s') := by
  cases hturn : s.registrationWorker with
  | reg =>
    rw [Service.register, hturn] at hstep
    cases hstep
    exact (hturn ▸ h).reg hturn
  | identifying =>
    rw [Service.register, hturn] at hstep
    rw [hturn] at h
    have hreach := h.between (by simp)
    simp only [Service.visitRegistration] at hstep
    split_ifs at hstep <;> cases hstep
    · exact linked_of_reachable hreach (by simp)
    · cases hfault
  | visiting v c =>
    rw [Service.register, hturn] at hstep
    rw [hturn] at h
    rcases Service.visit_cases hstep with ⟨fault, rfl⟩ | hadvance
    · cases hfault
    · exact h.advance hadvance
  | dispatching clientIds =>
    rw [Service.register, hturn] at hstep
    rw [hturn] at h
    have hreach := h.between (by simp)
    cases hstep
    cases clientIds with
    | nil => exact linked_of_reachable hreach (by simp [Service.dispatch])
    | cons c clientIds =>
      simp only [Service.dispatch]
      split <;> exact linked_of_reachable hreach (by simp)
  | enqueueing c request clientIds =>
    rw [Service.register, hturn] at hstep
    rw [hturn] at h
    exact h.enqueue hstep hfault

/-- A worker takes a request, or the scheduler throws. -/
theorem Linked.taken {w : ℕ} (h : Linked cfg s.registrationWorker (ofService s))
    (hstep : s.schedule cfg w = some s') (hfault : s'.fault = none) :
    Linked cfg s'.registrationWorker (ofService s') := by
  simp only [Service.schedule] at hstep
  split at hstep
  · split_ifs at hstep with hwait
    split at hstep
    · cases hstep
      cases hfault
    · next request scheduler hrun =>
      cases hstep
      exact h.schedule (fun hcount => hwait (.inr hcount)) hrun
  · cases hstep

/-- Only the registration thread and the workers that take a request are at the tables. -/
theorem aside_of_step {e : Service.Event} (hregister : ∀ p, e ≠ .register p)
    (hschedule : ∀ w, e ≠ .schedule w) (hstep : s.step cfg e = some s') : Aside s s' e := by
  cases e with
  | registration =>
    rw [Service.send_cases hstep]
    exact ⟨rfl, rfl, fun _ => rfl⟩
  | identify =>
    obtain ⟨c, rest, -, hm⟩ := Service.identify_cases hstep
    exact aside_of_move hm _
  | createQueue c =>
    obtain ⟨phase, -, -, -, hm⟩ := Service.createQueue_cases hstep
    exact aside_of_move hm _
  | announce c priority => exact aside_of_move (Service.announce_cases hstep).2 _
  | leave c => exact aside_of_move (Service.leave_cases hstep).2 _
  | unlink c =>
    obtain ⟨phase, -, -, -, hm⟩ := Service.unlink_cases hstep
    exact aside_of_move hm _
  | request c fileSize =>
    simp only [Service.step, Service.request] at hstep
    split_ifs at hstep <;> cases hstep <;> exact ⟨rfl, rfl, fun _ => rfl⟩
  | receive c =>
    simp only [Service.step, Service.receive] at hstep
    split at hstep
    · cases hstep
    · split_ifs at hstep
      cases hstep
      exact ⟨rfl, rfl, fun _ => rfl⟩
  | clientProcess w =>
    simp only [Service.step, Service.clientProcess] at hstep
    split at hstep
    · split_ifs at hstep
      obtain ⟨r, -, rfl⟩ := Option.map_eq_some_iff.mp hstep
      exact ⟨rfl, rfl, fun _ => rfl⟩
    · cases hstep
  | register p => exact absurd rfl (hregister p)
  | schedule w => exact absurd rfl (hschedule w)
  | allocate w =>
    simp only [Service.step, Service.allocate] at hstep
    split at hstep
    · split at hstep <;> cases hstep <;> exact ⟨rfl, rfl, fun he => by cases he⟩
    · cases hstep
  | writeBlocking w =>
    simp only [Service.step, Service.writeBlocking] at hstep
    split at hstep
    · split at hstep
      · cases hstep
        exact ⟨rfl, rfl, fun he => by cases he⟩
      · split_ifs at hstep <;> cases hstep <;> exact ⟨rfl, rfl, fun he => by cases he⟩
    · cases hstep
  | mqSend w src memory =>
    simp only [Service.step, Service.mqSend] at hstep
    split at hstep
    · split_ifs at hstep <;> cases hstep <;> exact ⟨rfl, rfl, fun he => by cases he⟩
    · cases hstep
  | process w =>
    simp only [Service.step, Service.process] at hstep
    split at hstep
    · obtain ⟨r, -, rfl⟩ := Option.map_eq_some_iff.mp hstep
      exact ⟨rfl, rfl, fun he => by cases he⟩
    · cases hstep
  | destroyHandler w =>
    simp only [Service.step, Service.destroyHandler] at hstep
    split at hstep
    · split_ifs at hstep
      cases hstep
      exact ⟨rfl, rfl, fun he => by cases he⟩
    · cases hstep

/-- One step of the service. -/
theorem Linked.next {e : Service.Event}
    (h : s.fault = none → Linked cfg s.registrationWorker (ofService s))
    (hnext : s.next cfg e = some s') (hfault : s'.fault = none) :
    Linked cfg s'.registrationWorker (ofService s') := by
  obtain ⟨hstep, halive⟩ := Service.next_cases hnext
  by_cases hregister : ∃ p, e = .register p
  · obtain ⟨p, rfl⟩ := hregister
    exact (h (halive rfl)).register hstep hfault
  by_cases hschedule : ∃ w, e = .schedule w
  · obtain ⟨w, rfl⟩ := hschedule
    exact (h (halive rfl)).taken hstep hfault
  have haside := aside_of_step (not_exists.mp hregister) (not_exists.mp hschedule) hstep
  rw [haside.tables, haside.registrationWorker]
  apply h
  cases he : e.isService with
  | true => exact halive he
  | false => rw [← haside.fault he, hfault]

theorem linked_of_service (h : (Service.machine cfg).Reachable s) (hfault : s.fault = none) :
    Linked cfg s.registrationWorker (ofService s) := by
  have hlinked : s.fault = none → Linked cfg s.registrationWorker (ofService s) :=
    h.invariant (fun _ => linked_init cfg) fun _ _ _ hs hnext hfault => Linked.next hs hnext hfault
  exact hlinked hfault

/-- Between two visits the tables are those of a registry whose calls are atomic. -/
theorem reachable_of_service (h : (Service.machine cfg).Reachable s) (hfault : s.fault = none)
    (hturn : ∀ v c, s.registrationWorker ≠ .visiting v c) :
    (machine cfg.strategy cfg.serviceWorkers).Reachable (ofService s) :=
  (linked_of_service h hfault).between hturn

/-- Between two visits a call that throws leaves no trace exactly when it is clean. -/
theorem traceless_of_service (h : (Service.machine cfg).Reachable s) (hfault : s.fault = none)
    (hturn : ∀ v c, s.registrationWorker ≠ .visiting v c) (x : Call) :
    (ofService s).Traceless x ↔ (ofService s).Clean x :=
  traceless_iff_clean (consistent_of_reachable ((linked_of_service h hfault).between hturn)) x

end Refinement

/-- A client has registered in six steps of the registration thread. -/
theorem reachable_of_service_arrival : ∃ s : Service ℚ,
    (Service.machine (System.smallService (fun _ => 1))).run
      (Service.init (System.smallService (fun _ => 1)))
      (Service.arrival ++ Service.registerSteps 4) = some s ∧
    s.registeredClients = {0} ∧ (machine .roundRobin NUM_WORKERS).Reachable (ofService s) := by
  have hmap : ((Service.machine (System.smallService (fun _ => 1))).run
      (Service.init (System.smallService (fun _ => 1)) : Service ℚ)
      (Service.arrival ++ Service.registerSteps 4)).map
        (fun s => decide (s.fault = none ∧ s.registrationWorker = .reg ∧
          s.registeredClients = {0})) = some true := by decide +kernel
  obtain ⟨s, hrun, hs⟩ := Option.map_eq_some_iff.mp hmap
  obtain ⟨hfault, hturn, hregistered⟩ := of_decide_eq_true hs
  exact ⟨s, hrun, hregistered,
    reachable_of_service (Machine.reachable_of_run hrun) hfault (by simp [hturn])⟩

end Registry

end TinyFile
