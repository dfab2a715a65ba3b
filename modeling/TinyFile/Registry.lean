import TinyFile.CreditAccounting
import TinyFile.RoundRobin
import TinyFile.ServiceSteps

/-!
# The calls on the registry

`visitQueueCreation` and `visitQueueDeletion` of `RegistrationVisitor.cpp` and
`Scheduler::enqueue` as whole calls, with what they leave behind when they throw. A
client is recorded in six tables, which a call updates one after the other; nothing
undoes an update, so it matters what stands before the calls that can fail.
-/
namespace TinyFile

/-- The tables of `RegistrationVisitor` and the scheduler. A descriptor is open, or
it is `-1`, closed or the value that `operator[]` inserts. -/
structure Registry (κ : Type) where
  registeredClients : Finset ℤ
  blockingServerToClientQueues : UnorderedMap ℤ Bool
  nonBlockingClientToServerQueues : UnorderedMap ℤ Bool
  scheduler : Scheduler κ

namespace Registry

/-- Whether `mq_open` or `mq_close` succeeds on either queue, the `errno` it sets,
and where the maps put a new key. -/
structure Outside where
  serverToClient : Bool
  clientToServer : Bool
  errno : ℤ
  credits : Placement ℤ
  blocking : Placement ℤ
  nonBlocking : Placement ℤ

/-- The three calls that record or forget something. -/
inductive Call where
  | enqueue (clientId requestId : ℤ) (fileSize : ℕ) (p : Placement ℤ)
  | visitQueueCreation (clientId priority : ℤ) (o : Outside)
  | visitQueueDeletion (clientId : ℤ) (o : Outside)

/-- A call of the registration thread, or a worker that takes a request. -/
inductive Event where
  | call (x : Call)
  | schedule

variable {κ : Type}

def init (numWorkers : ℕ) : Registry κ where
  registeredClients := ∅
  blockingServerToClientQueues := .empty
  nonBlockingClientToServerQueues := .empty
  scheduler := Scheduler.init numWorkers

/-- The call left none of the six tables changed; of the queue maps the keys count. -/
structure Unchanged (s s' : Registry κ) : Prop where
  registeredClients : s'.registeredClients = s.registeredClients
  blocking : ∀ c, c ∈ s'.blockingServerToClientQueues.keys ↔
    c ∈ s.blockingServerToClientQueues.keys
  nonBlocking : ∀ c, c ∈ s'.nonBlockingClientToServerQueues.keys ↔
    c ∈ s.nonBlockingClientToServerQueues.keys
  clientCredits : s'.scheduler.clientCredits = s.scheduler.clientCredits
  requestMap : s'.scheduler.requestMap = s.scheduler.requestMap
  requestCount : s'.scheduler.requestCount = s.scheduler.requestCount

/-- A call that cannot fail any more, or has changed nothing when it does. -/
def Clean (s : Registry κ) : Call → Prop
  | .enqueue clientId _ _ _ => clientId ∈ s.scheduler.registered
  | .visitQueueCreation clientId _ o =>
      clientId ∈ s.registeredClients ∨ o.serverToClient = true ∧ o.clientToServer = true
  | .visitQueueDeletion _ _ => True

/-- A registered client is in every table. -/
structure Consistent (s : Registry κ) : Prop where
  blocking : ∀ c ∈ s.registeredClients, c ∈ s.blockingServerToClientQueues.keys
  nonBlocking : ∀ c ∈ s.registeredClients, c ∈ s.nonBlockingClientToServerQueues.keys
  scheduled : ∀ c ∈ s.registeredClients, c ∈ s.scheduler.registered

theorem consistent_init (numWorkers : ℕ) : Consistent (init numWorkers : Registry κ) := by
  constructor <;> simp [init]

def enqueue [Zero κ] [LT κ] [DecidableLT κ] (s : Registry κ) (clientId requestId : ℤ)
    (fileSize : ℕ) (p : Placement ℤ) : Except Fault Unit × Registry κ :=
  let r := s.scheduler.enqueue clientId requestId fileSize p
  (r.1, { s with scheduler := r.2 })

def visitQueueCreation [IntCast κ] (s : Registry κ) (clientId priority : ℤ) (o : Outside) :
    Except Fault Unit × Registry κ :=
  if clientId ∈ s.registeredClients then
    (.error (.runtimeError s!"RegistrationVisitor: clientId {clientId} already registered"), s)
  else
    let s :=
      { s with
        registeredClients := insert clientId s.registeredClients
        scheduler := s.scheduler.registerClient clientId priority o.credits
        blockingServerToClientQueues :=
          Service.assign s.blockingServerToClientQueues clientId o.serverToClient o.blocking }
    if o.serverToClient = false then
      (.error (.runtimeError "RegistrationVisitor: failed to open message queue"), s)
    else
      let s :=
        { s with
          nonBlockingClientToServerQueues := Service.assign s.nonBlockingClientToServerQueues
            clientId o.clientToServer o.nonBlocking }
      if o.clientToServer = false then
        (.error (.runtimeError "RegistrationVisitor: failed to open message queue"), s)
      else (.ok (), s)

/-- `operator[]` inserts a key that is not there before `mq_close` is called. -/
def visitQueueDeletion (s : Registry κ) (clientId : ℤ) (o : Outside) :
    Except Fault Unit × Registry κ :=
  if clientId ∉ s.registeredClients then
    (.error (.runtimeError s!"RegistrationVisitor: clientId {clientId} not registered"), s)
  else
    let s :=
      { s with
        blockingServerToClientQueues :=
          s.blockingServerToClientQueues.emplace clientId false o.blocking }
    if o.serverToClient = false then
      (.error (.runtimeError
        s!"RegistrationVisitor: failed to close blockingServerToClientQueue for {clientId} with errno: {o.errno}"), s)
    else
      let s :=
        { s with
          blockingServerToClientQueues :=
            s.blockingServerToClientQueues.modify clientId (fun _ => false)
          nonBlockingClientToServerQueues :=
            s.nonBlockingClientToServerQueues.emplace clientId false o.nonBlocking }
      if o.clientToServer = false then
        (.error (.runtimeError
          s!"RegistrationVisitor: failed to close nonBlockingClientToServerQueue for {clientId} with errno: {o.errno}"), s)
      else
        let s :=
          { s with
            nonBlockingClientToServerQueues :=
              s.nonBlockingClientToServerQueues.modify clientId (fun _ => false)
            registeredClients := s.registeredClients.erase clientId }
        match s.scheduler.deregisterClient clientId with
        | .error fault => (.error fault, s)
        | .ok scheduler => (.ok (),
            { s with
              scheduler := scheduler
              blockingServerToClientQueues := s.blockingServerToClientQueues.erase clientId
              nonBlockingClientToServerQueues :=
                s.nonBlockingClientToServerQueues.erase clientId })

def call [IntCast κ] [Zero κ] [LT κ] [DecidableLT κ] (s : Registry κ) :
    Call → Except Fault Unit × Registry κ
  | .enqueue clientId requestId fileSize p => s.enqueue clientId requestId fileSize p
  | .visitQueueCreation clientId priority o => s.visitQueueCreation clientId priority o
  | .visitQueueDeletion clientId o => s.visitQueueDeletion clientId o

/-- If the call throws, it has changed nothing. -/
def Traceless [IntCast κ] [Zero κ] [LT κ] [DecidableLT κ] (s : Registry κ) (x : Call) : Prop :=
  ∀ fault, (s.call x).1 = .error fault → s.Unchanged (s.call x).2

section Calls

variable {s s' : Registry κ}

theorem Consistent.enqueue [Zero κ] [LT κ] [DecidableLT κ] (h : Consistent s)
    {clientId requestId : ℤ} {fileSize : ℕ} {p : Placement ℤ}
    (hok : s.enqueue clientId requestId fileSize p = (.ok (), s')) :
    Consistent s' := by
  obtain ⟨hcall, rfl⟩ := Prod.mk.inj hok
  have hrun : s.scheduler.enqueue clientId requestId fileSize p =
      (.ok (), (s.scheduler.enqueue clientId requestId fileSize p).2) :=
    Prod.ext hcall rfl
  obtain ⟨c, hc⟩ := Scheduler.registered_of_enqueue_ok hrun
  obtain ⟨t, ht, hkeys⟩ := Scheduler.enqueue_of_registered
    (UnorderedMap.mem_keys_of_find? hc) requestId fileSize p
  refine ⟨h.blocking, h.nonBlocking, fun d hd => ?_⟩
  rw [ht, hkeys]
  exact h.scheduled d hd

theorem mem_keys_assign {m : UnorderedMap ℤ Bool} {c d : ℤ} {value : Bool} {p : Placement ℤ} :
    d ∈ (Service.assign m c value p).keys ↔ d = c ∨ d ∈ m.keys := by
  rw [Service.assign, UnorderedMap.keys_modify, UnorderedMap.mem_keys_emplace]

theorem Consistent.visitQueueCreation [IntCast κ] (h : Consistent s)
    {clientId priority : ℤ} {o : Outside}
    (hok : s.visitQueueCreation clientId priority o = (.ok (), s')) : Consistent s' := by
  simp only [Registry.visitQueueCreation] at hok
  split_ifs at hok with hc ho ho'
  · cases hok
  · cases hok
  · cases hok
  cases hok
  refine ⟨fun d hd => ?_, fun d hd => ?_, fun d hd => ?_⟩
  · exact mem_keys_assign.mpr ((Finset.mem_insert.mp hd).imp_right (h.blocking d))
  · exact mem_keys_assign.mpr ((Finset.mem_insert.mp hd).imp_right (h.nonBlocking d))
  · exact Scheduler.mem_registered_registerClient.mpr
      ((Finset.mem_insert.mp hd).imp_right (h.scheduled d))

theorem Consistent.visitQueueDeletion (h : Consistent s) {clientId : ℤ} {o : Outside}
    (hok : s.visitQueueDeletion clientId o = (.ok (), s')) : Consistent s' := by
  simp only [Registry.visitQueueDeletion] at hok
  split_ifs at hok
  · cases hok
  · cases hok
  · split at hok
    · cases hok
    · next scheduler hrun =>
      cases hok
      refine ⟨fun d hd => ?_, fun d hd => ?_, fun d hd => ?_⟩
      all_goals obtain ⟨hne, hd⟩ := Finset.mem_erase.mp hd
      · rw [UnorderedMap.mem_keys_erase, UnorderedMap.keys_modify, UnorderedMap.mem_keys_emplace]
        exact ⟨.inr (h.blocking d hd), hne⟩
      · rw [UnorderedMap.mem_keys_erase, UnorderedMap.keys_modify, UnorderedMap.mem_keys_emplace]
        exact ⟨.inr (h.nonBlocking d hd), hne⟩
      · exact (Service.mem_registered_deregisterClient hrun d).mpr ⟨h.scheduled d hd, hne⟩
  · cases hok

end Calls

section Trace

theorem Unchanged.refl (s : Registry κ) : s.Unchanged s :=
  ⟨rfl, fun _ => Iff.rfl, fun _ => Iff.rfl, rfl, rfl, rfl⟩

/-- A call that throws without the client's credit record has counted the request. -/
theorem traceless_enqueue_iff [IntCast κ] [Zero κ] [LT κ] [DecidableLT κ] (s : Registry κ)
    (clientId requestId : ℤ) (fileSize : ℕ) (p : Placement ℤ) :
    s.Traceless (.enqueue clientId requestId fileSize p) ↔
      clientId ∈ s.scheduler.registered := by
  constructor
  · intro h
    by_contra hc
    have hnone := UnorderedMap.find?_eq_none_iff.mpr hc
    obtain ⟨fault, t, ht, hcount⟩ : ∃ fault t,
        s.call (.enqueue clientId requestId fileSize p) = (.error fault, t) ∧
          t.scheduler.requestCount = s.scheduler.requestCount + 1 := by
      simp only [call, enqueue, Scheduler.enqueue, hnone]
      exact ⟨_, _, rfl, rfl⟩
    have hsame := (h fault (by rw [ht])).requestCount
    rw [ht, hcount] at hsame
    omega
  · intro hc fault hthrow
    obtain ⟨t, ht, -⟩ := Scheduler.enqueue_of_registered hc requestId fileSize p
    simp [call, enqueue, ht] at hthrow

/-- A new client stays in `registeredClients` when one of its queues cannot be opened. -/
theorem traceless_visitQueueCreation_iff [IntCast κ] [Zero κ] [LT κ] [DecidableLT κ]
    (s : Registry κ) (clientId priority : ℤ) (o : Outside) :
    s.Traceless (.visitQueueCreation clientId priority o) ↔
      clientId ∈ s.registeredClients ∨ o.serverToClient = true ∧ o.clientToServer = true := by
  by_cases hc : clientId ∈ s.registeredClients
  · refine iff_of_true (fun fault _ => ?_) (.inl hc)
    simp only [call, visitQueueCreation, hc, if_true]
    exact .refl s
  · by_cases ho : o.serverToClient = true ∧ o.clientToServer = true
    · refine iff_of_true (fun fault hthrow => ?_) (.inr ho)
      simp [call, visitQueueCreation, hc, ho.1, ho.2] at hthrow
    · refine iff_of_false (fun h => ?_) (by simp [hc, ho])
      have hthrow : ∃ t, s.call (.visitQueueCreation clientId priority o) =
          (.error (.runtimeError "RegistrationVisitor: failed to open message queue"), t) ∧
          t.registeredClients = insert clientId s.registeredClients := by
        cases hopen : o.serverToClient with
        | false =>
          simp only [call, visitQueueCreation, hc, hopen, if_true, if_false]
          exact ⟨_, rfl, rfl⟩
        | true =>
          have hclient : o.clientToServer = false := by simpa [hopen] using ho
          simp only [call, visitQueueCreation, hc, hopen, hclient, if_true, if_false,
            Bool.true_eq_false]
          exact ⟨_, rfl, rfl⟩
      obtain ⟨t, ht, hregistered⟩ := hthrow
      have hsame := (h _ (by rw [ht])).registeredClients
      rw [ht, hregistered] at hsame
      exact hc (hsame ▸ Finset.mem_insert_self _ _)

/-- A deletion changes nothing before both queues are closed: in a consistent state
`operator[]` finds the keys, and the scheduler knows the client. -/
theorem traceless_visitQueueDeletion [IntCast κ] [Zero κ] [LT κ] [DecidableLT κ]
    {s : Registry κ} (h : Consistent s) (clientId : ℤ) (o : Outside) :
    s.Traceless (.visitQueueDeletion clientId o) := by
  intro fault hthrow
  by_cases hc : clientId ∈ s.registeredClients
  · have hblocking := UnorderedMap.emplace_of_mem (h.blocking clientId hc) false o.blocking
    have hnonBlocking :=
      UnorderedMap.emplace_of_mem (h.nonBlocking clientId hc) false o.nonBlocking
    have hdone := Scheduler.deregisterClient_eq (h.scheduled clientId hc)
    cases ho : o.serverToClient with
    | false =>
      simp only [call, visitQueueDeletion, hc, ho, hblocking, not_true_eq_false, if_false, if_true]
      exact .refl s
    | true =>
      cases ho' : o.clientToServer with
      | false =>
        simp only [call, visitQueueDeletion, hc, ho, ho', hblocking, hnonBlocking,
          not_true_eq_false, if_false, if_true, Bool.true_eq_false]
        exact ⟨rfl, fun d => by rw [UnorderedMap.keys_modify], fun _ => Iff.rfl, rfl, rfl, rfl⟩
      | true =>
        simp [call, visitQueueDeletion, hc, ho, ho', hdone] at hthrow
  · simp only [call, visitQueueDeletion, hc, not_false_eq_true, if_true]
    exact .refl s

theorem traceless_iff_clean [IntCast κ] [Zero κ] [LT κ] [DecidableLT κ] {s : Registry κ}
    (h : Consistent s) (x : Call) : s.Traceless x ↔ s.Clean x := by
  cases x with
  | enqueue clientId requestId fileSize p =>
    exact traceless_enqueue_iff s clientId requestId fileSize p
  | visitQueueCreation clientId priority o =>
    exact traceless_visitQueueCreation_iff s clientId priority o
  | visitQueueDeletion clientId o =>
    exact iff_of_true (traceless_visitQueueDeletion h clientId o) trivial

end Trace

section Reachable

variable [Add κ] [Sub κ] [Mul κ] [Div κ] [NatCast κ] [IntCast κ] [Zero κ] [LT κ] [DecidableLT κ]

/-- Calls that return, in any order, between the requests that workers take. No
exception is caught, so a throw ends the service. -/
def next (st : Strategy) (s : Registry κ) : Event → Option (Registry κ)
  | .call x =>
      match s.call x with
      | (.ok _, s') => some s'
      | (.error _, _) => none
  | .schedule =>
      if s.scheduler.requestCount = 0 then none
      else (s.scheduler.schedule st).toOption.map fun r => { s with scheduler := r.2 }

def machine (st : Strategy) (numWorkers : ℕ) : Machine (Registry κ) Event where
  start := init numWorkers
  next := next st

/-- A worker that takes a request leaves the clients registered. -/
theorem registered_schedule {st : Strategy} {t t' : Scheduler κ} {r : Request}
    (h : t.schedule st = .ok (r, t')) : t'.registered = t.registered := by
  cases st with
  | roundRobin =>
    obtain ⟨-, -, -, -, -, -, -, -, -, -, rfl⟩ := Scheduler.scheduleRoundRobin_cases h
    rfl
  | credit =>
    obtain ⟨k, c, s', -, hrun, rfl⟩ := Scheduler.scheduleCredit_cases h
    obtain ⟨rest, -, hsame⟩ := Scheduler.sameRequests_creditSchedule hrun
    exact hsame.keys

variable {s s' : Registry κ}

theorem Consistent.next (h : Consistent s) {st : Strategy} {e : Event}
    (hnext : s.next st e = some s') : Consistent s' := by
  cases e with
  | call x =>
    simp only [Registry.next] at hnext
    split at hnext
    · next u t hrun =>
      cases hnext
      cases x with
      | enqueue clientId requestId fileSize p => exact h.enqueue hrun
      | visitQueueCreation clientId priority o => exact h.visitQueueCreation hrun
      | visitQueueDeletion clientId o => exact h.visitQueueDeletion hrun
    · cases hnext
  | schedule =>
    simp only [Registry.next] at hnext
    split at hnext
    · cases hnext
    · cases hrun : s.scheduler.schedule st with
      | error fault => simp [hrun, Except.toOption] at hnext
      | ok served =>
        simp only [hrun, Except.toOption, Option.map_some, Option.some.injEq] at hnext
        subst hnext
        refine ⟨h.blocking, h.nonBlocking, fun d hd => ?_⟩
        rw [registered_schedule hrun]
        exact h.scheduled d hd

theorem consistent_of_reachable {st : Strategy} {numWorkers : ℕ}
    (h : (machine st numWorkers).Reachable s) : Consistent s :=
  h.invariant (consistent_init numWorkers) fun _ _ _ hs hnext => hs.next hnext

/-- In every state of the service, a call that throws leaves no trace exactly when
it is clean. -/
theorem traceless_iff {st : Strategy} {numWorkers : ℕ}
    (h : (machine st numWorkers).Reachable s) (x : Call) : s.Traceless x ↔ s.Clean x :=
  traceless_iff_clean (consistent_of_reachable h) x

end Reachable

/-- Both queues can be opened, or only the second one is missing. -/
def opens (clientToServer : Bool) : Outside :=
  ⟨true, clientToServer, 2, .splice 0, .splice 0, .splice 0⟩

/-- A client is registered; a second one has unlinked a queue before it is opened. -/
theorem traceless_iff_unlinked :
    ∃ s : Registry ℚ,
      (machine .credit NUM_WORKERS).run (init NUM_WORKERS)
        [.call (.visitQueueCreation 0 64 (opens true)), .call (.enqueue 0 0 100 (.splice 0))] =
          some s ∧
      ¬ s.Traceless (.visitQueueCreation 1 64 (opens false)) := by
  obtain ⟨s, hrun⟩ : ∃ s : Registry ℚ, (machine .credit NUM_WORKERS).run (init NUM_WORKERS)
      [.call (.visitQueueCreation 0 64 (opens true)), .call (.enqueue 0 0 100 (.splice 0))] =
        some s := ⟨_, rfl⟩
  have hreach := Machine.reachable_of_run hrun
  refine ⟨s, hrun, fun htrace => ?_⟩
  have hregistered : s.registeredClients = {0} := by
    cases hrun
    rfl
  have hclean := (traceless_iff hreach _).mp htrace
  simp [Clean, hregistered, opens] at hclean

/-- A client that is gone before its first queue is opened, and a request of a client
that never registered. -/
theorem failed_call_leaves_trace :
    let s : Registry ℚ := init NUM_WORKERS
    let creation : Call := .visitQueueCreation 0 64 ⟨false, false, 2, .splice 0, .splice 0, .splice 0⟩
    let request : Call := .enqueue 0 0 100 (.splice 0)
    (s.call creation).1 =
        .error (.runtimeError "RegistrationVisitor: failed to open message queue") ∧
      s.registeredClients = ∅ ∧ (s.call creation).2.registeredClients = {0} ∧
      (s.call creation).2.scheduler.registered = [0] ∧
      (s.call creation).2.blockingServerToClientQueues.keys = [0] ∧ ¬ s.Traceless creation ∧
      (s.call request).1 = .error (.runtimeError "Scheduler: clientId 0 not registered") ∧
      s.scheduler.requestCount = 0 ∧ (s.call request).2.scheduler.requestCount = 1 ∧
      ¬ s.Traceless request := by
  refine ⟨rfl, rfl, rfl, rfl, rfl, ?_, rfl, rfl, rfl, ?_⟩
  · intro htrace
    have hsame := (htrace _ rfl).registeredClients
    revert hsame
    decide
  · intro htrace
    have hsame := (htrace _ rfl).requestCount
    revert hsame
    decide

end Registry

end TinyFile
