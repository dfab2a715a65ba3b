import TinyFile.ConditionVariable
import TinyFile.System

/-!
# Sleeping and waking in the service

The workers wait on `requestMapCond` for a request and, with `requestMapMutex`
held, on `segmentCond` for memory. Every notification is a `notify_one`. A
critical section is one step, except that the notification at its end is a step
of its own, before which the mutex is not released. A wait checks its predicate,
and a sleeper may also wake without a notification. What a worker does with its
segment between `schedule` and the end of its handler is left out.
-/
namespace TinyFile

namespace Wakeup

/-- `ServiceFileCompressorWorker`: before the lock of `requestMapMutex`, asleep
on `requestMapCond`, awake again and without the mutex, before the lock of
`segmentMutex` with `requestMapMutex` held, asleep on `segmentCond` with
`requestMapMutex` held, with a handler, and before the notification of
`releaseShmSegment`. -/
inductive Worker where
  | idle
  | sleeping
  | woken
  | allocating (request : Request) (requestSize : ℕ)
  | starving (request : Request) (requestSize : ℕ)
  | processing (request : Request) (shmSegment : FragmentedShmSegment)
  | releasing
  deriving DecidableEq

end Wakeup

/-- The registration thread is `notifying` between the change of the request map
and the notification in `enqueue`. -/
structure Wakeup (κ : Type) where
  scheduler : Scheduler κ
  manager : ShmManager
  notifying : Bool
  workers : List Wakeup.Worker

namespace Wakeup

open ConditionVariable (notifyOne AtMostOne)

variable {κ : Type}

def Worker.holdsRequestMapMutex : Worker → Bool
  | .allocating _ _ | .starving _ _ => true
  | _ => false

def Worker.holdsSegmentMutex : Worker → Bool
  | .releasing => true
  | _ => false

/-- Asleep on `requestMapCond`. -/
def Worker.asleep : Worker → Bool
  | .sleeping => true
  | _ => false

/-- Asleep on `segmentCond`. -/
def Worker.starved : Worker → Bool
  | .starving _ _ => true
  | _ => false

/-- The end of a sleep, by a notification or without one. -/
def Worker.wake : Worker → Worker
  | .sleeping => .woken
  | .starving request requestSize => .allocating request requestSize
  | pc => pc

def requestMapMutexHeld (s : Wakeup κ) : Bool :=
  s.notifying || s.workers.any Worker.holdsRequestMapMutex

def segmentMutexHeld (s : Wakeup κ) : Bool := s.workers.any Worker.holdsSegmentMutex

def setWorker (s : Wakeup κ) (w : ℕ) (pc : Worker) : Wakeup κ :=
  { s with workers := s.workers.set w pc }

def init (cfg : Config) : Wakeup κ where
  scheduler := Scheduler.init cfg.serviceWorkers
  manager := cfg.manager
  notifying := false
  workers := List.replicate cfg.serviceWorkers .idle

section Registration

/-- `registerClient`. -/
def registerClient [IntCast κ] (s : Wakeup κ) (c priority : ℤ) (p : Placement ℤ) :
    Option (Wakeup κ) :=
  if s.requestMapMutexHeld then none
  else some { s with scheduler := s.scheduler.registerClient c priority p }

/-- `deregisterClient`. -/
def deregisterClient (s : Wakeup κ) (c : ℤ) : Option (Wakeup κ) :=
  if s.requestMapMutexHeld then none
  else (s.scheduler.deregisterClient c).toOption.map
    (fun scheduler => { s with scheduler := scheduler })

/-- `enqueue` up to its notification; for an unknown client it throws. -/
def enqueue [Zero κ] [LT κ] [DecidableLT κ] (s : Wakeup κ) (c requestId : ℤ) (fileSize : ℕ)
    (p : Placement ℤ) : Option (Wakeup κ) :=
  if s.requestMapMutexHeld then none
  else
    match s.scheduler.enqueue c requestId fileSize p with
    | (.ok _, scheduler) => some { s with scheduler := scheduler, notifying := true }
    | (.error _, _) => none

/-- `requestMapCond.notify_one()` and the unlock. -/
def notifyRequestMapCond (s : Wakeup κ) (sleeper : Option ℕ) : Option (Wakeup κ) :=
  if s.notifying then
    (notifyOne Worker.asleep Worker.wake s.workers sleeper).map
      (fun workers => { s with workers := workers, notifying := false })
  else none

end Registration

section Workers

/-- The critical section of `schedule` up to `getShmSegment`, entered for the
first time or after a sleep: the worker sleeps without a request, else it picks
one. -/
def schedule [Add κ] [Sub κ] [Mul κ] [Div κ] [NatCast κ] [IntCast κ] [Zero κ] [LT κ]
    [DecidableLT κ] (cfg : Config) (s : Wakeup κ) (w : ℕ) : Option (Wakeup κ) :=
  match s.workers[w]? with
  | some .idle | some .woken =>
      if s.requestMapMutexHeld then none
      else if s.scheduler.requestCount = 0 then some (s.setWorker w .sleeping)
      else
        match s.scheduler.schedule cfg.strategy with
        | .error _ => none
        | .ok (request, scheduler) => some
            { s.setWorker w (.allocating request (Scheduler.handlerShmSize s.manager
                scheduler.requestCount cfg.serviceWorkers request.fileSize cfg.strategy)) with
              scheduler := scheduler }
  | _ => none

/-- The critical section of `getShmSegment(size)`; a grant ends `schedule`, and
both mutexes are free. -/
def allocate (s : Wakeup κ) (w : ℕ) : Option (Wakeup κ) :=
  match s.workers[w]? with
  | some (.allocating request requestSize) =>
      if s.segmentMutexHeld then none
      else
        match s.manager.getShmSegment requestSize with
        | .error _ => none
        | .ok none => some (s.setWorker w (.starving request requestSize))
        | .ok (some (shmSegment, manager)) =>
            some { s.setWorker w (.processing request shmSegment) with manager := manager }
  | _ => none

/-- The worker destroys its handler, `releaseShmSegment` up to its notification. -/
def destroyHandler (s : Wakeup κ) (w : ℕ) : Option (Wakeup κ) :=
  match s.workers[w]? with
  | some (.processing _ shmSegment) =>
      if s.segmentMutexHeld then none
      else some
        { s.setWorker w .releasing with
          manager := s.manager.releaseShmSegment shmSegment.getSegmentIds }
  | _ => none

/-- `segmentCond.notify_one()` and the unlock. -/
def notifySegmentCond (s : Wakeup κ) (w : ℕ) (sleeper : Option ℕ) : Option (Wakeup κ) :=
  match s.workers[w]? with
  | some .releasing =>
      (notifyOne Worker.starved Worker.wake (s.workers.set w .idle) sleeper).map
        (fun workers => { s with workers := workers })
  | _ => none

/-- A sleeper wakes without a notification. -/
def wakeSpuriously (s : Wakeup κ) (w : ℕ) : Option (Wakeup κ) :=
  match s.workers[w]? with
  | some pc => if pc.asleep ∨ pc.starved then some (s.setWorker w pc.wake) else none
  | none => none

end Workers

inductive Event where
  | registerClient (c priority : ℤ) (p : Placement ℤ)
  | deregisterClient (c : ℤ)
  | enqueue (c requestId : ℤ) (fileSize : ℕ) (p : Placement ℤ)
  | notifyRequestMapCond (sleeper : Option ℕ)
  | schedule (w : ℕ)
  | allocate (w : ℕ)
  | destroyHandler (w : ℕ)
  | notifySegmentCond (w : ℕ) (sleeper : Option ℕ)
  | wakeSpuriously (w : ℕ)

section Machine

variable [Add κ] [Sub κ] [Mul κ] [Div κ] [NatCast κ] [IntCast κ] [Zero κ] [LT κ] [DecidableLT κ]

def next (cfg : Config) (s : Wakeup κ) : Event → Option (Wakeup κ)
  | .registerClient c priority p => s.registerClient c priority p
  | .deregisterClient c => s.deregisterClient c
  | .enqueue c requestId fileSize p => s.enqueue c requestId fileSize p
  | .notifyRequestMapCond sleeper => s.notifyRequestMapCond sleeper
  | .schedule w => s.schedule cfg w
  | .allocate w => s.allocate w
  | .destroyHandler w => s.destroyHandler w
  | .notifySegmentCond w sleeper => s.notifySegmentCond w sleeper
  | .wakeSpuriously w => s.wakeSpuriously w

def machine (cfg : Config) : Machine (Wakeup κ) Event where
  start := init cfg
  next := next cfg

end Machine

/-- The registration thread is about to notify `requestMapCond`, or a worker has
been woken and is about to look at the request map. -/
def RequestWakeupPending (s : Wakeup κ) : Prop :=
  s.notifying = true ∨ Worker.woken ∈ s.workers

/-- A worker is about to notify `segmentCond`. -/
def SegmentWakeupPending (s : Wakeup κ) : Prop := Worker.releasing ∈ s.workers

/-- Who holds which mutex, and who may sleep. -/
structure Invariant (s : Wakeup κ) : Prop where
  requestMapMutex : AtMostOne Worker.holdsRequestMapMutex s.workers
  registration : s.notifying = true → ∀ pc ∈ s.workers, pc.holdsRequestMapMutex = false
  awake : 0 < s.scheduler.requestCount → s.workers ≠ [] →
    s.notifying = true ∨ ∃ pc ∈ s.workers, pc.asleep = false
  starving : ∀ request requestSize, Worker.starving request requestSize ∈ s.workers →
    s.manager.availableSize < requestSize ∨ s.SegmentWakeupPending

section Steps

variable {s s' : Wakeup κ}

theorem free_of_not_held (h : ¬ s.requestMapMutexHeld = true) :
    s.notifying = false ∧ ∀ pc ∈ s.workers, pc.holdsRequestMapMutex = false := by
  simp only [requestMapMutexHeld, Bool.or_eq_true, List.any_eq_true, not_or, not_exists, not_and,
    Bool.not_eq_true] at h
  exact h

theorem asleep_wake (pc : Worker) : pc.wake.asleep = false := by cases pc <;> rfl

theorem starved_wake (pc : Worker) : pc.wake.starved = false := by cases pc <;> rfl

theorem holds_wake (pc : Worker) : pc.wake.holdsRequestMapMutex = pc.holdsRequestMapMutex := by
  cases pc <;> rfl

/-- A worker other than the one that moves stays. -/
theorem mem_set_of_ne {l : List Worker} {w : ℕ} {a b pc : Worker} (hw : l[w]? = some a)
    (hb : b ∈ l) (hne : b ≠ a) : b ∈ l.set w pc := by
  obtain ⟨j, hj⟩ := List.mem_iff_getElem?.mp hb
  have hjw : w ≠ j := by
    rintro rfl
    exact hne (Option.some.inj (hj.symm.trans hw))
  exact List.mem_of_getElem? (by rw [List.getElem?_set_ne hjw, hj])

theorem SegmentWakeupPending.set (h : s.SegmentWakeupPending) {w : ℕ} {a pc : Worker}
    (hw : s.workers[w]? = some a) (ha : a ≠ .releasing)
    (hs' : s'.workers = s.workers.set w pc) : s'.SegmentWakeupPending := by
  rw [SegmentWakeupPending, hs']
  exact mem_set_of_ne hw h (Ne.symm ha)

/-- One worker moves, with the request map or the pool or neither. -/
theorem Invariant.setWorker (h : Invariant s) {w : ℕ} {a pc : Worker}
    (hw : s.workers[w]? = some a) (hworkers : s'.workers = s.workers.set w pc)
    (hnotifying : s'.notifying = s.notifying)
    (hholds : pc.holdsRequestMapMutex = true → a.holdsRequestMapMutex = true ∨
      s.notifying = false ∧ ∀ b ∈ s.workers, b.holdsRequestMapMutex = false)
    (hasleep : pc.asleep = true → s'.scheduler.requestCount = 0)
    (hstarving : ∀ request requestSize, Worker.starving request requestSize ∈ s'.workers →
      s'.manager.availableSize < requestSize ∨ s'.SegmentWakeupPending) : Invariant s' where
  requestMapMutex := by
    rw [hworkers]
    exact h.requestMapMutex.set hw fun hpc => (hholds hpc).imp_right And.right
  registration := by
    intro hn b hb
    rw [hnotifying] at hn
    rw [hworkers] at hb
    rcases List.mem_or_eq_of_mem_set hb with hb | rfl
    · exact h.registration hn b hb
    · by_contra hhold
      rcases hholds (by simpa using hhold) with ha | ⟨hno, -⟩
      · simp [h.registration hn a (List.mem_of_getElem? hw)] at ha
      · simp [hno] at hn
  awake := by
    intro hpos _
    refine Or.inr ⟨pc, hworkers ▸ ConditionVariable.mem_set_self hw pc, ?_⟩
    by_contra hs
    have hzero := hasleep (by simpa using hs)
    omega
  starving := hstarving

/-- The sleepers on `segmentCond`, when a worker moves that is not one of them
and the pool stays. -/
theorem Invariant.starving_set (h : Invariant s) {w : ℕ} {a pc : Worker}
    (hw : s.workers[w]? = some a) (ha : a ≠ .releasing)
    (hworkers : s'.workers = s.workers.set w pc) (hmanager : s'.manager = s.manager)
    (hpc : ∀ request requestSize, pc = .starving request requestSize →
      s.manager.availableSize < requestSize) (request : Request) (requestSize : ℕ)
    (hmem : Worker.starving request requestSize ∈ s'.workers) :
    s'.manager.availableSize < requestSize ∨ s'.SegmentWakeupPending := by
  rw [hworkers] at hmem
  rw [hmanager]
  rcases List.mem_or_eq_of_mem_set hmem with hold | heq
  · exact (h.starving request requestSize hold).imp_right fun hp => hp.set hw ha hworkers
  · exact Or.inl (hpc request requestSize heq.symm)

theorem invariant_init (cfg : Config) : Invariant (init cfg : Wakeup κ) where
  requestMapMutex := by
    intro j k a b hj _ ha _
    rw [List.eq_of_mem_replicate (List.mem_of_getElem? hj)] at ha
    cases ha
  registration := fun hn => by cases hn
  awake := fun hpos => by cases hpos
  starving := fun request requestSize hmem => by cases List.eq_of_mem_replicate hmem

theorem invariant_enqueue [Zero κ] [LT κ] [DecidableLT κ] {c requestId : ℤ} {fileSize : ℕ}
    {p : Placement ℤ} (h : Invariant s) (hstep : s.enqueue c requestId fileSize p = some s') :
    Invariant s' := by
  unfold enqueue at hstep
  split_ifs at hstep with hheld
  split at hstep <;> cases hstep
  obtain ⟨-, hfree⟩ := free_of_not_held hheld
  exact ⟨h.requestMapMutex, fun _ => hfree, fun _ _ => Or.inl rfl, h.starving⟩

/-- A change of the clients does not change `requestCount`. -/
theorem Invariant.scheduler (h : Invariant s) {scheduler : Scheduler κ}
    (hcount : scheduler.requestCount = s.scheduler.requestCount) :
    Invariant { s with scheduler := scheduler } :=
  ⟨h.requestMapMutex, h.registration, fun hpos hne => h.awake (hcount ▸ hpos) hne, h.starving⟩

theorem invariant_registerClient [IntCast κ] {c priority : ℤ} {p : Placement ℤ} (h : Invariant s)
    (hstep : s.registerClient c priority p = some s') : Invariant s' := by
  unfold registerClient at hstep
  split_ifs at hstep
  cases hstep
  exact h.scheduler rfl

theorem invariant_deregisterClient {c : ℤ} (h : Invariant s)
    (hstep : s.deregisterClient c = some s') : Invariant s' := by
  unfold deregisterClient at hstep
  split_ifs at hstep
  obtain ⟨t, ht, rfl⟩ := Option.map_eq_some_iff.mp hstep
  refine h.scheduler ?_
  unfold Scheduler.deregisterClient at ht
  split at ht <;> cases ht
  rfl

/-- A notification leaves the mutexes with their holders. -/
theorem holds_notifyOne {asleep : Worker → Bool} {l l' : List Worker} {sleeper : Option ℕ}
    (h : notifyOne asleep Worker.wake l sleeper = some l')
    (hone : AtMostOne Worker.holdsRequestMapMutex l) :
    AtMostOne Worker.holdsRequestMapMutex l' ∧
      ((∀ pc ∈ l, pc.holdsRequestMapMutex = false) →
        ∀ pc ∈ l', pc.holdsRequestMapMutex = false) := by
  rcases ConditionVariable.notifyOne_cases h with ⟨rfl, -⟩ | ⟨j, a, hj, -, rfl⟩
  · exact ⟨hone, id⟩
  · refine ⟨hone.set hj fun ha => Or.inl (holds_wake a ▸ ha), fun hnone pc hpc => ?_⟩
    rcases List.mem_or_eq_of_mem_set hpc with hpc | rfl
    · exact hnone pc hpc
    · rw [holds_wake]
      exact hnone a (List.mem_of_getElem? hj)

theorem invariant_notifyRequestMapCond {sleeper : Option ℕ} (h : Invariant s)
    (hstep : s.notifyRequestMapCond sleeper = some s') : Invariant s' := by
  unfold notifyRequestMapCond at hstep
  split_ifs at hstep with hn
  obtain ⟨l, hl, rfl⟩ := Option.map_eq_some_iff.mp hstep
  obtain ⟨hone, -⟩ := holds_notifyOne hl h.requestMapMutex
  refine ⟨hone, fun hno => absurd hno Bool.false_ne_true, fun _ hne => Or.inr ?_, ?_⟩
  · refine ConditionVariable.exists_awake asleep_wake ?_ hl
    rintro hnil
    rw [hnil] at hl
    rcases ConditionVariable.notifyOne_cases hl with ⟨hsame, -⟩ | ⟨j, a, hj, -⟩
    · exact hne hsame
    · simp at hj
  · intro request requestSize hmem
    rcases ConditionVariable.notifyOne_cases hl with ⟨rfl, -⟩ | ⟨j, a, hj, ha, rfl⟩
    · exact h.starving request requestSize hmem
    · obtain rfl : a = .sleeping := by cases a <;> simp_all [Worker.asleep]
      exact @Invariant.starving_set κ s
        { s with workers := s.workers.set j .woken, notifying := false } h j .sleeping .woken hj
        (by simp) rfl rfl (by simp) request requestSize hmem

theorem invariant_schedule [Add κ] [Sub κ] [Mul κ] [Div κ] [NatCast κ] [IntCast κ] [Zero κ] [LT κ]
    [DecidableLT κ] {cfg : Config} {w : ℕ} (h : Invariant s)
    (hstep : s.schedule cfg w = some s') : Invariant s' := by
  have hmove : ∀ a : Worker, s.workers[w]? = some a → a = .idle ∨ a = .woken →
      (if s.requestMapMutexHeld then none
      else if s.scheduler.requestCount = 0 then some (s.setWorker w .sleeping)
      else
        match s.scheduler.schedule cfg.strategy with
        | .error _ => none
        | .ok (request, scheduler) => some
            { s.setWorker w (.allocating request (Scheduler.handlerShmSize s.manager
                scheduler.requestCount cfg.serviceWorkers request.fileSize cfg.strategy)) with
              scheduler := scheduler }) = some s' → Invariant s' := by
    intro a hw ha hrun
    have hnot : a ≠ .releasing := by rcases ha with rfl | rfl <;> simp
    split_ifs at hrun with hheld hzero
    · cases hrun
      refine h.setWorker hw rfl rfl (fun hpc => by cases hpc) (fun _ => hzero) ?_
      exact h.starving_set hw hnot rfl rfl (by simp)
    · split at hrun <;> cases hrun
      refine h.setWorker hw rfl rfl (fun _ => Or.inr (free_of_not_held hheld))
        (fun hpc => by cases hpc) ?_
      exact h.starving_set hw hnot rfl rfl (by simp)
  unfold schedule at hstep
  split at hstep
  · next hw => exact hmove _ hw (Or.inl rfl) hstep
  · next hw => exact hmove _ hw (Or.inr rfl) hstep
  · cases hstep

/-- The wait of `getShmSegment(size)` begins when too little is available. -/
theorem availableSize_of_wait {m : ShmManager} {requestSize : ℕ}
    (h : m.getShmSegment requestSize = .ok none) : m.availableSize < requestSize := by
  unfold ShmManager.getShmSegment at h
  split_ifs at h with _ hlt
  · exact hlt
  · simp at h

theorem invariant_allocate {w : ℕ} (h : Invariant s) (hstep : s.allocate w = some s') :
    Invariant s' := by
  unfold allocate at hstep
  split at hstep
  · next request requestSize hw =>
    split_ifs at hstep
    split at hstep
    · cases hstep
    · next hwait =>
      cases hstep
      refine h.setWorker hw rfl rfl (fun _ => Or.inl rfl) (fun hpc => by cases hpc) ?_
      refine h.starving_set hw (by simp) rfl rfl fun r n heq => ?_
      cases heq
      exact availableSize_of_wait hwait
    · cases hstep
      refine h.setWorker hw rfl rfl (fun hpc => by cases hpc) (fun hpc => by cases hpc) ?_
      -- the worker held `requestMapMutex`, so nobody else waits for memory
      intro r n hmem
      exfalso
      rcases List.mem_or_eq_of_mem_set hmem with hold | heq
      · obtain ⟨j, hj⟩ := List.mem_iff_getElem?.mp hold
        obtain rfl := h.requestMapMutex j w _ _ hj hw rfl rfl
        rw [hj] at hw
        cases hw
      · cases heq
  · cases hstep

theorem invariant_destroyHandler {w : ℕ} (h : Invariant s)
    (hstep : s.destroyHandler w = some s') : Invariant s' := by
  unfold destroyHandler at hstep
  split at hstep
  · next request shmSegment hw =>
    split_ifs at hstep
    cases hstep
    refine h.setWorker hw rfl rfl (fun hpc => by cases hpc) (fun hpc => by cases hpc) ?_
    exact fun _ _ _ => Or.inr (ConditionVariable.mem_set_self hw _)
  · cases hstep

/-- `requestMapMutex` admits one sleeper on `segmentCond`, so the notification
reaches the one that there may be. -/
theorem invariant_notifySegmentCond {w : ℕ} {sleeper : Option ℕ} (h : Invariant s)
    (hstep : s.notifySegmentCond w sleeper = some s') : Invariant s' := by
  unfold notifySegmentCond at hstep
  split at hstep
  · next hw =>
    obtain ⟨l, hl, rfl⟩ := Option.map_eq_some_iff.mp hstep
    have hset : AtMostOne Worker.holdsRequestMapMutex (s.workers.set w .idle) :=
      h.requestMapMutex.set hw fun hpc => by cases hpc
    obtain ⟨hone, hnone⟩ := holds_notifyOne hl hset
    have hstarved : AtMostOne Worker.starved (s.workers.set w .idle) :=
      hset.mono fun pc hpc => by cases pc <;> simp_all [Worker.starved, Worker.holdsRequestMapMutex]
    have hfed := ConditionVariable.all_awake starved_wake hstarved hl
    refine ⟨hone, fun hn => hnone fun pc hpc => ?_, fun _ _ => Or.inr ?_, ?_⟩
    · rcases List.mem_or_eq_of_mem_set hpc with hpc | rfl
      · exact h.registration hn pc hpc
      · rfl
    · rcases ConditionVariable.notifyOne_cases hl with ⟨rfl, -⟩ | ⟨j, a, hj, -, rfl⟩
      · exact ⟨.idle, ConditionVariable.mem_set_self hw _, rfl⟩
      · exact ⟨a.wake, ConditionVariable.mem_set_self hj _, asleep_wake a⟩
    · intro request requestSize hmem
      cases hfed _ hmem
  · cases hstep

theorem invariant_wakeSpuriously {w : ℕ} (h : Invariant s)
    (hstep : s.wakeSpuriously w = some s') : Invariant s' := by
  unfold wakeSpuriously at hstep
  split at hstep
  · next pc hw =>
    split_ifs at hstep with hsleeps
    cases hstep
    have hnot : pc ≠ .releasing := by
      rintro rfl
      simp [Worker.asleep, Worker.starved] at hsleeps
    refine h.setWorker hw rfl rfl (fun hpc => Or.inl (holds_wake pc ▸ hpc))
      (fun hpc => by simp [asleep_wake] at hpc) ?_
    refine h.starving_set hw hnot rfl rfl fun request requestSize heq => ?_
    have hawake := starved_wake pc
    rw [heq] at hawake
    cases hawake
  · cases hstep

end Steps

section Runs

variable [Add κ] [Sub κ] [Mul κ] [Div κ] [NatCast κ] [IntCast κ] [Zero κ] [LT κ] [DecidableLT κ]

theorem invariant_next {cfg : Config} {s s' : Wakeup κ} {e : Event} (h : Invariant s)
    (hnext : next cfg s e = some s') : Invariant s' := by
  cases e with
  | registerClient => exact invariant_registerClient h hnext
  | deregisterClient => exact invariant_deregisterClient h hnext
  | enqueue => exact invariant_enqueue h hnext
  | notifyRequestMapCond => exact invariant_notifyRequestMapCond h hnext
  | schedule => exact invariant_schedule h hnext
  | allocate => exact invariant_allocate h hnext
  | destroyHandler => exact invariant_destroyHandler h hnext
  | notifySegmentCond => exact invariant_notifySegmentCond h hnext
  | wakeSpuriously => exact invariant_wakeSpuriously h hnext

theorem invariant_of_reachable {cfg : Config} {s : Wakeup κ} (h : (machine cfg).Reachable s) :
    Invariant s := h.invariant (invariant_init cfg) fun _ _ _ hs ht => invariant_next hs ht

/-- No wakeup is lost. While a request is pending, the workers do not all sleep
on `requestMapCond` without a wakeup on its way; and nobody sleeps on
`segmentCond` without one although its segment is available. -/
theorem no_lost_wakeup {cfg : Config} {s : Wakeup κ} (h : (machine cfg).Reachable s) :
    (∀ w : ℕ, s.workers[w]? = some .sleeping → 0 < s.scheduler.requestCount →
      s.RequestWakeupPending ∨ ∃ pc ∈ s.workers, pc ≠ .sleeping) ∧
    ∀ (w : ℕ) request requestSize, s.workers[w]? = some (.starving request requestSize) →
      requestSize ≤ s.manager.availableSize → s.SegmentWakeupPending := by
  have hinv := invariant_of_reachable h
  constructor
  · intro w hw hpos
    rcases hinv.awake hpos (List.ne_nil_of_mem (List.mem_of_getElem? hw)) with hn | ⟨pc, hpc, hs⟩
    · exact Or.inl (Or.inl hn)
    · refine Or.inr ⟨pc, hpc, ?_⟩
      rintro rfl
      cases hs
  · intro w request requestSize hw hle
    rcases hinv.starving request requestSize (List.mem_of_getElem? hw) with hlt | hp
    · omega
    · exact hp

end Runs

/-- A worker sleeps and a request arrives. -/
def requestArrives : List Event :=
  [.registerClient 0 64 (.splice 0), .schedule 1, .enqueue 0 0 8 (.splice 0)]

/-- A second request starves while the first one has the only segment, which is
then released. -/
def segmentReleased : List Event :=
  requestArrives ++ [.notifyRequestMapCond (some 1), .enqueue 0 1 8 (.splice 0),
    .notifyRequestMapCond none, .schedule 0, .allocate 0, .schedule 1, .allocate 1,
    .destroyHandler 0]

theorem no_lost_wakeup_one_segment :
    ∃ s t : Wakeup ℚ, (machine (System.smallService fun _ => 1)).Reachable s ∧
      s.workers[1]? = some .sleeping ∧ s.scheduler.requestCount = 1 ∧
      (s.RequestWakeupPending ∨ ∃ pc ∈ s.workers, pc ≠ .sleeping) ∧
      (machine (System.smallService fun _ => 1)).Reachable t ∧
      t.workers[1]? = some (.starving ⟨0, 1, 8⟩ 32) ∧ t.manager.availableSize = 32 ∧
      t.SegmentWakeupPending := by
  have hs : ((machine (System.smallService fun _ => 1) : Machine (Wakeup ℚ) Event).run
      (init (System.smallService fun _ => 1)) requestArrives).map
      (fun s => (s.workers[1]?, s.scheduler.requestCount)) = some (some .sleeping, 1) := by
    decide +kernel
  have ht : ((machine (System.smallService fun _ => 1) : Machine (Wakeup ℚ) Event).run
      (init (System.smallService fun _ => 1)) segmentReleased).map
      (fun t => (t.workers[1]?, t.manager.availableSize)) =
        some (some (.starving ⟨0, 1, 8⟩ 32), 32) := by decide +kernel
  obtain ⟨s, hrun, hview⟩ := Option.map_eq_some_iff.mp hs
  obtain ⟨t, hrun', hview'⟩ := Option.map_eq_some_iff.mp ht
  obtain ⟨hsleeping, hcount⟩ := Prod.mk.inj hview
  obtain ⟨hstarving, havailable⟩ := Prod.mk.inj hview'
  have hreach := Machine.reachable_of_run hrun
  have hreach' := Machine.reachable_of_run hrun'
  exact ⟨s, t, hreach, hsleeping, hcount,
    (no_lost_wakeup hreach).1 1 hsleeping (by omega), hreach', hstarving, havailable,
    (no_lost_wakeup hreach').2 1 _ _ hstarving havailable.ge⟩

end Wakeup

end TinyFile
