import TinyFile.Machine
import TinyFile.Scheduler
import TinyFile.ShmManager

/-!
# The size of a response

How large a segment a request gets, and how long the message is that names its
virtual segments. The message lists one id for each, so its length is decided by
the size that the scheduler selects, and that grows with the pool.
-/
namespace TinyFile

namespace MQServerRequestMessage

/-- `getContentSize`: the message type, the request id, the count and the ids. -/
def getContentSize (shmSegmentIds : List ℕ) : ℕ := 4 + 4 + 8 + 4 * shmSegmentIds.length

end MQServerRequestMessage

namespace RegistrationVisitor

/-- The first check of `writeBlocking`. -/
def checkSize (size : ℕ) : Except Fault Unit :=
  if CLIENT_MSG_SIZE < size then
    .error (.runtimeError "RegistrationVisitor: message too large")
  else .ok ()

/-- A response fits its queue when it names no more than 1532 ids. -/
theorem checkSize_iff (shmSegmentIds : List ℕ) :
    checkSize (MQServerRequestMessage.getContentSize shmSegmentIds) = .ok () ↔
      shmSegmentIds.length ≤ 1532 := by
  rw [checkSize, MQServerRequestMessage.getContentSize, CLIENT_MSG_SIZE]
  split_ifs with hlt
  · simp only [false_iff]
    omega
  · simp only [true_iff]
    omega

end RegistrationVisitor

namespace Scheduler

/-- How many internal segments a size takes, rounded up in `size_t`. -/
def blocks (m : ShmManager) (size : ℕ) : ℕ :=
  SizeT.sub (SizeT.add size m.internalRepSize) 1 / m.internalRepSize

/-- What both strategies compute: the file's size, but no more than a share of
the pool, and at least one internal segment. -/
def selectShmSize (m : ShmManager) (requestCount numWorkers fileSize : ℕ) : ℕ :=
  max m.internalRepSize
    (min (SizeT.mul (blocks m (m.size / SizeT.add requestCount numWorkers)) m.internalRepSize)
      (SizeT.mul (blocks m fileSize) m.internalRepSize))

def selectRoundRobinShmSize (m : ShmManager) (requestCount numWorkers fileSize : ℕ) : ℕ :=
  selectShmSize m requestCount numWorkers fileSize

def selectCreditShmSize (m : ShmManager) (requestCount numWorkers fileSize : ℕ) : ℕ :=
  selectShmSize m requestCount numWorkers fileSize

/-- The size that the handler of a picked request asks for. -/
def handlerShmSize (m : ShmManager) (requestCount numWorkers fileSize : ℕ) : Strategy → ℕ
  | .roundRobin => selectRoundRobinShmSize m requestCount numWorkers fileSize
  | .credit => selectCreditShmSize m requestCount numWorkers fileSize

theorem mul_blocks (m : ShmManager) (size : ℕ) :
    SizeT.mul (blocks m size) m.internalRepSize = blocks m size * m.internalRepSize := by
  refine SizeT.mul_of_lt ?_
  have := Nat.div_mul_le_self (SizeT.sub (SizeT.add size m.internalRepSize) 1) m.internalRepSize
  have := SizeT.sub_lt (SizeT.add size m.internalRepSize) 1
  rw [blocks]
  omega

/-- The number of internal segments that a request is given. -/
def grantedBlocks (m : ShmManager) (requestCount numWorkers fileSize : ℕ) : ℕ :=
  max 1 (min (blocks m (m.size / SizeT.add requestCount numWorkers)) (blocks m fileSize))

theorem blocks_le {m : ShmManager} (hrep : 0 < m.internalRepSize) {size size' : ℕ}
    (hle : size ≤ size') (hsmall : size' + m.internalRepSize < SizeT.modulus) :
    blocks m size ≤ blocks m size' := by
  rw [blocks, blocks, SizeT.add_of_lt (by omega), SizeT.add_of_lt hsmall,
    SizeT.sub_of_le (by omega) (by omega), SizeT.sub_of_le (by omega) (by omega)]
  exact Nat.div_le_div_right (by omega)

theorem handlerShmSize_eq (m : ShmManager) (requestCount numWorkers fileSize : ℕ) (st : Strategy) :
    handlerShmSize m requestCount numWorkers fileSize st =
      m.internalRepSize * grantedBlocks m requestCount numWorkers fileSize := by
  have h : selectShmSize m requestCount numWorkers fileSize =
      m.internalRepSize * grantedBlocks m requestCount numWorkers fileSize := by
    rw [selectShmSize, mul_blocks, mul_blocks, grantedBlocks, Nat.mul_min_mul_right,
      Nat.mul_comm m.internalRepSize, ← Nat.mul_max_mul_right, Nat.one_mul]
  cases st <;> exact h

end Scheduler

/-- The service's pool with the segments it has handed out. -/
structure Pool where
  manager : ShmManager
  outstanding : List FragmentedShmSegment

namespace Pool

inductive Event where
  | getShmSegment (requestSize : ℕ)
  | destroy (index : ℕ)

def next (p : Pool) : Event → Option Pool
  | .getShmSegment requestSize =>
      match p.manager.getShmSegment requestSize with
      | .ok (some (gs, m)) => some ⟨m, gs :: p.outstanding⟩
      | _ => none
  | .destroy index => p.outstanding[index]?.map fun gs =>
      ⟨p.manager.releaseShmSegment gs.getSegmentIds, p.outstanding.eraseIdx index⟩

def machine (m : ShmManager) : Machine Pool Event where
  start := ⟨m, []⟩
  next := next

/-- Everything outstanding, segment after segment. -/
def held (p : Pool) : List ContiguousShmSegment := p.outstanding.flatten

theorem getShmSegment_cases {m : ShmManager} {requestSize : ℕ} {gs : FragmentedShmSegment}
    {m' : ShmManager} (h : m.getShmSegment requestSize = .ok (some (gs, m'))) :
    requestSize % m.internalRepSize = 0 ∧ requestSize ≤ m.availableSize := by
  rw [ShmManager.getShmSegment] at h
  split_ifs at h with h₁ h₂
  · simp at h
  · simp only [not_not] at h₁
    exact ⟨h₁, by omega⟩

/-- A grant from a pool, as `getShmSegment_spec` describes it. -/
theorem grant_spec {m m' : ShmManager} {held : List ContiguousShmSegment}
    (h : m.PoolInvariant held) {requestSize : ℕ} {gs : FragmentedShmSegment}
    (hgrant : m.getShmSegment requestSize = .ok (some (gs, m'))) :
    m.internalRepSize * gs.length = requestSize ∧ m'.PoolInvariant (gs ++ held) ∧
      m.SamePool m' := by
  obtain ⟨hmul, hle⟩ := getShmSegment_cases hgrant
  obtain ⟨gs₁, m₁, hgrant₁, hlen, hinv, hsame⟩ := ShmManager.getShmSegment_spec h hmul hle
  rw [hgrant] at hgrant₁
  cases hgrant₁
  exact ⟨hlen, hinv, hsame⟩

theorem invariant_next {p q : Pool} {e : Event} (h : p.manager.PoolInvariant p.held)
    (hq : p.next e = some q) :
    q.manager.PoolInvariant q.held ∧ p.manager.SamePool q.manager := by
  cases e with
  | getShmSegment requestSize =>
    simp only [next] at hq
    split at hq
    · next gs m hgrant =>
      cases hq
      obtain ⟨-, hinv, hsame⟩ := grant_spec h hgrant
      exact ⟨hinv, hsame⟩
    · cases hq
  | destroy index =>
    obtain ⟨gs, hgs, rfl⟩ := Option.map_eq_some_iff.mp hq
    obtain ⟨hlt, hget⟩ := List.getElem?_eq_some_iff.mp hgs
    have hperm : p.held.Perm (gs ++ (p.outstanding.eraseIdx index).flatten) := by
      have := (List.getElem_cons_eraseIdx_perm hlt).flatten
      rw [hget, List.flatten_cons] at this
      exact this.symm
    exact ⟨(h.perm hperm).release, ShmManager.samePool_release _ _⟩

theorem invariant_of_reachable {n s r : ℕ} (hr : 0 < r) {m : ShmManager}
    (hinit : ShmManager.init n s r = some m) {p : Pool} (h : (machine m).Reachable p) :
    p.manager.PoolInvariant p.held ∧ m.SamePool p.manager := by
  have hstart : m.PoolInvariant [] := ShmManager.poolInvariant_init hr hinit
  induction h with
  | start => exact ⟨hstart, .refl m⟩
  | step _ hnext _ ih =>
    obtain ⟨hinv, hsame⟩ := invariant_next ih.1 hnext
    exact ⟨hinv, ih.2.trans hsame⟩

end Pool

open Scheduler in
/-- The response to a request fits its queue exactly when the share of the pool
or the file takes no more than 1532 internal segments. -/
theorem response_fits_iff {n s : ℕ} {m : ShmManager}
    (hinit : ShmManager.init n s INTERNAL_REP_SIZE = some m) {p : Pool}
    (hp : (Pool.machine m).Reachable p) {st : Strategy} {requestCount numWorkers fileSize : ℕ}
    {gs : FragmentedShmSegment} {m' : ShmManager}
    (hgrant : p.manager.getShmSegment
      (handlerShmSize p.manager requestCount numWorkers fileSize st) = .ok (some (gs, m'))) :
    (MQServerRequestMessage.getContentSize gs.getSegmentIds ≤ CLIENT_MSG_SIZE ↔
      min (blocks p.manager (p.manager.size / SizeT.add requestCount numWorkers))
        (blocks p.manager fileSize) ≤ 1532) ∧
    (RegistrationVisitor.checkSize (MQServerRequestMessage.getContentSize gs.getSegmentIds) =
        .ok () ↔
      min (blocks p.manager (p.manager.size / SizeT.add requestCount numWorkers))
        (blocks p.manager fileSize) ≤ 1532) := by
  have hrep32 : 0 < INTERNAL_REP_SIZE := by decide
  obtain ⟨hinv, hsame⟩ := Pool.invariant_of_reachable hrep32 hinit hp
  have hrep : p.manager.internalRepSize = INTERNAL_REP_SIZE :=
    hsame.internalRepSize.trans (ShmManager.init_fields hinit).1
  obtain ⟨hlen, -, -⟩ := Pool.grant_spec hinv hgrant
  rw [handlerShmSize_eq] at hlen
  have hcount : gs.length = grantedBlocks p.manager requestCount numWorkers fileSize :=
    Nat.eq_of_mul_eq_mul_left (by rw [hrep]; exact hrep32) hlen
  have hids : gs.getSegmentIds.length =
      grantedBlocks p.manager requestCount numWorkers fileSize := by
    rw [FragmentedShmSegment.getSegmentIds, List.length_map, hcount]
  rw [RegistrationVisitor.checkSize_iff, MQServerRequestMessage.getContentSize, hids,
    grantedBlocks, CLIENT_MSG_SIZE]
  constructor <;> omega

open Scheduler in
/-- The share of one of four workers is eight of the pool's 32 internal segments. -/
theorem response_fits_iff_small_pool :
    ∃ m gs m', ShmManager.init 1 1024 INTERNAL_REP_SIZE = some m ∧
      m.getShmSegment (handlerShmSize m 0 NUM_WORKERS 1000 .roundRobin) = .ok (some (gs, m')) ∧
      gs.getSegmentIds.length = 8 ∧
      MQServerRequestMessage.getContentSize gs.getSegmentIds ≤ CLIENT_MSG_SIZE := by
  obtain ⟨m, hinit⟩ : ∃ m, ShmManager.init 1 1024 INTERNAL_REP_SIZE = some m :=
    Option.isSome_iff_exists.mp (by decide)
  have hm : m = (ShmManager.init 1 1024 INTERNAL_REP_SIZE).get (by decide) := by simp [hinit]
  obtain ⟨gs, m', hgrant, hlength⟩ : ∃ gs m', m.getShmSegment
      (handlerShmSize m 0 NUM_WORKERS 1000 .roundRobin) = .ok (some (gs, m')) ∧
      gs.getSegmentIds.length = 8 := by
    subst hm
    exact ⟨_, _, rfl, by decide +kernel⟩
  have hp : (Pool.machine m).Reachable ⟨m, []⟩ := .start
  refine ⟨m, gs, m', hinit, hgrant, hlength, ((response_fits_iff hinit hp hgrant).1).mpr ?_⟩
  subst hm
  decide +kernel

open Scheduler in
/-- A megabyte of shared memory and a file of a million bytes: the share of one
of four workers is 8192 internal segments, and their ids do not fit a message. -/
theorem response_too_large :
    ∃ m gs m', ShmManager.init 1 1048576 INTERNAL_REP_SIZE = some m ∧
      m.getShmSegment (handlerShmSize m 0 NUM_WORKERS 1000000 .roundRobin) =
        .ok (some (gs, m')) ∧
      MQServerRequestMessage.getContentSize gs.getSegmentIds = 32784 ∧
      ¬ MQServerRequestMessage.getContentSize gs.getSegmentIds ≤ CLIENT_MSG_SIZE ∧
      RegistrationVisitor.checkSize (MQServerRequestMessage.getContentSize gs.getSegmentIds) =
        .error (.runtimeError "RegistrationVisitor: message too large") := by
  obtain ⟨m, hinit⟩ : ∃ m, ShmManager.init 1 1048576 INTERNAL_REP_SIZE = some m :=
    ⟨_, by rw [ShmManager.init, if_neg (by decide),
      if_neg (by rw [ShmManager.length_layout]; decide),
      if_neg (by rw [ShmManager.length_layout]; decide)]⟩
  obtain ⟨hrep, hsize, havail⟩ := ShmManager.init_fields hinit
  have hinv : m.PoolInvariant [] := ShmManager.poolInvariant_init (by decide) hinit
  have hblocks : grantedBlocks m 0 NUM_WORKERS 1000000 = 8192 := by
    rw [grantedBlocks, blocks, blocks, hsize, hrep]
    decide
  have hasked : handlerShmSize m 0 NUM_WORKERS 1000000 .roundRobin = 262144 := by
    rw [handlerShmSize_eq, hblocks, hrep]
    rfl
  obtain ⟨gs, m', hgrant, hlen, -⟩ := ShmManager.getShmSegment_spec hinv
    (show 262144 % m.internalRepSize = 0 by rw [hrep]; rfl)
    (show 262144 ≤ m.availableSize by rw [havail]; decide)
  rw [hrep, INTERNAL_REP_SIZE] at hlen
  have hcontent : MQServerRequestMessage.getContentSize gs.getSegmentIds = 32784 := by
    rw [MQServerRequestMessage.getContentSize, FragmentedShmSegment.getSegmentIds, List.length_map]
    omega
  refine ⟨m, gs, m', hinit, by rw [hasked]; exact hgrant, hcontent, ?_, ?_⟩
  · rw [hcontent]
    decide
  · rw [hcontent]
    rfl

end TinyFile
