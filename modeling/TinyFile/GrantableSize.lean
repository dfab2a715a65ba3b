import TinyFile.ResponseSize
import TinyFile.Transfer

/-!
# The selected sizes can be granted

A worker asks for the selected size while it holds the scheduler's lock, so a size
that the pool never has would stop the service. The share of a request is at most
half of the pool, because there are at least two workers, and rounded up it still
fits; the size of the file, which the client names, may wrap when it is rounded.
-/
namespace TinyFile

namespace ShmManager

/-- A size that the pool can hand out when nothing is outstanding. -/
structure Grantable (m : ShmManager) (requestSize : ℕ) : Prop where
  pos : 0 < requestSize
  multiple : requestSize % m.internalRepSize = 0
  le : requestSize ≤ m.numInternalSegments * m.internalRepSize

theorem Grantable.ne_error {m : ShmManager} {requestSize : ℕ} (h : m.Grantable requestSize)
    (fault : Fault) : m.getShmSegment requestSize ≠ .error fault := by
  rw [getShmSegment, if_neg (by simpa using h.multiple)]
  split_ifs <;> simp

/-- A pool with nothing outstanding grants it at once. -/
theorem Grantable.granted {m : ShmManager} {requestSize : ℕ} (h : m.Grantable requestSize)
    (hinv : m.PoolInvariant []) :
    ∃ gs m', m.getShmSegment requestSize = .ok (some (gs, m')) := by
  have hall := hinv.availableSize_add
  have hcount := hinv.layout.count
  have hdiv := Nat.div_mul_le_self m.size m.internalRepSize
  have hle : requestSize ≤ m.availableSize := by
    have := h.le
    rw [hcount] at this
    simp only [List.length_nil, Nat.mul_zero, Nat.add_zero] at hall
    omega
  obtain ⟨gs, m', hgrant, -⟩ := getShmSegment_spec hinv h.multiple hle
  exact ⟨gs, m', hgrant⟩

end ShmManager

/-- A transfer loop sends at least one byte in each round, and no more than fits. -/
def FragmentedShmSegment.HasRoom (gs : FragmentedShmSegment) : Prop :=
  ∀ size sent, size < SizeT.modulus → sent < size →
    0 < chunkSize gs size sent ∧ ShmDataMessage.headerSize + chunkSize gs size sent ≤ gs.size

theorem FragmentedShmSegment.hasRoom {gs : FragmentedShmSegment}
    (hroom : ShmDataMessage.headerSize < gs.size) (hsmall : gs.size < SizeT.modulus) :
    gs.HasRoom := by
  intro size sent hsize hsent
  rw [chunkSize, SizeT.sub_of_le hsent.le hsize, SizeT.sub_of_le hroom.le hsmall]
  omega

/-- The size of a granted segment is the size that was asked for. -/
theorem Pool.size_of_grant {m m' : ShmManager} {held : List ContiguousShmSegment}
    (hinv : m.PoolInvariant held) {requestSize : ℕ} {gs : FragmentedShmSegment}
    (hgrant : m.getShmSegment requestSize = .ok (some (gs, m'))) :
    gs.size = requestSize ∧ gs.size < SizeT.modulus := by
  obtain ⟨hlen, hinv', hsame⟩ := Pool.grant_spec hinv hgrant
  have hsmall := hinv'.wellFormed.small
  have htotal : gs.total = m'.internalRepSize * gs.length :=
    ShmManager.total_of_sizes fun g hg => hinv'.size_of_held (List.mem_append_left _ hg)
  rw [hsame.internalRepSize, hlen] at htotal
  rw [FragmentedShmSegment.size_eq_total hsmall, htotal]
  exact ⟨rfl, htotal ▸ hsmall⟩

namespace Scheduler

/-- Half of the pool, rounded up to whole segments, is not more than the pool. -/
theorem blocks_half_le {m : ShmManager} (hrep : m.internalRepSize = INTERNAL_REP_SIZE)
    (hcount : m.numInternalSegments = m.size / m.internalRepSize)
    (hone : 1 ≤ m.numInternalSegments) (hsize : m.size < 2 ^ 63) :
    blocks m (m.size / 2) ≤ m.numInternalSegments := by
  rw [hrep, INTERNAL_REP_SIZE] at hcount
  have hadd : SizeT.add (m.size / 2) m.internalRepSize = m.size / 2 + 32 := by
    rw [hrep, INTERNAL_REP_SIZE, SizeT.add_of_lt]
    rw [SizeT.modulus]
    omega
  have hsub : SizeT.sub (m.size / 2 + 32) 1 = m.size / 2 + 31 := by
    rw [SizeT.sub_of_le (by omega)]
    · omega
    · rw [SizeT.modulus]
      omega
  rw [blocks, hadd, hsub, hrep, INTERNAL_REP_SIZE]
  omega

/-- The load only makes the share smaller. -/
theorem share_le {m : ShmManager} {requestCount numWorkers : ℕ} (hworkers : 2 ≤ numWorkers)
    (hload : requestCount + numWorkers < 2 ^ 64) :
    m.size / SizeT.add requestCount numWorkers ≤ m.size / 2 := by
  rw [SizeT.add_of_lt hload]
  exact Nat.div_le_div_left (by omega) (by omega)

theorem grantedBlocks_le {m : ShmManager} (hrep : m.internalRepSize = INTERNAL_REP_SIZE)
    (hcount : m.numInternalSegments = m.size / m.internalRepSize)
    (hone : 1 ≤ m.numInternalSegments) (hsize : m.size < 2 ^ 63) {requestCount numWorkers : ℕ}
    (hworkers : 2 ≤ numWorkers) (hload : requestCount + numWorkers < 2 ^ 64) (fileSize : ℕ) :
    grantedBlocks m requestCount numWorkers fileSize ≤ m.numInternalSegments := by
  have hshare : blocks m (m.size / SizeT.add requestCount numWorkers) ≤ blocks m (m.size / 2) := by
    refine blocks_le (by rw [hrep]; decide) (share_le hworkers hload) ?_
    rw [hrep, INTERNAL_REP_SIZE, SizeT.modulus]
    omega
  have hhalf := blocks_half_le hrep hcount hone hsize
  exact max_le hone ((min_le_left _ _).trans (hshare.trans hhalf))

/-- Whatever size the client names, the strategies select a grantable one. -/
theorem grantable_handlerShmSize {m : ShmManager} (hrep : m.internalRepSize = INTERNAL_REP_SIZE)
    (hcount : m.numInternalSegments = m.size / m.internalRepSize)
    (hone : 1 ≤ m.numInternalSegments) (hsize : m.size < 2 ^ 63) {requestCount numWorkers : ℕ}
    (hworkers : 2 ≤ numWorkers) (hload : requestCount + numWorkers < 2 ^ 64) (fileSize : ℕ)
    (st : Strategy) : m.Grantable (handlerShmSize m requestCount numWorkers fileSize st) := by
  have hle := grantedBlocks_le hrep hcount hone hsize hworkers hload fileSize
  have hpos : 0 < grantedBlocks m requestCount numWorkers fileSize := le_max_left 1 _
  rw [handlerShmSize_eq]
  constructor
  · exact Nat.mul_pos (by rw [hrep]; decide) hpos
  · exact Nat.mul_mod_right _ _
  · rw [Nat.mul_comm m.numInternalSegments]
    exact Nat.mul_le_mul_left _ hle

/-- In every state of the pool the selected sizes are grantable: asking for one
does not throw, does not wait when nothing is outstanding, and gives a segment
with room behind the header. -/
theorem selected_size_granted {n s : ℕ} {m : ShmManager}
    (hinit : ShmManager.init n s INTERNAL_REP_SIZE = some m) (hone : 1 ≤ m.numInternalSegments)
    (hsize : m.size < 2 ^ 63) {requestCount numWorkers : ℕ} (hworkers : 2 ≤ numWorkers)
    (hload : requestCount + numWorkers < 2 ^ 64) {p : Pool} (hp : (Pool.machine m).Reachable p)
    {fileSize requestSize : ℕ}
    (hselected : requestSize ∈ [selectRoundRobinShmSize p.manager requestCount numWorkers fileSize,
      selectCreditShmSize p.manager requestCount numWorkers fileSize]) :
    p.manager.Grantable requestSize ∧
    (∀ fault, p.manager.getShmSegment requestSize ≠ .error fault) ∧
    (p.outstanding = [] →
      ∃ gs m', p.manager.getShmSegment requestSize = .ok (some (gs, m'))) ∧
    ∀ gs m', p.manager.getShmSegment requestSize = .ok (some (gs, m')) → gs.HasRoom := by
  obtain ⟨hinv, hsame⟩ := Pool.invariant_of_reachable (by decide) hinit hp
  have hrep : p.manager.internalRepSize = INTERNAL_REP_SIZE :=
    hsame.internalRepSize.trans (ShmManager.init_fields hinit).1
  have hone' : 1 ≤ p.manager.numInternalSegments := by
    rw [hsame]
    exact hone
  have hsize' : p.manager.size < 2 ^ 63 := by
    rw [hsame.size]
    exact hsize
  have hgrantable : p.manager.Grantable requestSize := by
    have hall := grantable_handlerShmSize hrep hinv.layout.count hone' hsize' hworkers hload fileSize
    rcases List.mem_pair.mp hselected with rfl | rfl
    · exact hall .roundRobin
    · exact hall .credit
  refine ⟨hgrantable, hgrantable.ne_error, ?_, ?_⟩
  · intro hnone
    have hheld : p.held = [] := by rw [Pool.held, hnone, List.flatten_nil]
    exact hgrantable.granted (hheld ▸ hinv)
  · intro gs m' hgrant
    obtain ⟨hgs, hsmall⟩ := Pool.size_of_grant hinv hgrant
    refine FragmentedShmSegment.hasRoom ?_ hsmall
    -- a positive multiple of the internal size is longer than the header
    have hpos := hgrantable.pos
    have hmul := hgrantable.multiple
    rw [hrep, INTERNAL_REP_SIZE] at hmul
    rw [hgs, ShmDataMessage.headerSize]
    omega

/-- A file size whose rounding wraps to zero, in a pool of four segments. -/
theorem selected_size_granted_wrapped :
    ∃ m, ShmManager.init 1 128 INTERNAL_REP_SIZE = some m ∧
      blocks m (2 ^ 64 - 16) = 0 ∧ selectCreditShmSize m 7 NUM_WORKERS (2 ^ 64 - 16) = 32 ∧
      m.Grantable (selectCreditShmSize m 7 NUM_WORKERS (2 ^ 64 - 16)) := by
  obtain ⟨m, hinit⟩ : ∃ m, ShmManager.init 1 128 INTERNAL_REP_SIZE = some m := ⟨_, rfl⟩
  have hm : m = (ShmManager.init 1 128 INTERNAL_REP_SIZE).get (by decide) := by simp [hinit]
  have hp : (Pool.machine m).Reachable ⟨m, []⟩ := .start
  have hgranted := selected_size_granted hinit (by subst hm; decide) (by subst hm; decide)
    (show 2 ≤ NUM_WORKERS by decide) (show 7 + NUM_WORKERS < 2 ^ 64 by decide) hp
    (List.mem_pair.mpr (.inr (Eq.refl (selectCreditShmSize m 7 NUM_WORKERS (2 ^ 64 - 16)))))
  refine ⟨m, hinit, ?_, ?_, hgranted.1⟩
  · subst hm
    decide
  · subst hm
    decide

end Scheduler

end TinyFile
