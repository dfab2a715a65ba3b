import TinyFile.ShmSegment

/-!
# The shared memory pool

`ShmManager.cpp`. The pool is cut into virtual segments of one size, handed out
by size in the service and by id in the client. The mutex makes each call one
step; the wait of `getShmSegment(size)` shows as `none`. The pool invariant says
that every virtual segment is either marked available or held exactly once, and
that `availableSize` counts the available ones.
-/
namespace TinyFile

structure ShmManager where
  numSegments : ℕ
  physicalSegmentSize : ℕ
  internalRepSize : ℕ
  size : ℕ
  availableSize : ℕ
  numInternalSegments : ℕ
  availableSegments : List Bool
  shmSegments : List ContiguousShmSegment
  deriving DecidableEq

namespace ShmManager

/-- The offsets `0, internalRepSize, …` below the end of a physical segment. -/
def offsets (shmSegmentSize internalRepSize : ℕ) : List ℕ :=
  (List.range ((shmSegmentSize + internalRepSize - 1) / internalRepSize)).map
    (fun k => k * internalRepSize)

/-- The addresses of the virtual segments, in the order of the constructor's loops. -/
def addresses (numShmSegments shmSegmentSize internalRepSize : ℕ) : List (ℕ × ℕ) :=
  List.range numShmSegments ×ˢ offsets shmSegmentSize internalRepSize

/-- The virtual segments with their ids. -/
def layout (numShmSegments shmSegmentSize internalRepSize : ℕ) : List ContiguousShmSegment :=
  (addresses numShmSegments shmSegmentSize internalRepSize).mapIdx
    (fun id address => ⟨id, address.1, address.2, internalRepSize⟩)

/-- The constructor. Mapping an empty segment fails. Growing `shmSegments` past
the reserved capacity destroys the elements that are already there, and their
destructor asks for the instance before it exists. The `int` that numbers the
segments is incremented after each of them and must not overflow. -/
def init (numShmSegments shmSegmentSize internalRepSize : ℕ) : Option ShmManager :=
  let size := SizeT.mul numShmSegments shmSegmentSize
  let numInternalSegments := size / internalRepSize
  let shmSegments := layout numShmSegments shmSegmentSize internalRepSize
  if 0 < numShmSegments ∧ shmSegmentSize = 0 then none
  else if max numInternalSegments 1 < shmSegments.length then none
  else if INT_MAX < shmSegments.length then none
  else some
    { numSegments := numShmSegments
      physicalSegmentSize := shmSegmentSize
      internalRepSize := internalRepSize
      size := size
      availableSize := size
      numInternalSegments := numInternalSegments
      availableSegments := List.replicate numInternalSegments true
      shmSegments := shmSegments }

/-- The loop of `getShmSegment(size)` over the bitmap and the segments: the
segments taken, the new bitmap and the new `availableSize`. -/
def takeSegments : List Bool → List ContiguousShmSegment → ℕ → ℕ →
    List ContiguousShmSegment × List Bool × ℕ
  | available :: flags, g :: gs, requestSize, availableSize =>
      if requestSize = 0 then ([], available :: flags, availableSize)
      else if available then
        let r := takeSegments flags gs (SizeT.sub requestSize g.size)
          (SizeT.sub availableSize g.size)
        (g :: r.1, false :: r.2.1, r.2.2)
      else
        let r := takeSegments flags gs requestSize availableSize
        (r.1, available :: r.2.1, r.2.2)
  | flags, _, _, availableSize => ([], flags, availableSize)

/-- `getShmSegment(size)`; `none` while it waits on `segmentCond`. -/
def getShmSegment (m : ShmManager) (requestSize : ℕ) :
    Except Fault (Option (FragmentedShmSegment × ShmManager)) :=
  if requestSize % m.internalRepSize ≠ 0 then
    .error (.runtimeError "ShmManager: size not multiple of internal segment size")
  else if m.availableSize < requestSize then .ok none
  else
    let r := takeSegments m.availableSegments m.shmSegments requestSize m.availableSize
    .ok (some (r.1, { m with availableSegments := r.2.1, availableSize := r.2.2 }))

/-- `getShmSegment(ids)`. The flags cleared before a throw stay cleared, so the
manager is returned beside the outcome. -/
def getShmSegmentByIds : List ℕ → ShmManager → Except Fault FragmentedShmSegment × ShmManager
  | [], m => (.ok [], m)
  | id :: ids, m =>
      match m.availableSegments[id]?, m.shmSegments[id]? with
      | some true, some g =>
          match getShmSegmentByIds ids
              { m with availableSegments := m.availableSegments.set id false } with
          | (.ok gs, m) => (.ok (g :: gs), m)
          | (.error e, m) => (.error e, m)
      | some false, _ =>
          (.error (.runtimeError s!"ShmManager: segment {id} already allocated"), m)
      | _, _ => (.error (.undefinedBehavior "availableSegments out of range"), m)

def releaseOne (m : ShmManager) (id : ℕ) : ShmManager :=
  { m with
    availableSegments := m.availableSegments.set id true
    availableSize := SizeT.add m.availableSize ((m.shmSegments[id]?.map (·.size)).getD 0) }

/-- `releaseShmSegment(ids)`, called by `~FragmentedShmSegment`. -/
def releaseShmSegment (m : ShmManager) (ids : List ℕ) : ShmManager := ids.foldl releaseOne m

/-- Two managers of one pool, which differ in what is available. -/
def SamePool (m m' : ShmManager) : Prop :=
  m' = { m with
    availableSegments := m'.availableSegments, availableSize := m'.availableSize }

/-- The virtual segments of a pool. -/
structure Layout (m : ShmManager) : Prop where
  rep_pos : 0 < m.internalRepSize
  size_lt : m.size < SizeT.modulus
  count : m.numInternalSegments = m.size / m.internalRepSize
  segment : ∀ i, i < m.numInternalSegments →
    ∃ g, m.shmSegments[i]? = some g ∧ g.id = i ∧ g.size = m.internalRepSize
  disjoint : ∀ (i j : ℕ) (g g' : ContiguousShmSegment), m.shmSegments[i]? = some g →
    m.shmSegments[j]? = some g' → i ≠ j → g.Disjoint g'

/-- Every virtual segment is marked available or held, and `availableSize`
counts the available ones; a size that is no multiple leaves a rest. -/
structure PoolInvariant (m : ShmManager) (held : List ContiguousShmSegment) : Prop where
  layout : m.Layout
  length : m.availableSegments.length = m.numInternalSegments
  available : m.availableSize =
    m.internalRepSize * m.availableSegments.count true + m.size % m.internalRepSize
  held_count : ∀ i, i < m.numInternalSegments →
    (held.map ContiguousShmSegment.id).count i = if m.availableSegments[i]? = some true then 0 else 1
  held_segment : ∀ g ∈ held, g.id < m.numInternalSegments ∧ m.shmSegments[g.id]? = some g

theorem SamePool.refl (m : ShmManager) : SamePool m m := rfl

theorem SamePool.trans {m m' m'' : ShmManager} (h : SamePool m m') (h' : SamePool m' m'') :
    SamePool m m'' := by
  rw [SamePool, h', h]

theorem SamePool.internalRepSize {m m' : ShmManager} (h : SamePool m m') :
    m'.internalRepSize = m.internalRepSize := by rw [h]

theorem SamePool.size {m m' : ShmManager} (h : SamePool m m') : m'.size = m.size := by rw [h]

theorem samePool_releaseOne (m : ShmManager) (id : ℕ) : SamePool m (m.releaseOne id) := rfl

theorem samePool_release (m : ShmManager) (ids : List ℕ) :
    SamePool m (m.releaseShmSegment ids) := by
  induction ids generalizing m with
  | nil => exact .refl m
  | cons id ids ih => exact (samePool_releaseOne m id).trans (ih (m.releaseOne id))

section Layout

theorem mem_addresses {n s r : ℕ} {a : ℕ × ℕ} (h : a ∈ addresses n s r) :
    ∃ k, a.2 = k * r := by
  obtain ⟨-, ho⟩ := List.mem_product.mp (show (a.1, a.2) ∈ addresses n s r from h)
  obtain ⟨k, -, hk⟩ := List.mem_map.mp ho
  exact ⟨k, hk.symm⟩

theorem nodup_addresses {n s r : ℕ} (hr : 0 < r) : (addresses n s r).Nodup := by
  refine List.nodup_range.product (List.nodup_range.map ?_)
  intro i j hij
  exact Nat.eq_of_mul_eq_mul_right hr hij

theorem length_layout (n s r : ℕ) : (layout n s r).length = n * ((s + r - 1) / r) := by
  have h := List.length_product (List.range n) (offsets s r)
  rw [List.length_range, offsets, List.length_map, List.length_range] at h
  rw [layout, List.length_mapIdx]
  exact h

theorem getElem?_layout {n s r i : ℕ} {g : ContiguousShmSegment}
    (h : (layout n s r)[i]? = some g) :
    g.id = i ∧ g.size = r ∧ (addresses n s r)[i]? = some (g.segment, g.addr) := by
  rw [layout, List.getElem?_mapIdx] at h
  obtain ⟨a, ha, rfl⟩ := Option.map_eq_some_iff.mp h
  exact ⟨rfl, rfl, ha⟩

/-- Virtual segments with different ids do not overlap. -/
theorem layout_disjoint {n s r i j : ℕ} (hr : 0 < r) {g g' : ContiguousShmSegment}
    (hg : (layout n s r)[i]? = some g) (hg' : (layout n s r)[j]? = some g') (hij : i ≠ j) :
    g.Disjoint g' := by
  obtain ⟨-, hsize, ha⟩ := getElem?_layout hg
  obtain ⟨-, hsize', ha'⟩ := getElem?_layout hg'
  obtain ⟨k, hk⟩ := mem_addresses (List.mem_of_getElem? ha)
  obtain ⟨k', hk'⟩ := mem_addresses (List.mem_of_getElem? ha')
  simp only at hk hk'
  rintro segment a ⟨hs, hlo, hhi⟩ ⟨hs', hlo', hhi'⟩
  rw [hsize] at hhi
  rw [hsize'] at hhi'
  rw [hk] at hlo hhi
  rw [hk'] at hlo' hhi'
  -- both segments would start at the same multiple of the size
  have hkk : k = k' := by
    have h₁ : k * r < (k' + 1) * r := by
      rw [Nat.add_mul]
      omega
    have h₂ : k' * r < (k + 1) * r := by
      rw [Nat.add_mul]
      omega
    have := Nat.lt_of_mul_lt_mul_right h₁
    have := Nat.lt_of_mul_lt_mul_right h₂
    omega
  have haddr : g.addr = g'.addr := by rw [hk, hk', hkk]
  have hseg : g.segment = g'.segment := hs.symm.trans hs'
  rw [hseg, haddr, ← ha'] at ha
  have hi : i < (addresses n s r).length := (List.getElem?_eq_some_iff.mp (ha.trans ha')).1
  exact hij ((List.getElem?_inj hi (nodup_addresses hr)).mp ha)

theorem init_fields {n s r : ℕ} {m : ShmManager} (h : init n s r = some m) :
    m.internalRepSize = r ∧ m.size = SizeT.mul n s ∧ m.availableSize = SizeT.mul n s := by
  simp only [init] at h
  split_ifs at h
  cases h
  exact ⟨rfl, rfl, rfl⟩

/-- The constructor's pool has nothing held. -/
theorem poolInvariant_init {n s r : ℕ} {m : ShmManager} (hr : 0 < r) (h : init n s r = some m) :
    PoolInvariant m [] := by
  simp only [init] at h
  split_ifs at h
  cases h
  have hlen := length_layout n s r
  refine ⟨⟨hr, Nat.mod_lt _ (by norm_num [SizeT.modulus]), rfl, ?_, ?_⟩, by simp, ?_, ?_, by simp⟩
  · intro i hi
    simp only at hi ⊢
    have hlt : i < (layout n s r).length := by
      rw [hlen]
      have hround : s / r ≤ (s + r - 1) / r := Nat.div_le_div_right (by omega)
      have hmul : SizeT.mul n s / r ≤ n * ((s + r - 1) / r) := by
        have hle : SizeT.mul n s ≤ n * s := Nat.mod_le _ _
        have hup : s ≤ r * ((s + r - 1) / r) := by
          have := Nat.div_add_mod (s + r - 1) r
          have := Nat.mod_lt (s + r - 1) hr
          omega
        have hprod : n * s ≤ r * (n * ((s + r - 1) / r)) := by
          calc n * s ≤ n * (r * ((s + r - 1) / r)) := Nat.mul_le_mul_left n hup
            _ = r * (n * ((s + r - 1) / r)) := by ring
        calc SizeT.mul n s / r ≤ r * (n * ((s + r - 1) / r)) / r :=
              Nat.div_le_div_right (hle.trans hprod)
          _ = n * ((s + r - 1) / r) := Nat.mul_div_cancel_left _ hr
      omega
    have hsome : (layout n s r)[i]? = some (layout n s r)[i] := List.getElem?_eq_getElem hlt
    obtain ⟨hid, hsize, -⟩ := getElem?_layout hsome
    exact ⟨_, hsome, hid, hsize⟩
  · intro i j g g' hg hg' hij
    exact layout_disjoint hr hg hg' hij
  · simp only [List.count_replicate_self]
    exact (Nat.div_add_mod _ r).symm
  · intro i hi
    simp only at hi ⊢
    simp [hi]

end Layout

section Take

/-- What the loop of `getShmSegment(size)` takes when enough is available: `k`
segments, each one whose flag it clears. The ids of the list start at `b`. -/
structure Taken (b rep k a : ℕ) (flags : List Bool) (segs : List ContiguousShmSegment)
    (t : List ContiguousShmSegment × List Bool × ℕ) : Prop where
  length : t.1.length = k
  length_flags : t.2.1.length = flags.length
  available : t.2.2 = a - rep * k
  count : t.2.1.count true + k = flags.count true
  segment : ∀ g ∈ t.1, ∃ i, i < flags.length ∧ g.id = b + i ∧ segs[i]? = some g
  flag : ∀ i, i < flags.length → (t.1.map ContiguousShmSegment.id).count (b + i) +
    (if t.2.1[i]? = some true then 1 else 0) = if flags[i]? = some true then 1 else 0

/-- The rest of the loop does not come back to the first segment. -/
theorem Taken.first_notMem {b rep k a : ℕ} {flags : List Bool} {segs : List ContiguousShmSegment}
    {t : List ContiguousShmSegment × List Bool × ℕ} (h : Taken (b + 1) rep k a flags segs t) :
    b ∉ t.1.map ContiguousShmSegment.id := by
  intro hm
  obtain ⟨g, hg, hid⟩ := List.mem_map.mp hm
  obtain ⟨i, -, hi, -⟩ := h.segment g hg
  omega

/-- The loop skips a segment that is not available. -/
theorem Taken.skip {b rep k a : ℕ} {flags : List Bool} {g : ContiguousShmSegment}
    {segs : List ContiguousShmSegment} {t : List ContiguousShmSegment × List Bool × ℕ}
    (h : Taken (b + 1) rep k a flags segs t) :
    Taken b rep k a (false :: flags) (g :: segs) (t.1, false :: t.2.1, t.2.2) where
  length := h.length
  length_flags := by simp [h.length_flags]
  available := h.available
  count := by simpa using h.count
  segment := by
    intro g' hg'
    obtain ⟨i, hi, hid, hsome⟩ := h.segment g' hg'
    exact ⟨i + 1, by simpa using hi, by omega, by simpa using hsome⟩
  flag := by
    intro i hi
    cases i with
    | zero =>
      simp [List.count_eq_zero.mpr h.first_notMem]
    | succ i =>
      have := h.flag i (by simpa using hi)
      rw [show b + (i + 1) = b + 1 + i by omega]
      simpa using this

/-- The loop takes an available segment. -/
theorem Taken.take {b rep k a : ℕ} {flags : List Bool} {g : ContiguousShmSegment}
    {segs : List ContiguousShmSegment} {t : List ContiguousShmSegment × List Bool × ℕ}
    (h : Taken (b + 1) rep k (a - rep) flags segs t) (hg : g.id = b) :
    Taken b rep (k + 1) a (true :: flags) (g :: segs) (g :: t.1, false :: t.2.1, t.2.2) where
  length := by simp [h.length]
  length_flags := by simp [h.length_flags]
  available := by
    have := h.available
    rw [Nat.mul_succ]
    simp only at this ⊢
    omega
  count := by
    have hcount := h.count
    have hcleared : (false :: t.2.1).count true = t.2.1.count true :=
      List.count_cons_of_ne (by decide)
    simp only [hcleared, List.count_cons_self]
    omega
  segment := by
    intro g' hg'
    rcases List.mem_cons.mp hg' with rfl | hg'
    · exact ⟨0, by simp, by omega, by simp⟩
    · obtain ⟨i, hi, hid, hsome⟩ := h.segment g' hg'
      exact ⟨i + 1, by simpa using hi, by omega, by simpa using hsome⟩
  flag := by
    intro i hi
    cases i with
    | zero =>
      simp [hg, List.count_eq_zero.mpr h.first_notMem]
    | succ i =>
      have := h.flag i (by simpa using hi)
      have hne : (g.id == b + (i + 1)) = false := by
        simp only [beq_eq_false_iff_ne]
        omega
      rw [List.map_cons, List.count_cons, hne, show b + (i + 1) = b + 1 + i by omega]
      simpa using this

theorem takeSegments_spec {rep b k a : ℕ} {flags : List Bool} {segs : List ContiguousShmSegment}
    (hrep : 0 < rep)
    (hsegs : ∀ i, i < flags.length → ∃ g, segs[i]? = some g ∧ g.id = b + i ∧ g.size = rep)
    (hk : k ≤ flags.count true) (ha : rep * flags.count true ≤ a) (hlt : a < SizeT.modulus) :
    Taken b rep k a flags segs (takeSegments flags segs (rep * k) a) := by
  induction flags generalizing segs b k a with
  | nil =>
    obtain rfl : k = 0 := by simpa using hk
    constructor <;> simp [takeSegments]
  | cons flag flags ih =>
    obtain ⟨g, hg, hid, hsize⟩ := hsegs 0 (by simp)
    obtain ⟨segs', rfl⟩ : ∃ segs', segs = g :: segs' := by
      cases segs with
      | nil => simp at hg
      | cons g' segs' =>
        obtain rfl : g' = g := by simpa using hg
        exact ⟨segs', rfl⟩
    have hsegs' : ∀ i, i < flags.length →
        ∃ g, segs'[i]? = some g ∧ g.id = b + 1 + i ∧ g.size = rep := by
      intro i hi
      obtain ⟨g', hg', hid', hsize'⟩ := hsegs (i + 1) (by simpa using hi)
      exact ⟨g', by simpa using hg', by omega, hsize'⟩
    cases k with
    | zero => constructor <;> simp [takeSegments]
    | succ k =>
      have hne : rep * (k + 1) ≠ 0 := Nat.mul_ne_zero (by omega) (by omega)
      unfold takeSegments
      rw [if_neg hne]
      cases flag with
      | false =>
        simp only [Bool.false_eq_true, if_false]
        exact (ih hsegs' (by simpa using hk) (by simpa using ha) hlt).skip
      | true =>
        simp only [List.count_cons_self] at hk ha
        have hmul : rep * (k + 1) ≤ rep * (flags.count true + 1) := Nat.mul_le_mul_left rep hk
        have hk' : rep * (k + 1) = rep * k + rep := Nat.mul_succ rep k
        have hf' : rep * (flags.count true + 1) = rep * flags.count true + rep :=
          Nat.mul_succ rep _
        have hr : SizeT.sub (rep * (k + 1)) g.size = rep * k := by
          rw [hsize, SizeT.sub_of_le (by omega) (by omega)]
          omega
        have hav : SizeT.sub a g.size = a - rep := by
          rw [hsize, SizeT.sub_of_le (by omega) hlt]
        simp only [if_true, hr, hav]
        exact (ih hsegs' (by omega) (by omega) (by omega)).take (by omega)

/-- A grant takes exactly the requested number of segments out of the pool. -/
theorem getShmSegment_spec {m : ShmManager} {held : List ContiguousShmSegment}
    (h : PoolInvariant m held) {requestSize : ℕ} (hmul : requestSize % m.internalRepSize = 0)
    (hle : requestSize ≤ m.availableSize) :
    ∃ gs m', m.getShmSegment requestSize = .ok (some (gs, m')) ∧
      m.internalRepSize * gs.length = requestSize ∧ PoolInvariant m' (gs ++ held) ∧
      SamePool m m' := by
  obtain ⟨k, hk⟩ := Nat.dvd_of_mod_eq_zero hmul
  have hrep := h.layout.rep_pos
  have havail := h.available
  have hmod : m.size % m.internalRepSize < m.internalRepSize := Nat.mod_lt _ hrep
  have hcount : k ≤ m.availableSegments.count true := by
    have : m.internalRepSize * k < m.internalRepSize * (m.availableSegments.count true + 1) := by
      rw [Nat.mul_succ]
      omega
    have := Nat.lt_of_mul_lt_mul_left this
    omega
  have hsum := Nat.div_add_mod m.size m.internalRepSize
  have hle_count : m.availableSegments.count true ≤ m.numInternalSegments :=
    h.length ▸ List.count_le_length
  have hsmall : m.availableSize < SizeT.modulus := by
    have := Nat.mul_le_mul_left m.internalRepSize hle_count
    rw [h.layout.count] at this
    have := h.layout.size_lt
    omega
  have hsegs : ∀ i, i < m.availableSegments.length →
      ∃ g, m.shmSegments[i]? = some g ∧ g.id = 0 + i ∧ g.size = m.internalRepSize := by
    intro i hi
    obtain ⟨g, hg, hid, hsize⟩ := h.layout.segment i (h.length ▸ hi)
    exact ⟨g, hg, by omega, hsize⟩
  have htaken := takeSegments_spec hrep hsegs hcount (by omega) hsmall
  rw [← hk] at htaken
  obtain ⟨t, ht⟩ : ∃ t, takeSegments m.availableSegments m.shmSegments requestSize
      m.availableSize = t := ⟨_, rfl⟩
  rw [ht] at htaken
  refine ⟨t.1, { m with availableSegments := t.2.1, availableSize := t.2.2 }, ?_, ?_,
    ⟨⟨hrep, h.layout.size_lt, h.layout.count, h.layout.segment, h.layout.disjoint⟩,
      ?_, ?_, ?_, ?_⟩, rfl⟩
  · rw [getShmSegment, if_neg (by simpa using hmul), if_neg (by omega), ht]
  · rw [htaken.length, hk]
  · rw [htaken.length_flags, h.length]
  · have hc := htaken.count
    have hprod := congrArg (m.internalRepSize * ·) hc
    simp only [Nat.mul_add] at hprod
    have hav := htaken.available
    dsimp only
    omega
  · intro i hi
    have hflag := htaken.flag i (h.length ▸ hi)
    have hheld := h.held_count i hi
    rw [Nat.zero_add] at hflag
    dsimp only
    rw [List.map_append, List.count_append, hheld]
    split_ifs at hflag ⊢ <;> omega
  · intro g hg
    rcases List.mem_append.mp hg with hg | hg
    · obtain ⟨i, hi, hid, hsome⟩ := htaken.segment g hg
      rw [Nat.zero_add] at hid
      subst hid
      exact ⟨h.length ▸ hi, hsome⟩
    · exact h.held_segment g hg

end Take

section Release

theorem PoolInvariant.perm {m : ShmManager} {held held' : List ContiguousShmSegment}
    (h : PoolInvariant m held) (hp : held.Perm held') : PoolInvariant m held' where
  layout := h.layout
  length := h.length
  available := h.available
  held_count := fun i hi => by rw [← (hp.map _).count_eq]; exact h.held_count i hi
  held_segment := fun g hg => h.held_segment g (hp.mem_iff.mpr hg)

/-- The flag of a held segment is cleared. -/
theorem PoolInvariant.flag_of_held {m : ShmManager} {held : List ContiguousShmSegment}
    (h : PoolInvariant m held) {g : ContiguousShmSegment} (hg : g ∈ held) :
    m.availableSegments[g.id]? = some false := by
  obtain ⟨hlt, -⟩ := h.held_segment g hg
  have hpos := List.count_pos_iff.mpr (List.mem_map_of_mem (f := ContiguousShmSegment.id) hg)
  have hcount := h.held_count g.id hlt
  have hsome := List.getElem?_eq_getElem (h.length.symm ▸ hlt : g.id < m.availableSegments.length)
  rw [hsome] at hcount ⊢
  split_ifs at hcount with hflag
  · omega
  · simpa using hflag

/-- Held segments have distinct ids. -/
theorem PoolInvariant.held_nodup {m : ShmManager} {held : List ContiguousShmSegment}
    (h : PoolInvariant m held) : (held.map ContiguousShmSegment.id).Nodup := by
  rw [List.nodup_iff_count_le_one]
  intro i
  by_cases hi : i ∈ held.map ContiguousShmSegment.id
  · obtain ⟨g, hg, rfl⟩ := List.mem_map.mp hi
    rw [h.held_count g.id (h.held_segment g hg).1]
    split_ifs <;> omega
  · rw [List.count_eq_zero.mpr hi]
    omega

/-- Held segments do not overlap. -/
theorem PoolInvariant.held_disjoint {m : ShmManager} {held : List ContiguousShmSegment}
    (h : PoolInvariant m held) : held.Pairwise ContiguousShmSegment.Disjoint := by
  have hnd := List.pairwise_map.mp h.held_nodup
  refine hnd.imp_of_mem ?_
  intro g g' hg hg' hne
  exact h.layout.disjoint g.id g'.id g g' (h.held_segment g hg).2 (h.held_segment g' hg').2 hne

theorem PoolInvariant.size_of_held {m : ShmManager} {held : List ContiguousShmSegment}
    (h : PoolInvariant m held) {g : ContiguousShmSegment} (hg : g ∈ held) :
    g.size = m.internalRepSize := by
  obtain ⟨hlt, hsome⟩ := h.held_segment g hg
  obtain ⟨g', hg', -, hsize⟩ := h.layout.segment g.id hlt
  rw [hsome] at hg'
  cases hg'
  exact hsize

/-- What is not available is held. -/
theorem PoolInvariant.availableSize_add {m : ShmManager} {held : List ContiguousShmSegment}
    (h : PoolInvariant m held) :
    m.availableSize + m.internalRepSize * held.length = m.size := by
  have hflags : m.availableSegments = (List.range m.numInternalSegments).map
      (fun i => decide (m.availableSegments[i]? = some true)) := by
    refine List.ext_getElem (by simp [h.length]) fun i hi hi' => ?_
    simp [List.getElem?_eq_getElem hi]
  have hperm : (held.map ContiguousShmSegment.id ++ (List.range m.numInternalSegments).filter
      (fun i => decide (m.availableSegments[i]? = some true))).Perm
      (List.range m.numInternalSegments) := by
    refine List.perm_iff_count.mpr fun i => ?_
    rw [List.count_append]
    by_cases hi : i < m.numInternalSegments
    · rw [h.held_count i hi, List.count_eq_one_of_mem List.nodup_range (List.mem_range.mpr hi)]
      split_ifs with hflag
      · rw [List.count_eq_one_of_mem (List.nodup_range.filter _)]
        exact List.mem_filter.mpr ⟨List.mem_range.mpr hi, decide_eq_true hflag⟩
      · rw [List.count_eq_zero.mpr]
        exact fun hm => hflag (of_decide_eq_true (List.mem_filter.mp hm).2)
    · have hnot : i ∉ held.map ContiguousShmSegment.id := by
        intro hm
        obtain ⟨g, hg, rfl⟩ := List.mem_map.mp hm
        exact hi (h.held_segment g hg).1
      rw [List.count_eq_zero.mpr hnot, List.count_eq_zero.mpr, List.count_eq_zero.mpr]
      · exact fun hm => hi (List.mem_range.mp hm)
      · exact fun hm => hi (List.mem_range.mp (List.mem_filter.mp hm).1)
  have hcount : m.availableSegments.count true = ((List.range m.numInternalSegments).filter
      (fun i => decide (m.availableSegments[i]? = some true))).length := by
    conv_lhs => rw [hflags]
    rw [List.count, List.countP_map, List.countP_eq_length_filter]
    congr 1
    exact List.filter_congr fun i _ => by simp
  have hlen := hperm.length_eq
  rw [List.length_append, List.length_map, List.length_range, ← hcount, h.layout.count] at hlen
  have hmul := congrArg (m.internalRepSize * ·) hlen
  simp only [Nat.mul_add] at hmul
  have hav := h.available
  have hdiv := Nat.div_add_mod m.size m.internalRepSize
  omega

theorem PoolInvariant.releaseOne {m : ShmManager} {held : List ContiguousShmSegment}
    {g : ContiguousShmSegment} (h : PoolInvariant m (g :: held)) :
    PoolInvariant (m.releaseOne g.id) held := by
  obtain ⟨hlt, hsome⟩ := h.held_segment g List.mem_cons_self
  have hsize := h.size_of_held List.mem_cons_self
  have hflag := h.flag_of_held List.mem_cons_self
  have hlen : g.id < m.availableSegments.length := h.length.symm ▸ hlt
  have hget : m.availableSegments[g.id] = false := by
    rw [List.getElem?_eq_getElem hlen] at hflag
    exact Option.some.inj hflag
  have hcount : (m.availableSegments.set g.id true).count true =
      m.availableSegments.count true + 1 := by
    rw [List.count_set hlen, hget]
    simp
  have hle := List.count_le_length (a := true) (l := m.availableSegments.set g.id true)
  rw [List.length_set, h.length, h.layout.count, hcount] at hle
  have hmul := Nat.mul_le_mul_left m.internalRepSize hle
  rw [Nat.mul_succ] at hmul
  have hsum := Nat.div_add_mod m.size m.internalRepSize
  have hsmall := h.layout.size_lt
  have havail := h.available
  refine ⟨⟨h.layout.rep_pos, h.layout.size_lt, h.layout.count, h.layout.segment,
    h.layout.disjoint⟩, ?_, ?_, ?_, fun g' hg' => h.held_segment g' (List.mem_cons_of_mem _ hg')⟩
  · simp only [ShmManager.releaseOne, List.length_set]
    exact h.length
  · simp only [ShmManager.releaseOne, hsome, Option.map_some, Option.getD_some, hsize, hcount]
    rw [SizeT.add_of_lt (by omega), Nat.mul_succ]
    omega
  · intro i hi
    have hi' := h.held_count i hi
    rw [List.map_cons, List.count_cons] at hi'
    have hset : (m.releaseOne g.id).availableSegments = m.availableSegments.set g.id true := rfl
    rw [hset]
    by_cases he : g.id = i
    · subst he
      rw [hflag] at hi'
      simp only [List.getElem?_set_self hlen, beq_self_eq_true, if_true, Option.some.injEq,
        Bool.false_eq_true, if_false] at hi' ⊢
      omega
    · simp only [List.getElem?_set_ne he]
      simpa [he] using hi'

/-- Destroying a segment gives its ids back. -/
theorem PoolInvariant.release {gs held : List ContiguousShmSegment} {m : ShmManager}
    (h : PoolInvariant m (gs ++ held)) :
    PoolInvariant (m.releaseShmSegment (FragmentedShmSegment.getSegmentIds gs)) held := by
  induction gs generalizing m with
  | nil => exact h
  | cons g gs ih => exact ih (PoolInvariant.releaseOne h)

theorem total_of_sizes {gs : List ContiguousShmSegment} {n : ℕ} (h : ∀ g ∈ gs, g.size = n) :
    FragmentedShmSegment.total gs = n * gs.length := by
  induction gs with
  | nil => rfl
  | cons g gs ih =>
    rw [FragmentedShmSegment.total_cons, h g List.mem_cons_self,
      ih (fun g' hg' => h g' (List.mem_cons_of_mem _ hg')), List.length_cons, Nat.mul_succ,
      Nat.add_comm]

/-- What is held is a well formed segment. -/
theorem PoolInvariant.wellFormed {m : ShmManager} {gs held : List ContiguousShmSegment}
    (h : PoolInvariant m (gs ++ held)) : FragmentedShmSegment.WellFormed gs where
  disjoint := (List.pairwise_append.mp h.held_disjoint).1
  small := by
    have hnd := (h.held_nodup.sublist ((List.sublist_append_left gs held).map _))
    have hlt : ∀ i ∈ gs.map ContiguousShmSegment.id, i ∈ List.range m.numInternalSegments := by
      intro i hi
      obtain ⟨g, hg, rfl⟩ := List.mem_map.mp hi
      exact List.mem_range.mpr (h.held_segment g (List.mem_append_left _ hg)).1
    have hlen := (List.subperm_of_subset hnd hlt).length_le
    rw [List.length_map, List.length_range, h.layout.count] at hlen
    rw [total_of_sizes (fun g hg => h.size_of_held (List.mem_append_left _ hg))]
    have := Nat.mul_le_mul_left m.internalRepSize hlen
    have := Nat.div_add_mod m.size m.internalRepSize
    have := h.layout.size_lt
    omega

end Release

section ByIds

/-- Asking for distinct segments that are all available. -/
theorem getShmSegmentByIds_spec {m : ShmManager} {gs : FragmentedShmSegment}
    (h : ∀ g ∈ gs, m.shmSegments[g.id]? = some g ∧ m.availableSegments[g.id]? = some true)
    (hnd : gs.getSegmentIds.Nodup) :
    ∃ m', m.getShmSegmentByIds gs.getSegmentIds = (.ok gs, m') ∧ m.SamePool m' ∧
      m'.availableSegments.length = m.availableSegments.length ∧
      ∀ i, i ∉ gs.getSegmentIds → m'.availableSegments[i]? = m.availableSegments[i]? := by
  induction gs generalizing m with
  | nil => exact ⟨m, rfl, .refl m, rfl, fun _ _ => rfl⟩
  | cons g gs ih =>
    have hcons : FragmentedShmSegment.getSegmentIds (g :: gs) =
        g.id :: FragmentedShmSegment.getSegmentIds gs := rfl
    rw [hcons] at hnd ⊢
    obtain ⟨hnot, hnd'⟩ := List.nodup_cons.mp hnd
    obtain ⟨hseg, hflag⟩ := h g List.mem_cons_self
    obtain ⟨m₁, hm₁⟩ : ∃ m₁ : ShmManager,
      m₁ = { m with availableSegments := m.availableSegments.set g.id false } := ⟨_, rfl⟩
    have hset : ∀ i, i ≠ g.id → m₁.availableSegments[i]? = m.availableSegments[i]? := by
      intro i hi
      rw [hm₁]
      exact List.getElem?_set_ne hi.symm
    have hrest : ∀ g' ∈ gs, m₁.shmSegments[g'.id]? = some g' ∧
        m₁.availableSegments[g'.id]? = some true := by
      intro g' hg'
      have hne : g'.id ≠ g.id := by
        intro he
        exact hnot (he ▸ List.mem_map_of_mem hg')
      obtain ⟨hseg', hflag'⟩ := h g' (List.mem_cons_of_mem _ hg')
      rw [hset _ hne, hm₁]
      exact ⟨hseg', hflag'⟩
    obtain ⟨m', hcall, hsame, hlen, hother⟩ := ih hrest hnd'
    refine ⟨m', ?_, ?_, ?_, ?_⟩
    · simp only [getShmSegmentByIds, hflag, hseg]
      rw [← hm₁, hcall]
    · have hstep : m.SamePool m₁ := by rw [SamePool, hm₁]
      exact hstep.trans hsame
    · rw [hlen, hm₁, List.length_set]
    · intro i hi
      rw [List.mem_cons, not_or] at hi
      rw [hother i hi.2, hset i hi.1]

theorem length_release (m : ShmManager) (ids : List ℕ) :
    (m.releaseShmSegment ids).availableSegments.length = m.availableSegments.length := by
  induction ids generalizing m with
  | nil => rfl
  | cons id ids ih =>
    have hstep := ih (m.releaseOne id)
    rw [show (m.releaseOne id).availableSegments = m.availableSegments.set id true from rfl,
      List.length_set] at hstep
    exact hstep

/-- A release makes nothing unavailable. -/
theorem release_available {m : ShmManager} {i : ℕ} (h : m.availableSegments[i]? = some true)
    (ids : List ℕ) : (m.releaseShmSegment ids).availableSegments[i]? = some true := by
  induction ids generalizing m with
  | nil => exact h
  | cons id ids ih =>
    refine ih (m := m.releaseOne id) ?_
    have hlt := (List.getElem?_eq_some_iff.mp h).1
    show (m.availableSegments.set id true)[i]? = some true
    by_cases hi : id = i
    · rw [hi, List.getElem?_set_self hlt]
    · rw [List.getElem?_set_ne hi, h]

end ByIds

end ShmManager

end TinyFile
