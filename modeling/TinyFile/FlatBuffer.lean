import TinyFile.SegmentAccess

/-!
# Segments as flat buffers

A fragmented segment reads and writes like one buffer that holds the bytes of
its fragments, as long as the sum of offset and size is a `size_t`. The check of
either kind of segment adds the two in `size_t`; where the sum wraps, it passes
for accesses that end behind the segment.
-/
namespace TinyFile

namespace FragmentedShmSegment

/-- What the check of a call does when nothing wraps. -/
theorem guard_iff {gs : FragmentedShmSegment} (h : gs.WellFormed) {dataSize offset : ℕ}
    (hsum : offset + dataSize < SizeT.modulus) :
    SizeT.add offset dataSize ≤ gs.size ↔ offset + dataSize ≤ gs.total := by
  rw [SizeT.add_of_lt hsum, size_eq_total h.small]

/-- A fragmented segment is one flat buffer: within its size a call touches
exactly its slice of the fragments' bytes, and beyond it a call throws before it
touches any. -/
theorem flat_buffer {gs : FragmentedShmSegment} (h : gs.WellFormed) {dataSize offset : ℕ}
    (hsum : offset + dataSize < SizeT.modulus) (m : Memory) :
    (offset + dataSize ≤ gs.total →
      (∀ a ∈ gs.accesses dataSize offset, a.segment ∈ gs ∧ a.InBounds dataSize) ∧
      (∀ data : List UInt8, data.length = dataSize →
        ∃ m', gs.writeThrough data offset m = (.ok (), m') ∧
          gs.bytes m' = splice (gs.bytes m) offset data ∧
          ∀ segment a, ¬ gs.Covers segment a → m' segment a = m segment a) ∧
      gs.read dataSize offset m = .ok (((gs.bytes m).drop offset).take dataSize)) ∧
    (gs.total < offset + dataSize →
      (∀ data : List UInt8, data.length = dataSize →
        gs.writeThrough data offset m = (.error (gs.sizeExceeded "write" dataSize offset), m)) ∧
      gs.read dataSize offset m = .error (gs.sizeExceeded "read" dataSize offset)) := by
  constructor
  · intro hfit
    refine ⟨fun a ha => ?_, ?_, read_spec h m hfit⟩
    · obtain ⟨hmem, hbounds⟩ := accessLoop_bounds ha
      exact ⟨hmem, by rwa [Nat.zero_add] at hbounds⟩
    · rintro data rfl
      obtain ⟨m', hwrite, hbytes, hframe⟩ := write_spec h m hfit
      rw [write_eq_outcome] at hwrite
      exact ⟨m', Access.outcome_eq_ok hwrite, hbytes, hframe⟩
  · intro hover
    have hnot : ¬ SizeT.add offset dataSize ≤ gs.size := by
      rw [guard_iff h hsum]
      omega
    constructor
    · rintro data rfl
      rw [writeThrough, if_neg hnot]
    · rw [read, if_neg hnot]

/-- Two fragments of four and two bytes; the write ends where the first does. -/
def unequalFragments : FragmentedShmSegment := [⟨0, 0, 0, 4⟩, ⟨1, 0, 8, 2⟩]

theorem unequalFragments_wellFormed : unequalFragments.WellFormed where
  disjoint := by
    refine List.pairwise_cons.mpr ⟨?_, List.pairwise_singleton _ _⟩
    intro g hg segment a hcov hcov'
    obtain rfl := List.mem_singleton.mp hg
    have := hcov.2.2
    have := hcov'.2.1
    simp only at *
    omega
  small := by decide

theorem flat_buffer_unequal_fragments :
    (∃ m', unequalFragments.writeThrough [1, 2, 3] 1 (fun _ _ => 0) = (.ok (), m') ∧
      unequalFragments.bytes m' = [0, 1, 2, 3, 0, 0]) ∧
    unequalFragments.writeThrough [1, 2, 3] 4 (fun _ _ => 0) =
      (.error (unequalFragments.sizeExceeded "write" 3 4), fun _ _ => 0) := by
  obtain ⟨-, hwrite, -⟩ := (flat_buffer unequalFragments_wellFormed
    (show 1 + 3 < SizeT.modulus by decide) (fun _ _ => 0)).1 (by decide)
  obtain ⟨m', hrun, hbytes, -⟩ := hwrite [1, 2, 3] rfl
  obtain ⟨hthrow, -⟩ := (flat_buffer unequalFragments_wellFormed
    (show 4 + 3 < SizeT.modulus by decide) (fun _ _ => 0)).2 (by decide)
  exact ⟨⟨m', hrun, hbytes.trans (by decide)⟩, hthrow [1, 2, 3] rfl⟩

end FragmentedShmSegment

/-- `AbstractShmSegment`: either kind of segment. -/
inductive AbstractShmSegment where
  | contiguous (g : ContiguousShmSegment)
  | fragmented (gs : FragmentedShmSegment)

namespace AbstractShmSegment

def size : AbstractShmSegment → ℕ
  | contiguous g => g.size
  | fragmented gs => gs.size

def write (s : AbstractShmSegment) (data : List UInt8) (offset : ℕ) (m : Memory) :
    Except Fault Memory :=
  match s with
  | contiguous g => g.write data offset m
  | fragmented gs => gs.write data offset m

def read (s : AbstractShmSegment) (dataSize offset : ℕ) (m : Memory) :
    Except Fault (List UInt8) :=
  match s with
  | contiguous g => g.read dataSize offset m
  | fragmented gs => gs.read dataSize offset m

/-- What a call touches that passes the check. -/
def accesses (s : AbstractShmSegment) (dataSize offset : ℕ) : List Access :=
  match s with
  | contiguous g => g.accesses dataSize offset
  | fragmented gs => gs.accesses dataSize offset

/-- The sizes of the fragments add up without a wrap. -/
def Sized : AbstractShmSegment → Prop
  | contiguous g => g.size < SizeT.modulus
  | fragmented gs => gs.total < SizeT.modulus

/-- A call throws exactly when it would end behind the segment, and a call that
does not throw touches nothing outside its buffer and the segment. -/
structure ChecksExactly (s : AbstractShmSegment) (dataSize offset : ℕ) : Prop where
  write_throws : ∀ (data : List UInt8) (m : Memory), data.length = dataSize →
    ((∃ fault, s.write data offset m = .error fault) ↔ s.size < offset + dataSize)
  write_bounds : ∀ (data : List UInt8) (m m' : Memory), data.length = dataSize →
    s.write data offset m = .ok m' → ∀ a ∈ s.accesses dataSize offset, a.InBounds dataSize
  read_throws : ∀ m, (∃ fault, s.read dataSize offset m = .error fault) ↔ s.size < offset + dataSize
  read_bounds : ∀ (m : Memory) (data : List UInt8), s.read dataSize offset m = .ok data →
    ∀ a ∈ s.accesses dataSize offset, a.InBounds dataSize

instance (s : AbstractShmSegment) : Decidable s.Sized :=
  match s with
  | contiguous g => inferInstanceAs (Decidable (g.size < SizeT.modulus))
  | fragmented gs => inferInstanceAs (Decidable (gs.total < SizeT.modulus))

/-- The check that both kinds of segment make. -/
def Passes (s : AbstractShmSegment) (dataSize offset : ℕ) : Prop :=
  SizeT.add offset dataSize ≤ s.size

instance (s : AbstractShmSegment) (dataSize offset : ℕ) : Decidable (s.Passes dataSize offset) :=
  inferInstanceAs (Decidable (_ ≤ _))

variable {s : AbstractShmSegment} {dataSize offset : ℕ}

theorem Sized.size_lt (h : s.Sized) : s.size < SizeT.modulus := by
  cases s with
  | contiguous g => exact h
  | fragmented gs =>
    rw [size, FragmentedShmSegment.size_eq_total h]
    exact h

/-- A call throws exactly when the check does: no inner call does. -/
theorem write_throws_iff (h : s.Sized) (data : List UInt8) (m : Memory) :
    (∃ fault, s.write data offset m = .error fault) ↔ ¬ s.Passes data.length offset := by
  cases s with
  | contiguous g =>
    by_cases hpass : SizeT.add offset data.length ≤ g.size
    · simp [write, ContiguousShmSegment.write, Passes, size, hpass]
    · simp [write, ContiguousShmSegment.write, Passes, size, hpass]
  | fragmented gs =>
    by_cases hpass : SizeT.add offset data.length ≤ gs.size
    · obtain ⟨m', hrun⟩ := Access.writeAll_ok (FragmentedShmSegment.accesses_bounds h data.length offset) m
      have hwrite : gs.write data offset m = .ok m' := by
        rw [FragmentedShmSegment.write_eq_outcome, FragmentedShmSegment.writeThrough, if_pos hpass,
          hrun]
        rfl
      simp [write, hwrite, Passes, size, hpass]
    · simp [write, FragmentedShmSegment.write, Passes, size, hpass]

theorem read_throws_iff (h : s.Sized) (dataSize : ℕ) (m : Memory) :
    (∃ fault, s.read dataSize offset m = .error fault) ↔ ¬ s.Passes dataSize offset := by
  cases s with
  | contiguous g =>
    by_cases hpass : SizeT.add offset dataSize ≤ g.size
    · simp [read, ContiguousShmSegment.read, Passes, size, hpass]
    · simp [read, ContiguousShmSegment.read, Passes, size, hpass]
  | fragmented gs =>
    by_cases hpass : SizeT.add offset dataSize ≤ gs.size
    · obtain ⟨data, hrun⟩ := Access.readAll_ok (FragmentedShmSegment.accesses_bounds h dataSize offset) m
      have hread : gs.read dataSize offset m = .ok data := by
        rw [FragmentedShmSegment.read, if_pos hpass, FragmentedShmSegment.readLoop_eq gs dataSize 0]
        exact hrun
      simp [read, hread, Passes, size, hpass]
    · simp [read, FragmentedShmSegment.read, Passes, size, hpass]

/-- The check is exact unless the sum wraps to a value within the segment. -/
theorem passes_iff (h : s.Sized) (ho : offset < SizeT.modulus) (hd : dataSize < SizeT.modulus) :
    (s.Passes dataSize offset ↔ offset + dataSize ≤ s.size) ↔
      (offset + dataSize < SizeT.modulus ∨ s.size < offset + dataSize - SizeT.modulus) := by
  have hsize := h.size_lt
  by_cases hsum : offset + dataSize < SizeT.modulus
  · simp [Passes, SizeT.add_of_lt hsum, hsum]
  · have hwrap : SizeT.add offset dataSize = offset + dataSize - SizeT.modulus := by
      rw [SizeT.add, Nat.mod_eq_sub_mod (by omega), Nat.mod_eq_of_lt (by omega)]
    rw [Passes, hwrap]
    constructor
    · intro hiff
      right
      by_contra hle
      have := hiff.mp (by omega)
      omega
    · intro hcases
      constructor
      · intro hpass
        omega
      · intro hle
        omega

/-- What a call that ends within the segment touches. -/
theorem bounds_of_fits (h : s.Sized) (hfit : offset + dataSize ≤ s.size) :
    ∀ a ∈ s.accesses dataSize offset, a.InBounds dataSize := by
  cases s with
  | contiguous g =>
    intro a ha
    obtain rfl := List.mem_singleton.mp ha
    exact ⟨by simp, hfit⟩
  | fragmented gs => exact fun a ha => (FragmentedShmSegment.accesses_bounds h dataSize offset a ha).1

/-- The check of a segment is exact for all sizes and offsets but those whose sum
wraps to a value within the segment. -/
theorem checks_exactly_iff (h : s.Sized) (ho : offset < SizeT.modulus)
    (hd : dataSize < SizeT.modulus) :
    s.ChecksExactly dataSize offset ↔
      (offset + dataSize < SizeT.modulus ∨ s.size < offset + dataSize - SizeT.modulus) := by
  rw [← passes_iff h ho hd]
  constructor
  · intro hexact
    have hthrows := hexact.read_throws (fun _ _ => 0)
    rw [read_throws_iff h, ← not_le, not_iff_not] at hthrows
    exact hthrows
  · intro hpass
    have hok : ∀ {p : Prop}, (p ↔ ¬ s.Passes dataSize offset) → (p ↔ s.size < offset + dataSize) := by
      intro p hp
      rw [hp, hpass, not_le]
    refine ⟨?_, ?_, fun m => hok (read_throws_iff h dataSize m), ?_⟩
    · rintro data m rfl
      exact hok (write_throws_iff h data m)
    · rintro data m m' rfl hrun
      refine bounds_of_fits h (hpass.mp ?_)
      by_contra hnot
      obtain ⟨fault, hfault⟩ := (write_throws_iff h data m).mpr hnot
      rw [hfault] at hrun
      cases hrun
    · intro m data hrun
      refine bounds_of_fits h (hpass.mp ?_)
      by_contra hnot
      obtain ⟨fault, hfault⟩ := (read_throws_iff h dataSize m).mpr hnot
      rw [hfault] at hrun
      cases hrun

theorem checks_exactly_iff_small :
    (AbstractShmSegment.fragmented FragmentedShmSegment.unequalFragments).ChecksExactly 6 0 ∧
    ¬ (AbstractShmSegment.fragmented FragmentedShmSegment.unequalFragments).ChecksExactly
      (2 ^ 64 - 1) 2 := by
  have hsized : (AbstractShmSegment.fragmented FragmentedShmSegment.unequalFragments).Sized :=
    FragmentedShmSegment.unequalFragments_wellFormed.small
  constructor
  · exact (checks_exactly_iff hsized (by decide) (by decide)).mpr (by decide)
  · exact fun hexact =>
      absurd ((checks_exactly_iff hsized (by decide) (by decide)).mp hexact) (by decide)

/-- A read of almost `2 ^ 64` bytes at offset 8 of a segment of 32 bytes passes the
check: the contiguous segment copies far behind its end, the fragmented one leaves
most of the buffer as it was. -/
theorem check_wraps :
    ¬ (contiguous ⟨0, 0, 0, 32⟩).ChecksExactly (2 ^ 64 - 8) 8 ∧
    ¬ (fragmented [⟨0, 0, 0, 32⟩]).ChecksExactly (2 ^ 64 - 8) 8 := by
  constructor
  · intro hexact
    have hsized : (contiguous ⟨0, 0, 0, 32⟩).Sized := by decide
    have hthrows := (hexact.read_throws (fun _ _ => 0)).mpr (by decide)
    exact (read_throws_iff hsized _ _).mp hthrows (by decide)
  · intro hexact
    have hsized : (fragmented [⟨0, 0, 0, 32⟩]).Sized := by decide
    have hthrows := (hexact.read_throws (fun _ _ => 0)).mpr (by decide)
    exact (read_throws_iff hsized _ _).mp hthrows (by decide)

end AbstractShmSegment

end TinyFile
