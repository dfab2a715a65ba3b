import TinyFile.ShmSegment

/-!
# The accesses of a call

What `write` and `read` of a segment do, as the list of their inner calls: a
fragmented segment calls its fragments in order, a contiguous one copies once.
The list says which bytes of the buffer and of the fragments a call touches, and
in which order, so that the memory after a throw can be told.
-/
namespace TinyFile

/-- `size` bytes at `offset` of a segment and at `dataOffset` of the data buffer. -/
structure Access where
  segment : ContiguousShmSegment
  dataOffset : ℕ
  offset : ℕ
  size : ℕ
  deriving DecidableEq

namespace Access

/-- The access stays in a buffer of `dataSize` bytes and in its segment. -/
def InBounds (dataSize : ℕ) (a : Access) : Prop :=
  a.dataOffset + a.size ≤ dataSize ∧ a.offset + a.size ≤ a.segment.size

instance (dataSize : ℕ) (a : Access) : Decidable (a.InBounds dataSize) :=
  inferInstanceAs (Decidable (_ ∧ _))

def write (a : Access) (data : List UInt8) (m : Memory) : Except Fault Memory :=
  a.segment.write ((data.drop a.dataOffset).take a.size) a.offset m

def read (a : Access) (m : Memory) : Except Fault (List UInt8) :=
  a.segment.read a.size a.offset m

/-- Write one after the other. A write that throws has changed nothing itself. -/
def writeAll (data : List UInt8) : List Access → Memory → Except Fault Unit × Memory
  | [], m => (.ok (), m)
  | a :: as, m =>
      match a.write data m with
      | .ok m' => writeAll data as m'
      | .error fault => (.error fault, m)

/-- The bytes read one after the other. -/
def readAll : List Access → Memory → Except Fault (List UInt8)
  | [], _ => .ok []
  | a :: as, m => do
      let head ← a.read m
      let tail ← readAll as m
      return head ++ tail

/-- The memory, if the call returned. -/
def outcome (r : Except Fault Unit × Memory) : Except Fault Memory := r.1.map (fun _ => r.2)

theorem outcome_writeAll_cons (data : List UInt8) (a : Access) (as : List Access) (m : Memory) :
    outcome (writeAll data (a :: as) m) =
      (do
        let m ← a.write data m
        outcome (writeAll data as m)) := by
  simp only [writeAll]
  cases a.write data m with
  | ok m' => rfl
  | error fault => rfl

theorem length_slice {a : Access} {data : List UInt8} (h : a.dataOffset + a.size ≤ data.length) :
    ((data.drop a.dataOffset).take a.size).length = a.size := by
  rw [List.length_take, List.length_drop]
  omega

theorem outcome_eq_ok {r : Except Fault Unit × Memory} {m : Memory} (h : outcome r = .ok m) :
    r = (.ok (), m) := by
  obtain ⟨result, m'⟩ := r
  cases result with
  | error fault => simp [outcome, Except.map] at h
  | ok _ =>
    simp only [outcome, Except.map, Except.ok.injEq] at h
    rw [h]

/-- The check of the inner call passes. -/
theorem guard_of_inBounds {a : Access} {dataSize : ℕ} (h : a.InBounds dataSize)
    (hsize : a.segment.size < SizeT.modulus) : SizeT.add a.offset a.size ≤ a.segment.size := by
  obtain ⟨-, hsegment⟩ := h
  rw [SizeT.add_of_lt (by omega)]
  exact hsegment

/-- Accesses in bounds do not throw. -/
theorem writeAll_ok {data : List UInt8} {as : List Access}
    (h : ∀ a ∈ as, a.InBounds data.length ∧ a.segment.size < SizeT.modulus) (m : Memory) :
    ∃ m', writeAll data as m = (.ok (), m') := by
  induction as generalizing m with
  | nil => exact ⟨m, rfl⟩
  | cons a as ih =>
    obtain ⟨hbounds, hsize⟩ := h a List.mem_cons_self
    have hguard := guard_of_inBounds hbounds hsize
    rw [← length_slice hbounds.1] at hguard
    simp only [writeAll, write, ContiguousShmSegment.write, if_pos hguard]
    exact ih (fun a' ha' => h a' (List.mem_cons_of_mem a ha')) _

theorem readAll_ok {dataSize : ℕ} {as : List Access}
    (h : ∀ a ∈ as, a.InBounds dataSize ∧ a.segment.size < SizeT.modulus) (m : Memory) :
    ∃ data, readAll as m = .ok data := by
  induction as with
  | nil => exact ⟨[], rfl⟩
  | cons a as ih =>
    obtain ⟨hbounds, hsize⟩ := h a List.mem_cons_self
    obtain ⟨tail, htail⟩ := ih (fun a' ha' => h a' (List.mem_cons_of_mem a ha'))
    simp only [readAll, read, ContiguousShmSegment.read,
      if_pos (guard_of_inBounds hbounds hsize), htail]
    exact ⟨_, rfl⟩

end Access

namespace ContiguousShmSegment

/-- The one copy of a call. -/
def accesses (g : ContiguousShmSegment) (dataSize offset : ℕ) : List Access :=
  [⟨g, 0, offset, dataSize⟩]

/-- `write` of a contiguous segment is its one access. -/
theorem write_eq_outcome (g : ContiguousShmSegment) (data : List UInt8) (offset : ℕ)
    (m : Memory) :
    g.write data offset m =
      Access.outcome (Access.writeAll data (g.accesses data.length offset) m) := by
  simp only [accesses, Access.outcome_writeAll_cons, Access.write, List.drop_zero,
    List.take_length]
  cases g.write data offset m with
  | ok m' => rfl
  | error fault => rfl

/-- `read` of a contiguous segment is its one access. -/
theorem read_eq_readAll (g : ContiguousShmSegment) (dataSize offset : ℕ) (m : Memory) :
    g.read dataSize offset m = Access.readAll (g.accesses dataSize offset) m := by
  simp only [accesses, Access.readAll, Access.read]
  cases g.read dataSize offset m with
  | ok data => simp [bind, Except.bind, pure, Except.pure]
  | error fault => rfl

end ContiguousShmSegment

namespace FragmentedShmSegment

/-- The inner calls of the loops of `write` and `read`. -/
def accessLoop : FragmentedShmSegment → ℕ → ℕ → ℕ → List Access
  | [], _, _, _ => []
  | g :: gs, dataSize, dataOffset, offset =>
      if dataSize = 0 then []
      else if g.size ≤ offset then accessLoop gs dataSize dataOffset (offset - g.size)
      else if 0 < offset then
        let size := min (g.size - offset) dataSize
        ⟨g, dataOffset, offset, size⟩ :: accessLoop gs (dataSize - size) (dataOffset + size) 0
      else
        let size := min g.size dataSize
        ⟨g, dataOffset, 0, size⟩ :: accessLoop gs (dataSize - size) (dataOffset + size) offset

def accesses (gs : FragmentedShmSegment) (dataSize offset : ℕ) : List Access :=
  gs.accessLoop dataSize 0 offset

/-- `write` with the memory it leaves, whether it returns or throws. -/
def writeThrough (gs : FragmentedShmSegment) (data : List UInt8) (offset : ℕ) (m : Memory) :
    Except Fault Unit × Memory :=
  if SizeT.add offset data.length ≤ gs.size then
    Access.writeAll data (gs.accesses data.length offset) m
  else (.error (gs.sizeExceeded "write" data.length offset), m)

/-- The loop of `write` performs its accesses. -/
theorem writeLoop_eq (gs : FragmentedShmSegment) (data : List UInt8) (dataOffset offset : ℕ)
    (m : Memory) : gs.writeLoop (data.drop dataOffset) offset m =
      Access.outcome (Access.writeAll data
        (gs.accessLoop (data.drop dataOffset).length dataOffset offset) m) := by
  induction gs generalizing dataOffset offset m with
  | nil => rfl
  | cons g gs ih =>
    unfold writeLoop accessLoop
    have hdrop : ∀ size, (data.drop dataOffset).drop size = data.drop (dataOffset + size) :=
      fun size => List.drop_drop
    have hlen : ∀ size, (data.drop dataOffset).length - size =
        (data.drop (dataOffset + size)).length := by
      intro size
      simp only [List.length_drop]
      omega
    split_ifs with h₀ h₁ h₂
    · rfl
    · exact ih dataOffset (offset - g.size) m
    · simp only [Access.outcome_writeAll_cons, Access.write, hdrop, hlen, ih]
    · simp only [Access.outcome_writeAll_cons, Access.write, hdrop, hlen, ih]

/-- `writeThrough` is `write`. -/
theorem write_eq_outcome (gs : FragmentedShmSegment) (data : List UInt8) (offset : ℕ)
    (m : Memory) : gs.write data offset m = Access.outcome (gs.writeThrough data offset m) := by
  unfold write writeThrough
  split_ifs
  · exact writeLoop_eq gs data 0 offset m
  · rfl

/-- The loop of `read` performs its accesses. -/
theorem readLoop_eq (gs : FragmentedShmSegment) (dataSize dataOffset offset : ℕ) (m : Memory) :
    gs.readLoop dataSize offset m =
      Access.readAll (gs.accessLoop dataSize dataOffset offset) m := by
  induction gs generalizing dataSize dataOffset offset with
  | nil => rfl
  | cons g gs ih =>
    unfold readLoop accessLoop
    split_ifs with h₀ h₁ h₂
    · rfl
    · exact ih dataSize dataOffset (offset - g.size)
    · simp only [Access.readAll, Access.read]
      rw [ih]
    · simp only [Access.readAll, Access.read]
      rw [ih]

/-- Every access of the loops stays in its fragment and in what is left of the
buffer, for any sizes. -/
theorem accessLoop_bounds {gs : FragmentedShmSegment} {dataSize dataOffset offset : ℕ} {a : Access}
    (h : a ∈ gs.accessLoop dataSize dataOffset offset) :
    a.segment ∈ gs ∧ a.InBounds (dataOffset + dataSize) := by
  induction gs generalizing dataSize dataOffset offset with
  | nil => simp [accessLoop] at h
  | cons g gs ih =>
    unfold accessLoop at h
    split_ifs at h with h₀ h₁ h₂
    · cases h
    · obtain ⟨hmem, hbounds⟩ := ih h
      exact ⟨List.mem_cons_of_mem g hmem, hbounds⟩
    · rcases List.mem_cons.mp h with rfl | h
      · refine ⟨List.mem_cons_self, ?_, ?_⟩
        · simp only
          omega
        · simp only
          omega
      · obtain ⟨hmem, hdata, hsegment⟩ := ih h
        exact ⟨List.mem_cons_of_mem g hmem, by omega, hsegment⟩
    · rcases List.mem_cons.mp h with rfl | h
      · refine ⟨List.mem_cons_self, ?_, ?_⟩
        · simp only
          omega
        · simp only
          omega
      · obtain ⟨hmem, hdata, hsegment⟩ := ih h
        exact ⟨List.mem_cons_of_mem g hmem, by omega, hsegment⟩

/-- The accesses of a call are in bounds, whatever it asks for. -/
theorem accesses_bounds {gs : FragmentedShmSegment} (h : gs.total < SizeT.modulus)
    (dataSize offset : ℕ) : ∀ a ∈ gs.accesses dataSize offset,
      a.InBounds dataSize ∧ a.segment.size < SizeT.modulus := by
  intro a ha
  obtain ⟨hmem, hbounds⟩ := accessLoop_bounds ha
  have hle : a.segment.size ≤ gs.total := List.le_sum_of_mem (List.mem_map_of_mem hmem)
  rw [Nat.zero_add] at hbounds
  exact ⟨hbounds, by omega⟩

end FragmentedShmSegment

end TinyFile
