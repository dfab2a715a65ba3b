import TinyFile.Common
import TinyFile.Splice

/-!
# Shared memory segments

`ContiguousShmSegment.cpp` and `FragmentedShmSegment.cpp`. The memory is what
the two processes share: bytes addressed by a physical segment and an offset in
it. A virtual segment lies at such an address, and a fragmented one writes and
reads its fragments in order. The specifications speak of a fragmented segment
as the concatenation of its bytes.
-/
namespace TinyFile

/-- The bytes of every physical segment. -/
abbrev Memory := ℕ → ℕ → UInt8

/-- Copy bytes to an address. -/
def Memory.store (m : Memory) (segment addr : ℕ) (data : List UInt8) : Memory := fun s a =>
  if s = segment ∧ addr ≤ a ∧ a < addr + data.length then data.getD (a - addr) 0 else m s a

structure ContiguousShmSegment where
  id : ℕ
  segment : ℕ
  addr : ℕ
  size : ℕ
  deriving DecidableEq, Repr

namespace ContiguousShmSegment

/-- The bytes of the segment. -/
def bytes (g : ContiguousShmSegment) (m : Memory) : List UInt8 :=
  (List.range g.size).map (fun i => m g.segment (g.addr + i))

/-- The addresses of the segment. -/
def Covers (g : ContiguousShmSegment) (segment a : ℕ) : Prop :=
  segment = g.segment ∧ g.addr ≤ a ∧ a < g.addr + g.size

def Disjoint (g g' : ContiguousShmSegment) : Prop :=
  ∀ segment a, g.Covers segment a → ¬ g'.Covers segment a

def write (g : ContiguousShmSegment) (data : List UInt8) (offset : ℕ) (m : Memory) :
    Except Fault Memory :=
  if SizeT.add offset data.length ≤ g.size then .ok (m.store g.segment (g.addr + offset) data)
  else .error (.runtimeError "ContiguousShmSegment: data size exceeded in write")

def read (g : ContiguousShmSegment) (dataSize offset : ℕ) (m : Memory) :
    Except Fault (List UInt8) :=
  if SizeT.add offset dataSize ≤ g.size then
    .ok ((List.range dataSize).map (fun i => m g.segment (g.addr + offset + i)))
  else .error (.runtimeError "ContiguousShmSegment: data size exceeded in read")

@[simp] theorem length_bytes (g : ContiguousShmSegment) (m : Memory) :
    (g.bytes m).length = g.size := by simp [bytes]

theorem getElem?_bytes (g : ContiguousShmSegment) (m : Memory) (k : ℕ) :
    (g.bytes m)[k]? = if k < g.size then some (m g.segment (g.addr + k)) else none := by
  rw [bytes, List.getElem?_map]
  split_ifs with h
  · rw [List.getElem?_range h]
    rfl
  · rw [List.getElem?_eq_none (by simpa using h)]
    rfl

theorem bytes_congr {g : ContiguousShmSegment} {m m' : Memory}
    (h : ∀ segment a, g.Covers segment a → m' segment a = m segment a) :
    g.bytes m' = g.bytes m := by
  apply List.map_congr_left
  intro i hi
  have hlt : i < g.size := List.mem_range.mp hi
  exact h _ _ ⟨rfl, by omega, by omega⟩

/-- What a write in bounds does. -/
theorem write_spec {g : ContiguousShmSegment} {data : List UInt8} {offset : ℕ} (m : Memory)
    (h : offset + data.length ≤ g.size) (hsize : g.size < SizeT.modulus) :
    ∃ m', g.write data offset m = .ok m' ∧ g.bytes m' = splice (g.bytes m) offset data ∧
      ∀ segment a, ¬ g.Covers segment a → m' segment a = m segment a := by
  refine ⟨m.store g.segment (g.addr + offset) data, ?_, ?_, ?_⟩
  · rw [write, SizeT.add_of_lt (by omega), if_pos h]
  · apply List.ext_getElem?
    intro k
    rw [getElem?_splice (by rw [length_bytes]; omega), getElem?_bytes, getElem?_bytes]
    simp only [Memory.store, true_and]
    by_cases hk : k < g.size
    · rw [if_pos hk, if_pos hk]
      by_cases h₁ : k < offset
      · rw [if_pos h₁, if_neg (by omega)]
      · by_cases h₂ : k < offset + data.length
        · rw [if_neg h₁, if_pos h₂, if_pos (by omega)]
          have hidx : g.addr + k - (g.addr + offset) = k - offset := by omega
          rw [hidx, List.getD_eq_getElem?_getD, List.getElem?_eq_getElem (by omega)]
          rfl
        · rw [if_neg h₁, if_neg h₂, if_neg (by omega)]
    · rw [if_neg hk, if_neg hk, if_neg (by omega), if_neg (by omega)]
  · intro segment a hnot
    rw [Memory.store, if_neg]
    rintro ⟨hs, ha, hb⟩
    exact hnot ⟨hs, by omega, by omega⟩

/-- What a read in bounds returns. -/
theorem read_spec {g : ContiguousShmSegment} {dataSize offset : ℕ} (m : Memory)
    (h : offset + dataSize ≤ g.size) (hsize : g.size < SizeT.modulus) :
    g.read dataSize offset m = .ok (((g.bytes m).drop offset).take dataSize) := by
  rw [read, SizeT.add_of_lt (by omega), if_pos h]
  congr 1
  apply List.ext_getElem?
  intro k
  rw [List.getElem?_take, List.getElem?_drop, getElem?_bytes, List.getElem?_map]
  by_cases hk : k < dataSize
  · rw [if_pos hk, if_pos (by omega), List.getElem?_range hk, Option.map_some, Nat.add_assoc]
  · rw [if_neg hk, List.getElem?_eq_none (by simpa using hk)]
    rfl

end ContiguousShmSegment

/-- `FragmentedShmSegment`: the fragments in the order they were handed out. -/
abbrev FragmentedShmSegment := List ContiguousShmSegment

namespace FragmentedShmSegment

/-- `size`, summed up in the constructor. -/
def size (gs : FragmentedShmSegment) : ℕ := gs.foldl (fun n g => SizeT.add n g.size) 0

/-- `getSegmentIds`. -/
def getSegmentIds (gs : FragmentedShmSegment) : List ℕ := gs.map ContiguousShmSegment.id

/-- The loop of `write`; `data` is what is left from `dataOffset` on. -/
def writeLoop : FragmentedShmSegment → List UInt8 → ℕ → Memory → Except Fault Memory
  | [], _, _, m => .ok m
  | g :: gs, data, offset, m =>
      if data.length = 0 then .ok m
      else if g.size ≤ offset then writeLoop gs data (offset - g.size) m
      else if 0 < offset then do
        let writeSize := min (g.size - offset) data.length
        let m ← g.write (data.take writeSize) offset m
        writeLoop gs (data.drop writeSize) 0 m
      else do
        let writeSize := min g.size data.length
        let m ← g.write (data.take writeSize) 0 m
        writeLoop gs (data.drop writeSize) offset m

def sizeExceeded (gs : FragmentedShmSegment) (call : String) (dataSize offset : ℕ) : Fault :=
  .runtimeError s!"FragmentedShmSegment: data size exceeded in {call}: offset {offset}, dataSize {dataSize}, size {gs.size}"

def write (gs : FragmentedShmSegment) (data : List UInt8) (offset : ℕ) (m : Memory) :
    Except Fault Memory :=
  if SizeT.add offset data.length ≤ gs.size then gs.writeLoop data offset m
  else .error (gs.sizeExceeded "write" data.length offset)

/-- The loop of `read`, returning the bytes copied to the buffer. -/
def readLoop : FragmentedShmSegment → ℕ → ℕ → Memory → Except Fault (List UInt8)
  | [], _, _, _ => .ok []
  | g :: gs, dataSize, offset, m =>
      if dataSize = 0 then .ok []
      else if g.size ≤ offset then readLoop gs dataSize (offset - g.size) m
      else if 0 < offset then do
        let readSize := min (g.size - offset) dataSize
        let head ← g.read readSize offset m
        let tail ← readLoop gs (dataSize - readSize) 0 m
        return head ++ tail
      else do
        let readSize := min g.size dataSize
        let head ← g.read readSize 0 m
        let tail ← readLoop gs (dataSize - readSize) offset m
        return head ++ tail

def read (gs : FragmentedShmSegment) (dataSize offset : ℕ) (m : Memory) :
    Except Fault (List UInt8) :=
  if SizeT.add offset dataSize ≤ gs.size then gs.readLoop dataSize offset m
  else .error (gs.sizeExceeded "read" dataSize offset)

/-- The bytes of the fragments, one after the other. -/
def bytes (gs : FragmentedShmSegment) (m : Memory) : List UInt8 := gs.flatMap (fun g => g.bytes m)

def total (gs : FragmentedShmSegment) : ℕ := (gs.map ContiguousShmSegment.size).sum

/-- Some fragment has the address. -/
def Covers (gs : FragmentedShmSegment) (segment a : ℕ) : Prop := ∃ g ∈ gs, g.Covers segment a

/-- No two fragments overlap, and the total size is a `size_t`. -/
structure WellFormed (gs : FragmentedShmSegment) : Prop where
  disjoint : gs.Pairwise ContiguousShmSegment.Disjoint
  small : gs.total < SizeT.modulus

@[simp] theorem bytes_cons (g : ContiguousShmSegment) (gs : FragmentedShmSegment) (m : Memory) :
    bytes (g :: gs) m = g.bytes m ++ bytes gs m := rfl

@[simp] theorem total_cons (g : ContiguousShmSegment) (gs : FragmentedShmSegment) :
    total (g :: gs) = g.size + total gs := by simp [total]

@[simp] theorem length_bytes (gs : FragmentedShmSegment) (m : Memory) :
    (gs.bytes m).length = gs.total := by
  induction gs with
  | nil => rfl
  | cons g gs ih => simp [ih]

theorem WellFormed.tail {g : ContiguousShmSegment} {gs : FragmentedShmSegment}
    (h : WellFormed (g :: gs)) : gs.WellFormed where
  disjoint := (List.pairwise_cons.mp h.disjoint).2
  small := by
    have := h.small
    rw [total_cons] at this
    omega

theorem size_eq_total {gs : FragmentedShmSegment} (h : gs.total < SizeT.modulus) :
    gs.size = gs.total := by
  have hfold : ∀ (gs : FragmentedShmSegment) (n : ℕ), n + gs.total < SizeT.modulus →
      gs.foldl (fun n g => SizeT.add n g.size) n = n + gs.total := by
    intro gs
    induction gs with
    | nil =>
      intro n _
      simp [total]
    | cons g gs ih =>
      intro n hn
      rw [total_cons] at hn
      rw [List.foldl_cons, SizeT.add_of_lt (by omega), ih _ (by omega), total_cons]
      omega
  rw [size, hfold gs 0 (by omega), Nat.zero_add]

theorem bytes_congr {gs : FragmentedShmSegment} {m m' : Memory}
    (h : ∀ segment a, gs.Covers segment a → m' segment a = m segment a) :
    gs.bytes m' = gs.bytes m := by
  induction gs with
  | nil => rfl
  | cons g gs ih =>
    rw [bytes_cons, bytes_cons, ih (fun s a hc => h s a (by
      obtain ⟨g', hg', hcov⟩ := hc
      exact ⟨g', List.mem_cons_of_mem _ hg', hcov⟩)),
      ContiguousShmSegment.bytes_congr (fun s a hc => h s a ⟨g, List.mem_cons_self, hc⟩)]

theorem covers_cons {g : ContiguousShmSegment} {gs : FragmentedShmSegment} {segment a : ℕ} :
    Covers (g :: gs) segment a ↔ g.Covers segment a ∨ gs.Covers segment a := by
  simp [Covers]

/-- Writing the first fragment leaves the bytes of the others alone. -/
theorem bytes_of_head_write {g : ContiguousShmSegment} {gs : FragmentedShmSegment}
    (h : WellFormed (g :: gs)) {m m' : Memory}
    (hframe : ∀ segment a, ¬ g.Covers segment a → m' segment a = m segment a) :
    gs.bytes m' = gs.bytes m := by
  refine bytes_congr (fun s a hc => hframe s a ?_)
  obtain ⟨g', hg', hcov⟩ := hc
  intro hg
  exact (List.pairwise_cons.mp h.disjoint).1 g' hg' s a hg hcov

/-- One write into the first fragment followed by writes into the others. -/
theorem writeLoop_cons {g : ContiguousShmSegment} {gs : FragmentedShmSegment}
    (h : WellFormed (g :: gs)) {data : List UInt8} {offset : ℕ} {m : Memory}
    (ho : offset < g.size)
    (htail : ∀ m₁ rest, rest.length ≤ gs.total → ∃ m', gs.writeLoop rest 0 m₁ = .ok m' ∧
      gs.bytes m' = splice (gs.bytes m₁) 0 rest ∧
      ∀ segment a, ¬ gs.Covers segment a → m' segment a = m₁ segment a)
    (hlen : offset + data.length ≤ total (g :: gs)) :
    ∃ m', (do
        let m₁ ← g.write (data.take (min (g.size - offset) data.length)) offset m
        gs.writeLoop (data.drop (min (g.size - offset) data.length)) 0 m₁) = .ok m' ∧
      bytes (g :: gs) m' = splice (bytes (g :: gs) m) offset data ∧
      ∀ segment a, ¬ Covers (g :: gs) segment a → m' segment a = m segment a := by
  have hsmall := h.small
  rw [total_cons] at hlen hsmall
  have hgs : g.size < SizeT.modulus := by omega
  obtain ⟨m₁, hw, hb₁, hf₁⟩ := ContiguousShmSegment.write_spec m
    (show offset + (data.take (min (g.size - offset) data.length)).length ≤ g.size by
      rw [List.length_take]
      omega) hgs
  obtain ⟨m₂, hl, hb₂, hf₂⟩ := htail m₁ (data.drop (min (g.size - offset) data.length))
    (by rw [List.length_drop]; omega)
  refine ⟨m₂, ?_, ?_, ?_⟩
  · rw [hw]
    exact hl
  · have hg₂ : g.bytes m₂ = g.bytes m₁ := ContiguousShmSegment.bytes_congr (fun s a hc => by
      refine hf₂ s a ?_
      rintro ⟨g', hg', hcov⟩
      exact (List.pairwise_cons.mp h.disjoint).1 g' hg' s a hc hcov)
    have htl := bytes_of_head_write h hf₁
    rw [bytes_cons, bytes_cons, hg₂, hb₁, hb₂, htl]
    by_cases hfit : offset + data.length ≤ g.size
    · have hmin : min (g.size - offset) data.length = data.length := by omega
      rw [hmin, List.take_length, List.drop_length, splice_nil, splice_append_left]
      simpa using hfit
    · have hmin : min (g.size - offset) data.length = g.size - offset := by omega
      rw [hmin, splice_append_across]
      · simp
      · simpa using ho.le
      · simp only [ContiguousShmSegment.length_bytes]
        omega
  · intro s a hnot
    rw [covers_cons, not_or] at hnot
    rw [hf₂ s a hnot.2, hf₁ s a hnot.1]

theorem writeLoop_spec {gs : FragmentedShmSegment} (h : gs.WellFormed) {data : List UInt8}
    {offset : ℕ} (m : Memory) (hlen : offset + data.length ≤ gs.total) :
    ∃ m', gs.writeLoop data offset m = .ok m' ∧ gs.bytes m' = splice (gs.bytes m) offset data ∧
      ∀ segment a, ¬ gs.Covers segment a → m' segment a = m segment a := by
  induction gs generalizing data offset m with
  | nil =>
    have hnil : data = [] := by
      simp only [total, List.map_nil, List.sum_nil] at hlen
      exact List.eq_nil_of_length_eq_zero (by omega)
    exact ⟨m, rfl, by simp [hnil], fun _ _ _ => rfl⟩
  | cons g gs ih =>
    unfold writeLoop
    split_ifs with h₀ h₁ h₂
    · have hnil : data = [] := List.eq_nil_of_length_eq_zero h₀
      exact ⟨m, rfl, by simp [hnil], fun _ _ _ => rfl⟩
    · -- the write starts behind the first fragment
      rw [total_cons] at hlen
      obtain ⟨m', hl, hb, hf⟩ := ih h.tail m (show offset - g.size + data.length ≤ total gs by omega)
      refine ⟨m', hl, ?_, ?_⟩
      · have hg : g.bytes m' = g.bytes m := ContiguousShmSegment.bytes_congr (fun s a hc => by
          refine hf s a ?_
          rintro ⟨g', hg', hcov⟩
          exact (List.pairwise_cons.mp h.disjoint).1 g' hg' s a hc hcov)
        rw [bytes_cons, bytes_cons, hg, hb, splice_append_right]
        · simp
        · simpa using h₁
      · intro s a hnot
        rw [covers_cons, not_or] at hnot
        exact hf s a hnot.2
    · exact writeLoop_cons h (by omega)
        (fun m₁ rest hrest => ih h.tail m₁ (show 0 + rest.length ≤ total gs by omega)) hlen
    · obtain rfl : offset = 0 := by omega
      have := writeLoop_cons h (m := m) (by omega)
        (fun m₁ rest hrest => ih h.tail m₁ (show 0 + rest.length ≤ total gs by omega)) hlen
      simpa only [Nat.sub_zero] using this

/-- A write in bounds overwrites exactly its part of the flat buffer. -/
theorem write_spec {gs : FragmentedShmSegment} (h : gs.WellFormed) {data : List UInt8}
    {offset : ℕ} (m : Memory) (hlen : offset + data.length ≤ gs.total) :
    ∃ m', gs.write data offset m = .ok m' ∧ gs.bytes m' = splice (gs.bytes m) offset data ∧
      ∀ segment a, ¬ gs.Covers segment a → m' segment a = m segment a := by
  have hsmall := h.small
  rw [write, SizeT.add_of_lt (by omega), size_eq_total hsmall, if_pos hlen]
  exact writeLoop_spec h m hlen

theorem readLoop_cons {g : ContiguousShmSegment} {gs : FragmentedShmSegment}
    (h : WellFormed (g :: gs)) {dataSize offset : ℕ} {m : Memory} (ho : offset < g.size)
    (htail : ∀ n, n ≤ gs.total → gs.readLoop n 0 m = .ok ((gs.bytes m).take n))
    (hlen : offset + dataSize ≤ total (g :: gs)) :
    (do
        let head ← g.read (min (g.size - offset) dataSize) offset m
        let tail ← gs.readLoop (dataSize - min (g.size - offset) dataSize) 0 m
        return head ++ tail) =
      .ok (((bytes (g :: gs) m).drop offset).take dataSize) := by
  have hsmall := h.small
  rw [total_cons] at hlen hsmall
  have hgs : g.size < SizeT.modulus := by omega
  rw [ContiguousShmSegment.read_spec m (by omega) hgs]
  simp only [bind, Except.bind, pure, Except.pure]
  rw [htail _ (by omega)]
  simp only
  congr 1
  have hdrop : (bytes (g :: gs) m).drop offset = (g.bytes m).drop offset ++ gs.bytes m := by
    rw [bytes_cons, List.drop_append_of_le_length]
    simpa using ho.le
  rw [hdrop, List.take_append, List.length_drop, ContiguousShmSegment.length_bytes]
  congr 1
  · by_cases hfit : g.size - offset ≤ dataSize
    · rw [min_eq_left hfit, List.take_of_length_le (by simp), List.take_of_length_le]
      simpa using hfit
    · rw [min_eq_right (by omega)]
  · congr 1
    omega

theorem readLoop_spec {gs : FragmentedShmSegment} (h : gs.WellFormed) {dataSize offset : ℕ}
    (m : Memory) (hlen : offset + dataSize ≤ gs.total) :
    gs.readLoop dataSize offset m = .ok (((gs.bytes m).drop offset).take dataSize) := by
  induction gs generalizing dataSize offset with
  | nil =>
    have hzero : dataSize = 0 := by
      simp only [total, List.map_nil, List.sum_nil] at hlen
      omega
    simp [readLoop, hzero]
  | cons g gs ih =>
    unfold readLoop
    have htail : ∀ n, n ≤ total gs → readLoop gs n 0 m = .ok ((bytes gs m).take n) := by
      intro n hn
      simpa using ih h.tail (show 0 + n ≤ total gs by omega)
    split_ifs with h₀ h₁ h₂
    · simp [h₀]
    · rw [total_cons] at hlen
      have hdrop : (bytes (g :: gs) m).drop offset = (bytes gs m).drop (offset - g.size) := by
        have hhead : (g.bytes m).drop offset = [] := List.drop_eq_nil_of_le (by simpa using h₁)
        rw [bytes_cons, List.drop_append, hhead, List.nil_append,
          ContiguousShmSegment.length_bytes]
      rw [ih h.tail (by omega), hdrop]
    · exact readLoop_cons h (by omega) htail hlen
    · obtain rfl : offset = 0 := by omega
      have := readLoop_cons h (by omega) htail hlen
      simpa only [Nat.sub_zero] using this

/-- A read in bounds returns exactly its part of the flat buffer. -/
theorem read_spec {gs : FragmentedShmSegment} (h : gs.WellFormed) {dataSize offset : ℕ}
    (m : Memory) (hlen : offset + dataSize ≤ gs.total) :
    gs.read dataSize offset m = .ok (((gs.bytes m).drop offset).take dataSize) := by
  have hsmall := h.small
  rw [read, SizeT.add_of_lt (by omega), size_eq_total hsmall, if_pos hlen]
  exact readLoop_spec h m hlen

end FragmentedShmSegment

end TinyFile
