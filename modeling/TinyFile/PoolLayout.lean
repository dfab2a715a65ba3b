import TinyFile.ShmManager

/-!
# The layout of a fresh pool

The constructor counts the virtual segments twice: by one division of the whole
size, rounded down, and by a loop over each physical segment that goes on while
anything of it is left. The bitmap and the reserved capacity follow the first
count, the vector follows the second.
-/
namespace TinyFile

namespace ShmManager

/-- A fresh pool whose two counts agree. -/
structure WellLaidOut (m : ShmManager) : Prop where
  count : m.shmSegments.length = m.numInternalSegments
  ids : m.shmSegments.map ContiguousShmSegment.id = List.range m.numInternalSegments
  inside : ∀ g ∈ m.shmSegments,
    g.segment < m.numSegments ∧ g.addr + g.size ≤ m.physicalSegmentSize
  disjoint : m.shmSegments.Pairwise ContiguousShmSegment.Disjoint
  total : FragmentedShmSegment.total m.shmSegments = m.availableSize

theorem map_id_layout (n s r : ℕ) :
    (layout n s r).map ContiguousShmSegment.id = List.range (layout n s r).length := by
  refine List.ext_getElem (by simp) fun i hi hi' => ?_
  have hlt : i < (layout n s r).length := by simpa using hi
  rw [List.getElem_map, List.getElem_range]
  exact (getElem?_layout (List.getElem?_eq_getElem hlt)).1

/-- A virtual segment starts inside its physical segment. -/
theorem inside_of_mem_layout {n s r : ℕ} {g : ContiguousShmSegment} (h : g ∈ layout n s r) :
    g.segment < n ∧ g.size = r ∧ ∃ k < (s + r - 1) / r, g.addr = k * r := by
  obtain ⟨i, hi⟩ := List.getElem?_of_mem h
  obtain ⟨-, hsize, ha⟩ := getElem?_layout hi
  obtain ⟨hseg, ho⟩ := List.mem_product.mp (List.mem_of_getElem? ha)
  obtain ⟨k, hk, haddr⟩ := List.mem_map.mp ho
  exact ⟨List.mem_range.mp hseg, hsize, k, List.mem_range.mp hk, haddr.symm⟩

theorem pairwise_disjoint_layout {n s r : ℕ} (hr : 0 < r) :
    (layout n s r).Pairwise ContiguousShmSegment.Disjoint := by
  refine List.pairwise_iff_getElem.mpr fun i j hi hj hij => ?_
  exact layout_disjoint hr (List.getElem?_eq_getElem hi) (List.getElem?_eq_getElem hj) (by omega)

/-- Rounding up leaves a multiple alone. -/
theorem roundUp_of_dvd {s r : ℕ} (hr : 0 < r) (h : r ∣ s) : (s + r - 1) / r = s / r := by
  obtain ⟨k, rfl⟩ := h
  rw [Nat.mul_div_cancel_left k hr, show r * k + r - 1 = r * k + (r - 1) by omega,
    Nat.mul_add_div hr, Nat.div_eq_of_lt (by omega), Nat.add_zero]

/-- Rounding up each physical segment counts more than rounding down their sum. -/
theorem count_lt_of_not_dvd {n s r : ℕ} (hn : 1 ≤ n) (hr : 0 < r) (h : ¬ r ∣ s) :
    n * s / r < n * ((s + r - 1) / r) := by
  have hmod : 0 < s % r := Nat.pos_of_ne_zero fun h0 => h (Nat.dvd_of_mod_eq_zero h0)
  have hup : s < r * ((s + r - 1) / r) := by
    have hsplit : s + r - 1 = r * (s / r) + (r + (s % r - 1)) := by
      have := Nat.div_add_mod s r
      omega
    rw [hsplit, Nat.mul_add_div hr, Nat.add_div_left _ hr, Nat.mul_add, Nat.mul_succ]
    have := Nat.div_add_mod s r
    have := Nat.mod_lt s hr
    omega
  rw [Nat.div_lt_iff_lt_mul hr]
  calc n * s < n * (r * ((s + r - 1) / r)) := Nat.mul_lt_mul_of_pos_left hup hn
    _ = n * ((s + r - 1) / r) * r := by ring

/-- The pool of a size that the constructor can cut evenly. -/
theorem init_of_dvd {n s r : ℕ} (hr : 0 < r) (hs : 1 ≤ s) (hdvd : r ∣ s)
    (hsmall : n * s < SizeT.modulus) (hint : n * s / r ≤ INT_MAX) :
    ∃ m, init n s r = some m ∧ m.WellLaidOut := by
  have hlen : (layout n s r).length = n * s / r := by
    rw [length_layout, roundUp_of_dvd hr hdvd, Nat.mul_div_assoc n hdvd]
  have hmul : SizeT.mul n s = n * s := SizeT.mul_of_lt hsmall
  rw [init, if_neg (by omega), hmul, if_neg (by rw [hlen]; omega), if_neg (by rw [hlen]; omega)]
  refine ⟨_, rfl, hlen, ?_, ?_, pairwise_disjoint_layout hr, ?_⟩
  · rw [map_id_layout, hlen]
  · intro g hg
    obtain ⟨hseg, hsize, k, hk, haddr⟩ := inside_of_mem_layout hg
    rw [roundUp_of_dvd hr hdvd] at hk
    refine ⟨hseg, ?_⟩
    calc g.addr + g.size = (k + 1) * r := by rw [haddr, hsize, Nat.add_mul, Nat.one_mul]
      _ ≤ s / r * r := Nat.mul_le_mul_right r hk
      _ ≤ s := Nat.div_mul_le_self s r
  · rw [total_of_sizes (fun g hg => (inside_of_mem_layout hg).2.1), hlen,
      Nat.mul_div_cancel' (hdvd.mul_left n)]

end ShmManager

open ShmManager

/-- The constructor lays the pool out as intended exactly when the size of a
physical segment is a multiple of the internal size, and the virtual segments
can be numbered by an `int`. -/
theorem pool_layout_iff {n_sms sms_size : ℕ} (hn : 1 ≤ n_sms) (hn' : n_sms ≤ INT_MAX)
    (hs : 1 ≤ sms_size) (hs' : sms_size ≤ INT_MAX) :
    (∃ m, init n_sms sms_size INTERNAL_REP_SIZE = some m ∧ m.WellLaidOut) ↔
      INTERNAL_REP_SIZE ∣ sms_size ∧ n_sms * sms_size / INTERNAL_REP_SIZE ≤ INT_MAX := by
  have hr : 0 < INTERNAL_REP_SIZE := by decide
  have hsmall : n_sms * sms_size < SizeT.modulus :=
    lt_of_le_of_lt (Nat.mul_le_mul hn' hs') (by decide)
  constructor
  · rintro ⟨m, hinit, hlaid⟩
    have hcount := hlaid.count
    simp only [init, SizeT.mul_of_lt hsmall] at hinit
    split_ifs at hinit with _ _ hint
    cases hinit
    dsimp only at hcount
    refine ⟨?_, by omega⟩
    by_contra hnot
    have hlt := count_lt_of_not_dvd hn hr hnot
    rw [length_layout] at hcount
    omega
  · rintro ⟨hdvd, hint⟩
    exact init_of_dvd hr hs hdvd hsmall hint

theorem pool_layout_iff_two_segments :
    (∃ m, init 2 64 INTERNAL_REP_SIZE = some m ∧ m.WellLaidOut) ↔
      INTERNAL_REP_SIZE ∣ 64 ∧ 2 * 64 / INTERNAL_REP_SIZE ≤ INT_MAX :=
  pool_layout_iff (by decide) (by decide) (by decide) (by decide)

/-- One physical segment of 33 bytes: room is reserved for one virtual segment,
and the second one appended destroys the first. With 16 bytes the one virtual
segment created is not counted, and sticks out of the physical one. -/
theorem pool_layout_mismatch :
    (33 / INTERNAL_REP_SIZE = 1 ∧ (layout 1 33 INTERNAL_REP_SIZE).length = 2 ∧
      init 1 33 INTERNAL_REP_SIZE = none) ∧
    ∃ m, init 1 16 INTERNAL_REP_SIZE = some m ∧ m.numInternalSegments = 0 ∧
      m.shmSegments = [⟨0, 0, 0, 32⟩] ∧ m.physicalSegmentSize = 16 ∧ ¬ m.WellLaidOut := by
  refine ⟨by decide, (init 1 16 INTERNAL_REP_SIZE).get (by decide), (Option.some_get _).symm,
    by decide, by decide, by decide, fun h => ?_⟩
  exact absurd h.count (by decide)

end TinyFile
