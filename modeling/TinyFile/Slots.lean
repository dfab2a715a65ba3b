import Mathlib.Algebra.BigOperators.Group.Finset.Basic
import Mathlib.Algebra.Ring.Nat
import Mathlib.Data.List.Perm.Basic

/-!
# What the slots of a list hold

Threads are slots of a list, and `f` reads off what a slot holds, if anything.
Replacing one slot changes what the slots hold together only by what that slot
held and holds.
-/
namespace TinyFile.Slots

variable {α β : Type*} {l : List α} {i : ℕ} {a : α}

/-- What the other slots hold. -/
def others (f : α → Option β) (l : List α) (i : ℕ) : List β := (l.eraseIdx i).filterMap f

theorem perm_get (f : α → Option β) (h : l[i]? = some a) :
    (l.filterMap f).Perm ((f a).toList ++ others f l i) := by
  obtain ⟨hlt, rfl⟩ := List.getElem?_eq_some_iff.mp h
  have hperm := (List.getElem_cons_eraseIdx_perm hlt).filterMap f
  rw [List.filterMap_cons] at hperm
  cases hf : f l[i] with
  | none =>
    rw [hf] at hperm
    exact hperm.symm
  | some b =>
    rw [hf] at hperm
    exact hperm.symm

theorem perm_set (f : α → Option β) (h : l[i]? = some a) (b : α) :
    ((l.set i b).filterMap f).Perm ((f b).toList ++ others f l i) := by
  obtain ⟨hlt, -⟩ := List.getElem?_eq_some_iff.mp h
  have hget : (l.set i b)[i]? = some b := List.getElem?_set_self hlt
  have hperm := perm_get f hget
  rwa [others, List.eraseIdx_set_eq] at hperm

/-- A slot that holds the same as before. -/
theorem filterMap_set (f : α → Option β) (h : l[i]? = some a) {b : α} (hf : f b = f a) :
    (l.set i b).filterMap f = l.filterMap f := by
  induction l generalizing i with
  | nil => rfl
  | cons x l ih =>
    cases i with
    | zero =>
      obtain rfl : x = a := by simpa using h
      rw [List.set_cons_zero, List.filterMap_cons, List.filterMap_cons, hf]
    | succ i =>
      rw [List.set_cons_succ, List.filterMap_cons, List.filterMap_cons, ih (by simpa using h)]

/-- How many slots meet a condition, after one of them has changed. -/
theorem countP_set (p : α → Bool) (h : l[i]? = some a) (b : α) :
    (l.set i b).countP p + (if p a then 1 else 0) = l.countP p + (if p b then 1 else 0) := by
  obtain ⟨hlt, rfl⟩ := List.getElem?_eq_some_iff.mp h
  have hold := (List.getElem_cons_eraseIdx_perm hlt).countP_eq p
  have hnew := (List.set_perm_cons_eraseIdx hlt b).countP_eq p
  rw [List.countP_cons] at hold hnew
  omega

/-- Distinct slots that meet a condition. -/
theorem length_le_countP {p : α → Bool} {slots : List ℕ} (hnd : slots.Nodup)
    (h : ∀ i ∈ slots, ∃ a, l[i]? = some a ∧ p a = true) : slots.length ≤ l.countP p := by
  have hsub : slots ⊆ (l.zipIdx.filter (fun x => p x.1)).map Prod.snd := by
    intro i hi
    obtain ⟨a, ha, hp⟩ := h i hi
    exact List.mem_map.mpr
      ⟨(a, i), List.mem_filter.mpr ⟨List.mem_zipIdx_iff_getElem?.mpr ha, hp⟩, rfl⟩
  have hle := (List.subperm_of_subset hnd hsub).length_le
  have hcount : (l.zipIdx.map Prod.fst).countP p = (l.zipIdx.filter (fun x => p x.1)).length := by
    rw [List.countP_map, List.countP_eq_length_filter]
    rfl
  rw [List.zipIdx_map_fst] at hcount
  rw [List.length_map] at hle
  omega

theorem getElem?_set_cases {b x : α} {j : ℕ} (h : l[i]? = some a) (hx : (l.set i b)[j]? = some x) :
    j = i ∧ x = b ∨ j ≠ i ∧ l[j]? = some x := by
  by_cases hj : j = i
  · subst hj
    rw [List.getElem?_set_self (List.getElem?_eq_some_iff.mp h).1] at hx
    exact .inl ⟨rfl, (Option.some.inj hx).symm⟩
  · exact .inr ⟨hj, (List.getElem?_set_ne (Ne.symm hj)).symm.trans hx⟩

/-- What another slot held is still there. -/
theorem mem_set_of_ne {b x : α} (h : l[i]? = some a) (hx : x ∈ l) (hne : x ≠ a) :
    x ∈ l.set i b := by
  obtain ⟨hlt, rfl⟩ := List.getElem?_eq_some_iff.mp h
  have hold := (List.getElem_cons_eraseIdx_perm hlt).mem_iff.mpr hx
  rcases List.mem_cons.mp hold with hold | hold
  · exact absurd hold hne
  · exact (List.set_perm_cons_eraseIdx hlt b).mem_iff.mpr (List.mem_cons_of_mem b hold)

/-- A sum over the slots, after one of them has changed. -/
theorem sum_set (f : α → ℕ) (h : l[i]? = some a) (b : α) :
    ((l.set i b).map f).sum + f a = (l.map f).sum + f b := by
  obtain ⟨hlt, rfl⟩ := List.getElem?_eq_some_iff.mp h
  have hold := ((List.getElem_cons_eraseIdx_perm hlt).map f).sum_nat
  have hnew := ((List.set_perm_cons_eraseIdx hlt b).map f).sum_nat
  rw [List.map_cons, List.sum_cons] at hold hnew
  omega

/-- A list whose items fall into `k` classes, with at most `b c` items in class `c`. -/
theorem length_le_sum (f : α → ℕ) {k : ℕ} {b : ℕ → ℕ} (hk : ∀ a ∈ l, f a < k)
    (hb : ∀ c, l.countP (fun a => decide (f a = c)) ≤ b c) :
    l.length ≤ ∑ c ∈ Finset.range k, b c := by
  induction k generalizing l with
  | zero =>
    rw [List.eq_nil_iff_forall_not_mem.mpr fun a ha => Nat.not_lt_zero _ (hk a ha)]
    exact Nat.zero_le _
  | succ k ih =>
    have hlast := hb k
    have hrest : (l.filter (fun a => ¬ (decide (f a = k)) = true)).length ≤
        ∑ c ∈ Finset.range k, b c := by
      refine ih (fun a ha => ?_) fun c => ?_
      · obtain ⟨ha, hne⟩ := List.mem_filter.mp ha
        have hlt := hk a ha
        simp only [decide_eq_true_eq] at hne
        omega
      · exact Nat.le_trans (List.Sublist.countP_le List.filter_sublist) (hb c)
    rw [List.length_eq_countP_add_countP (fun a => decide (f a = k)), Finset.sum_range_succ,
      Nat.add_comm]
    rw [← List.countP_eq_length_filter] at hrest
    exact Nat.add_le_add hrest hlast

end TinyFile.Slots
