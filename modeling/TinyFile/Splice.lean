import Mathlib

/-!
# Overwriting a part of a list

`splice l i d` is `l` with the elements from `i` on replaced by `d`. It is what
a write into the middle of a buffer does, whether the buffer is one piece or a
concatenation of pieces.
-/
namespace TinyFile

variable {α : Type*}

def splice (l : List α) (i : ℕ) (d : List α) : List α := l.take i ++ d ++ l.drop (i + d.length)

theorem length_splice {l d : List α} {i : ℕ} (h : i + d.length ≤ l.length) :
    (splice l i d).length = l.length := by
  simp only [splice, List.length_append, List.length_take, List.length_drop]
  omega

@[simp] theorem splice_nil (l : List α) (i : ℕ) : splice l i [] = l := by simp [splice]

theorem getElem?_splice {l d : List α} {i : ℕ} (h : i ≤ l.length) (k : ℕ) :
    (splice l i d)[k]? =
      if k < i then l[k]? else if k < i + d.length then d[k - i]? else l[k]? := by
  have htake : (l.take i).length = i := by simp [h]
  rw [splice, List.append_assoc, List.getElem?_append, htake]
  split_ifs with h₁ h₂
  · rw [List.getElem?_take, if_pos h₁]
  · rw [List.getElem?_append, if_pos (by omega)]
  · rw [List.getElem?_append, if_neg (by omega), List.getElem?_drop]
    congr 1
    omega

/-- Nothing before the splice changes. -/
theorem take_splice {l d : List α} {i j : ℕ} (hj : j ≤ i) (h : i ≤ l.length) :
    (splice l i d).take j = l.take j := by
  apply List.ext_getElem?
  intro k
  rw [List.getElem?_take, List.getElem?_take, getElem?_splice h]
  split_ifs with h₁ h₂ <;> first | rfl | omega

/-- The spliced elements are read back. -/
theorem take_drop_splice {l d : List α} {i : ℕ} (h : i ≤ l.length) :
    ((splice l i d).drop i).take d.length = d := by
  have hdrop : (splice l i d).drop i = d ++ l.drop (i + d.length) := by
    rw [splice, List.append_assoc, List.drop_append, List.drop_eq_nil_of_le (by simp)]
    simp [h]
  rw [hdrop, List.take_left]

/-- A splice ends where its data ends. -/
theorem take_add_splice {l d : List α} {i : ℕ} (h : i ≤ l.length) :
    (splice l i d).take (i + d.length) = l.take i ++ d := by
  have htake : (l.take i ++ d).length = i + d.length := by simp [h]
  rw [splice, ← htake, List.take_left]

/-- Nothing behind the spliced elements changes. -/
theorem drop_splice {l d : List α} {i : ℕ} (h : i ≤ l.length) :
    (splice l i d).drop (i + d.length) = l.drop (i + d.length) := by
  have htake : (l.take i ++ d).length = i + d.length := by simp [h]
  rw [splice, ← htake, List.drop_left]

/-- A splice that ends within the first part. -/
theorem splice_append_left {l r d : List α} {i : ℕ} (h : i + d.length ≤ l.length) :
    splice (l ++ r) i d = splice l i d ++ r := by
  rw [splice, splice, List.take_append_of_le_length (by omega),
    List.drop_append_of_le_length (by omega), List.append_assoc, List.append_assoc,
    List.append_assoc]

/-- A splice that starts behind the first part. -/
theorem splice_append_right {l r d : List α} {i : ℕ} (h : l.length ≤ i) :
    splice (l ++ r) i d = l ++ splice r (i - l.length) d := by
  have hdrop : (l ++ r).drop (i + d.length) = r.drop (i - l.length + d.length) := by
    rw [List.drop_append, List.drop_eq_nil_of_le (by omega), List.nil_append]
    congr 1
    omega
  have htake : (l ++ r).take i = l ++ r.take (i - l.length) := by
    rw [List.take_append, List.take_of_length_le h]
  simp only [splice, hdrop, htake, List.append_assoc]

/-- A splice that starts in the first part and ends behind it. -/
theorem splice_append_across {l r d : List α} {i : ℕ} (hi : i ≤ l.length)
    (h : l.length ≤ i + d.length) :
    splice (l ++ r) i d =
      splice l i (d.take (l.length - i)) ++ splice r 0 (d.drop (l.length - i)) := by
  have hlen : (d.take (l.length - i)).length = l.length - i := by
    rw [List.length_take]
    omega
  have hend : l.drop (i + (d.take (l.length - i)).length) = [] := by
    rw [hlen]
    exact List.drop_eq_nil_of_le (by omega)
  have hrest : (l ++ r).drop (i + d.length) = r.drop (d.drop (l.length - i)).length := by
    rw [List.length_drop, List.drop_append, List.drop_eq_nil_of_le h, List.nil_append]
    congr 1
    omega
  simp only [splice, hend, hrest, List.append_nil, List.take_zero, List.nil_append, Nat.zero_add]
  rw [List.take_append_of_le_length hi]
  simp only [List.append_assoc]
  rw [← List.append_assoc (d.take _), List.take_append_drop]

end TinyFile
