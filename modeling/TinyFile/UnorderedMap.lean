import Mathlib

/-!
# Hash maps with an iteration order

The entries are listed in iteration order and carry distinct keys. Where a new
key lands is not specified by the container, so insertion takes the placement
as an argument: a position that keeps the order of the other entries, or a
rehash, which may reorder all of them and invalidates iterators.
-/
namespace TinyFile

structure UnorderedMap (α β : Type*) where
  entries : List (α × β)
  nodup : (entries.map Prod.fst).Nodup

/-- Where an insertion puts a new key in the iteration order. -/
inductive Placement (α : Type*) where
  | splice (position : ℕ)
  | rehash (order : List α)

/-- An iterator that is kept across operations. -/
inductive Cursor (α : Type*) where
  | atEnd
  | atKey (key : α)
  | invalid
  deriving DecidableEq, Repr

namespace UnorderedMap

variable {α β : Type*}

def empty : UnorderedMap α β := ⟨[], by simp⟩

def keys (m : UnorderedMap α β) : List α := m.entries.map Prod.fst

theorem nodup_keys (m : UnorderedMap α β) : m.keys.Nodup := m.nodup

@[simp] theorem keys_empty : (empty : UnorderedMap α β).keys = [] := rfl

/-- The sum of a size over all values. -/
def total (m : UnorderedMap α β) (f : β → ℕ) : ℕ := (m.entries.map (fun e => f e.2)).sum

@[simp] theorem total_empty (f : β → ℕ) : (empty : UnorderedMap α β).total f = 0 := rfl

/-- An entry is determined by its key. -/
theorem eq_of_mem_entries (m : UnorderedMap α β) {k : α} {v w : β}
    (hv : (k, v) ∈ m.entries) (hw : (k, w) ∈ m.entries) : v = w := by
  have h := List.inj_on_of_nodup_map m.nodup hv hw rfl
  simpa using h

section Lookup

variable [DecidableEq α]

def find? (m : UnorderedMap α β) (k : α) : Option β :=
  (m.entries.find? (fun e => e.1 = k)).map Prod.snd

theorem find?_eq_some_iff {m : UnorderedMap α β} {k : α} {v : β} :
    m.find? k = some v ↔ (k, v) ∈ m.entries := by
  constructor
  · intro h
    obtain ⟨⟨j, w⟩, hfind, rfl⟩ := Option.map_eq_some_iff.mp h
    have hk := List.find?_some hfind
    simp only [decide_eq_true_eq] at hk
    exact hk ▸ List.mem_of_find?_eq_some hfind
  · intro h
    cases hfind : m.entries.find? (fun e => e.1 = k) with
    | none =>
      have := List.find?_eq_none.mp hfind _ h
      simp at this
    | some e =>
      obtain ⟨j, w⟩ := e
      have hk := List.find?_some hfind
      simp only [decide_eq_true_eq] at hk
      subst hk
      simp [find?, hfind, m.eq_of_mem_entries (List.mem_of_find?_eq_some hfind) h]

theorem mem_keys_iff {m : UnorderedMap α β} {k : α} :
    k ∈ m.keys ↔ ∃ v, m.find? k = some v := by
  simp only [keys, List.mem_map, find?_eq_some_iff, Prod.exists]
  constructor
  · rintro ⟨j, v, h, rfl⟩
    exact ⟨v, h⟩
  · rintro ⟨v, h⟩
    exact ⟨k, v, h, rfl⟩

theorem mem_keys_of_find? {m : UnorderedMap α β} {k : α} {v : β} (h : m.find? k = some v) :
    k ∈ m.keys := mem_keys_iff.mpr ⟨v, h⟩

theorem find?_eq_none_iff {m : UnorderedMap α β} {k : α} : m.find? k = none ↔ k ∉ m.keys := by
  rw [mem_keys_iff, not_exists, Option.eq_none_iff_forall_ne_some]

@[simp] theorem find?_empty (k : α) : (empty : UnorderedMap α β).find? k = none := rfl

/-- Update the value under a key in place. -/
def modify (m : UnorderedMap α β) (k : α) (f : β → β) : UnorderedMap α β where
  entries := m.entries.map (fun e => if e.1 = k then (e.1, f e.2) else e)
  nodup := by
    have h : (Prod.fst ∘ fun e : α × β => if e.1 = k then (e.1, f e.2) else e) = Prod.fst := by
      funext e
      simp only [Function.comp_apply]
      split <;> rfl
    rw [List.map_map, h]
    exact m.nodup

@[simp] theorem keys_modify (m : UnorderedMap α β) (k : α) (f : β → β) :
    (m.modify k f).keys = m.keys := by
  simp only [keys, modify, List.map_map]
  apply List.map_congr_left
  intro e _
  simp only [Function.comp_apply]
  split <;> rfl

theorem find?_modify (m : UnorderedMap α β) (k j : α) (f : β → β) :
    (m.modify k f).find? j = if j = k then (m.find? j).map f else m.find? j := by
  apply Option.ext
  intro v
  rw [find?_eq_some_iff]
  simp only [modify, List.mem_map, Prod.exists]
  split_ifs with h
  · subst h
    rw [Option.map_eq_some_iff]
    constructor
    · rintro ⟨i, w, hmem, heq⟩
      split_ifs at heq with hi
      · simp only [Prod.mk.injEq] at heq
        exact ⟨w, find?_eq_some_iff.mpr (hi ▸ hmem), heq.2⟩
      · simp only [Prod.mk.injEq] at heq
        exact absurd heq.1 hi
    · rintro ⟨w, hw, rfl⟩
      exact ⟨j, w, find?_eq_some_iff.mp hw, by simp⟩
  · constructor
    · rintro ⟨i, w, hmem, heq⟩
      split_ifs at heq with hi
      · simp only [Prod.mk.injEq] at heq
        exact absurd (heq.1.symm.trans hi) h
      · simp only [Prod.mk.injEq] at heq
        obtain ⟨rfl, rfl⟩ := heq
        exact find?_eq_some_iff.mpr hmem
    · intro hv
      exact ⟨j, v, find?_eq_some_iff.mp hv, by simp [h]⟩

theorem find?_modify_self {m : UnorderedMap α β} {k : α} {v : β} (h : m.find? k = some v)
    (f : β → β) : (m.modify k f).find? k = some (f v) := by simp [find?_modify, h]

theorem find?_modify_of_ne (m : UnorderedMap α β) {k j : α} (h : j ≠ k) (f : β → β) :
    (m.modify k f).find? j = m.find? j := by simp [find?_modify, h]

theorem modify_modify (m : UnorderedMap α β) (k : α) (f g : β → β) :
    (m.modify k f).modify k g = m.modify k (fun v => g (f v)) := by
  have hentries : ((m.modify k f).modify k g).entries = (m.modify k (fun v => g (f v))).entries := by
    simp only [modify, List.map_map]
    apply List.map_congr_left
    intro e _
    by_cases h : e.1 = k <;> simp [h]
  cases m
  simpa only [modify, UnorderedMap.mk.injEq] using hentries

/-- Writing the value that is there changes nothing. -/
theorem modify_eq_self {m : UnorderedMap α β} {k : α} {v : β} (h : m.find? k = some v)
    {f : β → β} (hf : f v = v) : m.modify k f = m := by
  have hentries : (m.modify k f).entries = m.entries := by
    simp only [modify]
    rw [List.map_congr_left (g := id), List.map_id]
    intro e he
    by_cases hk : e.1 = k
    · have hv : e.2 = v := m.eq_of_mem_entries (k := k) (hk ▸ he) (find?_eq_some_iff.mp h)
      rw [if_pos hk, hv, hf]
      exact Prod.ext rfl hv.symm
    · simp [hk]
  cases m
  simpa only [modify, UnorderedMap.mk.injEq] using hentries

def erase (m : UnorderedMap α β) (k : α) : UnorderedMap α β where
  entries := m.entries.filter (fun e => e.1 ≠ k)
  nodup := m.nodup.sublist (List.filter_sublist.map Prod.fst)

theorem mem_keys_erase {m : UnorderedMap α β} {k j : α} :
    j ∈ (m.erase k).keys ↔ j ∈ m.keys ∧ j ≠ k := by
  simp only [keys, erase, List.mem_map, List.mem_filter, decide_eq_true_eq]
  constructor
  · rintro ⟨e, ⟨he, hne⟩, rfl⟩
    exact ⟨⟨e, he, rfl⟩, hne⟩
  · rintro ⟨⟨e, he, rfl⟩, hne⟩
    exact ⟨e, ⟨he, hne⟩, rfl⟩

theorem find?_erase (m : UnorderedMap α β) (k j : α) :
    (m.erase k).find? j = if j = k then none else m.find? j := by
  apply Option.ext
  intro v
  rw [find?_eq_some_iff]
  simp only [erase, List.mem_filter, decide_eq_true_eq]
  split_ifs with h
  · simp [h]
  · simp [find?_eq_some_iff, h]

theorem erase_of_notMem {m : UnorderedMap α β} {k : α} (h : k ∉ m.keys) : m.erase k = m := by
  have hall : ∀ e ∈ m.entries, e.1 ≠ k := fun e he heq =>
    h (heq ▸ List.mem_map.mpr ⟨e, he, rfl⟩)
  have hentries : (m.erase k).entries = m.entries :=
    List.filter_eq_self.mpr (fun e he => by simpa using hall e he)
  cases m
  simp only [erase, UnorderedMap.mk.injEq] at hentries ⊢
  exact hentries

/-- List the entries in the given key order, the keys it leaves out last. -/
def reorder (es : List (α × β)) (order : List α) : List (α × β) :=
  order.dedup.filterMap (fun k => es.find? (fun e => e.1 = k)) ++
    es.filter (fun e => e.1 ∉ order)

theorem reorder_perm {es : List (α × β)} (h : (es.map Prod.fst).Nodup) (order : List α) :
    (reorder es order).Perm es := by
  have hfront : (order.dedup.filterMap (fun k => es.find? (fun e => e.1 = k))).Perm
      (es.filter (fun e => decide (e.1 ∈ order))) := by
    apply (List.perm_ext_iff_of_nodup _ (h.of_map.filter _)).mpr
    · rintro ⟨j, v⟩
      simp only [List.mem_filterMap, List.mem_dedup, List.mem_filter, decide_eq_true_eq]
      constructor
      · rintro ⟨k, hk, hfind⟩
        have hjk := List.find?_some hfind
        simp only [decide_eq_true_eq] at hjk
        exact ⟨List.mem_of_find?_eq_some hfind, hjk ▸ hk⟩
      · rintro ⟨hmem, hj⟩
        refine ⟨j, hj, ?_⟩
        have hfind := (find?_eq_some_iff (m := ⟨es, h⟩)).mpr hmem
        obtain ⟨⟨i, w⟩, hi, hw⟩ := Option.map_eq_some_iff.mp hfind
        have hik := List.find?_some hi
        simp only [decide_eq_true_eq] at hik hw
        simpa [hik, hw] using hi
    · apply order.nodup_dedup.filterMap
      intro a b c ha hb
      have hca := List.find?_some ha
      have hcb := List.find?_some hb
      simp only [decide_eq_true_eq] at hca hcb
      exact hca.symm.trans hcb
  have hsplit := List.filter_append_perm (fun e : α × β => decide (e.1 ∈ order)) es
  refine (hfront.append_right _).trans (List.Perm.trans ?_ hsplit)
  simp

/-- The entries after a new one has been placed. -/
def place (es : List (α × β)) (e : α × β) : Placement α → List (α × β)
  | .splice i => es.insertIdx (min i es.length) e
  | .rehash order => reorder (e :: es) order

theorem place_perm {es : List (α × β)} {e : α × β} (h : ((e :: es).map Prod.fst).Nodup)
    (p : Placement α) : (place es e p).Perm (e :: es) := by
  cases p with
  | splice i => exact List.perm_insertIdx e es (Nat.min_le_right _ _)
  | rehash order => exact reorder_perm h order

/-- Insert a key that is not there yet; a present key keeps its value. -/
def emplace (m : UnorderedMap α β) (k : α) (v : β) (p : Placement α) : UnorderedMap α β :=
  if h : k ∈ m.keys then m
  else
    { entries := place m.entries (k, v) p
      nodup := by
        have hcons : (((k, v) :: m.entries).map Prod.fst).Nodup :=
          List.nodup_cons.mpr ⟨h, m.nodup⟩
        exact ((place_perm hcons p).map Prod.fst).nodup_iff.mpr hcons }

theorem emplace_of_mem {m : UnorderedMap α β} {k : α} (h : k ∈ m.keys) (v : β)
    (p : Placement α) : m.emplace k v p = m := by simp [emplace, h]

theorem entries_emplace_perm {m : UnorderedMap α β} {k : α} (h : k ∉ m.keys) (v : β)
    (p : Placement α) : (m.emplace k v p).entries.Perm ((k, v) :: m.entries) := by
  simp only [emplace, h, dif_neg, not_false_eq_true]
  exact place_perm (List.nodup_cons.mpr ⟨h, m.nodup⟩) p

theorem mem_keys_emplace {m : UnorderedMap α β} {k j : α} {v : β} {p : Placement α} :
    j ∈ (m.emplace k v p).keys ↔ j = k ∨ j ∈ m.keys := by
  by_cases h : k ∈ m.keys
  · rw [emplace_of_mem h]
    exact ⟨Or.inr, fun hj => hj.elim (fun he => he ▸ h) id⟩
  · rw [keys, ((entries_emplace_perm h v p).map Prod.fst).mem_iff]
    simp [keys]

theorem find?_emplace {m : UnorderedMap α β} {k : α} (h : k ∉ m.keys) (v : β)
    (p : Placement α) (j : α) :
    (m.emplace k v p).find? j = if j = k then some v else m.find? j := by
  apply Option.ext
  intro w
  rw [find?_eq_some_iff, (entries_emplace_perm h v p).mem_iff]
  split_ifs with hj
  · subst hj
    have hnot : (j, w) ∉ m.entries := fun hw => h (List.mem_map.mpr ⟨_, hw, rfl⟩)
    simp [hnot, eq_comm]
  · simp [hj, find?_eq_some_iff]

theorem find?_emplace_of_ne (m : UnorderedMap α β) {k j : α} (hj : j ≠ k) (v : β)
    (p : Placement α) : (m.emplace k v p).find? j = m.find? j := by
  by_cases h : k ∈ m.keys
  · rw [emplace_of_mem h]
  · rw [find?_emplace h, if_neg hj]

theorem total_emplace {m : UnorderedMap α β} {k : α} (h : k ∉ m.keys) (v : β)
    (p : Placement α) (f : β → ℕ) : (m.emplace k v p).total f = f v + m.total f := by
  simpa [total] using ((entries_emplace_perm h v p).map (fun e => f e.2)).sum_eq

/-- Splitting off the entry under a key splits every sum over the values. -/
theorem total_eq_erase_add {m : UnorderedMap α β} {k : α} {v : β} (h : m.find? k = some v)
    (f : β → ℕ) : m.total f = (m.erase k).total f + f v := by
  obtain ⟨l, r, hsplit⟩ := List.append_of_mem (find?_eq_some_iff.mp h)
  have hnd := m.nodup
  rw [hsplit] at hnd
  simp only [List.map_append, List.map_cons] at hnd
  have hl : ∀ e ∈ l, e.1 ≠ k := fun e he heq =>
    (List.nodup_append.mp hnd).2.2 e.1 (List.mem_map.mpr ⟨e, he, rfl⟩) k (by simp) heq
  have hr : ∀ e ∈ r, e.1 ≠ k := fun e he heq =>
    (List.nodup_cons.mp (List.nodup_append.mp hnd).2.1).1
      (heq ▸ List.mem_map.mpr ⟨e, he, rfl⟩)
  have hfl : l.filter (fun e => decide (e.1 ≠ k)) = l :=
    List.filter_eq_self.mpr (fun e he => by simpa using hl e he)
  have hfr : r.filter (fun e => decide (e.1 ≠ k)) = r :=
    List.filter_eq_self.mpr (fun e he => by simpa using hr e he)
  have herase : (m.erase k).entries = l ++ r := by
    simp only [erase, hsplit, List.filter_append, List.filter_cons, hfl, hfr]
    simp
  simp only [total, herase, hsplit, List.map_append, List.sum_append, List.map_cons,
    List.sum_cons]
  omega

theorem erase_modify (m : UnorderedMap α β) (k : α) (f : β → β) :
    (m.modify k f).erase k = m.erase k := by
  have hentries : ((m.modify k f).erase k).entries = (m.erase k).entries := by
    simp only [erase, modify]
    induction m.entries with
    | nil => rfl
    | cons e es ih =>
      by_cases h : e.1 = k
      · simpa [h] using ih
      · simpa [h] using ih
  cases m
  simpa only [erase, modify, UnorderedMap.mk.injEq] using hentries

theorem total_modify {m : UnorderedMap α β} {k : α} {v : β} (h : m.find? k = some v)
    (g : β → β) (f : β → ℕ) : (m.modify k g).total f + f v = m.total f + f (g v) := by
  have hm := total_eq_erase_add h f
  have hg := total_eq_erase_add (find?_modify_self h g) f
  have he : ((m.modify k g).erase k).total f = (m.erase k).total f := by
    simp only [total, erase_modify]
  omega

theorem le_total {m : UnorderedMap α β} {k : α} {v : β} (h : m.find? k = some v)
    (f : β → ℕ) : f v ≤ m.total f := by
  have := total_eq_erase_add h f
  omega

/-- A positive sum has a positive summand. -/
theorem exists_of_total_pos {m : UnorderedMap α β} {f : β → ℕ} (h : 0 < m.total f) :
    ∃ k v, m.find? k = some v ∧ 0 < f v := by
  by_contra hnone
  simp only [not_exists, not_and, Nat.not_lt] at hnone
  have hzero : m.total f = 0 := by
    apply List.sum_eq_zero
    intro n hn
    obtain ⟨⟨k, v⟩, hmem, rfl⟩ := List.mem_map.mp hn
    exact Nat.le_zero.mp (hnone k v (find?_eq_some_iff.mpr hmem))
  omega

end Lookup

end UnorderedMap

end TinyFile
