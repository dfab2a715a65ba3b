import Mathlib.Data.List.Nodup
import Mathlib.Data.List.Perm.Subperm

/-!
# Scanning a list in a circle

A scan that starts somewhere in a list without repetitions, goes to its end and
then once from its beginning. Before it comes back to a given element it meets
every other one at most once, and elements that are put in between while it
goes on do not change the order of those that were there.
-/
namespace TinyFile.CyclicScan

variable {α : Type*} [DecidableEq α]

/-- What a scan over the rest of a list and then over all of it meets before `c`. -/
def ahead (all rest : List α) (c : α) : List α :=
  if c ∈ rest then rest.takeWhile (fun a => a ≠ c) else rest ++ all.takeWhile (fun a => a ≠ c)

theorem takeWhile_ne_append {l r : List α} {c : α} (h : c ∉ l) :
    (l ++ c :: r).takeWhile (fun a => a ≠ c) = l := by
  rw [List.takeWhile_append_of_pos (by simpa using fun a ha (he : a = c) => h (he ▸ ha)),
    List.takeWhile_cons_of_neg (by simp), List.append_nil]

theorem dropWhile_ne_append {l r : List α} {c : α} (h : c ∉ l) :
    (l ++ c :: r).dropWhile (fun a => a ≠ c) = c :: r := by
  rw [List.dropWhile_append_of_pos (by simpa using fun a ha (he : a = c) => h (he ▸ ha)),
    List.dropWhile_cons_of_neg (by simp)]

/-- Looking for a kept element, a filter does not matter. -/
theorem ne_congr {p : α → Bool} {c : α} (hc : p c = true) :
    (fun a => !p a || decide (a ≠ c)) = fun a => decide (a ≠ c) := by
  funext a
  by_cases h : a = c
  · simp [h, hc]
  · simp [h]

theorem takeWhile_ne_filter {p : α → Bool} {c : α} (hc : p c = true) (l : List α) :
    (l.filter p).takeWhile (fun a => a ≠ c) = (l.takeWhile (fun a => a ≠ c)).filter p := by
  rw [List.takeWhile_filter, ne_congr hc]

theorem dropWhile_ne_filter {p : α → Bool} {c : α} (hc : p c = true) (l : List α) :
    (l.filter p).dropWhile (fun a => a ≠ c) = (l.dropWhile (fun a => a ≠ c)).filter p := by
  rw [List.dropWhile_filter, ne_congr hc]

/-- The elements that were there before an insertion keep their order. -/
theorem ahead_filter {p : α → Bool} {c : α} (hc : p c = true) (all rest : List α) :
    ahead (all.filter p) (rest.filter p) c = (ahead all rest c).filter p := by
  have hmem : c ∈ rest.filter p ↔ c ∈ rest := by simp [hc]
  simp only [ahead, hmem]
  split_ifs
  · exact takeWhile_ne_filter hc rest
  · rw [List.filter_append, takeWhile_ne_filter hc]

/-- A sublist of a list without repetitions is cut out by membership. -/
theorem filter_mem_of_sublist {l l' : List α} (h : l.Sublist l') (hnd : l'.Nodup) :
    l'.filter (fun a => a ∈ l) = l := by
  have hself : l.filter (fun a => a ∈ l) = l := List.filter_eq_self.mpr (by simp)
  have hsub : l.Sublist (l'.filter (fun a => a ∈ l)) := by
    have := h.filter (fun a => decide (a ∈ l))
    rwa [hself] at this
  have hle : (l'.filter (fun a => a ∈ l)).length ≤ l.length :=
    (List.subperm_of_subset (hnd.filter _)
      fun a ha => by simpa using (List.mem_filter.mp ha).2).length_le
  exact (hsub.eq_of_length (Nat.le_antisymm hsub.length_le hle)).symm

/-- One stop of the scan, at `k`: the scan goes on behind `k`, does not come back
to it before `c`, and meets nothing before `c` that it would not have met. -/
theorem ahead_step {all front skipped after rest : List α} {k c : α} (hnd : all.Nodup)
    (hall : all = front ++ (skipped ++ k :: after)) (hc : c ∈ all) (hck : c ≠ k)
    (hskip : c ∉ skipped) (hrest : rest = skipped ++ k :: after ∨ front = [] ∧ c ∉ rest) :
    k ∈ ahead all rest c ∧ k ∉ ahead all after c ∧
      ∀ a ∈ ahead all after c, a ∈ ahead all rest c := by
  subst hall
  obtain ⟨-, hnd', hfront⟩ := List.nodup_append.mp hnd
  obtain ⟨-, hnd'', hskipped⟩ := List.nodup_append.mp hnd'
  have hk : k ∉ after := (List.nodup_cons.mp hnd'').1
  have hkskip : k ∉ skipped := fun hm => hskipped k hm k List.mem_cons_self rfl
  -- up to `c` behind `k`, the list is the skipped part, `k` and the part up to `c`
  have hthrough : ∀ {l r : List α}, c ∉ l → after = l ++ c :: r →
      (skipped ++ k :: after).takeWhile (fun a => a ≠ c) = skipped ++ k :: l := by
    rintro l r hl rfl
    have hcl : c ∉ skipped ++ k :: l := by simp [hskip, hck, hl]
    simpa using takeWhile_ne_append (r := r) hcl
  by_cases hca : c ∈ after
  · obtain ⟨l, r, hsplit, hl⟩ := List.eq_append_cons_of_mem hca
    have hafter : ahead (front ++ (skipped ++ k :: after)) after c = l := by
      rw [ahead, if_pos hca]
      simpa [hsplit] using takeWhile_ne_append (r := r) hl
    have hkl : k ∉ l := fun hm => hk (hsplit ▸ List.mem_append_left _ hm)
    have hfound : ∃ before, ahead (front ++ (skipped ++ k :: after)) rest c =
        before ++ (skipped ++ k :: l) := by
      rcases hrest with rfl | ⟨rfl, hcr⟩
      · exact ⟨[], by rw [ahead, if_pos (by simp [hca]), hthrough hl hsplit, List.nil_append]⟩
      · exact ⟨rest, by rw [ahead, if_neg hcr, List.nil_append, hthrough hl hsplit]⟩
    obtain ⟨before, hbefore⟩ := hfound
    rw [hafter, hbefore]
    exact ⟨by simp, hkl, fun a ha => by simp [ha]⟩
  · -- `c` comes before `k`, so the scan has not wrapped around yet
    have hcs : c ∉ skipped ++ k :: after := by simp [hskip, hck, hca]
    have hcf : c ∈ front := (List.mem_append.mp hc).resolve_right hcs
    have hrest' : rest = skipped ++ k :: after := by
      rcases hrest with h | ⟨rfl, -⟩
      · exact h
      · exact absurd hcf List.not_mem_nil
    subst hrest'
    obtain ⟨l, r, rfl, hl⟩ := List.eq_append_cons_of_mem hcf
    have hwrap : (l ++ c :: r ++ (skipped ++ k :: after)).takeWhile (fun a => a ≠ c) = l := by
      simpa using takeWhile_ne_append (r := r ++ (skipped ++ k :: after)) hl
    have hkl : k ∉ l := fun hm => hfront k (List.mem_append_left _ hm) k (by simp) rfl
    rw [ahead, ahead, if_neg hcs, if_neg hca, hwrap]
    exact ⟨by simp, by simp [hk, hkl], fun a ha => by
      rcases List.mem_append.mp ha with ha | ha
      · simp [ha]
      · simp [ha]⟩

end TinyFile.CyclicScan
