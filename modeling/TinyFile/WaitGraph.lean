import Mathlib.Data.Set.Insert

/-!
# Circular waits

A thread that is blocked waits on an event, and `waitsOn` gives the threads that
can produce this event. A circular wait is a set of blocked threads in which
nobody waits on a thread outside of the set.
-/
namespace TinyFile

variable {τ : Type*}

structure CircularWait (waitsOn : τ → Option (Set τ)) (S : Set τ) : Prop where
  nonempty : S.Nonempty
  closed : ∀ t ∈ S, ∃ P, waitsOn t = some P ∧ P.Nonempty ∧ P ⊆ S

namespace CircularWait

variable {waitsOn : τ → Option (Set τ)} {S P : Set τ} {t u : τ}

theorem subset (h : CircularWait waitsOn S) (ht : t ∈ S) (hw : waitsOn t = some P) :
    P ⊆ S := by
  obtain ⟨Q, hQ, -, hsub⟩ := h.closed t ht
  rw [hw] at hQ
  cases hQ
  exact hsub

theorem exists_mem (h : CircularWait waitsOn S) (ht : t ∈ S) (hw : waitsOn t = some P) :
    ∃ u ∈ P, u ∈ S := by
  obtain ⟨Q, hQ, ⟨u, hu⟩, hsub⟩ := h.closed t ht
  rw [hw] at hQ
  cases hQ
  exact ⟨u, hu, hsub hu⟩

theorem mem_of_singleton (h : CircularWait waitsOn S) (ht : t ∈ S)
    (hw : waitsOn t = some {u}) : u ∈ S := h.subset ht hw (Set.mem_singleton u)

end CircularWait

end TinyFile
