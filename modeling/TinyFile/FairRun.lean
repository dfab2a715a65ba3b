import Mathlib.Order.WellFounded
import TinyFile.Machine

/-!
# Fair infinite runs

The labels of a machine belong to threads, and a run is weakly fair to a thread
when the thread moves again and again unless it is stuck again and again. To show
that such a run gets somewhere, count the work that is left, which no step may
increase, and name in every state a thread that helps: it can move, it goes on
helping while others do no work, and after a few idle steps of its own it does
some.
-/
namespace TinyFile.Machine

variable {σ ε τ : Type*} {M : Machine σ ε} {ok : σ → ε → Prop}

/-- An infinite run whose steps all meet `ok`. -/
structure Trace (M : Machine σ ε) (ok : σ → ε → Prop) where
  state : ℕ → σ
  label : ℕ → ε
  next : ∀ i, M.next (state i) (label i) = some (state (i + 1))
  ok : ∀ i, ok (state i) (label i)

/-- A label of the thread is enabled. -/
def CanMove (M : Machine σ ε) (thread : ε → Option τ) (t : τ) (s : σ) : Prop :=
  ∃ e, thread e = some t ∧ (M.next s e).isSome = true

/-- Weak fairness to some threads. -/
def Trace.Fair (r : M.Trace ok) (thread : ε → Option τ) (threads : τ → Prop) : Prop :=
  ∀ t, threads t → ∀ i, (∀ j, i ≤ j → M.CanMove thread t (r.state j)) →
    ∃ j, i ≤ j ∧ thread (r.label j) = some t

theorem Trace.invariant (r : M.Trace ok) {inv : σ → Prop} (hstart : inv (r.state 0))
    (hinv : ∀ s e t, inv s → M.next s e = some t → ok s e → inv t) (i : ℕ) : inv (r.state i) := by
  induction i with
  | zero => exact hstart
  | succ i ih => exact hinv _ _ _ ih (r.next i) (r.ok i)

/-- The first steps of a trace. -/
theorem Trace.runIf (r : M.Trace ok) (i : ℕ) :
    M.RunIf ok (r.state 0) ((List.range i).map r.label) (r.state i) := by
  induction i with
  | zero => exact .nil _
  | succ i ih =>
    rw [List.range_succ, List.map_append]
    exact ih.append (.cons (r.next i) (r.ok i) (.nil _))

/-- A finite run that goes on with one label for ever. -/
theorem exists_trace {es : List ε} {s t : σ} (h : M.RunIf ok s es t) (e : ε) (rest : σ → Prop)
    (ht : rest t) (hrest : ∀ s, rest s → ok s e ∧ ∃ s', M.next s e = some s' ∧ rest s') :
    ∃ r : M.Trace ok, r.state 0 = s ∧
      ∀ i, es.length ≤ i → rest (r.state i) ∧ r.label i = e := by
  induction h with
  | nil s =>
    have hnext : ∀ u : { s // rest s }, ∃ u' : { s // rest s }, M.next u.1 e = some u'.1 := by
      rintro ⟨u, hu⟩
      obtain ⟨-, u', hnext, hu'⟩ := hrest u hu
      exact ⟨⟨u', hu'⟩, hnext⟩
    choose f hf using hnext
    let states : ℕ → { s // rest s } := Nat.rec ⟨s, ht⟩ (fun _ u => f u)
    exact ⟨⟨fun i => (states i).1, fun _ => e, fun i => hf (states i),
      fun i => (hrest _ (states i).2).1⟩, rfl, fun i _ => ⟨(states i).2, rfl⟩⟩
  | @cons s u t e₀ es hnext hok _ ih =>
    obtain ⟨r, rfl, htail⟩ := ih ht
    refine ⟨⟨fun i => i.casesOn s r.state, fun i => i.casesOn e₀ r.label, ?_, ?_⟩, rfl, ?_⟩
    · rintro (_ | i)
      · exact hnext
      · exact r.next i
    · rintro (_ | i)
      · exact hok
      · exact r.ok i
    · rintro (_ | i) hi
      · exact absurd hi (Nat.not_succ_le_zero _)
      · exact htail i (Nat.le_of_succ_le_succ hi)

/-- Nobody else can move in the end. -/
theorem Trace.fair_of_tail {r : M.Trace ok} {thread : ε → Option τ} {threads : τ → Prop} {n : ℕ}
    {e : ε} {rest : σ → Prop} (htail : ∀ i, n ≤ i → rest (r.state i) ∧ r.label i = e)
    (hstuck : ∀ s t, rest s → threads t → thread e ≠ some t → ¬ M.CanMove thread t s) :
    r.Fair thread threads := by
  intro t ht i hmove
  obtain ⟨hrest, hlabel⟩ := htail (max i n) (le_max_right i n)
  refine ⟨max i n, le_max_left i n, ?_⟩
  by_contra hne
  exact hstuck _ t hrest ht (hlabel ▸ hne) (hmove _ (le_max_left i n))

/-- What has to be shown of the work and of the threads that help. `helps t d s`
says that `t` helps in `s` and does work after at most `d` idle steps. -/
structure Helpful (M : Machine σ ε) (ok : σ → ε → Prop) (thread : ε → Option τ)
    (threads : τ → Prop) (inv : σ → Prop) (work : σ → ℕ) (helps : τ → ℕ → σ → Prop)
    (done : σ → Prop) : Prop where
  invariant : ∀ s e s', inv s → M.next s e = some s' → ok s e → inv s'
  helper : ∀ s, inv s → ¬ done s → ∃ t d, threads t ∧ helps t d s
  canMove : ∀ s t d, inv s → helps t d s → M.CanMove thread t s
  step : ∀ s e s' t d, inv s → helps t d s → M.next s e = some s' → ok s e →
    work s' < work s ∨ work s' = work s ∧
      ((thread e ≠ some t ∧ helps t d s') ∨ ∃ d' < d, helps t d' s')

namespace Helpful

variable {thread : ε → Option τ} {threads : τ → Prop} {inv done : σ → Prop} {work : σ → ℕ}
  {helps : τ → ℕ → σ → Prop} {r : M.Trace ok}

/-- Until work is done the thread goes on helping and has not moved, or it is
closer to doing work. -/
theorem until_work (h : Helpful M ok thread threads inv work helps done) {t : τ} {d i : ℕ}
    (hinv : ∀ j, inv (r.state j)) (hhelps : helps t d (r.state i)) (j : ℕ) :
    (∃ k, work (r.state k) < work (r.state i)) ∨
      (∃ k d', d' < d ∧ work (r.state k) = work (r.state i) ∧ helps t d' (r.state k)) ∨
      (work (r.state (i + j)) = work (r.state i) ∧ helps t d (r.state (i + j)) ∧
        ∀ k, k < j → thread (r.label (i + k)) ≠ some t) := by
  induction j with
  | zero => exact .inr (.inr ⟨rfl, hhelps, fun k hk => absurd hk (Nat.not_lt_zero k)⟩)
  | succ j ih =>
    rcases ih with ih | ih | ⟨hwork, hhelps', hnot⟩
    · exact .inl ih
    · exact .inr (.inl ih)
    · rcases h.step _ _ _ t d (hinv _) hhelps' (r.next (i + j)) (r.ok (i + j)) with
        hless | ⟨hsame, ⟨hother, hstill⟩ | ⟨d', hd, hcloser⟩⟩
      · exact .inl ⟨_, hwork ▸ hless⟩
      · refine .inr (.inr ⟨hsame.trans hwork, hstill, fun k hk => ?_⟩)
        rcases Nat.lt_succ_iff_lt_or_eq.mp hk with hk | rfl
        · exact hnot k hk
        · exact hother
      · exact .inr (.inl ⟨_, d', hd, hsame.trans hwork, hcloser⟩)

/-- A thread that helps does work, or another one before it. -/
theorem work_done (h : Helpful M ok thread threads inv work helps done)
    (hfair : r.Fair thread threads) (hinv : ∀ j, inv (r.state j)) {t : τ} (ht : threads t)
    {d i : ℕ} (hhelps : helps t d (r.state i)) : ∃ k, work (r.state k) < work (r.state i) := by
  induction d using Nat.strong_induction_on generalizing i with
  | h d ih =>
    by_contra hnone
    by_cases hcloser : ∃ k d', d' < d ∧ work (r.state k) = work (r.state i) ∧
        helps t d' (r.state k)
    · obtain ⟨k, d', hd, hwork, hhelps'⟩ := hcloser
      obtain ⟨k', hless⟩ := ih d' hd hhelps'
      exact hnone ⟨k', hwork ▸ hless⟩
    · have hstill : ∀ j, helps t d (r.state (i + j)) ∧
          ∀ k, k < j → thread (r.label (i + k)) ≠ some t := by
        intro j
        rcases h.until_work hinv hhelps j with hwork | hd | ⟨-, hrest⟩
        · exact absurd hwork hnone
        · exact absurd hd hcloser
        · exact hrest
      -- so it can always move and never does
      obtain ⟨j, hij, hmoves⟩ := hfair t ht i fun j hj => by
        obtain ⟨k, rfl⟩ := Nat.exists_eq_add_of_le hj
        exact h.canMove _ t d (hinv _) (hstill k).1
      obtain ⟨k, rfl⟩ := Nat.exists_eq_add_of_le hij
      exact (hstill (k + 1)).2 k (Nat.lt_succ_self k) hmoves

/-- A fair run gets done. -/
theorem eventually (h : Helpful M ok thread threads inv work helps done)
    (hfair : r.Fair thread threads) (hstart : inv (r.state 0)) : ∃ i, done (r.state i) := by
  have hinv := r.invariant hstart h.invariant
  by_contra hnever
  have hless : ∀ i, ∃ k, work (r.state k) < work (r.state i) := by
    intro i
    obtain ⟨t, d, ht, hhelps⟩ := h.helper _ (hinv i) (fun hdone => hnever ⟨i, hdone⟩)
    exact h.work_done hfair hinv ht hhelps
  obtain ⟨i, hi⟩ := WellFounded.has_min (measure fun i => work (r.state i)).wf Set.univ ⟨0, trivial⟩
  obtain ⟨k, hk⟩ := hless i
  exact hi.2 k trivial hk

end Helpful

end TinyFile.Machine
