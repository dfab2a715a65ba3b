import Mathlib.Data.List.Basic
import Mathlib.Logic.Relation

/-!
# Labelled machines

A machine is a start state and a partial step function. Every choice that an
execution leaves open (which thread moves, what it is given) sits in the label,
so a finite run is a list of labels and can be evaluated. Properties of all
interleavings are properties of all label lists.
-/
namespace TinyFile

/-- A transition system whose steps are determined by their labels. -/
structure Machine (σ ε : Type*) where
  start : σ
  next : σ → ε → Option σ

namespace Machine

variable {σ ε : Type*} (M : Machine σ ε)

/-- Execute a list of labels, failing at the first one that is not enabled. -/
def run (M : Machine σ ε) (s : σ) : List ε → Option σ
  | [] => some s
  | e :: es => (M.next s e).bind (fun t => run M t es)

@[simp] theorem run_nil (s : σ) : M.run s [] = some s := rfl

theorem run_cons {s t : σ} {e : ε} (h : M.next s e = some t) (es : List ε) :
    M.run s (e :: es) = M.run t es := by simp [run, h]

/-- `RunIf ok s es t`: the labels `es` lead from `s` to `t`, and every step
meets `ok`, a condition on the state before the step and its label. -/
inductive RunIf (ok : σ → ε → Prop) : σ → List ε → σ → Prop
  | nil (s : σ) : RunIf ok s [] s
  | cons {s t u : σ} {e : ε} {es : List ε} :
      M.next s e = some t → ok s e → RunIf ok t es u → RunIf ok s (e :: es) u

/-- The states met by runs from the start state whose steps all meet `ok`. -/
inductive ReachableIf (ok : σ → ε → Prop) : σ → Prop
  | start : ReachableIf ok M.start
  | step {s t : σ} {e : ε} :
      ReachableIf ok s → M.next s e = some t → ok s e → ReachableIf ok t

/-- The states met by any run. -/
abbrev Reachable (s : σ) : Prop := M.ReachableIf (fun _ _ => True) s

variable {M}

/-- An inductive invariant may use the condition that the steps meet. -/
theorem ReachableIf.invariant {ok : σ → ε → Prop} {inv : σ → Prop} {s : σ}
    (h : M.ReachableIf ok s) (hstart : inv M.start)
    (hstep : ∀ s e t, inv s → M.next s e = some t → ok s e → inv t) : inv s := by
  induction h with
  | start => exact hstart
  | step _ hnext hok ih => exact hstep _ _ _ ih hnext hok

theorem Reachable.invariant {inv : σ → Prop} {s : σ} (h : M.Reachable s)
    (hstart : inv M.start) (hstep : ∀ s e t, inv s → M.next s e = some t → inv t) : inv s :=
  ReachableIf.invariant h hstart (fun s e t hs hnext _ => hstep s e t hs hnext)

/-- Weaker conditions admit more runs. -/
theorem ReachableIf.mono {ok ok' : σ → ε → Prop} (himp : ∀ s e, ok s e → ok' s e) {s : σ}
    (h : M.ReachableIf ok s) : M.ReachableIf ok' s := by
  induction h with
  | start => exact .start
  | step _ hnext hok ih => exact ih.step hnext (himp _ _ hok)

theorem ReachableIf.reachable {ok : σ → ε → Prop} {s : σ} (h : M.ReachableIf ok s) :
    M.Reachable s := h.mono (fun _ _ _ => trivial)

/-- A conditional run continues a conditional reachability proof. -/
theorem ReachableIf.append {ok : σ → ε → Prop} {s t : σ} {es : List ε}
    (h : M.ReachableIf ok s) (hrun : M.RunIf ok s es t) : M.ReachableIf ok t := by
  induction hrun with
  | nil => exact h
  | cons hnext hok _ ih => exact ih (h.step hnext hok)

theorem RunIf.append {ok : σ → ε → Prop} {s t u : σ} {es es' : List ε} (h : M.RunIf ok s es t)
    (h' : M.RunIf ok t es' u) : M.RunIf ok s (es ++ es') u := by
  induction h with
  | nil => exact h'
  | cons hnext hok _ ih => exact .cons hnext hok (ih h')

theorem RunIf.mono {ok ok' : σ → ε → Prop} (himp : ∀ s e, ok s e → ok' s e) {s t : σ}
    {es : List ε} (h : M.RunIf ok s es t) : M.RunIf ok' s es t := by
  induction h with
  | nil => exact .nil _
  | cons hnext hok _ ih => exact .cons hnext (himp _ _ hok) ih

/-- What is true at the end of a run and no step can make true is true all along. -/
theorem RunIf.all_along {ok : σ → ε → Prop} {inv : σ → Prop} {s t : σ} {es : List ε}
    (hback : ∀ s e t, M.next s e = some t → inv t → inv s) (h : M.RunIf ok s es t) (ht : inv t) :
    inv s ∧ M.RunIf (fun s e => ok s e ∧ ∀ t, M.next s e = some t → inv t) s es t := by
  induction h with
  | nil => exact ⟨ht, .nil _⟩
  | @cons s u t e es hnext hok _ ih =>
    obtain ⟨hu, hrun⟩ := ih ht
    refine ⟨hback _ _ _ hnext hu, .cons hnext ⟨hok, fun v hv => ?_⟩ hrun⟩
    rw [hnext] at hv
    exact Option.some.inj hv ▸ hu

/-- A run can be evaluated. -/
theorem RunIf.run_eq {ok : σ → ε → Prop} {s t : σ} {es : List ε} (h : M.RunIf ok s es t) :
    M.run s es = some t := by
  induction h with
  | nil => rfl
  | cons hnext _ _ ih => rw [run_cons _ hnext, ih]

/-- An evaluated run is a run. -/
theorem RunIf.of_run {s t : σ} {es : List ε} (h : M.run s es = some t) :
    M.RunIf (fun _ _ => True) s es t := by
  induction es generalizing s with
  | nil =>
    obtain rfl : s = t := by simpa using h
    exact .nil _
  | cons e es ih =>
    obtain ⟨u, hu, hrun⟩ := Option.bind_eq_some_iff.mp h
    exact .cons hu trivial (ih hrun)

theorem reachable_of_run {t : σ} {es : List ε} (h : M.run M.start es = some t) :
    M.Reachable t := ReachableIf.start.append (RunIf.of_run h)

/-- The condition checked along an evaluated run. -/
def runIf (M : Machine σ ε) (ok : σ → ε → Prop) [∀ s e, Decidable (ok s e)] (s : σ) :
    List ε → Option σ
  | [] => some s
  | e :: es => if ok s e then (M.next s e).bind (fun t => runIf M ok t es) else none

theorem RunIf.of_runIf {ok : σ → ε → Prop} [∀ s e, Decidable (ok s e)] {s t : σ} {es : List ε}
    (h : M.runIf ok s es = some t) : M.RunIf ok s es t := by
  induction es generalizing s with
  | nil =>
    obtain rfl : s = t := by simpa [runIf] using h
    exact .nil _
  | cons e es ih =>
    simp only [runIf] at h
    split at h
    · next hok =>
      obtain ⟨u, hu, hrun⟩ := Option.bind_eq_some_iff.mp h
      exact .cons hu hok (ih hrun)
    · cases h

theorem reachableIf_of_runIf {ok : σ → ε → Prop} [∀ s e, Decidable (ok s e)] {t : σ} {es : List ε}
    (h : M.runIf ok M.start es = some t) : M.ReachableIf ok t :=
  ReachableIf.start.append (RunIf.of_runIf h)

end Machine

end TinyFile
