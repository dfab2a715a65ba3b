import Mathlib.Data.List.Perm.Basic
import TinyFile.Machine

/-!
# What flows through a machine

The steps of a run take something in and put something out, and a state holds
what is under way. When every single step keeps the balance, so does every run:
what has come out and what is still held is what was held at first and what has
come in. The balance may be one of lists, for a machine that keeps the order, or
one up to permutation.
-/
namespace TinyFile.Machine

variable {σ ε α β : Type*} {M : Machine σ ε} {ok : σ → ε → Prop} {s t : σ} {es : List ε}

/-- What the steps of a run emit, in order. -/
def emitted (M : Machine σ ε) (out : σ → ε → List α) (s : σ) : List ε → List α
  | [] => []
  | e :: es =>
      match M.next s e with
      | some t => out s e ++ emitted M out t es
      | none => []

theorem emitted_cons {e : ε} (h : M.next s e = some t) (out : σ → ε → List α) (es : List ε) :
    M.emitted out s (e :: es) = out s e ++ M.emitted out t es := by
  simp only [emitted, h]

theorem RunIf.emitted_append {es' : List ε} (h : M.RunIf ok s es t)
    (out : σ → ε → List α) :
    M.emitted out s (es ++ es') = M.emitted out s es ++ M.emitted out t es' := by
  induction h with
  | nil => rfl
  | cons hnext _ _ ih =>
    rw [List.cons_append, emitted_cons hnext, emitted_cons hnext, ih, List.append_assoc]

theorem map_emitted (f : α → β) (out : σ → ε → List α) (s : σ) (es : List ε) :
    (M.emitted out s es).map f = M.emitted (fun s e => (out s e).map f) s es := by
  induction es generalizing s with
  | nil => rfl
  | cons e es ih =>
    simp only [emitted]
    cases M.next s e with
    | none => rfl
    | some t => simp only [List.map_append, ih]

@[simp] theorem emitted_nothing (s : σ) (es : List ε) :
    M.emitted (fun _ _ => ([] : List α)) s es = [] := by
  induction es generalizing s with
  | nil => rfl
  | cons e es ih =>
    simp only [emitted]
    cases M.next s e with
    | none => rfl
    | some t => exact ih t

/-- Two ways to emit that agree in every state that a run meets. -/
theorem RunIf.emitted_congr (inv : σ → Prop) {out out' : σ → ε → List α}
    (hinv : ∀ s e t, inv s → M.next s e = some t → ok s e → inv t)
    (hout : ∀ s e t, inv s → M.next s e = some t → ok s e → out s e = out' s e)
    (h : M.RunIf ok s es t) (hs : inv s) : M.emitted out s es = M.emitted out' s es := by
  induction h with
  | nil => rfl
  | cons hnext hok _ ih =>
    rw [emitted_cons hnext, emitted_cons hnext, hout _ _ _ hs hnext hok,
      ih (hinv _ _ _ hs hnext hok)]

/-- What comes out the second way comes out last, when it closes the first way. -/
theorem RunIf.emitted_close (inv closed : σ → Prop) (out out' : σ → ε → List α)
    (hinv : ∀ s e t, inv s → M.next s e = some t → ok s e → inv t)
    (hclosed : ∀ s e t, inv s → M.next s e = some t → ok s e → closed s →
      out s e = [] ∧ closed t)
    (hout : ∀ s e t, inv s → M.next s e = some t → ok s e → out' s e ≠ [] →
      out s e = [] ∧ closed t)
    (h : M.RunIf ok s es t) (hs : inv s) :
    M.emitted (fun s e => out s e ++ out' s e) s es = M.emitted out s es ++ M.emitted out' s es ∧
      (closed s → M.emitted out s es = [] ∧ closed t) ∧
      (M.emitted out' s es ≠ [] → closed t) := by
  induction h with
  | nil => exact ⟨rfl, fun hc => ⟨rfl, hc⟩, fun hne => absurd rfl hne⟩
  | @cons s u t e es hnext hok _ ih =>
    obtain ⟨happend, hrest, hlast⟩ := ih (hinv _ _ _ hs hnext hok)
    rw [emitted_cons hnext, emitted_cons hnext, emitted_cons hnext, happend]
    refine ⟨?_, fun hc => ?_, fun hne => ?_⟩
    · by_cases hfirst : out' s e = []
      · rw [hfirst, List.append_nil, List.nil_append, List.append_assoc]
      · obtain ⟨hnone, hu⟩ := hout _ _ _ hs hnext hok hfirst
        rw [hnone, (hrest hu).1, List.nil_append, List.nil_append, List.nil_append, List.nil_append]
    · obtain ⟨hnone, hu⟩ := hclosed _ _ _ hs hnext hok hc
      obtain ⟨hempty, ht⟩ := hrest hu
      exact ⟨by rw [hnone, hempty, List.append_nil], ht⟩
    · by_cases hfirst : out' s e = []
      · exact hlast (by simpa [hfirst] using hne)
      · exact (hrest (hout _ _ _ hs hnext hok hfirst).2).2

/-- First in, first out. -/
theorem RunIf.fifo (inv : σ → Prop) (held : σ → List α) (ins outs : σ → ε → List α)
    (hinv : ∀ s e t, inv s → M.next s e = some t → ok s e → inv t)
    (hstep : ∀ s e t, inv s → M.next s e = some t → ok s e →
      outs s e ++ held t = held s ++ ins s e)
    (h : M.RunIf ok s es t) (hs : inv s) :
    M.emitted outs s es ++ held t = held s ++ M.emitted ins s es := by
  induction h with
  | nil => simp [emitted]
  | cons hnext hok _ ih =>
    rw [emitted_cons hnext, emitted_cons hnext, List.append_assoc,
      ih (hinv _ _ _ hs hnext hok), ← List.append_assoc, hstep _ _ _ hs hnext hok,
      List.append_assoc]

/-- Nothing is lost, and nothing comes out twice. -/
theorem RunIf.conserve (inv : σ → Prop) (held : σ → List α) (ins outs : σ → ε → List α)
    (hinv : ∀ s e t, inv s → M.next s e = some t → ok s e → inv t)
    (hstep : ∀ s e t, inv s → M.next s e = some t → ok s e →
      (outs s e ++ held t).Perm (held s ++ ins s e))
    (h : M.RunIf ok s es t) (hs : inv s) :
    (M.emitted outs s es ++ held t).Perm (held s ++ M.emitted ins s es) := by
  induction h with
  | nil => simp [emitted]
  | cons hnext hok _ ih =>
    have hrest := ih (hinv _ _ _ hs hnext hok)
    have hfirst := hstep _ _ _ hs hnext hok
    rw [emitted_cons hnext, emitted_cons hnext, List.append_assoc, ← List.append_assoc (held _)]
    refine (hrest.append_left _).trans ?_
    rw [← List.append_assoc]
    exact hfirst.append_right _

/-- Steps that count a measure down. -/
theorem RunIf.countdown (inv : σ → Prop) (left : σ → ℕ) (p : ε → Bool)
    (hinv : ∀ s e t, inv s → M.next s e = some t → ok s e → inv t)
    (hstep : ∀ s e t, inv s → M.next s e = some t → ok s e →
      left t + (if p e then 1 else 0) = left s)
    (h : M.RunIf ok s es t) (hs : inv s) : es.countP p + left t = left s := by
  induction h with
  | nil => simp
  | cons hnext hok _ ih =>
    have hrest := ih (hinv _ _ _ hs hnext hok)
    have hfirst := hstep _ _ _ hs hnext hok
    rw [List.countP_cons]
    omega

/-- Each step of a machine is matched by a run of another one, which shows what the
step emits. -/
theorem RunIf.simulate {τ δ : Type*} {N : Machine τ δ} {r : τ → δ → Prop} (rel : σ → τ → Prop)
    (shown : τ → List α) (out : σ → ε → List α)
    (hstep : ∀ s e t u, rel s u → M.next s e = some t → ok s e → ∃ ds v,
      N.RunIf r u ds v ∧ rel t v ∧ shown v = shown u ++ out s e)
    (h : M.RunIf ok s es t) {u : τ} (hrel : rel s u) :
    ∃ ds v, N.RunIf r u ds v ∧ rel t v ∧ shown v = shown u ++ M.emitted out s es := by
  induction h generalizing u with
  | nil => exact ⟨[], u, .nil u, hrel, (List.append_nil _).symm⟩
  | cons hnext hok _ ih =>
    obtain ⟨ds, v, hrun, hv, hshown⟩ := hstep _ _ _ _ hrel hnext hok
    obtain ⟨ds', v', hrun', hv', hshown'⟩ := ih hv
    exact ⟨ds ++ ds', v', hrun.append hrun', hv', by
      rw [hshown', hshown, emitted_cons hnext, List.append_assoc]⟩

end TinyFile.Machine
