import Mathlib.Algebra.Order.Archimedean.Basic
import Mathlib.Data.Bool.Count
import Mathlib.Tactic.Linarith
import Mathlib.Tactic.FieldSimp
import Mathlib.Tactic.Ring
import Mathlib.Tactic.Positivity

/-!
# Two parties under a sign rule

Two parties take turns. A turn of size `x` costs its taker `x`, and brings the
other one `x` times its priority over `d`. Somebody takes two turns in a row only
with a positive credit against a credit that is not. Histories are lists, newest
turn first, so that the history at an earlier moment is a suffix.

The rule does not share the turns by priority: if it did, the credits would drift
to where the favoured party never has two turns in a row.
-/
namespace TinyFile.CreditRace

variable (P : Bool → ℚ) (d x : ℚ)

/-- The credit of a party after a history; it starts with its priority. -/
def credit (w : Bool) (ws : List Bool) : ℚ :=
  P w + x * (P w * ws.count (!w) / d - ws.count w)

/-- The histories that the sign rule allows. -/
inductive Turns : List Bool → Prop
  | nil : Turns []
  | cons {w : Bool} {ws : List Bool} : Turns ws →
      (ws.head? = some w → 0 < credit P d x w ws ∧ credit P d x (!w) ws ≤ 0) → Turns (w :: ws)

/-- How far a party is ahead of its share. -/
def lead (w : Bool) (ws : List Bool) : ℚ := ws.count w * P (!w) - ws.count (!w) * P w

/-- The share was kept up to `K` at every moment of the history. -/
def SharedWithin (K : ℚ) (ws : List Bool) : Prop := ∀ vs, vs <:+ ws → |lead P true vs| ≤ K

variable {P d x}

theorem lead_not (w : Bool) (ws : List Bool) : lead P (!w) ws = - lead P w ws := by
  simp only [lead, Bool.not_not]
  ring

theorem abs_lead (w : Bool) (ws : List Bool) : |lead P w ws| = |lead P true ws| := by
  cases w with
  | true => rfl
  | false =>
    rw [← abs_neg, ← lead_not]
    rfl

/-- The two counts of a history, from its length and a lead. -/
theorem counts_of_lead (w : Bool) (ws : List Bool) :
    ws.count w * (P w + P (!w)) = lead P w ws + ws.length * P w ∧
      ws.count (!w) * (P w + P (!w)) = ws.length * P (!w) - lead P w ws := by
  have hlen : (ws.length : ℚ) = ws.count w + ws.count (!w) := by
    rw [← List.count_not_add_count ws w]
    push_cast
    ring
  constructor <;> rw [hlen, lead] <;> ring

/-- While the lead stays small, a credit drifts with the length of the history,
down for a party whose opponent has less than `d` and up for the others. -/
theorem scaled_credit (hd : d ≠ 0) (w : Bool) (ws : List Bool) :
    (P w + P (!w)) * credit P d x w ws = (P w + P (!w)) * P w -
      x * (ws.length * (P w * (d - P (!w)) / d) + lead P w ws * (P w / d + 1)) := by
  obtain ⟨hself, hcount⟩ := counts_of_lead (P := P) w ws
  calc (P w + P (!w)) * credit P d x w ws
      = (P w + P (!w)) * P w + x * (P w * (ws.count (!w) * (P w + P (!w))) / d -
          ws.count w * (P w + P (!w))) := by
        rw [credit]
        ring
    _ = _ := by
        rw [hself, hcount]
        field_simp
        ring

theorem exists_nat_mul_ge {c : ℚ} (hc : 0 < c) (b : ℚ) : ∃ n : ℕ, ∀ m : ℕ, n ≤ m → b ≤ m * c := by
  obtain ⟨n, hn⟩ := exists_nat_ge (b / c)
  refine ⟨n, fun m hm => ?_⟩
  have hm' : (n : ℚ) ≤ m := by exact_mod_cast hm
  exact (div_le_iff₀ hc).mp (hn.trans hm')

section Drift

variable {w : Bool} (hw : 0 < P w) (hother : 0 < P (!w)) (hd : 0 < d) (hx : 0 < x)
include hw hother hd hx

/-- Against less than the unit priority a party runs out of credit. -/
theorem credit_nonpos (hlt : P (!w) < d) (K : ℚ) :
    ∃ L : ℕ, ∀ ws : List Bool, L ≤ ws.length → |lead P w ws| ≤ K → credit P d x w ws ≤ 0 := by
  have hgap : 0 < P w * (d - P (!w)) / d := div_pos (mul_pos hw (sub_pos.mpr hlt)) hd
  have hsum : 0 < P w + P (!w) := add_pos hw hother
  obtain ⟨L, hL⟩ := exists_nat_mul_ge hgap ((P w + P (!w)) * P w / x + K * (P w / d + 1))
  refine ⟨L, fun ws hws hlead => ?_⟩
  have hK : - lead P w ws * (P w / d + 1) ≤ K * (P w / d + 1) :=
    mul_le_mul_of_nonneg_right ((neg_le_abs _).trans hlead) (by positivity)
  have hdrift : (P w + P (!w)) * P w ≤
      (ws.length * (P w * (d - P (!w)) / d) + lead P w ws * (P w / d + 1)) * x := by
    apply (div_le_iff₀ hx).mp
    have hlen := hL ws.length hws
    linarith
  have hneg : (P w + P (!w)) * credit P d x w ws ≤ 0 := by
    rw [scaled_credit hd.ne']
    linarith
  exact nonpos_of_mul_nonpos_right hneg hsum

/-- Against more than the unit priority a party gathers credit. -/
theorem credit_pos (hlt : d < P (!w)) (K : ℚ) :
    ∃ L : ℕ, ∀ ws : List Bool, L ≤ ws.length → |lead P w ws| ≤ K → 0 < credit P d x w ws := by
  have hgap : 0 < P w * (P (!w) - d) / d := div_pos (mul_pos hw (sub_pos.mpr hlt)) hd
  have hsum : 0 < P w + P (!w) := add_pos hw hother
  obtain ⟨L, hL⟩ := exists_nat_mul_ge hgap (K * (P w / d + 1))
  refine ⟨L, fun ws hws hlead => ?_⟩
  have hK : lead P w ws * (P w / d + 1) ≤ K * (P w / d + 1) :=
    mul_le_mul_of_nonneg_right ((le_abs_self _).trans hlead) (by positivity)
  have hgap' : P w * (P (!w) - d) / d = - (P w * (d - P (!w)) / d) := by ring
  have hdrift : ws.length * (P w * (d - P (!w)) / d) + lead P w ws * (P w / d + 1) ≤ 0 := by
    have hlen := hL ws.length hws
    rw [hgap', mul_neg] at hlen
    linarith
  have hpos : 0 < (P w + P (!w)) * credit P d x w ws := by
    rw [scaled_credit hd.ne']
    have hstart : 0 < (P w + P (!w)) * P w := mul_pos hsum hw
    have hturns := mul_nonpos_of_nonneg_of_nonpos hx.le hdrift
    linarith
  exact pos_of_mul_pos_right hpos hsum.le

end Drift

section Favoured

variable {w : Bool} (hother : 0 < P (!w)) (hlt : P (!w) < P w) (hd : 0 < d) (hx : 0 ≤ x)
include hother hlt hd hx

/-- In a long shared history the party with more priority never meets the
condition for two turns in a row. -/
theorem no_repeat (K : ℚ) : ∃ L : ℕ, ∀ ws : List Bool, L ≤ ws.length → |lead P w ws| ≤ K →
    ¬ (0 < credit P d x w ws ∧ credit P d x (!w) ws ≤ 0) := by
  have hw : 0 < P w := hother.trans hlt
  rcases hx.eq_or_lt with hzero | hpos
  · refine ⟨0, fun ws _ _ hrepeat => ?_⟩
    have hcredit : credit P d x (!w) ws = P (!w) := by simp [credit, ← hzero]
    exact absurd hrepeat.2 (not_le.mpr (hcredit ▸ hother))
  · by_cases hunit : P (!w) < d
    · obtain ⟨L, hL⟩ := credit_nonpos hw hother hd hpos hunit K
      exact ⟨L, fun ws hws hlead hrepeat => absurd hrepeat.1 (not_lt.mpr (hL ws hws hlead))⟩
    · have hunit' : d < P (!(!w)) := by
        rw [Bool.not_not]
        exact (not_lt.mp hunit).trans_lt hlt
      have hw' : 0 < P (!(!w)) := by simpa using hw
      obtain ⟨L, hL⟩ := credit_pos hother hw' hd hpos hunit' K
      refine ⟨L, fun ws hws hlead hrepeat => ?_⟩
      rw [← abs_neg, ← lead_not] at hlead
      exact absurd hrepeat.2 (not_le.mpr (hL ws hws hlead))

/-- Hence the favoured party stays at most a constant ahead. The bound is one
sharper just after a turn of the other party, which carries the induction. -/
theorem count_le {K : ℚ} : ∃ L : ℕ, ∀ ws : List Bool, Turns P d x ws → SharedWithin P K ws →
    ws.count w ≤ ws.count (!w) + L + (if ws.head? = some w then 1 else 0) := by
  obtain ⟨L, hL⟩ := no_repeat hother hlt hd hx K
  refine ⟨L, fun ws hturns hshared => ?_⟩
  induction hturns with
  | nil => simp
  | @cons v ws _ hrule ih =>
    have hrest : SharedWithin P K ws := fun vs hvs => hshared vs (hvs.trans (List.suffix_cons v ws))
    have hprev := ih hrest
    have hcount : ws.count w ≤ ws.length := List.count_le_length
    by_cases hv : v = w
    · subst hv
      have hnext : ws.count v ≤ ws.count (!v) + L := by
        by_cases hlong : L ≤ ws.length
        · have hhead : ws.head? ≠ some v := by
            intro hhead
            have hlead : |lead P v ws| ≤ K := by
              rw [abs_lead]
              exact hrest ws (List.suffix_refl ws)
            exact hL ws hlong hlead (hrule hhead)
          simpa [hhead] using hprev
        · omega
      simp only [List.count_cons_self, List.head?_cons, if_true]
      have hne : (v :: ws).count (!v) = ws.count (!v) := List.count_cons_of_ne (by simp)
      omega
    · have hflip : v = !w := by
        cases v <;> cases w <;> simp_all
      have hself : (v :: ws).count w = ws.count w := List.count_cons_of_ne hv
      have hone : (v :: ws).count (!w) = ws.count (!w) + 1 := by
        rw [hflip, List.count_cons_self]
      rw [hself, hone]
      split at hprev <;> split <;> omega

/-- No constant bounds the lead over all lengths. -/
theorem not_sharedWithin (K : ℚ) :
    ∃ n : ℕ, ∀ ws : List Bool, Turns P d x ws → n ≤ ws.length → ¬ SharedWithin P K ws := by
  obtain ⟨L, hL⟩ := count_le (K := K) hother hlt hd hx
  obtain ⟨n, hn⟩ := exists_nat_mul_ge (sub_pos.mpr hlt) (2 * K + (L + 1) * (P w + P (!w)) + 1)
  refine ⟨n, fun ws hturns hlen hshared => ?_⟩
  have hcount : ws.count w ≤ ws.count (!w) + (L + 1) := by
    have h := hL ws hturns hshared
    split at h <;> omega
  have hlead : - K ≤ lead P w ws := by
    have h := hshared ws (List.suffix_refl ws)
    rw [← abs_lead w] at h
    exact (abs_le.mp h).1
  have hcount' : (ws.count w : ℚ) ≤ ws.count (!w) + (L + 1) := by exact_mod_cast hcount
  have hsum : (ws.count (!w) : ℚ) + ws.count w = ws.length := by
    exact_mod_cast List.count_not_add_count ws w
  have hlong := hn ws.length hlen
  have hself : (ws.count w : ℚ) * P (!w) ≤ (ws.count (!w) + (L + 1)) * P (!w) :=
    mul_le_mul_of_nonneg_right hcount' hother.le
  rw [lead] at hlead
  have hmost : (ws.count (!w) : ℚ) * (P w - P (!w)) ≤ K + (L + 1) * P (!w) := by linarith
  have hmore : (ws.count w : ℚ) * (P w - P (!w)) ≤
      (ws.count (!w) + (L + 1)) * (P w - P (!w)) :=
    mul_le_mul_of_nonneg_right hcount' (sub_nonneg.mpr hlt.le)
  rw [← hsum] at hlong
  linarith

end Favoured

end TinyFile.CreditRace
