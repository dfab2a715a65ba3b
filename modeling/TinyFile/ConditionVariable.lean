import Mathlib.Data.List.Basic

/-!
# Mutexes and condition variables

The threads are the slots of a list. A mutex has one holder at most. `asleep`
tells who sleeps on a condition variable; `notifyOne` wakes one sleeper, any of
them, and does nothing when there is none. The choice of the sleeper is an
argument.
-/
namespace TinyFile.ConditionVariable

variable {α : Type*}

/-- One slot at most meets a condition. -/
def AtMostOne (p : α → Bool) (l : List α) : Prop :=
  ∀ (j k : ℕ) (a b : α), l[j]? = some a → l[k]? = some b → p a = true → p b = true → j = k

/-- A slot changes: it met the condition before, or nobody did. -/
theorem AtMostOne.set {p : α → Bool} {l : List α} (h : AtMostOne p l) {i : ℕ} {c : α}
    (hi : l[i]? = some c) {d : α} (hd : p d = true → p c = true ∨ ∀ a ∈ l, p a = false) :
    AtMostOne p (l.set i d) := by
  have hkept : ∀ (j : ℕ) (a : α), (l.set i d)[j]? = some a → p a = true →
      j = i ∧ a = d ∨ j ≠ i ∧ l[j]? = some a := by
    intro j a hj _
    rw [List.getElem?_set] at hj
    split_ifs at hj with hij hlt
    · cases hj
      exact Or.inl ⟨hij.symm, rfl⟩
    · exact Or.inr ⟨fun he => hij he.symm, hj⟩
  have hclash : ∀ (j : ℕ) (a : α), j ≠ i → l[j]? = some a → p a = true → p d = true → False := by
    intro j a hne hj ha hpd
    rcases hd hpd with hc | hnone
    · exact hne (h j i a c hj hi ha hc)
    · simp [hnone a (List.mem_of_getElem? hj)] at ha
  intro j k a b hj hk ha hb
  rcases hkept j a hj ha with ⟨rfl, rfl⟩ | ⟨hji, hjold⟩
  · rcases hkept k b hk hb with ⟨rfl, -⟩ | ⟨hki, hkold⟩
    · rfl
    · exact (hclash k b hki hkold hb ha).elim
  · rcases hkept k b hk hb with ⟨rfl, rfl⟩ | ⟨-, hkold⟩
    · exact (hclash j a hji hjold ha hb).elim
    · exact h j k a b hjold hkold ha hb

theorem AtMostOne.mono {p q : α → Bool} {l : List α} (h : AtMostOne p l)
    (himp : ∀ a, q a = true → p a = true) : AtMostOne q l :=
  fun j k a b hj hk ha hb => h j k a b hj hk (himp a ha) (himp b hb)

variable (asleep : α → Bool) (wake : α → α)

/-- Wake the thread `i`, or nobody if nobody sleeps. -/
def notifyOne (l : List α) : Option ℕ → Option (List α)
  | some i =>
      match l[i]? with
      | some a => if asleep a then some (l.set i (wake a)) else none
      | none => none
  | none => if l.any asleep then none else some l

variable {asleep wake} {l l' : List α}

theorem notifyOne_cases {i : Option ℕ} (h : notifyOne asleep wake l i = some l') :
    (l' = l ∧ ∀ a ∈ l, asleep a = false) ∨
      ∃ j a, l[j]? = some a ∧ asleep a = true ∧ l' = l.set j (wake a) := by
  cases i with
  | none =>
    simp only [notifyOne] at h
    split_ifs at h with hany
    refine Or.inl ⟨(Option.some.inj h).symm, fun a ha => ?_⟩
    by_contra ht
    exact hany (List.any_eq_true.mpr ⟨a, ha, by simpa using ht⟩)
  | some j =>
    simp only [notifyOne] at h
    split at h
    · next a hj =>
      split_ifs at h with ha
      exact Or.inr ⟨j, a, hj, ha, (Option.some.inj h).symm⟩
    · cases h

theorem mem_set_self {j : ℕ} {a : α} (h : l[j]? = some a) (b : α) : b ∈ l.set j b :=
  List.mem_set (List.getElem?_eq_some_iff.mp h).1 b

/-- Afterwards somebody is awake. -/
theorem exists_awake (hwake : ∀ a, asleep (wake a) = false) (hne : l ≠ []) {i : Option ℕ}
    (h : notifyOne asleep wake l i = some l') : ∃ a ∈ l', asleep a = false := by
  rcases notifyOne_cases h with ⟨rfl, hnone⟩ | ⟨j, a, hj, -, rfl⟩
  · obtain ⟨a, ha⟩ := List.exists_mem_of_ne_nil _ hne
    exact ⟨a, ha, hnone a ha⟩
  · exact ⟨wake a, mem_set_self hj _, hwake a⟩

/-- With one sleeper at most, a notification leaves none. -/
theorem all_awake (hwake : ∀ a, asleep (wake a) = false)
    (hone : AtMostOne asleep l) {i : Option ℕ} (h : notifyOne asleep wake l i = some l') :
    ∀ a ∈ l', asleep a = false := by
  rcases notifyOne_cases h with ⟨rfl, hnone⟩ | ⟨j, a, hj, ha, rfl⟩
  · exact hnone
  · intro b hb
    obtain ⟨k, hk⟩ := List.mem_iff_getElem?.mp hb
    rw [List.getElem?_set] at hk
    split_ifs at hk with hjk
    · cases hk
      exact hwake a
    · by_contra hs
      exact hjk (hone j k a b hj hk ha (by simpa using hs))

end TinyFile.ConditionVariable
