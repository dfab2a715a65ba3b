import Mathlib.Data.List.Infix
import TinyFile.NamedSemaphores

/-!
# The calls on one semaphore

What is left of the calls of the two handlers says how far each of the three semaphores
of an exchange has come: until the service's handler resets it, its name may stand for
anything; then it is free, then it stands for what the service's handler has created,
and in the end it is free again. The client's handler makes its calls when the service's
has made its first ones.
-/
namespace TinyFile

section Calls

variable {call : SemaphoreCall} {rest : List SemaphoreCall}

/-- The service's handler resets a name before it creates the semaphore. -/
theorem opening_cases_service (h : call :: rest <:+ SemaphoreCalls.ofService.opening) :
    (∃ k, call = .reset k ∧ .create k ∈ rest) ∨
      ∃ k, call = .create k ∧ .reset k ∉ rest ∧ .create k ∉ rest := by
  have hmem := (List.mem_tails _ _).mpr h
  simp only [SemaphoreCalls.ofService, List.tails, List.mem_cons, List.cons.injEq, reduceCtorEq,
    List.not_mem_nil, or_false] at hmem
  rcases hmem with ⟨rfl, rfl⟩ | ⟨rfl, rfl⟩ | ⟨rfl, rfl⟩ | ⟨rfl, rfl⟩ | ⟨rfl, rfl⟩ | ⟨rfl, rfl⟩
  · exact .inl ⟨.client, rfl, by decide⟩
  · exact .inr ⟨.client, rfl, by decide, by decide⟩
  · exact .inl ⟨.server, rfl, by decide⟩
  · exact .inr ⟨.server, rfl, by decide, by decide⟩
  · exact .inl ⟨.sense, rfl, by decide⟩
  · exact .inr ⟨.sense, rfl, by decide, by decide⟩

theorem closing_cases_service (h : call :: rest <:+ SemaphoreCalls.ofService.closing) :
    ∃ k, call = .close k := by
  have hmem := (List.mem_tails _ _).mpr h
  simp only [SemaphoreCalls.ofService, List.tails, List.mem_cons, List.cons.injEq, reduceCtorEq,
    List.not_mem_nil, or_false] at hmem
  rcases hmem with ⟨rfl, rfl⟩ | ⟨rfl, rfl⟩ | ⟨rfl, rfl⟩ <;> exact ⟨_, rfl⟩

theorem opening_cases_client (h : call :: rest <:+ SemaphoreCalls.ofClient.opening) :
    ∃ k, call = .attach k ∧ .attach k ∉ rest := by
  have hmem := (List.mem_tails _ _).mpr h
  simp only [SemaphoreCalls.ofClient, List.tails, List.mem_cons, List.cons.injEq, reduceCtorEq,
    List.not_mem_nil, or_false] at hmem
  rcases hmem with ⟨rfl, rfl⟩ | ⟨rfl, rfl⟩ | ⟨rfl, rfl⟩ <;> exact ⟨_, rfl, by decide⟩

theorem closing_cases_client (h : call :: rest <:+ SemaphoreCalls.ofClient.closing) :
    (∃ k, call = .close k) ∨ ∃ k, call = .unlink k ∧ .unlink k ∉ rest := by
  have hmem := (List.mem_tails _ _).mpr h
  simp only [SemaphoreCalls.ofClient, List.tails, List.mem_cons, List.cons.injEq, reduceCtorEq,
    List.not_mem_nil, or_false] at hmem
  rcases hmem with ⟨rfl, rfl⟩ | ⟨rfl, rfl⟩ | ⟨rfl, rfl⟩ | ⟨rfl, rfl⟩ | ⟨rfl, rfl⟩ | ⟨rfl, rfl⟩
  · exact .inl ⟨_, rfl⟩
  · exact .inl ⟨_, rfl⟩
  · exact .inl ⟨_, rfl⟩
  · exact .inr ⟨_, rfl, by decide⟩
  · exact .inr ⟨_, rfl, by decide⟩
  · exact .inr ⟨_, rfl, by decide⟩

end Calls

/-- The next call is one before the loops, or those are over and it is one after them. -/
theorem SemaphoreCalls.due_cases {h rest : SemaphoreCalls} {finished : Bool}
    {call : SemaphoreCall} (hdue : h.due finished = some (call, rest)) :
    (∃ l, h.opening = call :: l ∧ rest = { h with opening := l }) ∨
      ∃ l, h.opening = [] ∧ finished = true ∧ h.closing = call :: l ∧
        rest = { h with closing := l } := by
  simp only [SemaphoreCalls.due] at hdue
  split at hdue
  · next hopening =>
    cases hdue
    exact .inl ⟨_, hopening, rfl⟩
  · next hopening hclosing =>
    split_ifs at hdue with hfinished
    cases hdue
    exact .inr ⟨_, hopening, hfinished, hclosing, rfl⟩
  · cases hdue

/-- How far the two handlers of an exchange have come: the client's begins when the
service's has opened its semaphores. -/
structure Ordered (v c : SemaphoreCalls) : Prop where
  service : v.opening <:+ SemaphoreCalls.ofService.opening
  serviceEnd : v.closing <:+ SemaphoreCalls.ofService.closing
  client : c.opening <:+ SemaphoreCalls.ofClient.opening
  clientEnd : c.closing <:+ SemaphoreCalls.ofClient.closing
  serviceFirst : v.opening ≠ [] → c.opening = SemaphoreCalls.ofClient.opening
  openingFirst : c.opening ≠ [] → c.closing = SemaphoreCalls.ofClient.closing

/-- One semaphore of an exchange: until the client unlinks it, its name stands for
what the service has created, which is what the client opens. -/
structure Linked (table : SemaphoreTable) (name : Semaphore → String) (v c : SemaphoreCalls)
    (k : Semaphore) : Prop where
  made : v.handle k = none ↔ .create k ∈ v.opening
  free : .create k ∈ v.opening → .reset k ∉ v.opening → table.object (name k) = none
  named : ∀ o, v.handle k = some o → .unlink k ∈ c.closing → table.object (name k) = some o
  gone : .unlink k ∉ c.closing → table.object (name k) = none
  attached : c.handle k = none ↔ .attach k ∈ c.opening
  same : ∀ o, c.handle k = some o → v.handle k = some o

theorem ordered_start : Ordered .ofService .ofClient :=
  ⟨List.suffix_rfl, List.suffix_rfl, List.suffix_rfl, List.suffix_rfl, fun _ => rfl, fun _ => rfl⟩

theorem linked_start (table : SemaphoreTable) (name : Semaphore → String) (k : Semaphore) :
    Linked table name .ofService .ofClient k := by
  constructor
  · exact ⟨fun _ => by cases k <;> decide, fun _ => rfl⟩
  · intro _ hreset
    exact absurd (by cases k <;> decide) hreset
  · intro o ho
    cases ho
  · intro hunlink
    exact absurd (by cases k <;> decide) hunlink
  · exact ⟨fun _ => by cases k <;> decide, fun _ => rfl⟩
  · intro o ho
    cases ho

section Linked

variable {table table' : SemaphoreTable} {name : Semaphore → String} {v c : SemaphoreCalls}
  {j k : Semaphore} {rest : List SemaphoreCall}

theorem Linked.congr (h : Linked table name v c k)
    (hobject : table'.object (name k) = table.object (name k)) : Linked table' name v c k where
  made := h.made
  free := hobject ▸ h.free
  named := hobject ▸ h.named
  gone := hobject ▸ h.gone
  attached := h.attached
  same := h.same

/-- The service's handler frees the name. -/
theorem Linked.reset (hinj : Function.Injective name) (h : Linked table name v c j)
    (hv : v.opening = .reset k :: rest) (hcreate : .create k ∈ rest) :
    Linked (table.unlink (name k)) name { v with opening := rest } c j := by
  have hmem : .create j ∈ v.opening ↔ .create j ∈ rest := by simp [hv]
  have hnot : j ≠ k → (.reset j ∈ v.opening ↔ .reset j ∈ rest) := by
    intro hj
    simp [hv, hj]
  have hother : j ≠ k → (table.unlink (name k)).object (name j) = table.object (name j) :=
    fun hj => table.object_unlink_of_ne fun hn => hj (hinj hn)
  constructor
  · exact h.made.trans hmem
  · intro hc hr
    by_cases hj : j = k
    · subst hj
      exact NamedObjects.object_unlink _
    · rw [hother hj]
      exact h.free (hmem.mpr hc) (mt (hnot hj).mp hr)
  · intro o ho hunlink
    have hj : j ≠ k := by
      rintro rfl
      rw [h.made.mpr (hmem.mpr hcreate)] at ho
      cases ho
    rw [hother hj]
    exact h.named o ho hunlink
  · intro hunlink
    by_cases hj : j = k
    · subst hj
      exact NamedObjects.object_unlink _
    · rw [hother hj]
      exact h.gone hunlink
  · exact h.attached
  · exact h.same

/-- The service's handler creates the semaphore, before the client's does anything. -/
theorem Linked.create {o : ℕ} (hinj : Function.Injective name) (h : Linked table name v c j)
    (hv : v.opening = .create k :: rest) (hrest : .create k ∉ rest)
    (hunlink : .unlink k ∈ c.closing)
    (hobject : table'.object = Function.update table.object (name k) (some o)) :
    Linked table' name { v with opening := rest, handle := Function.update v.handle k (some o) }
      c j := by
  by_cases hj : j = k
  · subst hj
    have hself : table'.object (name j) = some o := by rw [hobject, Function.update_self]
    refine ⟨?_, fun hc => absurd hc hrest, fun o' ho' _ => ?_, fun hgone => absurd hunlink hgone,
      h.attached, fun o' ho' => ?_⟩
    · simp [hrest]
    · rwa [hself, ← Function.update_self j (some o) v.handle]
    · have hmade := h.made.mpr (by simp [hv])
      rw [h.same o' ho'] at hmade
      cases hmade
  · have hother : table'.object (name j) = table.object (name j) := by
      rw [hobject, Function.update_of_ne fun hn => hj (hinj hn)]
    have hhandle : Function.update v.handle k (some o) j = v.handle j :=
      Function.update_of_ne hj ..
    have hmem : .create j ∈ v.opening ↔ .create j ∈ rest := by simp [hv, hj]
    have hreset : .reset j ∈ v.opening ↔ .reset j ∈ rest := by simp [hv]
    constructor
    · dsimp only
      rw [hhandle]
      exact h.made.trans hmem
    · intro hc hr
      rw [hother]
      exact h.free (hmem.mpr hc) (mt hreset.mp hr)
    · intro o' ho'
      rw [hother]
      exact h.named o' (hhandle ▸ ho')
    · rw [hother]
      exact h.gone
    · exact h.attached
    · intro o' ho'
      dsimp only
      rw [hhandle]
      exact h.same o' ho'

/-- The client's handler opens the semaphore. -/
theorem Linked.attach {o : ℕ} (h : Linked table name v c j) (hc : c.opening = .attach k :: rest)
    (hrest : .attach k ∉ rest) (hhandle : v.handle k = some o) :
    Linked table name v
      { c with opening := rest, handle := Function.update c.handle k (some o) } j := by
  refine ⟨h.made, h.free, h.named, h.gone, ?_, fun o' ho' => ?_⟩
  · by_cases hj : j = k
    · subst hj
      simp [hrest]
    · dsimp only
      rw [Function.update_of_ne hj, h.attached, hc]
      simp [hj]
  · by_cases hj : j = k
    · subst hj
      rwa [hhandle, ← Function.update_self j (some o) c.handle]
    · dsimp only at ho'
      rw [Function.update_of_ne hj] at ho'
      exact h.same o' ho'

/-- The client's handler frees the name. -/
theorem Linked.unlink (hinj : Function.Injective name) (h : Linked table name v c j)
    (hv : v.opening = []) (hc : c.closing = .unlink k :: rest) (hrest : .unlink k ∉ rest) :
    Linked (table.unlink (name k)) name v { c with closing := rest } j := by
  have hnone : .create j ∉ v.opening := by simp [hv]
  by_cases hj : j = k
  · subst hj
    exact ⟨h.made, fun hcreate => absurd hcreate hnone, fun o _ hunlink => absurd hunlink hrest,
      fun _ => NamedObjects.object_unlink _, h.attached, h.same⟩
  · have hother : (table.unlink (name k)).object (name j) = table.object (name j) :=
      table.object_unlink_of_ne fun hn => hj (hinj hn)
    have hmem : .unlink j ∈ c.closing ↔ .unlink j ∈ rest := by simp [hc, hj]
    refine ⟨h.made, fun hcreate => absurd hcreate hnone, fun o ho hunlink => ?_, fun hgone => ?_,
      h.attached, h.same⟩
    · rw [hother]
      exact h.named o ho (hmem.mpr hunlink)
    · rw [hother]
      exact h.gone (mt hmem.mp hgone)

theorem Linked.close (h : Linked table name v c j) (hc : c.closing = .close k :: rest) :
    Linked table name v { c with closing := rest } j := by
  have hmem : .unlink j ∈ c.closing ↔ .unlink j ∈ rest := by simp [hc]
  exact ⟨h.made, h.free, fun o ho hunlink => h.named o ho (hmem.mpr hunlink),
    fun hgone => h.gone (mt hmem.mp hgone), h.attached, h.same⟩

end Linked

end TinyFile
