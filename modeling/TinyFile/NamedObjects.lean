import Mathlib.Data.Nat.Notation
import Mathlib.Logic.Function.Basic

/-!
# Objects behind names

A table in which names stand for objects that have values. A name can be taken only
if it is free, and an object outlives its name: whoever has looked it up goes on
using it. Objects are never reused.
-/
namespace TinyFile

structure NamedObjects (ν α : Type*) where
  object : ν → Option ℕ
  value : ℕ → α
  fresh : ℕ

namespace NamedObjects

variable {ν α ι : Type*} {t : NamedObjects ν α}

/-- Give the objects of some handles new values; `keys` lists the handles. -/
def store (t : NamedObjects ν α) (keys : List ι) (handle : ι → Option ℕ) (a : ι → α) :
    NamedObjects ν α :=
  { t with
    value := fun o =>
      match keys.find? (fun i => handle i = some o) with
      | some i => a i
      | none => t.value o }

section Store

variable {keys : List ι} {handle : ι → Option ℕ} {a : ι → α} {o : ℕ}

theorem value_store_of_ne (h : ∀ i, handle i ≠ some o) :
    (t.store keys handle a).value o = t.value o := by
  have hnone : keys.find? (fun i => handle i = some o) = none :=
    List.find?_eq_none.mpr fun i _ => by simpa using h i
  simp only [store, hnone]

/-- Different handles are handles of different objects. -/
theorem value_store {i : ι} (hi : i ∈ keys) (h : handle i = some o)
    (hinj : ∀ j, handle j = some o → j = i) : (t.store keys handle a).value o = a i := by
  have hsome : keys.find? (fun i => handle i = some o) = some i := by
    cases hfind : keys.find? (fun i => handle i = some o) with
    | none => exact absurd h (by simpa using List.find?_eq_none.mp hfind i hi)
    | some j =>
      have hj := List.find?_some hfind
      exact congrArg some (hinj j (by simpa using hj))
  simp only [store, hsome]

end Store

variable [DecidableEq ν]

/-- A new object under a name that is free. -/
def create (t : NamedObjects ν α) (k : ν) (a : α) : Option (ℕ × NamedObjects ν α) :=
  match t.object k with
  | some _ => none
  | none =>
      some (t.fresh,
        { object := Function.update t.object k (some t.fresh)
          value := Function.update t.value t.fresh a
          fresh := t.fresh + 1 })

/-- Free a name, whether or not it is taken. -/
def unlink (t : NamedObjects ν α) (k : ν) : NamedObjects ν α :=
  { t with object := Function.update t.object k none }

theorem create_of_free {k : ν} (h : t.object k = none) (a : α) :
    t.create k a = some (t.fresh,
      { object := Function.update t.object k (some t.fresh)
        value := Function.update t.value t.fresh a
        fresh := t.fresh + 1 }) := by
  rw [create, h]

@[simp] theorem object_unlink (k : ν) : (t.unlink k).object k = none := Function.update_self ..

theorem object_unlink_of_ne {k j : ν} (h : j ≠ k) : (t.unlink k).object j = t.object j :=
  Function.update_of_ne h ..

end NamedObjects

end TinyFile
