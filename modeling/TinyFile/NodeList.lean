import Mathlib.Data.List.Nodup
import Mathlib.Data.List.Perm.Basic

/-!
# Linked lists with stable iterators

An iterator is the address of a node: it stays valid while other nodes come and
go, and no address is given out twice. The list carries these two facts, so an
iterator designates at most one occurrence. Lists with different names never
share a node.
-/
namespace TinyFile

structure NodeList (α : Type*) where
  name : ℕ
  nodes : List (ℕ × α)
  next : ℕ
  nodup : (nodes.map Prod.fst).Nodup
  below : ∀ n ∈ nodes.map Prod.fst, n < next

namespace NodeList

variable {α : Type*}

structure Iterator where
  list : ℕ
  node : ℕ
  deriving DecidableEq, Repr

def empty (name : ℕ) : NodeList α := ⟨name, [], 0, by simp, by simp⟩

def values (l : NodeList α) : List α := l.nodes.map Prod.snd

@[simp] theorem values_empty (name : ℕ) : (empty name : NodeList α).values = [] := rfl

/-- The iterator points at an occurrence of the value in this list. -/
def Designates (l : NodeList α) (it : Iterator) (a : α) : Prop :=
  it.list = l.name ∧ (it.node, a) ∈ l.nodes

theorem Designates.mem_values {l : NodeList α} {it : Iterator} {a : α}
    (h : l.Designates it a) : a ∈ l.values := List.mem_map.mpr ⟨_, h.2, rfl⟩

/-- `push_back`, returning the iterator `std::prev(end())` of the new node. -/
def pushBack (l : NodeList α) (a : α) : NodeList α × Iterator :=
  ({ l with
      nodes := l.nodes ++ [(l.next, a)]
      next := l.next + 1
      nodup := by
        rw [List.map_append]
        refine List.nodup_append.mpr ⟨l.nodup, by simp, ?_⟩
        intro n hn k hk
        have := l.below n hn
        simp only [List.map_cons, List.map_nil, List.mem_singleton] at hk
        omega
      below := by
        intro n hn
        rw [List.map_append, List.mem_append] at hn
        rcases hn with hn | hn
        · exact Nat.lt_succ_of_lt (l.below n hn)
        · simp only [List.map_cons, List.map_nil, List.mem_singleton] at hn
          omega },
    ⟨l.name, l.next⟩)

@[simp] theorem values_pushBack (l : NodeList α) (a : α) :
    (l.pushBack a).1.values = l.values ++ [a] := by simp [values, pushBack]

theorem designates_pushBack_self (l : NodeList α) (a : α) :
    (l.pushBack a).1.Designates (l.pushBack a).2 a := by simp [Designates, pushBack]

theorem Designates.pushBack {l : NodeList α} {it : Iterator} {a : α} (h : l.Designates it a)
    (b : α) : (l.pushBack b).1.Designates it a :=
  ⟨h.1, List.mem_append_left _ h.2⟩

/-- Unlink the node with an address. -/
def unlink (l : NodeList α) (node : ℕ) : NodeList α :=
  { l with
    nodes := l.nodes.filter (fun n => n.1 ≠ node)
    nodup := l.nodup.sublist (List.filter_sublist.map Prod.fst)
    below := fun n hn => l.below n ((List.filter_sublist.map Prod.fst).subset hn) }

/-- `erase(it)`; `none` when the iterator designates no node of this list. -/
def erase (l : NodeList α) (it : Iterator) : Option (NodeList α) :=
  if it.list = l.name ∧ it.node ∈ l.nodes.map Prod.fst then some (l.unlink it.node) else none

/-- Erasing a designated occurrence succeeds, removes that value where values
are distinct, and keeps every iterator to another value. -/
theorem erase_spec {l : NodeList α} [DecidableEq α] {it : Iterator} {a : α}
    (h : l.Designates it a) (hnd : l.values.Nodup) :
    ∃ l', l.erase it = some l' ∧ l'.name = l.name ∧
      l'.values = l.values.filter (fun b => b ≠ a) ∧
      ∀ it' b, b ≠ a → l.Designates it' b → l'.Designates it' b := by
  obtain ⟨hname, hmem⟩ := h
  have hin : it.node ∈ l.nodes.map Prod.fst := List.mem_map.mpr ⟨_, hmem, rfl⟩
  have hiff : ∀ n ∈ l.nodes, n.1 = it.node ↔ n.2 = a := by
    rintro ⟨n, b⟩ hn
    constructor
    · intro hnode
      have := List.inj_on_of_nodup_map l.nodup hn hmem hnode
      exact (Prod.mk.inj this).2
    · intro hval
      have := List.inj_on_of_nodup_map hnd hn hmem hval
      exact (Prod.mk.inj this).1
  refine ⟨l.unlink it.node, by rw [erase, if_pos ⟨hname, hin⟩], rfl, ?_, ?_⟩
  · simp only [values, unlink, List.filter_map]
    congr 1
    apply List.filter_congr
    intro n hn
    simp [hiff n hn]
  · rintro it' b hb ⟨hl, hn⟩
    refine ⟨hl, List.mem_filter.mpr ⟨hn, ?_⟩⟩
    have hne : it'.node ≠ it.node := fun he => hb ((hiff _ hn).mp he)
    simpa using hne

end NodeList

end TinyFile
