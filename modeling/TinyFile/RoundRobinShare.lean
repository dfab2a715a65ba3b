import TinyFile.RoundRobinFairness
import Mathlib.Data.List.Count

/-!
# Equal turns under round-robin

While two clients have requests waiting, the scan comes to one of them at most once
before it comes to the other. Over a whole run their turns therefore differ by one
at most, however many other clients there are and whenever these come.
-/
namespace TinyFile

namespace CyclicScan

variable {α : Type*} [DecidableEq α]

/-- Wherever one starts to read, `a` occurs at most once before the next `b`. -/
def AtMostOnceBefore (a b : α) (l : List α) : Prop :=
  ∀ r, r <:+ l → (r.takeWhile (fun x => x ≠ b)).count a ≤ 1

theorem AtMostOnceBefore.tail {a b x : α} {l : List α} (h : AtMostOnceBefore a b (x :: l)) :
    AtMostOnceBefore a b l :=
  fun r hr => h r (hr.trans (List.suffix_cons x l))

theorem AtMostOnceBefore.cons {a b x : α} {l : List α} (h : AtMostOnceBefore a b l)
    (hx : ((x :: l).takeWhile (fun x => x ≠ b)).count a ≤ 1) : AtMostOnceBefore a b (x :: l) := by
  intro r hr
  rcases List.suffix_cons_iff.mp hr with rfl | hr
  · exact hx
  · exact h r hr

/-- The occurrences of `a` are those of `b`, and those before the first `b`. -/
theorem AtMostOnceBefore.count_le {a b : α} {l : List α} (hab : a ≠ b)
    (h : AtMostOnceBefore a b l) :
    l.count a ≤ l.count b + (l.takeWhile (fun x => x ≠ b)).count a := by
  induction l with
  | nil => simp
  | cons x l ih =>
    have hl := ih h.tail
    by_cases hb : x = b
    · subst hb
      have hone := h.tail l List.suffix_rfl
      rw [List.count_cons_of_ne hab.symm, List.count_cons_self,
        List.takeWhile_cons_of_neg (by simp), List.count_nil]
      omega
    · rw [List.takeWhile_cons_of_pos (by simpa using hb), List.count_cons_of_ne hb]
      by_cases ha : x = a
      · subst ha
        rw [List.count_cons_self, List.count_cons_self]
        omega
      · rw [List.count_cons_of_ne ha, List.count_cons_of_ne ha]
        exact hl

theorem AtMostOnceBefore.count_le_succ {a b : α} {l : List α} (h : AtMostOnceBefore a b l) :
    l.count a ≤ l.count b + 1 := by
  by_cases hab : a = b
  · subst hab
    exact Nat.le_succ _
  · exact (h.count_le hab).trans (Nat.add_le_add_left (h l List.suffix_rfl) _)

end CyclicScan

namespace Scheduler.RoundRobin

variable {κ : Type}

/-- The steps of a run in which both clients have a request waiting whenever a worker
asks for one, and that keep the existing clients in their order. -/
def BothWait (c d : ℤ) (s : Scheduler κ) : Event → Prop
  | .schedule => s.pending c ≠ [] ∧ s.pending d ≠ []
  | e => KeepsKeys s e

instance (c d : ℤ) (s : Scheduler κ) (e : Event) : Decidable (BothWait c d s e) :=
  match e with
  | .registerClient k priority p =>
    inferInstanceAs (Decidable (KeepsKeys s (.registerClient k priority p)))
  | .enqueue k requestId fileSize p =>
    inferInstanceAs (Decidable (KeepsKeys s (.enqueue k requestId fileSize p)))
  | .schedule => inferInstanceAs (Decidable (_ ∧ _))
  | .deregisterClient k => inferInstanceAs (Decidable (KeepsKeys s (.deregisterClient k)))

variable {numWorkers : ℕ} {c d : ℤ} {s t : Scheduler κ} {e : Event} {es : List Event}

theorem BothWait.keepsKeys (h : BothWait c d s e) : KeepsKeys s e := by
  cases e with
  | schedule => trivial
  | _ => exact h

theorem BothWait.symm (h : BothWait c d s e) : BothWait d c s e := by
  cases e with
  | schedule => exact And.symm h
  | _ => exact h

variable [Add κ] [Sub κ] [Mul κ] [Div κ] [NatCast κ] [IntCast κ] [Zero κ] [LT κ] [DecidableLT κ]

/-- The clients whose requests are returned, in this order. -/
def turns (numWorkers : ℕ) (s : Scheduler κ) (es : List Event) : List ℤ :=
  (returned (machine numWorkers) .roundRobin s es).map Request.clientId

/-- Whoever waits meanwhile, `d` is returned at most once before the next turn of `c`. -/
theorem atMostOnceBefore_run (hrun : (machine numWorkers).RunIf (BothWait c d) s es t)
    (h : s.Coherent) : CyclicScan.AtMostOnceBefore d c (turns numWorkers s es) := by
  induction hrun with
  | nil s =>
    intro r hr
    rw [List.suffix_nil.mp hr]
    simp
  | @cons s u t e es hnext hok hrest ih =>
    have hu := ih (coherent_step h hnext)
    cases e with
    | schedule =>
      obtain ⟨r, hsched⟩ := schedule_of_next hnext
      have hby : s.returnedBy .roundRobin .schedule = [r] := by
        simp only [returnedBy, Scheduler.schedule, hsched]
      have hturns : turns numWorkers s (.schedule :: es) =
          r.clientId :: turns numWorkers u es := by
        rw [turns, returned_cons hnext, hby, List.singleton_append, List.map_cons, turns]
      obtain ⟨oldest, rest, hc⟩ := List.exists_cons_of_ne_nil hok.1
      have hall := (Machine.RunIf.cons hnext hok hrest).mono fun _ _ => BothWait.keepsKeys
      obtain ⟨hnodup, -⟩ := servedBefore_run hall h hc
      rw [hturns]
      refine hu.cons ?_
      rw [← hturns]
      exact List.nodup_iff_count_le_one.mp hnodup d
    | _ =>
      rw [turns, returned_cons hnext]
      exact hu

/-- From every reachable state, in every continuation in which two clients always
have a request waiting: neither gets more than one turn more than the other. -/
theorem equal_turns (hs : (machine numWorkers).Reachable s)
    (hrun : (machine numWorkers).RunIf (BothWait c d) s es t) :
    (turns numWorkers s es).count c ≤ (turns numWorkers s es).count d + 1 ∧
      (turns numWorkers s es).count d ≤ (turns numWorkers s es).count c + 1 := by
  have h := coherent_of_reachable hs
  constructor
  · exact (atMostOnceBefore_run (hrun.mono fun _ _ => BothWait.symm) h).count_le_succ
  · exact (atMostOnceBefore_run hrun h).count_le_succ

/-- Client 2 comes while the other two have requests waiting. -/
def newcomer : List Event :=
  [.enqueue 2 0 100 (.splice 1), .enqueue 0 2 100 (.splice 0), .schedule, .schedule, .schedule,
    .schedule]

/-- Client 1 has two turns and client 0 one, with the turn of client 2 in between. -/
theorem equal_turns_newcomer :
    ∃ s t : Scheduler ℚ, (machine 4).run (init 4)
        [.registerClient 0 64 (.splice 0), .registerClient 1 64 (.splice 1),
          .registerClient 2 64 (.splice 2), .enqueue 0 0 100 (.splice 0),
          .enqueue 1 0 100 (.splice 1), .enqueue 0 1 100 (.splice 0),
          .enqueue 1 1 100 (.splice 0), .enqueue 1 2 100 (.splice 0), .schedule] = some s ∧
      (machine 4).runIf (BothWait 0 1) s newcomer = some t ∧
      turns 4 s newcomer = [1, 0, 2, 1] ∧
      (turns 4 s newcomer).count 1 ≤ (turns 4 s newcomer).count 0 + 1 := by
  have hrun : ((machine 4).run (init 4 : Scheduler ℚ)
      [.registerClient 0 64 (.splice 0), .registerClient 1 64 (.splice 1),
        .registerClient 2 64 (.splice 2), .enqueue 0 0 100 (.splice 0),
        .enqueue 1 0 100 (.splice 1), .enqueue 0 1 100 (.splice 0),
        .enqueue 1 1 100 (.splice 0), .enqueue 1 2 100 (.splice 0), .schedule]).bind (fun s =>
      ((machine 4).runIf (BothWait 0 1) s newcomer).map fun _ => turns 4 s newcomer) =
        some [1, 0, 2, 1] := by decide +kernel
  obtain ⟨s, hs, hrest⟩ := Option.bind_eq_some_iff.mp hrun
  obtain ⟨t, ht, hturns⟩ := Option.map_eq_some_iff.mp hrest
  exact ⟨s, t, hs, ht, hturns,
    (equal_turns (Machine.reachable_of_run hs) (Machine.RunIf.of_runIf ht)).2⟩

end Scheduler.RoundRobin

end TinyFile
