import TinyFile.CreditAccounting
import TinyFile.RoundRobin

/-!
# The scheduler's files

Records and requests stand under the ids of their clients, whoever has registered or
left in the meantime. That is enough for `schedule` to take the oldest request of one
client, also where a deregistration has left an id behind in a queue.
-/
namespace TinyFile

namespace Scheduler

variable {κ : Type}

/-- Records and requests are filed under the ids of their clients. -/
structure Filed (s : Scheduler κ) : Prop where
  keyed : Keyed s
  owned : Owned s

theorem filed_init (numWorkers : ℕ) : Filed (init numWorkers : Scheduler κ) where
  keyed := fun k b hb => by simp [balance, init] at hb
  owned := fun k r hr => by simp [pending, init] at hr

theorem Filed.registerClient [IntCast κ] {s : Scheduler κ} (h : Filed s) (k priority : ℤ)
    (p : Placement ℤ) : Filed (s.registerClient k priority p) where
  keyed := by
    intro j b hb
    by_cases hk : k ∈ s.registered
    · rw [balance, Scheduler.registerClient, UnorderedMap.emplace_of_mem hk] at hb
      exact h.keyed j b hb
    · obtain ⟨c, hc, rfl⟩ := Option.map_eq_some_iff.mp hb
      rw [find?_registerClient hk] at hc
      split_ifs at hc with hj
      · cases hc
        exact hj.symm
      · exact h.keyed j c.balance (balance_of_find? hc)
  owned := h.owned

/-- A change of the requests of one client. -/
theorem pending_modify {s t : Scheduler κ} {k : ℤ} {l : List Request}
    (hl : s.requestMap.find? k = some l) {f : List Request → List Request}
    (hmap : t.requestMap = s.requestMap.modify k f) (j : ℤ) :
    t.pending j = if j = k then f l else s.pending j := by
  rw [pending, hmap, UnorderedMap.find?_modify]
  split_ifs with hj
  · rw [hj, hl]
    rfl
  · rfl

theorem eq_without {s t : Scheduler κ} {k : ℤ} (hrun : s.deregisterClient k = .ok t) :
    t = s.without k := by
  simp only [Scheduler.deregisterClient] at hrun
  split at hrun
  · cases hrun
  · exact (Except.ok.inj hrun).symm

/-- Whoever leaves takes its requests along. -/
theorem pending_deregisterClient {s t : Scheduler κ} {k : ℤ} (hrun : s.deregisterClient k = .ok t)
    (j : ℤ) : t.pending j = if j = k then [] else s.pending j := by
  rw [eq_without hrun, pending, without, UnorderedMap.find?_erase]
  split_ifs <;> rfl

theorem Filed.deregisterClient {s t : Scheduler κ} (h : Filed s) {k : ℤ}
    (hrun : s.deregisterClient k = .ok t) : Filed t := by
  have hpending := pending_deregisterClient hrun
  obtain rfl := eq_without hrun
  refine ⟨fun j b hb => ?_, fun j r hr => ?_⟩
  · obtain ⟨c, hc, rfl⟩ := Option.map_eq_some_iff.mp hb
    rw [without, UnorderedMap.find?_erase] at hc
    split_ifs at hc
    exact h.keyed j c.balance (balance_of_find? hc)
  · rw [hpending] at hr
    split_ifs at hr
    · cases hr
    · exact h.owned j r hr

section Arithmetic

variable [Zero κ] [LT κ] [DecidableLT κ]

theorem Filed.enqueue {s t : Scheduler κ} (h : Filed s) {k requestId : ℤ} {fileSize : ℕ}
    {p : Placement ℤ} (hrun : s.enqueue k requestId fileSize p = (.ok (), t)) :
    Filed t ∧ ∀ j, t.pending j =
      if j = k then s.pending k ++ [⟨k, requestId, fileSize⟩] else s.pending j := by
  obtain ⟨-, hbalance, hpending⟩ := enqueue_balance h.keyed hrun
  refine ⟨⟨fun j b hb => h.keyed j b (hbalance j ▸ hb), fun j r hr => ?_⟩, hpending⟩
  rw [hpending] at hr
  split_ifs at hr with hj
  · rcases List.mem_append.mp hr with hr | hr
    · exact hj ▸ h.owned k r hr
    · rw [List.mem_singleton.mp hr, hj]
  · exact h.owned j r hr

variable [Add κ] [Sub κ] [Mul κ] [Div κ] [NatCast κ] [IntCast κ]

/-- A call of `schedule` that returns takes the oldest request of one client, under
either strategy and whoever has left. -/
theorem Filed.schedule {st : Strategy} {s t : Scheduler κ} {r : Request} (h : Filed s)
    (hrun : s.schedule st = .ok (r, t)) :
    Filed t ∧ ∃ rest, s.pending r.clientId = r :: rest ∧
      ∀ j, t.pending j = if j = r.clientId then rest else s.pending j := by
  have hfiled : ∀ {rest : List Request}, s.pending r.clientId = r :: rest →
      (∀ j, t.pending j = if j = r.clientId then rest else s.pending j) → Keyed t → Filed t := by
    intro rest hp hpending hkeyed
    refine ⟨hkeyed, fun j r' hr' => ?_⟩
    rw [hpending] at hr'
    split_ifs at hr' with hj
    · exact hj ▸ h.owned _ r' (hp ▸ List.mem_cons_of_mem r hr')
    · exact h.owned j r' hr'
  cases st with
  | roundRobin =>
    obtain ⟨entries, front, skipped, k, rest, after, -, hsplit, -, -, rfl⟩ :=
      scheduleRoundRobin_cases hrun
    have hfind : s.requestMap.find? k = some (r :: rest) := by
      rw [UnorderedMap.find?_eq_some_iff, hsplit]
      simp
    have hk : s.pending k = r :: rest := by rw [pending, hfind]; rfl
    obtain rfl : r.clientId = k := h.owned k r (hk ▸ List.mem_cons_self)
    have hpending := pending_modify hfind (f := List.tail) (t := { s with
      requestMap := s.requestMap.modify r.clientId List.tail
      requestMapIterator := .ofEntries after
      requestCount := s.requestCount - 1 }) rfl
    exact ⟨hfiled hk hpending h.keyed, rest, hk, hpending⟩
  | credit =>
    obtain ⟨rest, hp, hmap, -, hbalance⟩ := scheduleCredit_balance h.keyed h.owned hrun
    have hfind := find?_of_pending (hp ▸ List.cons_ne_nil r rest)
    have hpending := pending_modify hfind hmap
    refine ⟨hfiled hp hpending (h.keyed.congr fun j b' hb' => ?_), rest, hp, hpending⟩
    rw [hbalance] at hb'
    obtain ⟨b, hb, rfl⟩ := Option.map_eq_some_iff.mp hb'
    refine ⟨b, hb, ?_⟩
    split_ifs <;> rfl

end Arithmetic

end Scheduler

end TinyFile
