import TinyFile.SoundScheduler

/-!
# What the scheduler delivers

Every request that is enqueued is returned by one call of `schedule`, in the
order of its client, under either strategy. The two strategies differ only in
how the clients take turns.
-/
namespace TinyFile

/-- Lists that agree on the part of every class are equal up to order. -/
theorem perm_of_filter_eq {α β : Type*} [DecidableEq α] [DecidableEq β] (f : α → β) {l l' : List α}
    (h : ∀ b, l.filter (fun a => f a = b) = l'.filter (fun a => f a = b)) : l.Perm l' := by
  refine List.perm_iff_count.mpr fun a => ?_
  rw [← List.count_filter (l := l) (p := fun x => decide (f x = f a)) (by simp), h,
    List.count_filter (by simp)]

namespace Scheduler

variable {κ : Type}

/-- The request that an operation hands in. -/
def enqueuedBy : Event → List Request
  | .enqueue clientId requestId fileSize _ => [⟨clientId, requestId, fileSize⟩]
  | _ => []

def enqueued (es : List Event) : List Request := es.flatMap enqueuedBy

/-- No client leaves, and no insertion of a new key rehashes `requestMap` under
the stored iterator. -/
def KeepsClients (s : Scheduler κ) : Event → Prop
  | .deregisterClient _ => False
  | .enqueue k _ _ (.rehash _) => k ∈ s.requestMap.keys ∨ s.requestMapIterator = .atEnd
  | _ => True

instance (s : Scheduler κ) (e : Event) : Decidable (s.KeepsClients e) :=
  match e with
  | .registerClient .. => isTrue trivial
  | .enqueue _ _ _ (.splice _) => isTrue trivial
  | .enqueue _ _ _ (.rehash _) => inferInstanceAs (Decidable (_ ∨ _))
  | .schedule => isTrue trivial
  | .deregisterClient _ => isFalse id

/-- Without requests to count there are none. -/
theorem pending_eq_nil_of_count {s : Scheduler κ} (h : MapInvariant s)
    (hzero : s.requestCount = 0) (k : ℤ) : s.pending k = [] := by
  by_contra hne
  have hle := UnorderedMap.le_total (find?_of_pending hne) List.length
  have htotal : s.requestMap.total List.length = 0 := h.count.symm.trans hzero
  exact hne (List.length_eq_zero_iff.mp (by omega))

section Arithmetic

variable [Add κ] [Sub κ] [Mul κ] [Div κ] [NatCast κ] [IntCast κ] [Zero κ] [LT κ] [DecidableLT κ]

/-- The request that a step returns. -/
def returnedBy (st : Strategy) (s : Scheduler κ) : Event → List Request
  | .schedule =>
      match s.schedule st with
      | .ok (request, _) => [request]
      | .error _ => []
  | _ => []

/-- The requests returned along a run, in order. -/
def returned (M : Machine (Scheduler κ) Event) (st : Strategy) (s : Scheduler κ) :
    List Event → List Request
  | [] => []
  | e :: es =>
      match M.next s e with
      | none => []
      | some t => s.returnedBy st e ++ returned M st t es

theorem returned_cons {M : Machine (Scheduler κ) Event} {st : Strategy} {s t : Scheduler κ}
    {e : Event} (h : M.next s e = some t) (es : List Event) :
    returned M st s (e :: es) = s.returnedBy st e ++ returned M st t es := by
  simp only [returned, h]

/-- What one operation does to the requests of each client. -/
theorem delivery_step {st : Strategy} {s t : Scheduler κ} {e : Event} (h : Sound st s)
    (ht : next st s e = some t) (hok : s.KeepsClients e) :
    Sound st t ∧ ∀ k, (s.returnedBy st e).filter (fun r => r.clientId = k) ++ t.pending k =
      s.pending k ++ (enqueuedBy e).filter (fun r => r.clientId = k) := by
  cases e with
  | registerClient k priority p =>
    simp only [next] at ht
    split at ht
    · cases ht
    · next hk =>
      cases ht
      refine ⟨h.registerClient hk priority p, fun j => ?_⟩
      simp only [returnedBy, enqueuedBy, List.filter_nil, List.append_nil]
      rfl
  | enqueue k requestId fileSize p =>
    have hrun := enqueue_of_next ht
    obtain ⟨c, hc⟩ := registered_of_enqueue_ok hrun
    have hrehash : ∀ order, p = .rehash order →
        k ∈ s.requestMap.keys ∨ s.requestMapIterator = .atEnd := by
      rintro order rfl
      exact hok
    obtain ⟨t', hrun', hsound, -, -⟩ := h.enqueue (UnorderedMap.mem_keys_of_find? hc) requestId
      fileSize hrehash
    obtain rfl : t' = t := (Prod.mk.inj (hrun'.symm.trans hrun)).2
    refine ⟨hsound, fun j => ?_⟩
    obtain ⟨hpending, -⟩ := push_spec s.requestMap k ⟨k, requestId, fileSize⟩ p
    have hj := hpending j
    rw [← (requests_of_enqueue hrun).1] at hj
    change t'.pending j = _ at hj
    rw [hj]
    by_cases he : j = k
    · simp [returnedBy, enqueuedBy, he, pending]
    · simp [returnedBy, enqueuedBy, he, Ne.symm he, pending]
  | schedule =>
    obtain ⟨hpos, r, hrun⟩ := schedule_of_next ht
    obtain ⟨r', t', rest, hrun', hsound, -, -, hp, hpending⟩ := h.schedule hpos
    obtain ⟨rfl, rfl⟩ : r' = r ∧ t' = t := by simpa using hrun'.symm.trans hrun
    refine ⟨hsound, fun j => ?_⟩
    rw [hpending]
    by_cases hj : j = r'.clientId
    · simp [returnedBy, enqueuedBy, hrun, hj, hp]
    · simp [returnedBy, enqueuedBy, hrun, hj, Ne.symm hj]
  | deregisterClient k => exact absurd hok id

/-- Along a run each client's requests are returned in the order in which they
wait and arrive. -/
theorem delivery_run {st : Strategy} {numWorkers : ℕ} {s t : Scheduler κ} {es : List Event}
    (hrun : (machine st numWorkers).RunIf KeepsClients s es t) (h : Sound st s) :
    Sound st t ∧ ∀ k, (returned (machine st numWorkers) st s es).filter
        (fun r => r.clientId = k) ++ t.pending k =
      s.pending k ++ (enqueued es).filter (fun r => r.clientId = k) := by
  induction hrun with
  | nil s => exact ⟨h, fun k => by simp [returned, enqueued]⟩
  | @cons s u t e es hnext hok _ ih =>
    obtain ⟨hu, hstep⟩ := delivery_step h hnext hok
    obtain ⟨ht, hrest⟩ := ih hu
    refine ⟨ht, fun k => ?_⟩
    calc (returned (machine st numWorkers) st s (e :: es)).filter (fun r => r.clientId = k) ++
          t.pending k
        = (s.returnedBy st e).filter (fun r => r.clientId = k) ++
            ((returned (machine st numWorkers) st u es).filter (fun r => r.clientId = k) ++
              t.pending k) := by
          rw [returned_cons hnext, List.filter_append, List.append_assoc]
      _ = (s.pending k ++ (enqueuedBy e).filter (fun r => r.clientId = k)) ++
            (enqueued es).filter (fun r => r.clientId = k) := by
          rw [hrest, ← List.append_assoc, hstep]
      _ = s.pending k ++ (enqueued (e :: es)).filter (fun r => r.clientId = k) := by
          rw [enqueued, enqueued, List.flatMap_cons, List.filter_append, List.append_assoc]

/-- As many calls of `schedule` as there are requests go through. -/
theorem schedule_run {st : Strategy} (numWorkers : ℕ) {s : Scheduler κ} (h : Sound st s) {n : ℕ}
    (hn : n ≤ s.requestCount) :
    ∃ t, (machine st numWorkers).RunIf KeepsClients s (List.replicate n .schedule) t ∧
      (machine st numWorkers).run s (List.replicate n .schedule) = some t ∧
      t.requestCount = s.requestCount - n := by
  induction n generalizing s with
  | zero => exact ⟨s, .nil s, rfl, rfl⟩
  | succ n ih =>
    obtain ⟨r, u, rest, hrun, hu, -, hcount, -⟩ := h.schedule (by omega)
    have hnext : (machine st numWorkers).next s .schedule = some u := by
      simp only [machine, next, if_neg (show ¬ s.requestCount = 0 by omega), hrun]
      rfl
    obtain ⟨t, hruns, hrunt, htcount⟩ := ih hu (by omega)
    refine ⟨t, .cons hnext trivial hruns, ?_, by omega⟩
    rw [List.replicate_succ, Machine.run_cons _ hnext]
    exact hrunt

/-- What is returned by a run that goes on until nothing is pending. -/
def drained (st : Strategy) (numWorkers : ℕ) (es : List Event) (s : Scheduler κ) : List Request :=
  returned (machine st numWorkers) st (init numWorkers : Scheduler κ)
    (es ++ List.replicate s.requestCount .schedule)

theorem drained_perm {st : Strategy} {numWorkers : ℕ} {es : List Event} {s : Scheduler κ}
    (hrun : (machine st numWorkers).RunIf KeepsClients (init numWorkers : Scheduler κ) es s) :
    (drained st numWorkers es s).Perm (enqueued es) := by
  obtain ⟨hs, -⟩ := delivery_run hrun (sound_init st numWorkers)
  obtain ⟨t, hrunt, -, hcount⟩ := schedule_run numWorkers hs le_rfl
  obtain ⟨ht, hall⟩ := delivery_run (hrun.append hrunt) (sound_init st numWorkers)
  have hzero : enqueued (List.replicate s.requestCount Event.schedule) = [] := by
    simp [enqueued, enqueuedBy]
  refine perm_of_filter_eq Request.clientId fun k => ?_
  have hk := hall k
  rw [pending_eq_nil_of_count ht.map (by omega), List.append_nil] at hk
  rw [drained, hk, enqueued, List.flatMap_append, ← enqueued, ← enqueued, hzero, List.append_nil]
  simp [init, pending]

/-- No request is lost, duplicated or overtaken by a later one of its client;
`requestCount` calls deliver everything that is pending; and once drained, both
strategies have delivered the same requests. -/
theorem delivery {st : Strategy} {numWorkers : ℕ} {es : List Event} {s : Scheduler κ}
    (hrun : (machine st numWorkers).RunIf KeepsClients (init numWorkers) es s) :
    (∀ k, (returned (machine st numWorkers) st (init numWorkers : Scheduler κ) es).filter
        (fun r => r.clientId = k) ++ s.pending k =
      (enqueued es).filter (fun r => r.clientId = k)) ∧
    (∀ n ≤ s.requestCount, ∃ t, (machine st numWorkers).run s (List.replicate n .schedule) =
      some t ∧ t.requestCount = s.requestCount - n) ∧
    (∀ t, (machine st numWorkers).run s (List.replicate s.requestCount .schedule) = some t →
      t.requestCount = 0 ∧ ∀ k, t.pending k = [] ∧
        (returned (machine st numWorkers) st s
          (List.replicate s.requestCount .schedule)).filter (fun r => r.clientId = k) =
            s.pending k) ∧
    ∀ (st' : Strategy) (numWorkers' : ℕ) (es' : List Event) (s' : Scheduler κ),
      (machine st' numWorkers').RunIf KeepsClients (init numWorkers') es' s' →
      (enqueued es').Perm (enqueued es) →
      (drained st' numWorkers' es' s').Perm (drained st numWorkers es s) := by
  obtain ⟨hs, hlaw⟩ := delivery_run hrun (sound_init st numWorkers)
  refine ⟨fun k => ?_, fun n hn => ?_, fun t ht => ?_, fun st' numWorkers' es' s' hrun' hperm => ?_⟩
  · rw [hlaw k]
    simp [init, pending]
  · obtain ⟨t, -, hrunt, hcount⟩ := schedule_run numWorkers hs hn
    exact ⟨t, hrunt, hcount⟩
  · obtain ⟨t', hrunt, heq, hcount⟩ := schedule_run numWorkers hs le_rfl
    obtain rfl : t' = t := Option.some.inj (heq.symm.trans ht)
    obtain ⟨ht', hdrain⟩ := delivery_run hrunt hs
    have hempty := pending_eq_nil_of_count ht'.map (by omega)
    refine ⟨by omega, fun k => ⟨hempty k, ?_⟩⟩
    have hk := hdrain k
    rw [hempty k, List.append_nil] at hk
    rw [hk]
    simp [enqueued, enqueuedBy]
  · exact (drained_perm hrun').trans (hperm.trans (drained_perm hrun).symm)

/-- Two clients with three requests, one of them returned. -/
theorem delivery_two_clients :
    ∃ s : Scheduler ℚ, (machine .credit 4).runIf KeepsClients (init 4) twoClients = some s ∧
      s.requestCount = 2 ∧
      ∃ t, (machine .credit 4).run s (List.replicate 2 .schedule) = some t ∧ t.requestCount = 0 := by
  have hcount : ((machine .credit 4).runIf KeepsClients (init 4 : Scheduler ℚ) twoClients).map
      requestCount = some 2 := by decide +kernel
  obtain ⟨s, hs, hs2⟩ := Option.map_eq_some_iff.mp hcount
  obtain ⟨t, ht, htc⟩ := (delivery (Machine.RunIf.of_runIf hs)).2.1 2 (by omega)
  exact ⟨s, hs, hs2, t, ht, by omega⟩

end Arithmetic

end Scheduler

end TinyFile
