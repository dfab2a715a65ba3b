import TinyFile.CreditInvariant

/-!
# The scheduler as a machine

Runs are lists of the four operations. The preconditions are those of the
callers: a client registers under an id that is not taken, and a worker passes
the wait of `schedule` only while `requestCount` is not zero. A step that throws
or is undefined has no successor.
-/
namespace TinyFile.Scheduler

variable {κ : Type}

/-- What registering a client leaves alone. -/
structure SameQueues (s s' : Scheduler κ) : Prop where
  underQueue : s'.underQueue = s.underQueue
  overQueue : s'.overQueue = s.overQueue

/-- A fresh client enters idle. -/
theorem QueueInvariant.enter {s s' : Scheduler κ} (h : QueueInvariant ∅ s) {k : ℤ} {c : Credit κ}
    (hk : k ∉ s.registered) (hkey : c.clientId = k) (hidle : c.type = .IDLE)
    (hq : SameQueues s s')
    (hmem : ∀ j, j ∈ s'.registered ↔ j = k ∨ j ∈ s.registered)
    (hfind : ∀ j, s'.clientCredits.find? j = if j = k then some c else s.clientCredits.find? j) :
    QueueInvariant ∅ s' where
  under_nodup := hq.underQueue ▸ h.under_nodup
  over_nodup := hq.overQueue ▸ h.over_nodup
  under_registered := fun j hj =>
    (hmem j).mpr (Or.inr (h.under_registered j (hq.underQueue ▸ hj)))
  over_registered := fun j hj => (hmem j).mpr (Or.inr (h.over_registered j (hq.overQueue ▸ hj)))
  key := by
    intro j c' hj
    rw [hfind] at hj
    split_ifs at hj with he
    · cases hj
      exact hkey.trans he.symm
    · exact h.key j c' hj
  placed := by
    intro j c' hj hout
    rw [hfind] at hj
    split_ifs at hj with he
    · cases hj
      refine ⟨by simp [hidle], by simp [hidle], fun _ => ?_⟩
      rw [hkey, hq.underQueue, hq.overQueue]
      exact ⟨fun hm => hk (h.under_registered k hm), fun hm => hk (h.over_registered k hm)⟩
    · have hp := h.placed j c' hj hout
      refine ⟨?_, ?_, ?_⟩ <;> rw [hq.underQueue, hq.overQueue]
      exacts [hp.ofUnder, hp.ofOver, hp.ofIdle]
  absent := fun j hj => absurd hj (Set.notMem_empty j)

/-- A client that is in neither queue leaves. -/
theorem QueueInvariant.leave {s : Scheduler κ} (h : QueueInvariant ∅ s) {k : ℤ}
    (hk : k ∉ s.underQueue.values ∧ k ∉ s.overQueue.values) : QueueInvariant ∅ (s.without k) where
  under_nodup := h.under_nodup
  over_nodup := h.over_nodup
  under_registered := by
    intro j hj
    rw [registered, without, UnorderedMap.mem_keys_erase]
    exact ⟨h.under_registered j hj, fun he => hk.1 (he ▸ hj)⟩
  over_registered := by
    intro j hj
    rw [registered, without, UnorderedMap.mem_keys_erase]
    exact ⟨h.over_registered j hj, fun he => hk.2 (he ▸ hj)⟩
  key := by
    intro j c hj
    rw [without, UnorderedMap.find?_erase] at hj
    split_ifs at hj
    exact h.key j c hj
  placed := by
    intro j c hj hout
    rw [without, UnorderedMap.find?_erase] at hj
    split_ifs at hj
    have hp := h.placed j c hj hout
    exact ⟨hp.ofUnder, hp.ofOver, hp.ofIdle⟩
  absent := fun j hj => absurd hj (Set.notMem_empty j)

theorem pending_congr {s s' : Scheduler κ} (h : s'.requestMap = s.requestMap) (k : ℤ) :
    s'.pending k = s.pending k := by simp only [pending, h]

/-- Registering a client touches no request. -/
theorem MapInvariant.enter {s s' : Scheduler κ} (h : MapInvariant s)
    (hreg : ∀ j ∈ s.registered, j ∈ s'.registered) (hmap : s'.requestMap = s.requestMap)
    (hcount : s'.requestCount = s.requestCount) : MapInvariant s' where
  registered := fun j hj => hreg j (h.registered j (hmap ▸ hj))
  owner := fun j r hr => h.owner j r (pending_congr hmap j ▸ hr)
  count := by rw [hcount, h.count, totalPending, totalPending, hmap]

theorem queueInvariant_init (numWorkers : ℕ) :
    QueueInvariant ∅ (init numWorkers : Scheduler κ) where
  under_nodup := by simp [init]
  over_nodup := by simp [init]
  under_registered := by simp [init]
  over_registered := by simp [init]
  key := by simp [init]
  placed := by simp [init]
  absent := by simp

theorem mapInvariant_init (numWorkers : ℕ) : MapInvariant (init numWorkers : Scheduler κ) where
  registered := by simp [init]
  owner := by simp [init, pending]
  count := by simp [init, totalPending]

theorem creditInvariant_init (numWorkers : ℕ) :
    CreditInvariant (init numWorkers : Scheduler κ) where
  queues := queueInvariant_init numWorkers
  map := mapInvariant_init numWorkers
  idle_iff := by simp [init]
  iterator := rfl

theorem mem_registered_registerClient [IntCast κ] {s : Scheduler κ} {k priority : ℤ}
    {p : Placement ℤ} {j : ℤ} :
    j ∈ (s.registerClient k priority p).registered ↔ j = k ∨ j ∈ s.registered :=
  UnorderedMap.mem_keys_emplace

theorem find?_registerClient [IntCast κ] {s : Scheduler κ} {k : ℤ} (hk : k ∉ s.registered)
    (priority : ℤ) (p : Placement ℤ) (j : ℤ) :
    (s.registerClient k priority p).clientCredits.find? j =
      if j = k then some ⟨k, priority, priority, .IDLE, none⟩ else s.clientCredits.find? j :=
  UnorderedMap.find?_emplace hk _ p j

theorem CreditInvariant.registerClient [IntCast κ] {s : Scheduler κ} (h : CreditInvariant s)
    {k : ℤ} (hk : k ∉ s.registered) (priority : ℤ) (p : Placement ℤ) :
    CreditInvariant (s.registerClient k priority p) where
  queues := h.queues.enter hk rfl rfl ⟨rfl, rfl⟩ (fun _ => mem_registered_registerClient)
    (find?_registerClient hk priority p)
  map := h.map.enter (fun _ hj => mem_registered_registerClient.mpr (Or.inr hj)) rfl rfl
  idle_iff := by
    intro j c hj
    rw [find?_registerClient hk] at hj
    have hsame : (s.registerClient k priority p).pending j = s.pending j := rfl
    rw [hsame]
    split_ifs at hj with he
    · cases hj
      have hnot : k ∉ s.requestMap.keys := fun hm => hk (h.map.registered k hm)
      simp [he, pending_eq_nil_of_notMem hnot]
    · exact h.idle_iff j c hj
  iterator := h.iterator

/-- `deregisterClient` of a registered client, as a state. -/
theorem deregisterClient_eq {s : Scheduler κ} {k : ℤ} (hk : k ∈ s.registered) :
    s.deregisterClient k = .ok (s.without k) := by
  obtain ⟨c, hc⟩ := UnorderedMap.mem_keys_iff.mp hk
  simp only [deregisterClient, hc, without]

/-- An idle client may leave. -/
theorem CreditInvariant.deregisterClient {s t : Scheduler κ} (h : CreditInvariant s) {k : ℤ}
    {c : Credit κ} (hk : s.clientCredits.find? k = some c) (hidle : c.type = .IDLE)
    (ht : s.deregisterClient k = .ok t) : CreditInvariant t := by
  rw [deregisterClient_eq (UnorderedMap.mem_keys_of_find? hk)] at ht
  cases ht
  have hnot := (h.queues.placed k c hk (Set.notMem_empty k)).ofIdle hidle
  rw [h.queues.key k c hk] at hnot
  obtain ⟨hmap, hpending⟩ := h.map.leave ((h.idle_iff k c hk).mp hidle)
  refine ⟨h.queues.leave hnot, hmap, ?_, ?_⟩
  · intro j c' hj
    rw [hpending]
    rw [without, UnorderedMap.find?_erase] at hj
    split_ifs at hj
    exact h.idle_iff j c' hj
  · simp [without, h.iterator, Cursor.afterErase]

section Sign

variable [Zero κ] [LT κ] [DecidableLT κ]

theorem registered_of_enqueue_ok {s s' : Scheduler κ} {k requestId : ℤ} {fileSize : ℕ}
    {p : Placement ℤ} (h : s.enqueue k requestId fileSize p = (.ok (), s')) :
    ∃ c, s.clientCredits.find? k = some c := by
  cases hf : s.clientCredits.find? k with
  | none => simp [enqueue, hf] at h
  | some c => exact ⟨c, rfl⟩

theorem CreditInvariant.enqueue {s s' : Scheduler κ} (h : CreditInvariant s) {k requestId : ℤ}
    {fileSize : ℕ} {p : Placement ℤ} (hrun : s.enqueue k requestId fileSize p = (.ok (), s')) :
    CreditInvariant s' := by
  obtain ⟨c, hc⟩ := registered_of_enqueue_ok hrun
  obtain ⟨s₁, hrun₁, hqueues, -, hkeys, hit, hcount, -, hpending, hmap, -, -, c', hc', hfind⟩ :=
    enqueue_spec h.queues hc requestId fileSize p
  obtain rfl : s₁ = s' := (Prod.mk.inj (hrun₁.symm.trans hrun)).2
  refine ⟨hqueues, h.map.push (UnorderedMap.mem_keys_of_find? hc) rfl hmap hkeys hcount, ?_, ?_⟩
  · intro j cj hj
    rw [hfind] at hj
    rw [hpending]
    split_ifs at hj ⊢ with he
    · cases hj
      have hbusy : c'.type ≠ .IDLE := by
        rw [hc'.2.2.2]
        split_ifs with hidle
        · exact queueType_ne_idle _
        · exact hidle
      simp [hbusy]
    · exact h.idle_iff j cj hj
  · rw [hit, h.iterator]
    cases p <;> rfl

end Sign

section Arithmetic

variable [Add κ] [Sub κ] [Mul κ] [Div κ] [NatCast κ] [Zero κ] [LT κ] [DecidableLT κ]

/-- A worker that passes the wait is served, and the invariant holds again. -/
theorem CreditInvariant.scheduleCredit {s : Scheduler κ} (h : CreditInvariant s)
    (hpos : 0 < s.requestCount) :
    ∃ r s', s.scheduleCredit = .ok (r, s') ∧ r.clientId ∈ s.registered ∧
      (s.pending r.clientId).head? = some r ∧ CreditInvariant s' := by
  obtain ⟨k, q, r, rest, s', -, hreg, hp, hrun, hqueues, hserved, hcount⟩ :=
    scheduleCredit_spec h hpos
  have hr : r.clientId = k := h.map.owner k r (hp ▸ List.mem_cons_self)
  obtain ⟨hmap, hpending⟩ := h.map.pop hp rfl hserved.requestMap hserved.keys hcount
  refine ⟨r, s', hrun, hr ▸ hreg, by simp [hr, hp], hqueues, hmap, ?_, ?_⟩
  · intro j cj hj
    have hjreg : j ∈ s.registered := by
      rw [registered, ← hserved.keys]
      exact UnorderedMap.mem_keys_of_find? hj
    obtain ⟨c, hc⟩ := UnorderedMap.mem_keys_iff.mp hjreg
    rw [hpending]
    split_ifs with he
    · subst he
      obtain ⟨c', hc', hcharged⟩ := hserved.self c hc
      obtain rfl : c' = cj := Option.some.inj (hc'.symm.trans hj)
      rw [hcharged.type]
      split_ifs with hrest
      · simp [hrest]
      · simp [hrest, queueType_ne_idle]
    · obtain ⟨c', hc', hreq⟩ := hserved.others j c he hc
      obtain rfl : c' = cj := Option.some.inj (hc'.symm.trans hj)
      rw [hreq.type, ← h.idle_iff j c hc]
      split_ifs with hidle
      · simp [hidle]
      · simp [hidle, queueType_ne_idle]
  · rw [hserved.requestMapIterator, h.iterator]

variable [IntCast κ]

/-- One operation, if its precondition holds and it returns. -/
def next (st : Strategy) (s : Scheduler κ) : Event → Option (Scheduler κ)
  | .registerClient clientId priority p =>
      if clientId ∈ s.registered then none else some (s.registerClient clientId priority p)
  | .enqueue clientId requestId fileSize p =>
      match s.enqueue clientId requestId fileSize p with
      | (.ok _, s') => some s'
      | (.error _, _) => none
  | .schedule => if s.requestCount = 0 then none else (s.schedule st).toOption.map Prod.snd
  | .deregisterClient clientId => (s.deregisterClient clientId).toOption

def machine (st : Strategy) (numWorkers : ℕ) : Machine (Scheduler κ) Event where
  start := init numWorkers
  next := next st

theorem enqueue_of_next {st : Strategy} {s t : Scheduler κ} {k requestId : ℤ} {fileSize : ℕ}
    {p : Placement ℤ} (h : next st s (.enqueue k requestId fileSize p) = some t) :
    s.enqueue k requestId fileSize p = (.ok (), t) := by
  simp only [next] at h
  split at h
  · next heq => rw [heq, Option.some.inj h]
  · cases h

theorem deregisterClient_of_next {st : Strategy} {s t : Scheduler κ} {k : ℤ}
    (h : next st s (.deregisterClient k) = some t) :
    s.deregisterClient k = .ok t ∧ k ∈ s.registered := by
  simp only [next] at h
  cases hrun : s.deregisterClient k with
  | error e => simp [hrun, Except.toOption] at h
  | ok t' =>
    refine ⟨by simpa [hrun, Except.toOption] using h, ?_⟩
    cases hf : s.clientCredits.find? k with
    | none => simp [deregisterClient, hf] at hrun
    | some c => exact UnorderedMap.mem_keys_of_find? hf

theorem schedule_of_next {st : Strategy} {s t : Scheduler κ} (h : next st s .schedule = some t) :
    0 < s.requestCount ∧ ∃ r, s.schedule st = .ok (r, t) := by
  simp only [next] at h
  split at h
  · cases h
  · next hcount =>
    refine ⟨Nat.pos_of_ne_zero hcount, ?_⟩
    cases hrun : s.schedule st with
    | error e => simp [hrun, Except.toOption] at h
    | ok rt =>
      obtain ⟨r, t'⟩ := rt
      exact ⟨r, by simpa [hrun, Except.toOption] using h⟩

/-- Every operation preserves the invariant, a deregistration if the client is idle. -/
theorem CreditInvariant.next {s t : Scheduler κ} (h : CreditInvariant s) {e : Event}
    (ht : next .credit s e = some t)
    (hidle : ∀ k c, e = .deregisterClient k → s.clientCredits.find? k = some c → c.type = .IDLE) :
    CreditInvariant t := by
  cases e with
  | registerClient k priority p =>
    simp only [Scheduler.next] at ht
    split at ht
    · cases ht
    · next hk =>
      cases ht
      exact h.registerClient hk priority p
  | enqueue k requestId fileSize p => exact h.enqueue (enqueue_of_next ht)
  | schedule =>
    obtain ⟨hpos, r, hrun⟩ := schedule_of_next ht
    obtain ⟨r', t', hrun', -, -, hinv⟩ := h.scheduleCredit hpos
    obtain rfl : t' = t := (Prod.mk.inj (Except.ok.inj (hrun'.symm.trans hrun))).2
    exact hinv
  | deregisterClient k =>
    obtain ⟨hrun, hk⟩ := deregisterClient_of_next ht
    obtain ⟨c, hc⟩ := UnorderedMap.mem_keys_iff.mp hk
    exact h.deregisterClient hc (hidle k c rfl hc) hrun

/-- Runs without a deregistration, or with deregistrations of idle clients only. -/
theorem creditInvariant_of_reachable {numWorkers : ℕ} {ok : Scheduler κ → Event → Prop}
    (hok : ∀ s k c, ok s (.deregisterClient k) → s.clientCredits.find? k = some c →
      c.type = .IDLE) {s : Scheduler κ}
    (h : (machine .credit numWorkers).ReachableIf ok s) : CreditInvariant s := by
  refine h.invariant (creditInvariant_init numWorkers) ?_
  intro s e t hs ht he
  exact hs.next ht (fun k c heq hc => hok s k c (heq ▸ he) hc)

/-- The redundant records of the credit scheduler agree in every reachable state,
so a worker that passes the wait always gets the first request of a client. -/
theorem credit_representation {numWorkers : ℕ} {s : Scheduler κ}
    (h : (machine .credit numWorkers).ReachableIf (fun _ e => ¬ e.IsDeregistration) s) :
    (∀ k c, s.clientCredits.find? k = some c →
      (c.type = .IDLE ↔ s.pending k = []) ∧
      (c.type = .UNDER ↔ s.underQueue.values.count k = 1 ∧ k ∉ s.overQueue.values ∧
        ∃ it, c.iterator = some it ∧ s.underQueue.Designates it k) ∧
      (c.type = .OVER ↔ s.overQueue.values.count k = 1 ∧ k ∉ s.underQueue.values ∧
        ∃ it, c.iterator = some it ∧ s.overQueue.Designates it k)) ∧
    (∀ k, k ∈ s.underQueue.values ∨ k ∈ s.overQueue.values → k ∈ s.registered) ∧
    s.requestCount = s.totalPending ∧
    (0 < s.requestCount →
      (s.underQueue.values ≠ [] ∨ s.overQueue.values ≠ []) ∧
      ∃ r s', s.schedule .credit = .ok (r, s') ∧ r.clientId ∈ s.registered ∧
        (s.pending r.clientId).head? = some r) := by
  have hinv : CreditInvariant s :=
    creditInvariant_of_reachable (fun _ _ _ hno _ => absurd trivial hno) h
  refine ⟨?_, ?_, hinv.map.count, ?_⟩
  · intro k c hk
    have hp := hinv.queues.placed k c hk (Set.notMem_empty k)
    have hkey := hinv.queues.key k c hk
    rw [← hkey]
    refine ⟨hkey ▸ hinv.idle_iff k c hk, ⟨?_, ?_⟩, ⟨?_, ?_⟩⟩
    · intro ht
      obtain ⟨⟨it, hit, hdes⟩, hover⟩ := hp.ofUnder ht
      exact ⟨List.count_eq_one_of_mem hinv.queues.under_nodup hdes.mem_values, hover, it, hit, hdes⟩
    · rintro ⟨hcount, hover, -⟩
      cases ht : c.type with
      | UNDER => rfl
      | OVER => exact absurd (hp.ofOver ht).1.choose_spec.2.mem_values hover
      | IDLE => exact absurd (List.count_pos_iff.mp (by omega)) (hp.ofIdle ht).1
    · intro ht
      obtain ⟨⟨it, hit, hdes⟩, hunder⟩ := hp.ofOver ht
      exact ⟨List.count_eq_one_of_mem hinv.queues.over_nodup hdes.mem_values, hunder, it, hit, hdes⟩
    · rintro ⟨hcount, hunder, -⟩
      cases ht : c.type with
      | UNDER => exact absurd (hp.ofUnder ht).1.choose_spec.2.mem_values hunder
      | OVER => rfl
      | IDLE => exact absurd (List.count_pos_iff.mp (by omega)) (hp.ofIdle ht).2
  · rintro k (hk | hk)
    · exact hinv.queues.under_registered k hk
    · exact hinv.queues.over_registered k hk
  · intro hpos
    obtain ⟨k, q, -, -, -, hq, -⟩ := scheduleCredit_spec hinv hpos
    obtain ⟨r, s', hrun, hreg, hhead, -⟩ := hinv.scheduleCredit hpos
    refine ⟨?_, r, s', hrun, hreg, hhead⟩
    by_contra hnone
    simp only [not_or, not_not] at hnone
    simp [hnone.1, hnone.2] at hq

/-- Two clients, three requests, one of them served. -/
def twoClients : List Event :=
  [.registerClient 0 64 (.splice 0), .registerClient 1 64 (.splice 0),
    .enqueue 0 0 100 (.splice 0), .enqueue 1 0 200 (.splice 0), .enqueue 0 1 300 (.splice 0),
    .schedule]

theorem credit_representation_two_clients :
    ∃ s : Scheduler ℚ, (machine .credit 4).runIf (fun _ e => ¬ e.IsDeregistration) (init 4)
        twoClients = some s ∧
      s.requestCount = 2 ∧ s.requestCount = s.totalPending ∧
      ∃ r s', s.schedule .credit = .ok (r, s') := by
  have hcount : ((machine .credit 4).runIf (fun _ e => ¬ e.IsDeregistration)
      (init 4 : Scheduler ℚ) twoClients).map requestCount = some 2 := by decide +kernel
  obtain ⟨s, hs, hs2⟩ := Option.map_eq_some_iff.mp hcount
  have hreach : (machine .credit 4).ReachableIf (fun _ e => ¬ e.IsDeregistration) s :=
    Machine.reachableIf_of_runIf hs
  obtain ⟨-, -, hsum, hserve⟩ := credit_representation hreach
  obtain ⟨-, r, s', hrun, -⟩ := hserve (by omega)
  exact ⟨s, hs, hs2, hsum, r, s', hrun⟩

end Arithmetic

end TinyFile.Scheduler
