import TinyFile.CreditQueue
import TinyFile.Machine

/-!
# The invariant of the credit scheduler

The scheduler as a machine over its four operations, and what each of them
preserves under the CREDIT strategy: the queue invariant, the agreement between
idle records and empty request lists, and the request counter.
-/
namespace TinyFile.Scheduler

variable {κ : Type}

inductive Event where
  | registerClient (clientId priority : ℤ) (p : Placement ℤ)
  | enqueue (clientId requestId : ℤ) (fileSize : ℕ) (p : Placement ℤ)
  | schedule
  | deregisterClient (clientId : ℤ)

def Event.IsDeregistration : Event → Prop
  | .deregisterClient _ => True
  | _ => False

instance (e : Event) : Decidable e.IsDeregistration :=
  match e with
  | .registerClient .. => isFalse id
  | .enqueue .. => isFalse id
  | .schedule => isFalse id
  | .deregisterClient _ => isTrue trivial

/-- The request map and the counter, whatever the strategy. -/
structure MapInvariant (s : Scheduler κ) : Prop where
  registered : ∀ k ∈ s.requestMap.keys, k ∈ s.registered
  owner : ∀ k, ∀ r ∈ s.pending k, r.clientId = k
  count : s.requestCount = s.totalPending

structure CreditInvariant (s : Scheduler κ) : Prop where
  queues : QueueInvariant ∅ s
  map : MapInvariant s
  idle_iff : ∀ k c, s.clientCredits.find? k = some c → (c.type = .IDLE ↔ s.pending k = [])
  iterator : s.requestMapIterator = .atEnd

theorem pending_eq_nil_of_notMem {s : Scheduler κ} {k : ℤ} (h : k ∉ s.requestMap.keys) :
    s.pending k = [] := by simp [pending, UnorderedMap.find?_eq_none_iff.mpr h]

theorem find?_of_pending {s : Scheduler κ} {k : ℤ} (h : s.pending k ≠ []) :
    s.requestMap.find? k = some (s.pending k) := by
  cases hf : s.requestMap.find? k with
  | none => simp [pending, hf] at h
  | some l => simp [pending, hf]

theorem MapInvariant.registered_of_pending {s : Scheduler κ} (h : MapInvariant s) {k : ℤ}
    (hk : s.pending k ≠ []) : k ∈ s.registered :=
  h.registered k (UnorderedMap.mem_keys_of_find? (find?_of_pending hk))

/-- A positive counter means that some registered client has a request. -/
theorem MapInvariant.exists_pending {s : Scheduler κ} (h : MapInvariant s)
    (hpos : 0 < s.requestCount) : ∃ k ∈ s.registered, s.pending k ≠ [] := by
  obtain ⟨k, l, hk, hl⟩ := UnorderedMap.exists_of_total_pos (h.count ▸ hpos)
  have hp : s.pending k ≠ [] := by
    intro hnil
    simp only [pending, hk, Option.getD_some] at hnil
    simp [hnil] at hl
  exact ⟨k, h.registered_of_pending hp, hp⟩

/-- An idle client may be regarded as out. -/
theorem QueueInvariant.detach {out : Set ℤ} {s : Scheduler κ} (h : QueueInvariant out s) {k : ℤ}
    (hk : k ∉ s.underQueue.values ∧ k ∉ s.overQueue.values) : QueueInvariant (insert k out) s where
  under_nodup := h.under_nodup
  over_nodup := h.over_nodup
  under_registered := h.under_registered
  over_registered := h.over_registered
  key := h.key
  placed := fun j c hj hout => h.placed j c hj (fun hm => hout (Set.mem_insert_of_mem _ hm))
  absent := fun j hj => (Set.mem_insert_iff.mp hj).elim (fun he => he ▸ hk) (h.absent j)

/-- The queue invariant only looks at the credits and the two queues. -/
theorem QueueInvariant.congr {out : Set ℤ} {s s' : Scheduler κ} (h : QueueInvariant out s)
    (hcredits : s'.clientCredits = s.clientCredits) (hunder : s'.underQueue = s.underQueue)
    (hover : s'.overQueue = s.overQueue) : QueueInvariant out s' where
  under_nodup := hunder ▸ h.under_nodup
  over_nodup := hover ▸ h.over_nodup
  under_registered := by simpa only [registered, hcredits, hunder] using h.under_registered
  over_registered := by simpa only [registered, hcredits, hover] using h.over_registered
  key := hcredits ▸ h.key
  placed := by
    intro k c hk hout
    rw [hcredits] at hk
    have hp := h.placed k c hk hout
    exact ⟨hunder ▸ hover ▸ hp.ofUnder, hunder ▸ hover ▸ hp.ofOver, hunder ▸ hover ▸ hp.ofIdle⟩
  absent := by simpa only [hunder, hover] using h.absent

/-- A client waits in one of the queues exactly when its record is not idle. -/
theorem QueueInvariant.mem_iff {s : Scheduler κ} (h : QueueInvariant ∅ s) {k : ℤ} {c : Credit κ}
    (hk : s.clientCredits.find? k = some c) :
    k ∈ s.underQueue.values ++ s.overQueue.values ↔ c.type ≠ .IDLE := by
  have hp := h.placed k c hk (Set.notMem_empty k)
  have hkey := h.key k c hk
  rw [List.mem_append]
  cases ht : c.type with
  | UNDER =>
    obtain ⟨⟨it, -, hdes⟩, -⟩ := hp.ofUnder ht
    simp [hkey ▸ hdes.mem_values]
  | OVER =>
    obtain ⟨⟨it, -, hdes⟩, -⟩ := hp.ofOver ht
    simp [hkey ▸ hdes.mem_values]
  | IDLE =>
    have := hp.ofIdle ht
    rw [hkey] at this
    simp [this]

theorem QueueInvariant.mem_registered {s : Scheduler κ} {out : Set ℤ} (h : QueueInvariant out s)
    {k : ℤ} (hk : k ∈ s.underQueue.values ++ s.overQueue.values) : k ∈ s.registered :=
  (List.mem_append.mp hk).elim (h.under_registered k) (h.over_registered k)

section Sign

variable [Zero κ] [LT κ] [DecidableLT κ]

/-- `creditEnqueue` of a registered client: an idle record is queued, any other
record stays where it is. -/
theorem creditEnqueue_spec {s : Scheduler κ} (h : QueueInvariant ∅ s) {k : ℤ} {c : Credit κ}
    (hk : s.clientCredits.find? k = some c) :
    QueueInvariant ∅ (s.creditEnqueue c) ∧ SameRequests s (s.creditEnqueue c) ∧
      (s.creditEnqueue c).underQueue.values = s.underQueue.values ++
        (if c.type = .IDLE then landing (0 < c.credit) k else []) ∧
      (s.creditEnqueue c).overQueue.values = s.overQueue.values ++
        (if c.type = .IDLE then landing (¬ 0 < c.credit) k else []) ∧
      ∃ c', (c'.clientId = c.clientId ∧ c'.priority = c.priority ∧ c'.credit = c.credit ∧
          c'.type = if c.type = .IDLE then queueType c.credit else c.type) ∧
        ∀ j, (s.creditEnqueue c).clientCredits.find? j =
          if j = k then some c' else s.clientCredits.find? j := by
  have hkey := h.key k c hk
  have hreg : k ∈ s.registered := UnorderedMap.mem_keys_of_find? hk
  have hplaced := h.placed k c hk (Set.notMem_empty k)
  by_cases hidle : c.type = .IDLE
  · have hnot := hplaced.ofIdle hidle
    rw [hkey] at hnot
    obtain ⟨hq, hunder, hover, ⟨it, hfind⟩, hsame⟩ :=
      append_spec (h.detach hnot) hreg hkey (Set.mem_insert k ∅)
    simp only [creditEnqueue, hidle, if_true]
    refine ⟨?_, hsame, hunder, hover,
      { c with type := queueType c.credit, iterator := some it }, ⟨rfl, rfl, rfl, rfl⟩, hfind⟩
    rwa [Set.insert_sdiff_self_of_notMem (Set.notMem_empty k)] at hq
  · have hs : s.creditEnqueue c = s.store k c := by simp [creditEnqueue, hidle, hkey]
    simp only [hs, hidle, if_false, store_underQueue, store_overQueue, List.append_nil, true_and]
    exact ⟨h.store hreg hkey (fun _ => hplaced), sameRequests_store _ _ _, c,
      ⟨rfl, rfl, rfl, rfl⟩, find?_store hreg c⟩

/-- The request map after a push into the list of a client. -/
theorem push_spec (m : UnorderedMap ℤ (List Request)) (k : ℤ) (r : Request) (p : Placement ℤ) :
    (∀ j, (((m.emplace k [] p).modify k (fun l => l ++ [r])).find? j).getD [] =
        if j = k then (m.find? k).getD [] ++ [r] else (m.find? j).getD []) ∧
      (∀ j, j ∈ ((m.emplace k [] p).modify k (fun l => l ++ [r])).keys ↔ j = k ∨ j ∈ m.keys) ∧
      ((m.emplace k [] p).modify k (fun l => l ++ [r])).total List.length =
        m.total List.length + 1 := by
  by_cases hk : k ∈ m.keys
  · obtain ⟨l, hl⟩ := UnorderedMap.mem_keys_iff.mp hk
    rw [UnorderedMap.emplace_of_mem hk]
    refine ⟨?_, ?_, ?_⟩
    · intro j
      rw [UnorderedMap.find?_modify]
      split_ifs with hj
      · simp [hj, hl]
      · rfl
    · intro j
      rw [UnorderedMap.keys_modify]
      exact ⟨Or.inr, fun hj => hj.elim (fun he => he ▸ hk) id⟩
    · have := UnorderedMap.total_modify hl (fun l => l ++ [r]) List.length
      simp only [List.length_append, List.length_singleton] at this
      omega
  · have hnone := UnorderedMap.find?_eq_none_iff.mpr hk
    have hsome : (m.emplace k [] p).find? k = some [] := by
      rw [UnorderedMap.find?_emplace hk, if_pos rfl]
    refine ⟨?_, ?_, ?_⟩
    · intro j
      rw [UnorderedMap.find?_modify]
      split_ifs with hj
      · simp [hj, hsome, hnone]
      · rw [UnorderedMap.find?_emplace hk, if_neg hj]
    · intro j
      rw [UnorderedMap.keys_modify, UnorderedMap.mem_keys_emplace]
    · have h₁ := UnorderedMap.total_modify hsome (fun l => l ++ [r]) List.length
      have h₂ := UnorderedMap.total_emplace hk [] p List.length
      simp only [List.length_append, List.length_singleton, List.length_nil] at h₁ h₂
      omega

/-- `enqueue` for a registered client: it returns, its request comes last in the
client's list, and the counter follows. -/
theorem enqueue_spec {s : Scheduler κ} (hq : QueueInvariant ∅ s) {k : ℤ} {c : Credit κ}
    (hk : s.clientCredits.find? k = some c) (requestId : ℤ) (fileSize : ℕ) (p : Placement ℤ) :
    ∃ s', s.enqueue k requestId fileSize p = (.ok (), s') ∧ QueueInvariant ∅ s' ∧
      s'.numWorkers = s.numWorkers ∧ s'.clientCredits.keys = s.clientCredits.keys ∧
      s'.requestMapIterator = s.requestMapIterator.afterSubscript s.requestMap k p ∧
      s'.requestCount = s.requestCount + 1 ∧ s'.totalPending = s.totalPending + 1 ∧
      (∀ j, s'.pending j = if j = k then s.pending k ++ [⟨k, requestId, fileSize⟩]
        else s.pending j) ∧
      s'.requestMap = (s.requestMap.emplace k [] p).modify k
        (fun l => l ++ [⟨k, requestId, fileSize⟩]) ∧
      s'.underQueue.values = s.underQueue.values ++
        (if c.type = .IDLE then landing (0 < c.credit) k else []) ∧
      s'.overQueue.values = s.overQueue.values ++
        (if c.type = .IDLE then landing (¬ 0 < c.credit) k else []) ∧
      ∃ c', (c'.clientId = c.clientId ∧ c'.priority = c.priority ∧ c'.credit = c.credit ∧
          c'.type = if c.type = .IDLE then queueType c.credit else c.type) ∧
        ∀ j, s'.clientCredits.find? j = if j = k then some c' else s.clientCredits.find? j := by
  let m := (s.requestMap.emplace k [] p).modify k (fun l => l ++ [⟨k, requestId, fileSize⟩])
  let s₁ : Scheduler κ :=
    { s with
      requestMap := m
      requestMapIterator := s.requestMapIterator.afterSubscript s.requestMap k p
      requestCount := s.requestCount + 1 }
  obtain ⟨hpending, -, htotal⟩ := push_spec s.requestMap k ⟨k, requestId, fileSize⟩ p
  obtain ⟨hq', hsame, hunder, hover, c', hc', hfind⟩ :=
    creditEnqueue_spec (show QueueInvariant ∅ s₁ from hq.congr rfl rfl rfl) hk
  have hmap : (s₁.creditEnqueue c).requestMap = m := hsame.requestMap
  refine ⟨s₁.creditEnqueue c, ?_, hq', hsame.numWorkers, hsame.keys, hsame.requestMapIterator,
    hsame.requestCount, ?_, ?_, hmap, hunder, hover, c', hc', hfind⟩
  · simp only [enqueue, hk]
    rfl
  · rw [totalPending, hmap]
    exact htotal
  · intro j
    rw [pending, hmap]
    exact hpending j

end Sign

/-- What is left of a queue without `k` once the loop has visited every other
registered client: nothing. -/
theorem filter_visited_eq_nil {s : Scheduler κ} {k : ℤ} {q : List ℤ}
    (hq : ∀ j ∈ q, j ∈ s.registered) :
    (q.filter (fun j => j ≠ k)).filter (fun j => ¬ (j ∈ s.clientCredits.keys ∧ j ≠ k)) = [] := by
  rw [List.filter_eq_nil_iff]
  intro j hj
  obtain ⟨hjq, hjk⟩ := List.mem_filter.mp hj
  simp only [decide_eq_true_eq] at hjk
  have hjr : j ∈ s.clientCredits.keys := hq j hjq
  simp [hjk, hjr]

section Arithmetic

variable [Add κ] [Sub κ] [Mul κ] [Div κ] [NatCast κ] [Zero κ] [LT κ] [DecidableLT κ]

/-- What `creditSchedule` does to the record of the served client. -/
structure Charged (s : Scheduler κ) (fileSize : ℕ) (rest : List Request) (c c' : Credit κ) :
    Prop where
  clientId : c'.clientId = c.clientId
  priority : c'.priority = c.priority
  credit : c'.credit = s.charge fileSize c
  type : c'.type = if rest = [] then .IDLE else queueType (s.charge fileSize c)

/-- What serving the request `r` of client `k` does to everything but the
counter: both queues are rebuilt in the iteration order of `clientCredits`, and
the served client comes last if it still waits. -/
structure Served (s : Scheduler κ) (k : ℤ) (r : Request) (rest : List Request)
    (s' : Scheduler κ) : Prop where
  requestMap : s'.requestMap = s.requestMap.modify k (fun _ => rest)
  numWorkers : s'.numWorkers = s.numWorkers
  requestMapIterator : s'.requestMapIterator = s.requestMapIterator
  keys : s'.clientCredits.keys = s.clientCredits.keys
  underQueue : ∀ c, s.clientCredits.find? k = some c → s'.underQueue.values =
    s.clientCredits.keys.filter (fun j => j ≠ k ∧ s.waitsUnder r.fileSize j) ++
      (if rest = [] then [] else landing (0 < s.charge r.fileSize c) k)
  overQueue : ∀ c, s.clientCredits.find? k = some c → s'.overQueue.values =
    s.clientCredits.keys.filter (fun j => j ≠ k ∧ s.waitsOver r.fileSize j) ++
      (if rest = [] then [] else landing (¬ 0 < s.charge r.fileSize c) k)
  self : ∀ c, s.clientCredits.find? k = some c →
    ∃ c', s'.clientCredits.find? k = some c' ∧ Charged s r.fileSize rest c c'
  others : ∀ j c, j ≠ k → s.clientCredits.find? j = some c →
    ∃ c', s'.clientCredits.find? j = some c' ∧ Requeued s r.fileSize c c'

/-- `creditSchedule` of a waiting client up to its last statement, which puts the
served client back: the loop has queued all others again in the iteration order
of `clientCredits`. -/
theorem creditSchedule_loop {s : Scheduler κ} (h : QueueInvariant ∅ s) {k : ℤ} {c : Credit κ}
    (hk : s.clientCredits.find? k = some c) (htype : c.type ≠ .IDLE) {r : Request}
    {rest : List Request} (hpending : s.pending k = r :: rest) :
    ∃ s₂ : Scheduler κ,
      s.creditSchedule c = .ok (r, if rest ≠ [] then
          s₂.append { c with credit := s.charge r.fileSize c }
        else s₂.store k { c with credit := s.charge r.fileSize c, type := .IDLE }) ∧
      QueueInvariant (insert k ∅) s₂ ∧
      SameRequests { s with requestMap := s.requestMap.modify k (fun _ => rest) } s₂ ∧
      s₂.underQueue.values =
        s.clientCredits.keys.filter (fun j => j ≠ k ∧ s.waitsUnder r.fileSize j) ∧
      s₂.overQueue.values =
        s.clientCredits.keys.filter (fun j => j ≠ k ∧ s.waitsOver r.fileSize j) ∧
      ∀ j cj, j ≠ k → s.clientCredits.find? j = some cj →
        ∃ cj', s₂.clientCredits.find? j = some cj' ∧ Requeued s r.fileSize cj cj' := by
  have hkey := h.key k c hk
  let s₀ : Scheduler κ := { s with requestMap := s.requestMap.modify k (fun _ => rest) }
  have h₀ : QueueInvariant ∅ s₀ := h.congr rfl rfl rfl
  obtain ⟨s₁, hdeq, h₁, hunder₁, hover₁, hcredits₁, hsame₁⟩ :=
    creditDequeue_spec h₀ c hk (Set.notMem_empty k) htype rfl rfl
  have hout : ∀ j ∈ s₁.clientCredits.keys, j ≠ k → j ∉ (insert k ∅ : Set ℤ) := by
    intro j _ hne hm
    exact (Set.mem_insert_iff.mp hm).elim hne (Set.notMem_empty j)
  obtain ⟨s₂, hloop, h₂, hsame₂, hunder₂, hover₂, hvisited₂, -⟩ :=
    requeueOthers_spec r.fileSize h₁ s₁.clientCredits.nodup_keys
      (fun _ hj => hj) hout
  have hkeys₁ : s₁.clientCredits.keys = s.clientCredits.keys := by rw [hcredits₁]
  have hwu : ∀ j, s₁.waitsUnder r.fileSize j = s.waitsUnder r.fileSize j := fun j =>
    waitsUnder_congr hsame₁.numWorkers r.fileSize (by rw [hcredits₁])
  have hwo : ∀ j, s₁.waitsOver r.fileSize j = s.waitsOver r.fileSize j := fun j =>
    waitsOver_congr hsame₁.numWorkers r.fileSize (by rw [hcredits₁])
  have hworkers : s₂.numWorkers = s.numWorkers := hsame₂.numWorkers.trans hsame₁.numWorkers
  have hcharge : s₂.charge r.fileSize c = s.charge r.fileSize c := by simp only [charge, hworkers]
  refine ⟨s₂, ?_, h₂, hsame₁.trans hsame₂, ?_, ?_, fun j cj hne hj => ?_⟩
  · rw [← hcharge]
    subst hkey
    simp only [creditSchedule, hpending]
    rw [hdeq]
    simp only [bind, Except.bind]
    rw [hloop]
    by_cases hrest : rest = [] <;> simp [hrest] <;> rfl
  · rw [hunder₂, hunder₁, hkeys₁, filter_visited_eq_nil h.under_registered, List.nil_append]
    simp only [hwu]
  · rw [hover₂, hover₁, hkeys₁, filter_visited_eq_nil h.over_registered, List.nil_append]
    simp only [hwo]
  · have hmem : j ∈ s₁.clientCredits.keys := hkeys₁ ▸ UnorderedMap.mem_keys_of_find? hj
    obtain ⟨c₀, c', hc₀, hc', hreq⟩ := hvisited₂ j hmem hne
    rw [hcredits₁] at hc₀
    obtain rfl : c₀ = cj := Option.some.inj (hc₀.symm.trans hj)
    have hg := gain_congr hsame₁.numWorkers r.fileSize c₀
    exact ⟨c', hc', hreq.clientId, hreq.priority, hreq.credit.trans hg, hg ▸ hreq.type⟩

/-- `creditSchedule` of a waiting client. -/
theorem creditSchedule_spec {s : Scheduler κ} (h : QueueInvariant ∅ s) {k : ℤ} {c : Credit κ}
    (hk : s.clientCredits.find? k = some c) (htype : c.type ≠ .IDLE) {r : Request}
    {rest : List Request} (hpending : s.pending k = r :: rest) :
    ∃ s', s.creditSchedule c = .ok (r, s') ∧ QueueInvariant ∅ s' ∧ Served s k r rest s' ∧
      s'.requestCount = s.requestCount := by
  have hkey := h.key k c hk
  obtain ⟨s₂, hrun, h₂, hsame, hunder, hover, hothers⟩ := creditSchedule_loop h hk htype hpending
  have hreg₂ : k ∈ s₂.registered := by
    rw [registered, hsame.keys]
    exact UnorderedMap.mem_keys_of_find? hk
  let c₂ : Credit κ := { c with credit := s.charge r.fileSize c }
  have hsole : ∀ c', s.clientCredits.find? k = some c' → c' = c := fun c' hc' =>
    Option.some.inj (hc'.symm.trans hk)
  by_cases hrest : rest = []
  · rw [if_neg (not_not.mpr hrest)] at hrun
    have hq := h₂.storeIdle hreg₂ (c := { c₂ with type := .IDLE }) hkey (Set.mem_insert k ∅) rfl
    rw [Set.insert_sdiff_self_of_notMem (Set.notMem_empty k)] at hq
    have hsame' := hsame.trans (sameRequests_store s₂ k { c₂ with type := .IDLE })
    refine ⟨_, hrun, hq, ⟨hsame'.requestMap, hsame'.numWorkers, hsame'.requestMapIterator,
      hsame'.keys, ?_, ?_, ?_, ?_⟩, hsame'.requestCount⟩
    · intro c' _
      simp [hunder, hrest]
    · intro c' _
      simp [hover, hrest]
    · intro c' hc'
      obtain rfl := hsole c' hc'
      exact ⟨{ c₂ with type := .IDLE }, by rw [find?_store hreg₂, if_pos rfl], rfl, rfl, rfl,
        by simp [hrest]⟩
    · intro j cj hne hj
      rw [find?_store hreg₂, if_neg hne]
      exact hothers j cj hne hj
  · rw [if_pos hrest] at hrun
    obtain ⟨hq, hu, ho, ⟨it, hfind⟩, hsame₃⟩ :=
      append_spec h₂ (c := c₂) hreg₂ hkey (Set.mem_insert k ∅)
    rw [Set.insert_sdiff_self_of_notMem (Set.notMem_empty k)] at hq
    have hsame' := hsame.trans hsame₃
    refine ⟨_, hrun, hq, ⟨hsame'.requestMap, hsame'.numWorkers, hsame'.requestMapIterator,
      hsame'.keys, ?_, ?_, ?_, ?_⟩, hsame'.requestCount⟩
    · intro c' hc'
      obtain rfl := hsole c' hc'
      rw [hu, hunder, if_neg hrest]
    · intro c' hc'
      obtain rfl := hsole c' hc'
      rw [ho, hover, if_neg hrest]
    · intro c' hc'
      obtain rfl := hsole c' hc'
      refine ⟨{ c₂ with type := queueType c₂.credit, iterator := some it },
        by rw [hfind, if_pos rfl], rfl, rfl, rfl, ?_⟩
      simp only [hrest, if_false, c₂]
    · intro j cj hne hj
      rw [hfind, if_neg hne]
      exact hothers j cj hne hj

/-- What `scheduleCredit` serves: the client at the front of the first queue
that is not empty, and the first request of that client. -/
theorem scheduleCredit_spec {s : Scheduler κ} (h : CreditInvariant s) (hpos : 0 < s.requestCount) :
    ∃ k q r rest s', s.underQueue.values ++ s.overQueue.values = k :: q ∧
      k ∈ s.registered ∧ s.pending k = r :: rest ∧ s.scheduleCredit = .ok (r, s') ∧
      QueueInvariant ∅ s' ∧ Served s k r rest s' ∧ s'.requestCount = s.requestCount - 1 := by
  obtain ⟨j, hj, hjp⟩ := h.map.exists_pending hpos
  obtain ⟨cj, hcj⟩ := UnorderedMap.mem_keys_iff.mp hj
  have hjq := (h.queues.mem_iff hcj).mpr (fun ht => hjp ((h.idle_iff j cj hcj).mp ht))
  cases hq : s.underQueue.values ++ s.overQueue.values with
  | nil => simp [hq] at hjq
  | cons k q =>
    have hkq : k ∈ s.underQueue.values ++ s.overQueue.values := hq ▸ List.mem_cons_self
    have hreg := h.queues.mem_registered hkq
    obtain ⟨c, hc⟩ := UnorderedMap.mem_keys_iff.mp hreg
    have htype := (h.queues.mem_iff hc).mp hkq
    cases hp : s.pending k with
    | nil => exact absurd ((h.idle_iff k c hc).mpr hp) htype
    | cons r rest =>
      obtain ⟨s', hrun, hinv, hserved, hcount⟩ := creditSchedule_spec h.queues hc htype hp
      refine ⟨k, q, r, rest, { s' with requestCount := s'.requestCount - 1 }, rfl, hreg, hp, ?_,
        hinv.congr rfl rfl rfl, ?_, by simp only [hcount]⟩
      · simp only [scheduleCredit, hq, hc]
        rw [hrun]
        rfl
      · exact ⟨hserved.requestMap, hserved.numWorkers, hserved.requestMapIterator, hserved.keys,
          hserved.underQueue, hserved.overQueue, hserved.self, hserved.others⟩

end Arithmetic

section Map

/-- A request enters the list of a registered client. -/
theorem MapInvariant.push {s s' : Scheduler κ} (h : MapInvariant s) {k : ℤ}
    (hk : k ∈ s.registered) {r : Request} (hr : r.clientId = k) {p : Placement ℤ}
    (hmap : s'.requestMap = (s.requestMap.emplace k [] p).modify k (fun l => l ++ [r]))
    (hkeys : s'.clientCredits.keys = s.clientCredits.keys)
    (hcount : s'.requestCount = s.requestCount + 1) : MapInvariant s' := by
  obtain ⟨hpending, hmem, htotal⟩ := push_spec s.requestMap k r p
  refine ⟨?_, ?_, ?_⟩
  · intro j hj
    rw [hmap, hmem] at hj
    rw [Scheduler.registered, hkeys]
    exact hj.elim (fun he => he ▸ hk) (h.registered j)
  · intro j r' hr'
    rw [Scheduler.pending, hmap, hpending] at hr'
    split_ifs at hr' with he
    · rcases List.mem_append.mp hr' with hr' | hr'
      · exact (h.owner k r' hr').trans he.symm
      · rw [List.mem_singleton.mp hr', hr, he]
    · exact h.owner j r' hr'
  · rw [hcount, h.count, totalPending, totalPending, hmap, htotal]

/-- The first request of a client leaves its list. -/
theorem MapInvariant.pop {s s' : Scheduler κ} (h : MapInvariant s) {k : ℤ} {r : Request}
    {rest : List Request} (hp : s.pending k = r :: rest) {g : List Request → List Request}
    (hg : g (r :: rest) = rest) (hmap : s'.requestMap = s.requestMap.modify k g)
    (hkeys : s'.clientCredits.keys = s.clientCredits.keys)
    (hcount : s'.requestCount = s.requestCount - 1) :
    MapInvariant s' ∧ ∀ j, s'.pending j = if j = k then rest else s.pending j := by
  have hfind : s.requestMap.find? k = some (r :: rest) :=
    hp ▸ find?_of_pending (by simp [hp])
  have hpending : ∀ j, s'.pending j = if j = k then rest else s.pending j := by
    intro j
    rw [pending, hmap, UnorderedMap.find?_modify]
    split_ifs with he
    · simp [he, hfind, hg]
    · rfl
  refine ⟨⟨?_, ?_, ?_⟩, hpending⟩
  · intro j hj
    rw [hmap, UnorderedMap.keys_modify] at hj
    rw [Scheduler.registered, hkeys]
    exact h.registered j hj
  · intro j r' hr'
    rw [hpending] at hr'
    split_ifs at hr' with he
    · exact he ▸ h.owner k r' (hp ▸ List.mem_cons_of_mem r hr')
    · exact h.owner j r' hr'
  · have htotal := UnorderedMap.total_modify hfind g List.length
    have hcount' := h.count
    simp only [hg, List.length_cons] at htotal
    simp only [totalPending, hmap, hcount] at hcount' ⊢
    omega

/-- The records that a deregistration of the client keeps. -/
def without (s : Scheduler κ) (k : ℤ) : Scheduler κ :=
  { s with
    clientCredits := s.clientCredits.erase k
    requestMap := s.requestMap.erase k
    requestMapIterator := s.requestMapIterator.afterErase k }

/-- A registered client without requests leaves. -/
theorem MapInvariant.leave {s : Scheduler κ} (h : MapInvariant s) {k : ℤ}
    (hp : s.pending k = []) :
    MapInvariant (s.without k) ∧ ∀ j, (s.without k).pending j = s.pending j := by
  have hpending : ∀ j, (s.without k).pending j = s.pending j := by
    intro j
    rw [pending, without, UnorderedMap.find?_erase]
    split_ifs with he
    · rw [he, hp]
      rfl
    · rfl
  refine ⟨⟨?_, fun j r hr => h.owner j r (hpending j ▸ hr), ?_⟩, hpending⟩
  · intro j hj
    rw [without, UnorderedMap.mem_keys_erase] at hj
    rw [Scheduler.registered, without, UnorderedMap.mem_keys_erase]
    exact ⟨h.registered j hj.1, hj.2⟩
  · have hcount : (s.without k).requestCount = s.requestCount := rfl
    rw [hcount, h.count, totalPending, totalPending, without]
    cases hf : s.requestMap.find? k with
    | none => rw [UnorderedMap.erase_of_notMem (UnorderedMap.find?_eq_none_iff.mp hf)]
    | some l =>
      have hl : l = [] := by simpa [pending, hf] using hp
      have := UnorderedMap.total_eq_erase_add hf List.length
      simp only [hl, List.length_nil] at this
      omega

end Map

end TinyFile.Scheduler
