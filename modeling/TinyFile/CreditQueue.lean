import TinyFile.Scheduler

/-!
# The two credit queues

The work of a client is recorded in its credit record, in one of two queues and
in a stored iterator. The invariant below says that these agree for every client
outside a set `out` of clients that are currently in no queue. Dequeuing a client
puts it into `out`, appending it takes it out again, so the loop of
`Credit::schedule` preserves the invariant with the served client in `out`.
-/
namespace TinyFile.Scheduler

variable {κ : Type}

/-- A credit record, its iterator and the two queues agree. -/
structure Placed (s : Scheduler κ) (c : Credit κ) : Prop where
  ofUnder : c.type = .UNDER →
    (∃ it, c.iterator = some it ∧ s.underQueue.Designates it c.clientId) ∧
      c.clientId ∉ s.overQueue.values
  ofOver : c.type = .OVER →
    (∃ it, c.iterator = some it ∧ s.overQueue.Designates it c.clientId) ∧
      c.clientId ∉ s.underQueue.values
  ofIdle : c.type = .IDLE → c.clientId ∉ s.underQueue.values ∧ c.clientId ∉ s.overQueue.values

structure QueueInvariant (out : Set ℤ) (s : Scheduler κ) : Prop where
  under_nodup : s.underQueue.values.Nodup
  over_nodup : s.overQueue.values.Nodup
  under_registered : ∀ k ∈ s.underQueue.values, k ∈ s.registered
  over_registered : ∀ k ∈ s.overQueue.values, k ∈ s.registered
  key : ∀ k c, s.clientCredits.find? k = some c → c.clientId = k
  placed : ∀ k c, s.clientCredits.find? k = some c → k ∉ out → s.Placed c
  absent : ∀ k ∈ out, k ∉ s.underQueue.values ∧ k ∉ s.overQueue.values

/-- Everything but the credit records and the two queues is the same. -/
structure SameRequests (s s' : Scheduler κ) : Prop where
  numWorkers : s'.numWorkers = s.numWorkers
  requestMap : s'.requestMap = s.requestMap
  requestMapIterator : s'.requestMapIterator = s.requestMapIterator
  requestCount : s'.requestCount = s.requestCount
  keys : s'.clientCredits.keys = s.clientCredits.keys

theorem SameRequests.refl (s : Scheduler κ) : SameRequests s s := ⟨rfl, rfl, rfl, rfl, rfl⟩

theorem SameRequests.trans {s t u : Scheduler κ} (h : SameRequests s t) (h' : SameRequests t u) :
    SameRequests s u :=
  ⟨h'.numWorkers.trans h.numWorkers, h'.requestMap.trans h.requestMap,
    h'.requestMapIterator.trans h.requestMapIterator, h'.requestCount.trans h.requestCount,
    h'.keys.trans h.keys⟩

section Store

@[simp] theorem store_underQueue (s : Scheduler κ) (k : ℤ) (c : Credit κ) :
    (s.store k c).underQueue = s.underQueue := rfl

@[simp] theorem store_overQueue (s : Scheduler κ) (k : ℤ) (c : Credit κ) :
    (s.store k c).overQueue = s.overQueue := rfl

@[simp] theorem registered_store (s : Scheduler κ) (k : ℤ) (c : Credit κ) :
    (s.store k c).registered = s.registered := UnorderedMap.keys_modify _ _ _

theorem sameRequests_store (s : Scheduler κ) (k : ℤ) (c : Credit κ) :
    SameRequests s (s.store k c) := ⟨rfl, rfl, rfl, rfl, UnorderedMap.keys_modify _ _ _⟩

theorem find?_store {s : Scheduler κ} {k : ℤ} (h : k ∈ s.registered) (c : Credit κ) (j : ℤ) :
    (s.store k c).clientCredits.find? j = if j = k then some c else s.clientCredits.find? j := by
  obtain ⟨c₀, hc₀⟩ := UnorderedMap.mem_keys_iff.mp h
  simp only [store, UnorderedMap.find?_modify]
  split_ifs with hj
  · simp [hj, hc₀]
  · rfl

end Store

/-- A record may be replaced when the new one is placed, or its client is out. -/
theorem QueueInvariant.store {out : Set ℤ} {s : Scheduler κ} (h : QueueInvariant out s)
    {k : ℤ} {c : Credit κ} (hk : k ∈ s.registered) (hkey : c.clientId = k)
    (hplaced : k ∉ out → s.Placed c) : QueueInvariant out (s.store k c) where
  under_nodup := h.under_nodup
  over_nodup := h.over_nodup
  under_registered := by simpa using h.under_registered
  over_registered := by simpa using h.over_registered
  key := by
    intro j c' hj
    rw [find?_store hk] at hj
    split_ifs at hj with he
    · cases hj
      exact hkey.trans he.symm
    · exact h.key j c' hj
  placed := by
    intro j c' hj hout
    rw [find?_store hk] at hj
    split_ifs at hj with he
    · cases hj
      have hp := hplaced (he ▸ hout)
      exact ⟨hp.ofUnder, hp.ofOver, hp.ofIdle⟩
    · exact ⟨(h.placed j c' hj hout).ofUnder, (h.placed j c' hj hout).ofOver,
        (h.placed j c' hj hout).ofIdle⟩
  absent := h.absent

/-- A client outside both queues may be left idle. -/
theorem QueueInvariant.storeIdle {out : Set ℤ} {s : Scheduler κ} (h : QueueInvariant out s)
    {k : ℤ} {c : Credit κ} (hk : k ∈ s.registered) (hkey : c.clientId = k) (hout : k ∈ out)
    (hidle : c.type = .IDLE) : QueueInvariant (out \ {k}) (s.store k c) where
  under_nodup := h.under_nodup
  over_nodup := h.over_nodup
  under_registered := by simpa using h.under_registered
  over_registered := by simpa using h.over_registered
  key := (h.store hk hkey (fun hn => absurd hout hn)).key
  placed := by
    intro j c' hj hjout
    rw [find?_store hk] at hj
    split_ifs at hj with he
    · cases hj
      exact ⟨by simp [hidle], by simp [hidle], fun _ => hkey ▸ h.absent k hout⟩
    · have hj' : j ∉ out := fun hmem => hjout ⟨hmem, he⟩
      exact ⟨(h.placed j c' hj hj').ofUnder, (h.placed j c' hj hj').ofOver,
        (h.placed j c' hj hj').ofIdle⟩
  absent := fun j hj => h.absent j hj.1

/-- Dropping one client from both queues, with every other iterator kept. -/
theorem QueueInvariant.drop {out : Set ℤ} {s s' : Scheduler κ} (h : QueueInvariant out s) (k : ℤ)
    (hcredits : s'.clientCredits = s.clientCredits)
    (hunder : s'.underQueue.values = s.underQueue.values.filter (fun j => j ≠ k))
    (hover : s'.overQueue.values = s.overQueue.values.filter (fun j => j ≠ k))
    (hkeepUnder : ∀ it j, j ≠ k → s.underQueue.Designates it j → s'.underQueue.Designates it j)
    (hkeepOver : ∀ it j, j ≠ k → s.overQueue.Designates it j → s'.overQueue.Designates it j) :
    QueueInvariant (insert k out) s' := by
  have hu : ∀ j, j ∈ s'.underQueue.values → j ∈ s.underQueue.values := by
    intro j hj
    rw [hunder] at hj
    exact (List.mem_filter.mp hj).1
  have ho : ∀ j, j ∈ s'.overQueue.values → j ∈ s.overQueue.values := by
    intro j hj
    rw [hover] at hj
    exact (List.mem_filter.mp hj).1
  have hreg : s'.registered = s.registered := by simp only [registered, hcredits]
  refine
    { under_nodup := hunder ▸ h.under_nodup.filter _
      over_nodup := hover ▸ h.over_nodup.filter _
      under_registered := fun j hj => hreg ▸ h.under_registered j (hu j hj)
      over_registered := fun j hj => hreg ▸ h.over_registered j (ho j hj)
      key := hcredits ▸ h.key
      placed := ?_
      absent := ?_ }
  · intro j c hj hjout
    rw [hcredits] at hj
    have hne : j ≠ k := fun he => hjout (Set.mem_insert_iff.mpr (Or.inl he))
    have hp := h.placed j c hj (fun hm => hjout (Set.mem_insert_iff.mpr (Or.inr hm)))
    have hck : c.clientId ≠ k := (h.key j c hj).symm ▸ hne
    refine ⟨fun ht => ?_, fun ht => ?_, fun ht => ?_⟩
    · obtain ⟨⟨it, hit, hdes⟩, hno⟩ := hp.ofUnder ht
      exact ⟨⟨it, hit, hkeepUnder it _ hck hdes⟩, fun hm => hno (ho _ hm)⟩
    · obtain ⟨⟨it, hit, hdes⟩, hno⟩ := hp.ofOver ht
      exact ⟨⟨it, hit, hkeepOver it _ hck hdes⟩, fun hm => hno (hu _ hm)⟩
    · exact ⟨fun hm => (hp.ofIdle ht).1 (hu _ hm), fun hm => (hp.ofIdle ht).2 (ho _ hm)⟩
  · intro j hj
    rcases Set.mem_insert_iff.mp hj with rfl | hj
    · rw [hunder, hover]
      simp
    · exact ⟨fun hm => (h.absent j hj).1 (hu j hm), fun hm => (h.absent j hj).2 (ho j hm)⟩

theorem filter_ne_of_notMem {q : List ℤ} {k : ℤ} (h : k ∉ q) :
    q.filter (fun j => j ≠ k) = q :=
  List.filter_eq_self.mpr (fun j hj => by
    have hne : j ≠ k := fun he => h (he ▸ hj)
    simpa using hne)

/-- `creditDequeue` takes a waiting client out of its queue. -/
theorem creditDequeue_spec {out : Set ℤ} {s : Scheduler κ} (h : QueueInvariant out s)
    {k : ℤ} {c : Credit κ} (c' : Credit κ) (hk : s.clientCredits.find? k = some c) (hout : k ∉ out)
    (htype : c.type ≠ .IDLE) (ht : c'.type = c.type) (hi : c'.iterator = c.iterator) :
    ∃ s', s.creditDequeue c' = .ok s' ∧ QueueInvariant (insert k out) s' ∧
      s'.underQueue.values = s.underQueue.values.filter (fun j => j ≠ k) ∧
      s'.overQueue.values = s.overQueue.values.filter (fun j => j ≠ k) ∧
      s'.clientCredits = s.clientCredits ∧ SameRequests s s' := by
  have hkey := h.key k c hk
  have hp := h.placed k c hk hout
  cases hc : c.type with
  | IDLE => exact absurd hc htype
  | UNDER =>
    obtain ⟨⟨it, hit, hdes⟩, hover⟩ := hp.ofUnder hc
    rw [hkey] at hdes hover
    obtain ⟨q, hq, -, hvalues, hkeep⟩ := NodeList.erase_spec hdes h.under_nodup
    have hstep : s.creditDequeue c' = .ok { s with underQueue := q } := by
      rw [creditDequeue, ht, hc]
      simp only [eraseNode, hi, hit, Option.bind_some, hq]
      rfl
    have hrest := (filter_ne_of_notMem hover).symm
    exact ⟨_, hstep, h.drop k rfl hvalues hrest hkeep (fun _ _ _ hd => hd), hvalues, hrest, rfl,
      ⟨rfl, rfl, rfl, rfl, rfl⟩⟩
  | OVER =>
    obtain ⟨⟨it, hit, hdes⟩, hunder⟩ := hp.ofOver hc
    rw [hkey] at hdes hunder
    obtain ⟨q, hq, -, hvalues, hkeep⟩ := NodeList.erase_spec hdes h.over_nodup
    have hstep : s.creditDequeue c' = .ok { s with overQueue := q } := by
      rw [creditDequeue, ht, hc]
      simp only [eraseNode, hi, hit, Option.bind_some, hq]
      rfl
    have hrest := (filter_ne_of_notMem hunder).symm
    exact ⟨_, hstep, h.drop k rfl hrest hvalues (fun _ _ _ hd => hd) hkeep, hrest, hvalues, rfl,
      ⟨rfl, rfl, rfl, rfl, rfl⟩⟩

/-- Appending a client that is in no queue to one of them, with its new record. -/
theorem QueueInvariant.grow {out : Set ℤ} {s s' : Scheduler κ} (h : QueueInvariant out s) {k : ℤ}
    {c : Credit κ} (hk : k ∈ s.registered) (hkey : c.clientId = k) (hout : k ∈ out)
    (hkeys : s'.registered = s.registered)
    (hfind : ∀ j, s'.clientCredits.find? j = if j = k then some c else s.clientCredits.find? j)
    {l r : List ℤ} (hunder : s'.underQueue.values = s.underQueue.values ++ l)
    (hover : s'.overQueue.values = s.overQueue.values ++ r)
    (hside : l = [k] ∧ r = [] ∧ c.type = .UNDER ∧
        (∃ it, c.iterator = some it ∧ s'.underQueue.Designates it k) ∨
      l = [] ∧ r = [k] ∧ c.type = .OVER ∧
        (∃ it, c.iterator = some it ∧ s'.overQueue.Designates it k))
    (hkeepUnder : ∀ it j, s.underQueue.Designates it j → s'.underQueue.Designates it j)
    (hkeepOver : ∀ it j, s.overQueue.Designates it j → s'.overQueue.Designates it j) :
    QueueInvariant (out \ {k}) s' := by
  obtain ⟨hnu, hno⟩ := h.absent k hout
  have hl : ∀ j ∈ l, j = k := by rcases hside with ⟨rfl, -⟩ | ⟨rfl, -⟩ <;> simp
  have hr : ∀ j ∈ r, j = k := by rcases hside with ⟨-, rfl, -⟩ | ⟨-, rfl, -⟩ <;> simp
  have hlnd : l.Nodup := by rcases hside with ⟨rfl, -⟩ | ⟨rfl, -⟩ <;> simp
  have hrnd : r.Nodup := by rcases hside with ⟨-, rfl, -⟩ | ⟨-, rfl, -⟩ <;> simp
  have hu : ∀ j, j ≠ k → (j ∈ s'.underQueue.values ↔ j ∈ s.underQueue.values) := by
    intro j hj
    rw [hunder, List.mem_append]
    exact ⟨fun hm => hm.resolve_right (fun hm => hj (hl j hm)), Or.inl⟩
  have ho : ∀ j, j ≠ k → (j ∈ s'.overQueue.values ↔ j ∈ s.overQueue.values) := by
    intro j hj
    rw [hover, List.mem_append]
    exact ⟨fun hm => hm.resolve_right (fun hm => hj (hr j hm)), Or.inl⟩
  refine
    { under_nodup := ?_
      over_nodup := ?_
      under_registered := ?_
      over_registered := ?_
      key := ?_
      placed := ?_
      absent := fun j hj => by rw [hu j hj.2, ho j hj.2]; exact h.absent j hj.1 }
  · rw [hunder]
    exact List.nodup_append.mpr ⟨h.under_nodup, hlnd,
      fun a ha b hb hab => hnu (hl b hb ▸ hab ▸ ha)⟩
  · rw [hover]
    exact List.nodup_append.mpr ⟨h.over_nodup, hrnd,
      fun a ha b hb hab => hno (hr b hb ▸ hab ▸ ha)⟩
  · intro j hj
    rw [hkeys]
    by_cases hjk : j = k
    · exact hjk ▸ hk
    · exact h.under_registered j ((hu j hjk).mp hj)
  · intro j hj
    rw [hkeys]
    by_cases hjk : j = k
    · exact hjk ▸ hk
    · exact h.over_registered j ((ho j hjk).mp hj)
  · intro j c' hj
    rw [hfind] at hj
    split_ifs at hj with he
    · cases hj
      exact hkey.trans he.symm
    · exact h.key j c' hj
  · intro j c' hj hjout
    rw [hfind] at hj
    split_ifs at hj with he
    · cases hj
      subst hkey
      rcases hside with ⟨rfl, rfl, ht, hdes⟩ | ⟨rfl, rfl, ht, hdes⟩
      · refine ⟨fun _ => ⟨hdes, ?_⟩, by simp [ht], by simp [ht]⟩
        rw [hover]
        simpa using hno
      · refine ⟨by simp [ht], fun _ => ⟨hdes, ?_⟩, by simp [ht]⟩
        rw [hunder]
        simpa using hnu
    · have hp := h.placed j c' hj (fun hm => hjout ⟨hm, he⟩)
      have hck : c'.clientId ≠ k := (h.key j c' hj).symm ▸ he
      refine ⟨fun ht => ?_, fun ht => ?_, fun ht => ?_⟩
      · obtain ⟨⟨it, hit, hdes⟩, hn⟩ := hp.ofUnder ht
        exact ⟨⟨it, hit, hkeepUnder it _ hdes⟩, fun hm => hn ((ho _ hck).mp hm)⟩
      · obtain ⟨⟨it, hit, hdes⟩, hn⟩ := hp.ofOver ht
        exact ⟨⟨it, hit, hkeepOver it _ hdes⟩, fun hm => hn ((hu _ hck).mp hm)⟩
      · exact ⟨fun hm => (hp.ofIdle ht).1 ((hu _ hck).mp hm),
          fun hm => (hp.ofIdle ht).2 ((ho _ hck).mp hm)⟩

section Sign

variable [Zero κ] [LT κ] [DecidableLT κ]

/-- The type that `append` gives to a record. -/
def queueType (credit : κ) : CreditType := if 0 < credit then .UNDER else .OVER

theorem queueType_ne_idle (credit : κ) : queueType credit ≠ .IDLE := by
  unfold queueType
  split <;> simp

/-- What the queue for a condition gains from one client. -/
def landing (p : Prop) [Decidable p] (k : ℤ) : List ℤ := if p then [k] else []

/-- `append` puts a client that is in no queue at the end of one. -/
theorem append_spec {out : Set ℤ} {s : Scheduler κ} (h : QueueInvariant out s) {k : ℤ}
    {c : Credit κ} (hk : k ∈ s.registered) (hkey : c.clientId = k) (hout : k ∈ out) :
    QueueInvariant (out \ {k}) (s.append c) ∧
      (s.append c).underQueue.values = s.underQueue.values ++ landing (0 < c.credit) k ∧
      (s.append c).overQueue.values = s.overQueue.values ++ landing (¬ 0 < c.credit) k ∧
      (∃ it, ∀ j, (s.append c).clientCredits.find? j =
        if j = k then some { c with type := queueType c.credit, iterator := some it }
        else s.clientCredits.find? j) ∧
      SameRequests s (s.append c) := by
  subst hkey
  have hfind : ∀ j, (s.append c).clientCredits.find? j =
      if j = c.clientId then
        some { c with
          type := queueType c.credit
          iterator := some (if 0 < c.credit then (s.underQueue.pushBack c.clientId).2
            else (s.overQueue.pushBack c.clientId).2) }
      else s.clientCredits.find? j := by
    intro j
    by_cases hpos : 0 < c.credit
    · simp only [append, queueType, hpos, if_true]
      exact find?_store (by exact hk) _ j
    · simp only [append, queueType, hpos, if_false]
      exact find?_store (by exact hk) _ j
  have hkeys : (s.append c).clientCredits.keys = s.clientCredits.keys := by
    unfold append
    split_ifs <;> exact UnorderedMap.keys_modify _ _ _
  have hunder : (s.append c).underQueue.values =
      s.underQueue.values ++ landing (0 < c.credit) c.clientId := by
    unfold append landing
    split_ifs <;> simp
  have hover : (s.append c).overQueue.values =
      s.overQueue.values ++ landing (¬ 0 < c.credit) c.clientId := by
    unfold append landing
    split_ifs <;> simp
  refine ⟨?_, hunder, hover, ⟨_, hfind⟩, ?_⟩
  · refine h.grow hk ?_ hout hkeys hfind hunder hover ?_ ?_ ?_
    · rfl
    · by_cases hpos : 0 < c.credit
      · left
        simp only [landing, queueType, append, hpos, if_true, not_true_eq_false, if_false, true_and]
        exact ⟨_, rfl, NodeList.designates_pushBack_self _ _⟩
      · right
        simp only [landing, queueType, append, hpos, if_true, not_false_eq_true, if_false, true_and]
        exact ⟨_, rfl, NodeList.designates_pushBack_self _ _⟩
    · intro it j hd
      unfold append
      split_ifs
      · exact hd.pushBack _
      · exact hd
    · intro it j hd
      unfold append
      split_ifs
      · exact hd
      · exact hd.pushBack _
  · unfold append at hkeys ⊢
    split_ifs at hkeys ⊢ <;> exact ⟨rfl, rfl, rfl, rfl, hkeys⟩

end Sign

section Arithmetic

variable [Add κ] [Mul κ] [Div κ] [NatCast κ]

theorem gain_congr {s s' : Scheduler κ} (h : s'.numWorkers = s.numWorkers) (fileSize : ℕ)
    (c : Credit κ) : s'.gain fileSize c = s.gain fileSize c := by simp only [gain, h]

variable [Zero κ] [LT κ] [DecidableLT κ]

/-- What the requeue loop does to the record of another client. -/
structure Requeued (s : Scheduler κ) (fileSize : ℕ) (c c' : Credit κ) : Prop where
  clientId : c'.clientId = c.clientId
  priority : c'.priority = c.priority
  credit : c'.credit = s.gain fileSize c
  type : c'.type = if c.type = .IDLE then .IDLE else queueType (s.gain fileSize c)

/-- The client waits, and its credit after the gain puts it into `underQueue`. -/
def waitsUnder (s : Scheduler κ) (fileSize : ℕ) (k : ℤ) : Bool :=
  match s.clientCredits.find? k with
  | none => false
  | some c => c.type ≠ .IDLE ∧ 0 < s.gain fileSize c

/-- The client waits, and its credit after the gain puts it into `overQueue`. -/
def waitsOver (s : Scheduler κ) (fileSize : ℕ) (k : ℤ) : Bool :=
  match s.clientCredits.find? k with
  | none => false
  | some c => c.type ≠ .IDLE ∧ ¬ 0 < s.gain fileSize c

/-- One turn of the requeue loop. -/
theorem requeue_spec {out : Set ℤ} {s : Scheduler κ} (h : QueueInvariant out s) {k : ℤ}
    {c : Credit κ} (hk : s.clientCredits.find? k = some c) (hout : k ∉ out) (fileSize : ℕ) :
    ∃ s' c', s.requeue fileSize c = .ok s' ∧ QueueInvariant out s' ∧ SameRequests s s' ∧
      s'.underQueue.values = s.underQueue.values.filter (fun j => j ≠ k) ++
        landing (s.waitsUnder fileSize k) k ∧
      s'.overQueue.values = s.overQueue.values.filter (fun j => j ≠ k) ++
        landing (s.waitsOver fileSize k) k ∧
      Requeued s fileSize c c' ∧
      ∀ j, s'.clientCredits.find? j = if j = k then some c' else s.clientCredits.find? j := by
  have hkey := h.key k c hk
  have hreg : k ∈ s.registered := UnorderedMap.mem_keys_of_find? hk
  by_cases hidle : c.type = .IDLE
  · obtain ⟨hnu, hno⟩ := (h.placed k c hk hout).ofIdle hidle
    rw [hkey] at hnu hno
    refine ⟨s.store k { c with credit := s.gain fileSize c }, _, ?_, ?_, sameRequests_store _ _ _,
      ?_, ?_, ?_, find?_store hreg _⟩
    · simp [requeue, hidle, hkey]
    · refine h.store hreg hkey (fun _ => ?_)
      exact ⟨by simp [hidle], by simp [hidle], fun _ => (h.placed k c hk hout).ofIdle hidle⟩
    · rw [filter_ne_of_notMem hnu]
      simp [waitsUnder, hk, hidle, landing]
    · rw [filter_ne_of_notMem hno]
      simp [waitsOver, hk, hidle, landing]
    · exact ⟨rfl, rfl, rfl, by simp [hidle]⟩
  · let c₁ : Credit κ := { c with credit := s.gain fileSize c }
    obtain ⟨s₁, hdeq, h₁, hunder₁, hover₁, hcredits₁, hsame₁⟩ :=
      creditDequeue_spec h c₁ hk hout hidle rfl rfl
    have hreg₁ : k ∈ s₁.registered := by simpa only [registered, hcredits₁] using hreg
    let c₂ : Credit κ := { c₁ with type := .IDLE }
    obtain ⟨h₂, hunder₂, hover₂, ⟨it, hfind₂⟩, hsame₂⟩ :=
      append_spec h₁ (c := c₂) hreg₁ hkey (Set.mem_insert k out)
    refine ⟨s₁.append c₂, { c₂ with type := queueType c₂.credit, iterator := some it }, ?_, ?_,
      hsame₁.trans hsame₂, ?_, ?_, ?_, ?_⟩
    · simp only [requeue, hidle, if_false]
      rw [hdeq]
      simp only [creditEnqueue, if_true]
      rfl
    · rwa [Set.insert_sdiff_self_of_notMem hout] at h₂
    · rw [hunder₂, hunder₁]
      congr 1
      by_cases hpos : 0 < s.gain fileSize c <;> simp [waitsUnder, hk, hidle, landing, c₂, c₁, hpos]
    · rw [hover₂, hover₁]
      congr 1
      by_cases hpos : 0 < s.gain fileSize c <;> simp [waitsOver, hk, hidle, landing, c₂, c₁, hpos]
    · exact ⟨rfl, rfl, rfl, by simp [hidle, c₂, c₁]⟩
    · intro j
      rw [hfind₂, hcredits₁]

theorem waitsUnder_congr {s s' : Scheduler κ} (h : s'.numWorkers = s.numWorkers) (fileSize : ℕ)
    {k : ℤ} (hfind : s'.clientCredits.find? k = s.clientCredits.find? k) :
    s'.waitsUnder fileSize k = s.waitsUnder fileSize k := by
  simp only [waitsUnder, hfind, gain_congr h]

theorem waitsOver_congr {s s' : Scheduler κ} (h : s'.numWorkers = s.numWorkers) (fileSize : ℕ)
    {k : ℤ} (hfind : s'.clientCredits.find? k = s.clientCredits.find? k) :
    s'.waitsOver fileSize k = s.waitsOver fileSize k := by
  simp only [waitsOver, hfind, gain_congr h]

/-- One more turn moves its client from the kept part of a queue to the new part. -/
theorem filter_landing_append {q ks : List ℤ} {d k : ℤ} (hkd : k ≠ d) (hks : k ∉ ks)
    {p p' : ℤ → Bool} (hp : ∀ j ∈ ks, p' j = p j) :
    (q.filter (fun j => j ≠ k) ++ landing (p k) k).filter (fun j => ¬ (j ∈ ks ∧ j ≠ d)) ++
        ks.filter (fun j => j ≠ d ∧ p' j) =
      q.filter (fun j => ¬ (j ∈ k :: ks ∧ j ≠ d)) ++
        (k :: ks).filter (fun j => j ≠ d ∧ p j) := by
  have hland : (landing (p k) k).filter (fun j => decide ¬ (j ∈ ks ∧ j ≠ d)) =
      landing (p k) k := by
    apply List.filter_eq_self.mpr
    intro j hj
    have hjk : j = k := by
      unfold landing at hj
      split_ifs at hj <;> simp_all
    simp [hjk, hks]
  have hkept : (q.filter (fun j => decide (j ≠ k))).filter
      (fun j => decide ¬ (j ∈ ks ∧ j ≠ d)) = q.filter (fun j => decide ¬ (j ∈ k :: ks ∧ j ≠ d)) := by
    rw [List.filter_filter]
    apply List.filter_congr
    intro j _
    by_cases hj : j = k <;> simp [hj, hkd]
  have hrest : ks.filter (fun j => decide (j ≠ d ∧ p' j = true)) =
      ks.filter (fun j => decide (j ≠ d ∧ p j = true)) :=
    List.filter_congr (fun j hj => by rw [hp j hj])
  rw [List.filter_append, hland, hkept, hrest, List.append_assoc]
  congr 1
  by_cases hpk : p k = true <;> simp [landing, hpk, hkd]

/-- The requeue loop over a list of clients: the queues keep the clients it does
not visit, followed by the visited ones in the order of the visit. -/
theorem requeueOthers_spec {out : Set ℤ} {d : ℤ} (fileSize : ℕ) {ks : List ℤ} {s : Scheduler κ}
    (h : QueueInvariant out s) (hnd : ks.Nodup) (hreg : ∀ k ∈ ks, k ∈ s.registered)
    (hout : ∀ k ∈ ks, k ≠ d → k ∉ out) :
    ∃ s', requeueOthers d fileSize ks s = .ok s' ∧ QueueInvariant out s' ∧ SameRequests s s' ∧
      s'.underQueue.values = s.underQueue.values.filter (fun j => ¬ (j ∈ ks ∧ j ≠ d)) ++
        ks.filter (fun j => j ≠ d ∧ s.waitsUnder fileSize j) ∧
      s'.overQueue.values = s.overQueue.values.filter (fun j => ¬ (j ∈ ks ∧ j ≠ d)) ++
        ks.filter (fun j => j ≠ d ∧ s.waitsOver fileSize j) ∧
      (∀ j ∈ ks, j ≠ d → ∃ c c', s.clientCredits.find? j = some c ∧
        s'.clientCredits.find? j = some c' ∧ Requeued s fileSize c c') ∧
      ∀ j, j ∉ ks ∨ j = d → s'.clientCredits.find? j = s.clientCredits.find? j := by
  induction ks generalizing s with
  | nil => exact ⟨s, rfl, h, SameRequests.refl s, by simp, by simp, by simp, fun _ _ => rfl⟩
  | cons k ks ih =>
    obtain ⟨hkks, hnd⟩ := List.nodup_cons.mp hnd
    by_cases hkd : k = d
    · obtain ⟨s', hrun, h', hsame, hunder, hover, hvisited, hother⟩ := ih h hnd
        (fun j hj => hreg j (List.mem_cons_of_mem _ hj))
        (fun j hj => hout j (List.mem_cons_of_mem _ hj))
      have hmem : ∀ j, (j ∈ k :: ks ∧ j ≠ d) ↔ (j ∈ ks ∧ j ≠ d) := by
        intro j
        rw [List.mem_cons, hkd]
        constructor
        · intro hj
          exact ⟨hj.1.resolve_left hj.2, hj.2⟩
        · intro hj
          exact ⟨Or.inr hj.1, hj.2⟩
      refine ⟨s', by simpa [requeueOthers, hkd] using hrun, h', hsame, ?_, ?_, ?_, ?_⟩
      · simp only [hmem, hunder]
        simp [hkd]
      · simp only [hmem, hover]
        simp [hkd]
      · intro j hj hne
        exact hvisited j (((hmem j).mp ⟨hj, hne⟩).1) hne
      · intro j hj
        refine hother j (hj.imp_left (fun hn hm => hn (List.mem_cons_of_mem _ hm)))
    · obtain ⟨c, hc⟩ := UnorderedMap.mem_keys_iff.mp (hreg k List.mem_cons_self)
      obtain ⟨s₁, c₁, hturn, h₁, hsame₁, hunder₁, hover₁, hreq₁, hfind₁⟩ :=
        requeue_spec h hc (hout k List.mem_cons_self hkd) fileSize
      obtain ⟨s', hrun, h', hsame, hunder, hover, hvisited, hother⟩ := ih h₁ hnd
        (fun j hj => by
          rw [registered, hsame₁.keys]
          exact hreg j (List.mem_cons_of_mem _ hj))
        (fun j hj => hout j (List.mem_cons_of_mem _ hj))
      have hks : ∀ j ∈ ks, s₁.clientCredits.find? j = s.clientCredits.find? j := by
        intro j hj
        have hjk : j ≠ k := by
          rintro rfl
          exact hkks hj
        rw [hfind₁, if_neg hjk]
      refine ⟨s', ?_, h', hsame₁.trans hsame, ?_, ?_, ?_, ?_⟩
      · simp only [requeueOthers, hkd, if_false, hc]
        rw [hturn]
        exact hrun
      · rw [hunder, hunder₁]
        exact filter_landing_append hkd hkks
          (fun j hj => waitsUnder_congr hsame₁.numWorkers fileSize (hks j hj))
      · rw [hover, hover₁]
        exact filter_landing_append hkd hkks
          (fun j hj => waitsOver_congr hsame₁.numWorkers fileSize (hks j hj))
      · intro j hj hne
        rcases List.mem_cons.mp hj with rfl | hj
        · exact ⟨c, c₁, hc, by rw [hother j (Or.inl hkks), hfind₁, if_pos rfl], hreq₁⟩
        · obtain ⟨c₀, c', hc₀, hc', hreq⟩ := hvisited j hj hne
          refine ⟨c₀, c', (hks j hj) ▸ hc₀, hc', ?_⟩
          have hg := gain_congr hsame₁.numWorkers fileSize c₀
          exact ⟨hreq.clientId, hreq.priority, hreq.credit.trans hg, hg ▸ hreq.type⟩
      · intro j hj
        have hjk : j ≠ k := by
          rcases hj with hj | hj
          · rintro rfl
            exact hj List.mem_cons_self
          · exact fun he => hkd (he.symm.trans hj)
        rw [hother j (hj.imp_left (fun hn hm => hn (List.mem_cons_of_mem _ hm))), hfind₁,
          if_neg hjk]

end Arithmetic

end TinyFile.Scheduler
