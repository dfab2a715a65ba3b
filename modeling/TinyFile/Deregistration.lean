import TinyFile.CreditScheduler

/-!
# Deregistration

`deregisterClient` removes a client's credit record and its request list, and
neither lowers `requestCount` nor takes the client out of the credit queues. It
is harmless exactly for a client whose record is idle: one without requests
under the credit strategy, and one that never sent a request under round-robin,
where nothing sets a record back to idle.
-/
namespace TinyFile.Scheduler

variable {κ : Type}

/-- Nothing is left of the client in the records that outlive its own. -/
structure Forgotten (s : Scheduler κ) (k : ℤ) : Prop where
  count : s.requestCount = s.totalPending
  underQueue : k ∉ s.underQueue.values
  overQueue : k ∉ s.overQueue.values

/-- The invariant of the round-robin strategy. -/
structure RoundRobinInvariant (s : Scheduler κ) : Prop where
  queues : QueueInvariant ∅ s
  map : MapInvariant s
  idle : ∀ k c, s.clientCredits.find? k = some c → c.type = .IDLE → k ∉ s.requestMap.keys
  iterator : s.requestMapIterator = .atEnd ∨
    ∃ k ∈ s.requestMap.keys, s.requestMapIterator = .atKey k

theorem roundRobinInvariant_init (numWorkers : ℕ) :
    RoundRobinInvariant (init numWorkers : Scheduler κ) where
  queues := queueInvariant_init numWorkers
  map := mapInvariant_init numWorkers
  idle := by simp [init]
  iterator := Or.inl rfl

section Scan

theorem scan_eq_none_iff {entries : List (ℤ × List Request)} :
    scan entries = none ↔ ∀ e ∈ entries, e.2 = [] := by
  induction entries with
  | nil => simp [scan]
  | cons e entries ih =>
    obtain ⟨k, l⟩ := e
    cases l with
    | nil => simp [scan, ih]
    | cons r rest => simp [scan]

/-- The scan stops at the first client with a request, one entry before its iterator. -/
theorem scan_eq_some {entries : List (ℤ × List Request)} {k : ℤ} {r : Request} {it : Cursor ℤ}
    (h : scan entries = some (k, r, it)) :
    ∃ before rest after, entries = before ++ (k, r :: rest) :: after ∧
      it = .ofEntries after ∧ ∀ e ∈ before, e.2 = [] := by
  induction entries with
  | nil => cases h
  | cons e entries ih =>
    obtain ⟨j, l⟩ := e
    cases l with
    | nil =>
      obtain ⟨before, rest, after, heq, hit, hempty⟩ := ih h
      refine ⟨(j, []) :: before, rest, after, by rw [heq]; rfl, hit, fun e he => ?_⟩
      rcases List.mem_cons.mp he with rfl | he
      · rfl
      · exact hempty e he
    | cons r' rest =>
      simp only [scan, Option.some.injEq, Prod.mk.injEq] at h
      obtain ⟨rfl, rfl, rfl⟩ := h
      exact ⟨[], rest, entries, rfl, rfl, by simp⟩

/-- The iterator after a scan is the end or rests on an entry. -/
theorem ofEntries_mem (before after : List (ℤ × List Request)) :
    Cursor.ofEntries after = .atEnd ∨
      ∃ k ∈ (before ++ after).map Prod.fst, Cursor.ofEntries after = .atKey k := by
  cases after with
  | nil => exact Or.inl rfl
  | cons e after => exact Or.inr ⟨e.1, by simp, rfl⟩

theorem entriesFrom_isSome {s : Scheduler κ} (h : s.requestMapIterator = .atEnd ∨
    ∃ k ∈ s.requestMap.keys, s.requestMapIterator = .atKey k) :
    ∃ before entries, s.requestMapIterator.entriesFrom s.requestMap = some entries ∧
      s.requestMap.entries = before ++ entries := by
  rcases h with hit | ⟨k, hk, hit⟩
  · exact ⟨s.requestMap.entries, [], by rw [hit]; rfl, by simp⟩
  · refine ⟨s.requestMap.entries.takeWhile (fun e => e.1 ≠ k), _, ?_,
      List.takeWhile_append_dropWhile.symm⟩
    rw [hit, Cursor.entriesFrom, if_pos hk]

/-- `scheduleRoundRobin` with a positive counter finds a request in one of its
two scans. -/
theorem scheduleRoundRobin_spec {s : Scheduler κ} (hmap : MapInvariant s)
    (hit : s.requestMapIterator = .atEnd ∨
      ∃ k ∈ s.requestMap.keys, s.requestMapIterator = .atKey k) (hpos : 0 < s.requestCount) :
    ∃ k r rest it, k ∈ s.requestMap.keys ∧ s.pending k = r :: rest ∧
      (it = .atEnd ∨ ∃ j ∈ s.requestMap.keys, it = .atKey j) ∧
      s.scheduleRoundRobin = .ok (r,
        { s with
          requestMap := s.requestMap.modify k List.tail
          requestMapIterator := it
          requestCount := s.requestCount - 1 }) := by
  obtain ⟨before, entries, hentries, hsplit⟩ := entriesFrom_isSome hit
  have hfound : ∃ found, (scan entries).or (scan s.requestMap.entries) = some found := by
    rw [← Option.isSome_iff_exists, Option.isSome_iff_ne_none]
    intro hnone
    obtain ⟨-, hnone⟩ := Option.or_eq_none_iff.mp hnone
    obtain ⟨k, -, hk⟩ := hmap.exists_pending hpos
    have hmem := UnorderedMap.find?_eq_some_iff.mp (find?_of_pending hk)
    exact hk (scan_eq_none_iff.mp hnone _ hmem)
  obtain ⟨⟨k, r, it⟩, hfound⟩ := hfound
  -- either scan ran over a suffix of the entries
  obtain ⟨front, es, hes, hscan⟩ :
      ∃ front es, s.requestMap.entries = front ++ es ∧ scan es = some (k, r, it) := by
    rcases Option.or_eq_some_iff.mp hfound with hscan | ⟨-, hscan⟩
    · exact ⟨before, entries, hsplit, hscan⟩
    · exact ⟨[], _, rfl, hscan⟩
  obtain ⟨skipped, rest, after, heq, hit, -⟩ := scan_eq_some hscan
  have hmem : (k, r :: rest) ∈ s.requestMap.entries := by simp [hes, heq]
  have hfind := UnorderedMap.find?_eq_some_iff.mpr hmem
  refine ⟨k, r, rest, it, UnorderedMap.mem_keys_of_find? hfind, by simp [pending, hfind], ?_, ?_⟩
  · have hcursor := ofEntries_mem (front ++ skipped ++ [(k, r :: rest)]) after
    have hall : front ++ skipped ++ [(k, r :: rest)] ++ after = s.requestMap.entries := by
      simp [hes, heq]
    rw [hall, ← hit] at hcursor
    exact hcursor
  · simp only [scheduleRoundRobin, hentries, hfound]

end Scan

/-- The steps after which the records still agree: only idle clients leave, and
no insertion of a new key rehashes `requestMap` under the stored iterator. -/
def Harmless (s : Scheduler κ) : Event → Prop
  | .deregisterClient k => ∀ c ∈ s.clientCredits.find? k, c.type = .IDLE
  | .enqueue k _ _ (.rehash _) => k ∈ s.requestMap.keys ∨ s.requestMapIterator = .atEnd
  | _ => True

instance (s : Scheduler κ) (e : Event) : Decidable (s.Harmless e) :=
  match e with
  | .registerClient .. => isTrue trivial
  | .enqueue _ _ _ (.splice _) => isTrue trivial
  | .enqueue _ _ _ (.rehash _) => inferInstanceAs (Decidable (_ ∨ _))
  | .schedule => isTrue trivial
  | .deregisterClient k => inferInstanceAs (Decidable (∀ c ∈ s.clientCredits.find? k, _))

theorem afterSubscript_usable {s s' : Scheduler κ} {k : ℤ} {p : Placement ℤ}
    (h : s.requestMapIterator = .atEnd ∨
      ∃ j ∈ s.requestMap.keys, s.requestMapIterator = .atKey j)
    (hok : ∀ order, p = .rehash order → k ∈ s.requestMap.keys ∨ s.requestMapIterator = .atEnd)
    (hkeys : ∀ j ∈ s.requestMap.keys, j ∈ s'.requestMap.keys)
    (hit : s'.requestMapIterator = s.requestMapIterator.afterSubscript s.requestMap k p) :
    s'.requestMapIterator = .atEnd ∨
      ∃ j ∈ s'.requestMap.keys, s'.requestMapIterator = .atKey j := by
  rcases h with h | ⟨j, hj, h⟩
  · left
    rw [hit, h]
    cases p <;> rfl
  · right
    refine ⟨j, hkeys j hj, ?_⟩
    rw [hit, h]
    cases p with
    | splice i => rfl
    | rehash order =>
      rcases hok order rfl with hk | hend
      · simp [Cursor.afterSubscript, hk]
      · simp [hend] at h

section Steps

variable [Add κ] [Sub κ] [Mul κ] [Div κ] [NatCast κ] [IntCast κ] [Zero κ] [LT κ] [DecidableLT κ]

theorem RoundRobinInvariant.next {s t : Scheduler κ} (h : RoundRobinInvariant s) {e : Event}
    (ht : next .roundRobin s e = some t) (hok : s.Harmless e) : RoundRobinInvariant t := by
  cases e with
  | registerClient k priority p =>
    simp only [Scheduler.next] at ht
    split at ht
    · cases ht
    · next hk =>
      cases ht
      refine ⟨h.queues.enter hk rfl rfl ⟨rfl, rfl⟩ (fun _ => mem_registered_registerClient)
        (find?_registerClient hk priority p),
        h.map.enter (fun _ hj => mem_registered_registerClient.mpr (Or.inr hj)) rfl rfl, ?_,
        h.iterator⟩
      intro j c hj hidle
      rw [find?_registerClient hk] at hj
      split_ifs at hj with he
      · exact fun hm => hk (he ▸ h.map.registered j hm)
      · exact h.idle j c hj hidle
  | enqueue k requestId fileSize p =>
    have hrun := enqueue_of_next ht
    obtain ⟨c, hc⟩ := registered_of_enqueue_ok hrun
    obtain ⟨s', hrun', hqueues, -, hkeys, hit, hcount, -, -, hmap, -, -, c', hc', hfind⟩ :=
      enqueue_spec h.queues hc requestId fileSize p
    obtain rfl : s' = t := (Prod.mk.inj (hrun'.symm.trans hrun)).2
    obtain ⟨-, hmem, -⟩ := push_spec s.requestMap k ⟨k, requestId, fileSize⟩ p
    rw [← hmap] at hmem
    refine ⟨hqueues, h.map.push (UnorderedMap.mem_keys_of_find? hc) rfl hmap hkeys hcount, ?_,
      afterSubscript_usable h.iterator ?_ (fun j hj => (hmem j).mpr (Or.inr hj)) hit⟩
    · intro j cj hj hidle hjm
      rw [hfind] at hj
      split_ifs at hj with he
      · cases hj
        rw [hc'.2.2.2] at hidle
        split_ifs at hidle with ht
        · exact queueType_ne_idle _ hidle
        · exact ht hidle
      · exact h.idle j cj hj hidle (((hmem j).mp hjm).resolve_left he)
    · rintro order rfl
      exact hok
  | schedule =>
    obtain ⟨hpos, r, hrun⟩ := schedule_of_next ht
    obtain ⟨k, r', rest, it, hk, hp, hit, hrun'⟩ := scheduleRoundRobin_spec h.map h.iterator hpos
    have heq := (Prod.mk.inj (Except.ok.inj (hrun'.symm.trans hrun))).2
    subst heq
    have hpop : List.tail (r' :: rest) = rest := rfl
    refine ⟨h.queues.congr rfl rfl rfl, ?_, ?_, ?_⟩
    · exact And.left (h.map.pop hp hpop rfl rfl rfl)
    · intro j c hj hidle
      rw [UnorderedMap.keys_modify]
      exact h.idle j c hj hidle
    · rw [UnorderedMap.keys_modify]
      exact hit
  | deregisterClient k =>
    obtain ⟨hrun, hk⟩ := deregisterClient_of_next ht
    obtain ⟨c, hc⟩ := UnorderedMap.mem_keys_iff.mp hk
    have hidle : c.type = .IDLE := hok c hc
    have hnotmem := h.idle k c hc hidle
    have hnot := (h.queues.placed k c hc (Set.notMem_empty k)).ofIdle hidle
    rw [h.queues.key k c hc] at hnot
    rw [deregisterClient_eq hk] at hrun
    cases hrun
    refine ⟨h.queues.leave hnot, (h.map.leave (pending_eq_nil_of_notMem hnotmem)).1, ?_, ?_⟩
    · intro j cj hj hjidle hjm
      rw [without, UnorderedMap.find?_erase] at hj
      split_ifs at hj
      exact h.idle j cj hj hjidle (UnorderedMap.mem_keys_erase.mp hjm).1
    · rcases h.iterator with hit | ⟨j, hj, hit⟩
      · exact Or.inl (by simp [without, hit, Cursor.afterErase])
      · have hne : j ≠ k := fun he => hnotmem (he ▸ hj)
        exact Or.inr ⟨j, UnorderedMap.mem_keys_erase.mpr ⟨hj, hne⟩,
          by simp [without, hit, Cursor.afterErase, hne]⟩

/-- What both strategies keep over harmless steps. -/
structure SchedulerInvariant (st : Strategy) (s : Scheduler κ) : Prop where
  queues : QueueInvariant ∅ s
  map : MapInvariant s
  idle : ∀ k c, s.clientCredits.find? k = some c → c.type = .IDLE → s.pending k = []
  serves : 0 < s.requestCount →
    ∃ r s', s.schedule st = .ok (r, s') ∧ r.clientId ∈ s.registered

theorem schedulerInvariant_of_reachable {st : Strategy} {numWorkers : ℕ} {s : Scheduler κ}
    (h : (machine st numWorkers).ReachableIf Harmless s) : SchedulerInvariant st s := by
  cases st with
  | credit =>
    have hinv : CreditInvariant s := creditInvariant_of_reachable (fun _ _ c hok hc => hok c hc) h
    refine ⟨hinv.queues, hinv.map, fun k c hk => (hinv.idle_iff k c hk).mp, fun hpos => ?_⟩
    obtain ⟨r, s', hrun, hreg, -⟩ := hinv.scheduleCredit hpos
    exact ⟨r, s', hrun, hreg⟩
  | roundRobin =>
    have hinv : RoundRobinInvariant s :=
      h.invariant (roundRobinInvariant_init numWorkers) (fun _ _ _ hs ht hok => hs.next ht hok)
    refine ⟨hinv.queues, hinv.map,
      fun k c hk hidle => pending_eq_nil_of_notMem (hinv.idle k c hk hidle), fun hpos => ?_⟩
    obtain ⟨k, r, rest, it, -, hp, -, hrun⟩ := scheduleRoundRobin_spec hinv.map hinv.iterator hpos
    have hr : r.clientId = k := hinv.map.owner k r (hp ▸ List.mem_cons_self)
    exact ⟨r, _, hrun, hr ▸ hinv.map.registered_of_pending (by simp [hp])⟩

/-- A deregistration leaves nothing behind exactly when the client's record is
idle, and in runs of such deregistrations `schedule` always serves a registered
client. -/
theorem deregistration_harmless {st : Strategy} {numWorkers : ℕ} {s : Scheduler κ}
    (h : (machine st numWorkers).ReachableIf Harmless s) :
    (∀ k c t, s.clientCredits.find? k = some c → s.deregisterClient k = .ok t →
      (t.Forgotten k ↔ c.type = .IDLE)) ∧
    (0 < s.requestCount → ∃ r s', s.schedule st = .ok (r, s') ∧ r.clientId ∈ s.registered) := by
  have hinv := schedulerInvariant_of_reachable h
  refine ⟨?_, hinv.serves⟩
  intro k c t hk ht
  rw [deregisterClient_eq (UnorderedMap.mem_keys_of_find? hk)] at ht
  cases ht
  constructor
  · intro hforgotten
    by_contra hne
    rcases List.mem_append.mp ((hinv.queues.mem_iff hk).mpr hne) with hm | hm
    · exact hforgotten.underQueue hm
    · exact hforgotten.overQueue hm
  · intro hidle
    have hnot := (hinv.queues.placed k c hk (Set.notMem_empty k)).ofIdle hidle
    rw [hinv.queues.key k c hk] at hnot
    exact ⟨(hinv.map.leave (hinv.idle k c hk hidle)).1.count, hnot.1, hnot.2⟩

/-- Client 0 leaves before it has sent a request; client 1 stays. -/
def idleLeave : List Event :=
  [.registerClient 0 64 (.splice 0), .registerClient 1 64 (.splice 0),
    .enqueue 1 0 100 (.splice 0)]

theorem deregistration_harmless_idle_leave :
    ∃ s t : Scheduler ℚ, (machine .roundRobin 4).runIf Harmless (init 4) idleLeave = some s ∧
      s.deregisterClient 0 = .ok t ∧ t.Forgotten 0 ∧
      ∃ r s', s.schedule .roundRobin = .ok (r, s') ∧ r.clientId ∈ s.registered := by
  have hfacts : ((machine .roundRobin 4).runIf Harmless (init 4 : Scheduler ℚ) idleLeave).map
      (fun s => (s.requestCount, (s.clientCredits.find? 0).map Credit.type)) =
        some (1, some .IDLE) := by decide +kernel
  obtain ⟨s, hs, hs'⟩ := Option.map_eq_some_iff.mp hfacts
  obtain ⟨hcount, htype⟩ := Prod.mk.inj hs'
  obtain ⟨c, hc, hidle⟩ := Option.map_eq_some_iff.mp htype
  have hreach : (machine .roundRobin 4).ReachableIf Harmless s := Machine.reachableIf_of_runIf hs
  obtain ⟨hforgotten, hserve⟩ := deregistration_harmless hreach
  have hrun := deregisterClient_eq (UnorderedMap.mem_keys_of_find? hc)
  exact ⟨s, _, hs, hrun, (hforgotten 0 c _ hc hrun).mpr hidle, hserve (by omega)⟩

/-- A client that leaves with a request pending keeps its place in `underQueue`
and its share of `requestCount`, and the next worker throws. -/
theorem deregistration_with_pending_request :
    ∃ s t : Scheduler ℚ, (machine .credit 4).run (init 4)
        [.registerClient 0 64 (.splice 0), .enqueue 0 0 100 (.splice 0)] = some s ∧
      0 ∈ s.registered ∧ s.deregisterClient 0 = .ok t ∧ t.requestCount = 1 ∧ t.totalPending = 0 ∧
      0 ∈ t.underQueue.values ∧ ¬ t.Forgotten 0 ∧
      (t.schedule .credit).map Prod.fst =
        .error (.runtimeError "Scheduler: clientId 0 not registered") ∧
      (t.schedule .roundRobin).map Prod.fst =
        .error (.runtimeError "FileCompressionHandler: no requests to process") := by
  refine ⟨_, _, rfl, ?_, rfl, ?_, ?_, ?_, ?_, ?_, ?_⟩
  · decide +kernel
  · decide +kernel
  · decide +kernel
  · decide +kernel
  · intro h
    exact absurd h.count (by decide +kernel)
  · decide +kernel
  · decide +kernel

end Steps

end TinyFile.Scheduler
