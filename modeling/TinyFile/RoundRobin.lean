import TinyFile.CyclicScan
import TinyFile.SoundScheduler

/-!
# The round-robin scan

Where the stored iterator may rest, and in what order the scan serves. The
operations come in any order here, and a client may also register twice; a step
that throws, or uses an invalidated iterator, has no successor.
-/
namespace TinyFile.Scheduler

variable {κ : Type}

section Iterator

theorem keys_entriesFrom {c : Cursor ℤ} {m : UnorderedMap ℤ (List Request)}
    {entries : List (ℤ × List Request)} (h : c.entriesFrom m = some entries) :
    c = .atEnd ∧ entries = [] ∨
      ∃ k ∈ m.keys, c = .atKey k ∧ entries.map Prod.fst = m.keys.dropWhile (fun j => j ≠ k) := by
  cases c with
  | atEnd =>
    obtain rfl : [] = entries := by simpa [Cursor.entriesFrom] using h
    exact Or.inl ⟨rfl, rfl⟩
  | atKey k =>
    simp only [Cursor.entriesFrom] at h
    split_ifs at h with hk
    cases h
    refine Or.inr ⟨k, hk, rfl, ?_⟩
    rw [UnorderedMap.keys, List.dropWhile_map]
    rfl
  | invalid => cases h

/-- What a call of `scheduleRoundRobin` that returns has done: it has passed
over clients without requests, perhaps from the stored iterator to the end first. -/
theorem scheduleRoundRobin_cases {s t : Scheduler κ} {r : Request}
    (h : s.scheduleRoundRobin = .ok (r, t)) :
    ∃ entries front skipped k rest after,
      s.requestMapIterator.entriesFrom s.requestMap = some entries ∧
      s.requestMap.entries = front ++ (skipped ++ (k, r :: rest) :: after) ∧
      (∀ e ∈ skipped, e.2 = []) ∧
      (entries = skipped ++ (k, r :: rest) :: after ∨ front = [] ∧ ∀ e ∈ entries, e.2 = []) ∧
      t = { s with
        requestMap := s.requestMap.modify k List.tail
        requestMapIterator := .ofEntries after
        requestCount := s.requestCount - 1 } := by
  simp only [scheduleRoundRobin] at h
  split at h
  · cases h
  · next entries hentries =>
    obtain ⟨before, hsplit⟩ : ∃ before, s.requestMap.entries = before ++ entries := by
      obtain ⟨before, entries', hentries', hsplit⟩ := entriesFrom_isSome (s := s) (by
        rcases keys_entriesFrom hentries with ⟨hend, -⟩ | ⟨k, hk, hat, -⟩
        · exact Or.inl hend
        · exact Or.inr ⟨k, hk, hat⟩)
      obtain rfl : entries' = entries := Option.some.inj (hentries'.symm.trans hentries)
      exact ⟨before, hsplit⟩
    split at h
    · cases h
    · next k r' it hfound =>
      obtain ⟨rfl, rfl⟩ : r' = r ∧ _ = t := by simpa using h
      rcases Option.or_eq_some_iff.mp hfound with hscan | ⟨hnone, hscan⟩
      · obtain ⟨skipped, rest, after, heq, rfl, hempty⟩ := scan_eq_some hscan
        exact ⟨entries, before, skipped, k, rest, after, hentries, by rw [hsplit, heq], hempty,
          Or.inl heq, rfl⟩
      · obtain ⟨skipped, rest, after, heq, rfl, hempty⟩ := scan_eq_some hscan
        exact ⟨entries, [], skipped, k, rest, after, hentries, by rw [heq]; rfl, hempty,
          Or.inr ⟨rfl, scan_eq_none_iff.mp hnone⟩, rfl⟩

/-- A call that returns leaves a usable iterator. -/
theorem iteratorUsable_of_schedule {s t : Scheduler κ} {r : Request}
    (h : s.scheduleRoundRobin = .ok (r, t)) : t.IteratorUsable := by
  obtain ⟨-, front, skipped, k, rest, after, -, hsplit, -, -, rfl⟩ := scheduleRoundRobin_cases h
  have hkeys := ofEntries_mem (front ++ (skipped ++ [(k, r :: rest)])) after
  rw [IteratorUsable, UnorderedMap.keys_modify, UnorderedMap.keys, hsplit]
  simpa using hkeys

end Iterator

section Steps

variable [Add κ] [Sub κ] [Mul κ] [Div κ] [NatCast κ] [IntCast κ] [Zero κ] [LT κ] [DecidableLT κ]

namespace RoundRobin

/-- One operation in any order. -/
def next (s : Scheduler κ) : Event → Option (Scheduler κ)
  | .registerClient clientId priority p => some (s.registerClient clientId priority p)
  | e => Scheduler.next .roundRobin s e

def machine (numWorkers : ℕ) : Machine (Scheduler κ) Event where
  start := init numWorkers
  next := next

/-- The steps that leave the stored iterator usable. -/
def KeepsIterator (s : Scheduler κ) : Event → Prop
  | .deregisterClient k => s.requestMapIterator ≠ .atKey k
  | .enqueue k _ _ (.rehash _) => k ∈ s.requestMap.keys ∨ s.requestMapIterator = .atEnd
  | _ => True

instance (s : Scheduler κ) (e : Event) : Decidable (KeepsIterator s e) :=
  match e with
  | .registerClient .. => isTrue trivial
  | .enqueue _ _ _ (.splice _) => isTrue trivial
  | .enqueue _ _ _ (.rehash _) => inferInstanceAs (Decidable (_ ∨ _))
  | .schedule => isTrue trivial
  | .deregisterClient _ => inferInstanceAs (Decidable (_ ≠ _))

theorem schedule_of_next {s t : Scheduler κ} (h : next s .schedule = some t) :
    ∃ r, s.scheduleRoundRobin = .ok (r, t) :=
  let ⟨_, r, hr⟩ := Scheduler.schedule_of_next h
  ⟨r, hr⟩

theorem enqueue_of_next {s t : Scheduler κ} {k requestId : ℤ} {fileSize : ℕ} {p : Placement ℤ}
    (h : next s (.enqueue k requestId fileSize p) = some t) :
    s.enqueue k requestId fileSize p = (.ok (), t) :=
  Scheduler.enqueue_of_next
    (show Scheduler.next .roundRobin s (.enqueue k requestId fileSize p) = some t from h)

theorem without_of_next {s t : Scheduler κ} {k : ℤ} (h : next s (.deregisterClient k) = some t) :
    s.without k = t := by
  obtain ⟨hrun, hk⟩ := Scheduler.deregisterClient_of_next
    (show Scheduler.next .roundRobin s (.deregisterClient k) = some t from h)
  rw [deregisterClient_eq hk] at hrun
  exact Except.ok.inj hrun

/-- From a usable iterator a step leads to a usable one exactly when it meets
the condition. -/
theorem iteratorUsable_step {s t : Scheduler κ} {e : Event} (h : s.IteratorUsable)
    (ht : next s e = some t) : t.IteratorUsable ↔ KeepsIterator s e := by
  cases e with
  | registerClient k priority p =>
    obtain rfl : s.registerClient k priority p = t := Option.some.inj ht
    exact ⟨fun _ => trivial, fun _ => h⟩
  | schedule =>
    obtain ⟨r, hrun⟩ := schedule_of_next ht
    exact ⟨fun _ => trivial, fun _ => iteratorUsable_of_schedule hrun⟩
  | enqueue k requestId fileSize p =>
    have hrun := enqueue_of_next ht
    obtain ⟨-, hit, -⟩ := requests_of_enqueue hrun
    have hmem : ∀ j ∈ s.requestMap.keys, j ∈ t.requestMap.keys := by
      intro j hj
      rw [keys_of_enqueue hrun, UnorderedMap.mem_keys_emplace]
      exact Or.inr hj
    cases p with
    | splice i =>
      refine ⟨fun _ => trivial, fun _ => afterSubscript_usable h ?_ hmem hit⟩
      rintro order ⟨⟩
    | rehash order =>
      refine ⟨fun husable => ?_, fun hok => afterSubscript_usable h ?_ hmem hit⟩
      · by_contra hbad
        obtain ⟨hk, hend⟩ := not_or.mp hbad
        obtain ⟨j, -, hat⟩ := h.resolve_left hend
        rw [hat, Cursor.afterSubscript, if_neg hk] at hit
        simp [IteratorUsable, hit] at husable
      · rintro order' -
        exact hok
  | deregisterClient k =>
    obtain rfl := without_of_next ht
    constructor
    · intro husable hat
      have hit : (s.without k).requestMapIterator = .invalid := by
        simp [without, hat, Cursor.afterErase]
      simp [IteratorUsable, hit] at husable
    · intro hne
      rcases h with hend | ⟨j, hj, hat⟩
      · exact Or.inl (by simp [without, hend, Cursor.afterErase])
      · have hjk : j ≠ k := fun he => hne (he ▸ hat)
        exact Or.inr ⟨j, UnorderedMap.mem_keys_erase.mpr ⟨hj, hjk⟩,
          by simp [without, hat, Cursor.afterErase, hjk]⟩

/-- In runs of steps that meet the condition the stored iterator is the end or
rests on an entry whenever `scheduleRoundRobin` starts, and every other step
ends that. -/
theorem iterator_always_usable {numWorkers : ℕ} {s : Scheduler κ}
    (h : (machine numWorkers).ReachableIf KeepsIterator s) :
    s.IteratorUsable ∧ ∀ e t, next s e = some t → (t.IteratorUsable ↔ KeepsIterator s e) := by
  have husable : s.IteratorUsable :=
    h.invariant (Or.inl rfl) fun s e t hs hnext hok => (iteratorUsable_step hs hnext).mpr hok
  exact ⟨husable, fun e t => iteratorUsable_step husable⟩

/-- Two clients with a request each; after the first call the iterator rests on
client 1. -/
def restingOnOne : List Event :=
  [.registerClient 0 64 (.splice 0), .registerClient 1 64 (.splice 1),
    .registerClient 2 64 (.splice 2), .enqueue 0 0 100 (.splice 0), .enqueue 1 0 100 (.splice 1),
    .schedule]

theorem iterator_always_usable_resting :
    ∃ s : Scheduler ℚ, (machine 4).runIf KeepsIterator (init 4) restingOnOne = some s ∧
      s.requestMapIterator = .atKey 1 ∧ s.IteratorUsable := by
  have hrun : ((machine 4).runIf KeepsIterator (init 4 : Scheduler ℚ) restingOnOne).map
      requestMapIterator = some (.atKey 1) := by decide +kernel
  obtain ⟨s, hs, hit⟩ := Option.map_eq_some_iff.mp hrun
  exact ⟨s, hs, hit, (iterator_always_usable (Machine.reachableIf_of_runIf hs)).1⟩

/-- Client 1 leaves, or the first request of client 2 makes the table grow; the
next call dereferences the iterator. -/
theorem iterator_left_dangling :
    (∃ s : Scheduler ℚ, (machine 4).run (init 4)
        (restingOnOne ++ [.enqueue 0 1 100 (.splice 0), .deregisterClient 1]) = some s ∧
      ¬ s.IteratorUsable ∧ 0 < s.requestCount ∧ (s.schedule .roundRobin).map Prod.fst =
        .error (.undefinedBehavior "use of an invalidated requestMapIterator")) ∧
    ∃ s : Scheduler ℚ, (machine 4).run (init 4)
        (restingOnOne ++ [.enqueue 2 0 100 (.rehash [2, 1, 0])]) = some s ∧
      ¬ s.IteratorUsable ∧ 0 < s.requestCount ∧ (s.schedule .roundRobin).map Prod.fst =
        .error (.undefinedBehavior "use of an invalidated requestMapIterator") := by
  have husable : ∀ s : Scheduler ℚ, s.requestMapIterator = .invalid → ¬ s.IteratorUsable :=
    fun s hs h => by simp [IteratorUsable, hs] at h
  refine ⟨⟨_, rfl, husable _ ?_, ?_, ?_⟩, ⟨_, rfl, husable _ ?_, ?_, ?_⟩⟩ <;> decide +kernel

end RoundRobin

end Steps

end TinyFile.Scheduler
