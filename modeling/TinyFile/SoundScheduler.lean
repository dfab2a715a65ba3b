import TinyFile.Deregistration

/-!
# What the service asks of its scheduler

While the scheduler is sound, a registered client can enqueue, a worker that
passes the wait is given a request of a registered client, and a client without
requests can leave. Under round-robin the credit queues may keep clients that
have left: nothing reads them.
-/
namespace TinyFile.Scheduler

variable {κ : Type}

/-- The stored iterator can be used. -/
def IteratorUsable (s : Scheduler κ) : Prop :=
  s.requestMapIterator = .atEnd ∨ ∃ k ∈ s.requestMap.keys, s.requestMapIterator = .atKey k

def Sound : Strategy → Scheduler κ → Prop
  | .roundRobin, s => MapInvariant s ∧ s.IteratorUsable
  | .credit, s => CreditInvariant s

theorem Sound.map {st : Strategy} {s : Scheduler κ} (h : Sound st s) : MapInvariant s := by
  cases st with
  | roundRobin => exact h.1
  | credit => exact CreditInvariant.map h

theorem sound_init (st : Strategy) (numWorkers : ℕ) :
    Sound st (init numWorkers : Scheduler κ) := by
  cases st with
  | roundRobin => exact ⟨mapInvariant_init numWorkers, Or.inl rfl⟩
  | credit => exact creditInvariant_init numWorkers

theorem Sound.registerClient [IntCast κ] {st : Strategy} {s : Scheduler κ} (h : Sound st s)
    {k : ℤ} (hk : k ∉ s.registered) (priority : ℤ) (p : Placement ℤ) :
    Sound st (s.registerClient k priority p) := by
  cases st with
  | roundRobin =>
    exact ⟨h.1.enter (fun _ hj => mem_registered_registerClient.mpr (Or.inr hj)) rfl rfl, h.2⟩
  | credit => exact CreditInvariant.registerClient h hk priority p

/-- A registered client without requests leaves, when the iterator is not at its
entry. -/
theorem Sound.deregisterClient {st : Strategy} {s : Scheduler κ} (h : Sound st s) {k : ℤ}
    (hk : k ∈ s.registered) (hp : s.pending k = []) (hit : s.requestMapIterator ≠ .atKey k) :
    s.deregisterClient k = .ok (s.without k) ∧ Sound st (s.without k) ∧
      (∀ j, j ∈ (s.without k).registered ↔ j ∈ s.registered ∧ j ≠ k) ∧
      ∀ j, (s.without k).pending j = s.pending j := by
  have hrun := deregisterClient_eq hk
  obtain ⟨hmap, hpending⟩ := h.map.leave hp
  refine ⟨hrun, ?_, fun j => UnorderedMap.mem_keys_erase, hpending⟩
  cases st with
  | roundRobin =>
    refine ⟨hmap, ?_⟩
    rcases h.2 with hend | ⟨j, hj, hat⟩
    · exact Or.inl (by simp [without, hend, Cursor.afterErase])
    · have hne : j ≠ k := fun he => hit (he ▸ hat)
      exact Or.inr ⟨j, UnorderedMap.mem_keys_erase.mpr ⟨hj, hne⟩,
        by simp [without, hat, Cursor.afterErase, hne]⟩
  | credit =>
    obtain ⟨c, hc⟩ := UnorderedMap.mem_keys_iff.mp hk
    exact CreditInvariant.deregisterClient h hc ((h.idle_iff k c hc).mpr hp) hrun

section Sign

variable [Zero κ] [LT κ] [DecidableLT κ]

theorem sameRequests_append (s : Scheduler κ) (c : Credit κ) : SameRequests s (s.append c) := by
  unfold append
  split_ifs
  · exact ⟨rfl, rfl, rfl, rfl, UnorderedMap.keys_modify _ _ _⟩
  · exact ⟨rfl, rfl, rfl, rfl, UnorderedMap.keys_modify _ _ _⟩

theorem sameRequests_creditEnqueue (s : Scheduler κ) (c : Credit κ) :
    SameRequests s (s.creditEnqueue c) := by
  unfold creditEnqueue
  split_ifs
  · exact sameRequests_append s c
  · exact sameRequests_store s c.clientId c

/-- A registered client can always enqueue. -/
theorem enqueue_of_registered {s : Scheduler κ} {k : ℤ} (hk : k ∈ s.registered) (requestId : ℤ)
    (fileSize : ℕ) (p : Placement ℤ) :
    ∃ t, s.enqueue k requestId fileSize p = (.ok (), t) ∧ t.registered = s.registered := by
  obtain ⟨c, hc⟩ := UnorderedMap.mem_keys_iff.mp hk
  simp only [Scheduler.enqueue, hc, Prod.mk.injEq, true_and]
  exact ⟨_, rfl, (sameRequests_creditEnqueue _ c).keys⟩

/-- `enqueue`, as far as the requests and the iterator are concerned. -/
theorem requests_of_enqueue {s t : Scheduler κ} {k requestId : ℤ} {fileSize : ℕ} {p : Placement ℤ}
    (h : s.enqueue k requestId fileSize p = (.ok (), t)) :
    t.requestMap = (s.requestMap.emplace k [] p).modify k
      (fun requests => requests ++ [⟨k, requestId, fileSize⟩]) ∧
    t.requestMapIterator = s.requestMapIterator.afterSubscript s.requestMap k p ∧
    t.requestCount = s.requestCount + 1 := by
  obtain ⟨c, hc⟩ := registered_of_enqueue_ok h
  simp only [Scheduler.enqueue, hc, Prod.mk.injEq, true_and] at h
  subst h
  have hsame := sameRequests_creditEnqueue
    { s with
      requestMap := (s.requestMap.emplace k [] p).modify k
        (fun requests => requests ++ [⟨k, requestId, fileSize⟩])
      requestMapIterator := s.requestMapIterator.afterSubscript s.requestMap k p
      requestCount := s.requestCount + 1 } c
  exact ⟨hsame.requestMap, hsame.requestMapIterator, hsame.requestCount⟩

theorem keys_of_enqueue {s t : Scheduler κ} {k requestId : ℤ} {fileSize : ℕ} {p : Placement ℤ}
    (h : s.enqueue k requestId fileSize p = (.ok (), t)) :
    t.requestMap.keys = (s.requestMap.emplace k [] p).keys := by
  rw [(requests_of_enqueue h).1, UnorderedMap.keys_modify]

/-- A registered client can enqueue, when the insertion does not invalidate the
iterator. -/
theorem Sound.enqueue {st : Strategy} {s : Scheduler κ} (h : Sound st s) {k : ℤ}
    (hk : k ∈ s.registered) (requestId : ℤ) (fileSize : ℕ) {p : Placement ℤ}
    (hok : ∀ order, p = .rehash order → k ∈ s.requestMap.keys ∨ s.requestMapIterator = .atEnd) :
    ∃ s', s.enqueue k requestId fileSize p = (.ok (), s') ∧ Sound st s' ∧
      s'.registered = s.registered ∧
      ∀ j, j ≠ k → s'.pending j = s.pending j := by
  obtain ⟨s', hrun, hkeys⟩ := enqueue_of_registered hk requestId fileSize p
  obtain ⟨hmap, hit, hcount⟩ := requests_of_enqueue hrun
  obtain ⟨hpending, hmem, -⟩ := push_spec s.requestMap k ⟨k, requestId, fileSize⟩ p
  refine ⟨s', hrun, ?_, hkeys, ?_⟩
  · cases st with
    | roundRobin =>
      refine ⟨h.1.push hk rfl hmap hkeys hcount,
        afterSubscript_usable h.2 hok (fun j hj => ?_) hit⟩
      rw [hmap, hmem]
      exact Or.inr hj
    | credit => exact CreditInvariant.enqueue h hrun
  · intro j hj
    rw [pending, hmap, hpending, if_neg hj]
    rfl

end Sign

section Arithmetic

variable [Add κ] [Sub κ] [Mul κ] [Div κ] [NatCast κ] [IntCast κ] [Zero κ] [LT κ] [DecidableLT κ]

/-- A worker that passes the wait is given the first pending request of a client. -/
theorem Sound.schedule {st : Strategy} {s : Scheduler κ} (h : Sound st s)
    (hpos : 0 < s.requestCount) :
    ∃ r s' rest, s.schedule st = .ok (r, s') ∧ Sound st s' ∧ s'.registered = s.registered ∧
      s'.requestCount = s.requestCount - 1 ∧ s.pending r.clientId = r :: rest ∧
      ∀ j, s'.pending j = if j = r.clientId then rest else s.pending j := by
  cases st with
  | roundRobin =>
    obtain ⟨k, r, rest, it, -, hp, hit, hrun⟩ := scheduleRoundRobin_spec h.1 h.2 hpos
    obtain rfl : r.clientId = k := h.1.owner k r (hp ▸ List.mem_cons_self)
    obtain ⟨s', hs'⟩ : ∃ s' : Scheduler κ, s' =
      { s with
        requestMap := s.requestMap.modify r.clientId List.tail
        requestMapIterator := it
        requestCount := s.requestCount - 1 } := ⟨_, rfl⟩
    have htail : List.tail (r :: rest) = rest := rfl
    obtain ⟨hmap, hpending⟩ := h.1.pop hp htail (congrArg requestMap hs')
      (by rw [hs']) (by rw [hs'])
    rw [← hs'] at hrun
    refine ⟨r, s', rest, hrun, ⟨hmap, ?_⟩, by rw [hs']; rfl, by rw [hs'], hp, hpending⟩
    rw [IteratorUsable, hs', UnorderedMap.keys_modify]
    exact hit
  | credit =>
    obtain ⟨k, q, r, rest, s', -, -, hp, hrun, -, hserved, hcount⟩ := scheduleCredit_spec h hpos
    obtain ⟨r', t, hrun', -, -, hinv⟩ := CreditInvariant.scheduleCredit h hpos
    rw [hrun] at hrun'
    cases hrun'
    obtain rfl : r.clientId = k := h.map.owner k r (hp ▸ List.mem_cons_self)
    obtain ⟨-, hpending⟩ := h.map.pop hp rfl hserved.requestMap hserved.keys hcount
    exact ⟨r, s', rest, hrun, hinv, hserved.keys, hcount, hp, hpending⟩

end Arithmetic

end TinyFile.Scheduler
