import TinyFile.Delivery
import TinyFile.RoundRobin

/-!
# The order of service under round-robin

The scan goes on where the last call stopped, so before it comes to a client
that waits it meets every other client at most once. Clients that appear in
between are met in their place; the others keep theirs.
-/
namespace TinyFile.Scheduler

variable {κ : Type}

/-- What the scan meets before the client, from the stored iterator on. -/
def Cursor.ahead (it : Cursor ℤ) (keys : List ℤ) (c : ℤ) : List ℤ :=
  match it with
  | .atEnd => CyclicScan.ahead keys [] c
  | .atKey k => CyclicScan.ahead keys (keys.dropWhile (fun j => j ≠ k)) c
  | .invalid => []

def ahead (s : Scheduler κ) (c : ℤ) : List ℤ :=
  Cursor.ahead s.requestMapIterator s.requestMap.keys c

/-- Requests lie under their own client, and an iterator that is not invalidated
is the end or rests on an entry. -/
structure Coherent (s : Scheduler κ) : Prop where
  owner : ∀ k, ∀ r ∈ s.pending k, r.clientId = k
  resting : ∀ k, s.requestMapIterator = .atKey k → k ∈ s.requestMap.keys

theorem ahead_of_entries {s : Scheduler κ} {entries : List (ℤ × List Request)}
    (h : s.requestMapIterator.entriesFrom s.requestMap = some entries) (c : ℤ) :
    s.ahead c = CyclicScan.ahead s.requestMap.keys (entries.map Prod.fst) c := by
  rcases keys_entriesFrom h with ⟨hit, rfl⟩ | ⟨k, -, hit, hkeys⟩
  · simp only [ahead, hit, Cursor.ahead, List.map_nil]
  · simp only [ahead, hit, Cursor.ahead, hkeys]

/-- The iterator past an entry. -/
theorem ahead_ofEntries {keys before : List ℤ} {after : List (ℤ × List Request)}
    (hnd : keys.Nodup) (hkeys : keys = before ++ after.map Prod.fst) (c : ℤ) :
    Cursor.ahead (Cursor.ofEntries after) keys c =
      CyclicScan.ahead keys (after.map Prod.fst) c := by
  cases after with
  | nil => rfl
  | cons e after =>
    have hnot : e.1 ∉ before := by
      rw [hkeys] at hnd
      exact fun hm => (List.nodup_append.mp hnd).2.2 e.1 hm e.1 (by simp) rfl
    have hdrop : keys.dropWhile (fun j => j ≠ e.1) = (e :: after).map Prod.fst := by
      rw [hkeys, List.map_cons]
      exact CyclicScan.dropWhile_ne_append hnot
    simp only [Cursor.ofEntries, Cursor.ahead, hdrop]

/-- One call of `scheduleRoundRobin` while `c` waits: it serves `c`, or a client
ahead of `c` that is not ahead of it any more. -/
theorem schedule_ahead {s t : Scheduler κ} {r : Request} (h : s.Coherent)
    (hrun : s.scheduleRoundRobin = .ok (r, t)) {c : ℤ} (hc : s.pending c ≠ []) :
    (s.pending r.clientId).head? = some r ∧ t.requestMap.keys = s.requestMap.keys ∧
      (∀ k, k ≠ r.clientId → t.pending k = s.pending k) ∧
      (r.clientId ≠ c → r.clientId ∈ s.ahead c ∧ r.clientId ∉ t.ahead c ∧
        ∀ j ∈ t.ahead c, j ∈ s.ahead c) := by
  obtain ⟨entries, front, skipped, k, rest, after, hentries, hsplit, hempty, hpos, rfl⟩ :=
    scheduleRoundRobin_cases hrun
  have hfind : s.requestMap.find? k = some (r :: rest) :=
    UnorderedMap.find?_eq_some_iff.mpr (by simp [hsplit])
  have hpending : s.pending k = r :: rest := by simp [pending, hfind]
  obtain rfl : r.clientId = k := h.owner k r (by simp [hpending])
  refine ⟨by simp [hpending], UnorderedMap.keys_modify _ _ _, fun j hj => ?_, fun hrc => ?_⟩
  · simp [pending, UnorderedMap.find?_modify_of_ne _ hj]
  have hkeys : s.requestMap.keys = front.map Prod.fst ++
      (skipped.map Prod.fst ++ r.clientId :: after.map Prod.fst) := by
    simp [UnorderedMap.keys, hsplit]
  -- a client without requests is not `c`
  have hnot : ∀ es : List (ℤ × List Request), (∀ e ∈ es, e ∈ s.requestMap.entries) →
      (∀ e ∈ es, e.2 = []) → c ∉ es.map Prod.fst := by
    intro es hmem hnil hm
    obtain ⟨⟨j, l⟩, he, rfl⟩ := List.mem_map.mp hm
    have hl : s.requestMap.find? j = some l := UnorderedMap.find?_eq_some_iff.mpr (hmem _ he)
    exact hc (by simpa [pending, hl] using hnil _ he)
  have hsuffix : ∀ e ∈ entries, e ∈ s.requestMap.entries := by
    rcases keys_entriesFrom hentries with ⟨-, rfl⟩ | ⟨j, hj, hit, -⟩
    · simp
    · rw [hit, Cursor.entriesFrom, if_pos hj, Option.some.injEq] at hentries
      exact fun e he => (List.dropWhile_suffix _).subset (hentries ▸ he)
  have hrest : entries.map Prod.fst =
      skipped.map Prod.fst ++ r.clientId :: after.map Prod.fst ∨
      front.map Prod.fst = [] ∧ c ∉ entries.map Prod.fst := by
    rcases hpos with rfl | ⟨rfl, hnil⟩
    · exact Or.inl (by simp)
    · exact Or.inr ⟨rfl, hnot entries hsuffix hnil⟩
  have hstep := CyclicScan.ahead_step s.requestMap.nodup_keys hkeys
    (UnorderedMap.mem_keys_of_find? (find?_of_pending hc)) (Ne.symm hrc)
    (hnot skipped (by simp +contextual [hsplit]) hempty) hrest
  have hbehind : s.requestMap.keys = (front.map Prod.fst ++
      (skipped.map Prod.fst ++ [r.clientId])) ++ after.map Prod.fst := by simp [hkeys]
  rw [ahead_of_entries hentries, ahead, UnorderedMap.keys_modify,
    ahead_ofEntries s.requestMap.nodup_keys hbehind]
  exact hstep

/-- A new key in the map, put anywhere among the others: only the new client may
come ahead of `c`. -/
theorem enqueue_ahead {s : Scheduler κ} (h : s.Coherent) {keys : List ℤ} (hnd : keys.Nodup)
    (hsub : s.requestMap.keys.Sublist keys) {it : Cursor ℤ}
    (hit : it = s.requestMapIterator ∨ it = .invalid) {c : ℤ} (hc : c ∈ s.requestMap.keys) :
    ∀ j ∈ Cursor.ahead it keys c, j ∈ s.requestMap.keys → j ∈ s.ahead c := by
  intro j hj hjk
  rcases hit with rfl | rfl
  · have hfilter := CyclicScan.filter_mem_of_sublist hsub hnd
    have hkept : ∀ rest : List ℤ, j ∈ CyclicScan.ahead keys rest c →
        j ∈ CyclicScan.ahead s.requestMap.keys
          (rest.filter (fun a => a ∈ s.requestMap.keys)) c := by
      intro rest hm
      have hahead : CyclicScan.ahead (keys.filter (fun a => a ∈ s.requestMap.keys))
          (rest.filter (fun a => a ∈ s.requestMap.keys)) c =
          (CyclicScan.ahead keys rest c).filter (fun a => a ∈ s.requestMap.keys) :=
        CyclicScan.ahead_filter (by simpa using hc) keys rest
      rw [hfilter] at hahead
      rw [hahead]
      exact List.mem_filter.mpr ⟨hm, by simpa using hjk⟩
    rw [ahead]
    cases hit : s.requestMapIterator with
    | atEnd =>
      rw [hit] at hj
      exact hkept [] hj
    | atKey k =>
      rw [hit] at hj
      have hk := h.resting k hit
      have hdrop : (keys.filter (fun a => a ∈ s.requestMap.keys)).dropWhile (fun a => a ≠ k) =
          (keys.dropWhile (fun a => a ≠ k)).filter (fun a => a ∈ s.requestMap.keys) :=
        CyclicScan.dropWhile_ne_filter (by simpa using hk) keys
      rw [hfilter] at hdrop
      simp only [Cursor.ahead, hdrop]
      exact hkept _ hj
    | invalid =>
      rw [hit] at hj
      exact absurd hj List.not_mem_nil
  · exact absurd hj List.not_mem_nil

theorem afterSubscript_eq (it : Cursor ℤ) (m : UnorderedMap ℤ (List Request)) (k : ℤ)
    (p : Placement ℤ) : it.afterSubscript m k p = it ∨ it.afterSubscript m k p = .invalid := by
  cases it with
  | atEnd => cases p <;> exact Or.inl rfl
  | atKey j =>
    cases p with
    | splice i => exact Or.inl rfl
    | rehash order =>
      simp only [Cursor.afterSubscript]
      split_ifs
      · exact Or.inl rfl
      · exact Or.inr rfl
  | invalid => cases p <;> exact Or.inl rfl

section Steps

variable [Add κ] [Sub κ] [Mul κ] [Div κ] [NatCast κ] [IntCast κ] [Zero κ] [LT κ] [DecidableLT κ]

namespace RoundRobin

/-- The steps that erase no client and keep the existing clients in their order
in `requestMap`. -/
def KeepsKeys (s : Scheduler κ) : Event → Prop
  | .deregisterClient _ => False
  | .enqueue k _ _ p => s.requestMap.keys.Sublist (s.requestMap.emplace k [] p).keys
  | _ => True

instance (s : Scheduler κ) (e : Event) : Decidable (KeepsKeys s e) :=
  match e with
  | .registerClient .. => isTrue trivial
  | .enqueue .. => inferInstanceAs (Decidable (List.Sublist _ _))
  | .schedule => isTrue trivial
  | .deregisterClient _ => isFalse id

theorem coherent_step {s t : Scheduler κ} {e : Event} (h : s.Coherent) (ht : next s e = some t) :
    t.Coherent := by
  cases e with
  | registerClient k priority p =>
    obtain rfl : s.registerClient k priority p = t := Option.some.inj ht
    exact ⟨h.owner, h.resting⟩
  | enqueue k requestId fileSize p =>
    have hrun := enqueue_of_next ht
    obtain ⟨hmap, hit, -⟩ := requests_of_enqueue hrun
    obtain ⟨hpending, hmem, -⟩ := push_spec s.requestMap k ⟨k, requestId, fileSize⟩ p
    refine ⟨fun j r hr => ?_, fun j hj => ?_⟩
    · rw [pending, hmap, hpending] at hr
      split_ifs at hr with he
      · rcases List.mem_append.mp hr with hr | hr
        · exact (h.owner k r hr).trans he.symm
        · rw [List.mem_singleton.mp hr, he]
      · exact h.owner j r hr
    · rw [hmap, hmem]
      rcases afterSubscript_eq s.requestMapIterator s.requestMap k p with heq | heq
      · exact Or.inr (h.resting j (by rw [← heq, ← hit, hj]))
      · rw [hit, heq] at hj
        cases hj
  | schedule =>
    obtain ⟨r, hrun⟩ := schedule_of_next ht
    have husable := iteratorUsable_of_schedule hrun
    obtain ⟨-, front, skipped, k, rest, after, -, hsplit, -, -, rfl⟩ :=
      scheduleRoundRobin_cases hrun
    have hfind : s.requestMap.find? k = some (r :: rest) :=
      UnorderedMap.find?_eq_some_iff.mpr (by simp [hsplit])
    refine ⟨fun j r' hr => ?_, fun j hj => ?_⟩
    · simp only [pending, UnorderedMap.find?_modify] at hr
      split_ifs at hr with he
      · subst he
        have hp : s.pending j = r :: rest := by simp [pending, hfind]
        rw [hfind] at hr
        exact h.owner j r' (hp ▸ List.mem_cons_of_mem r hr)
      · exact h.owner j r' hr
    · rcases husable with hend | ⟨i, hi, hat⟩
      · rw [hend] at hj
        cases hj
      · rw [hat] at hj
        cases hj
        exact hi
  | deregisterClient k =>
    obtain rfl := without_of_next ht
    refine ⟨fun j r hr => ?_, fun j hj => ?_⟩
    · simp only [pending, without, UnorderedMap.find?_erase] at hr
      split_ifs at hr
      · simp at hr
      · exact h.owner j r hr
    · simp only [without, Cursor.afterErase] at hj ⊢
      split_ifs at hj with hat
      exact UnorderedMap.mem_keys_erase.mpr ⟨h.resting j hj, fun he => hat (he ▸ hj)⟩

theorem coherent_of_reachable {numWorkers : ℕ} {s : Scheduler κ}
    (h : (machine numWorkers).Reachable s) : s.Coherent :=
  h.invariant ⟨by simp [machine, init, pending], by simp [machine, init]⟩
    fun _ _ _ hs hnext => coherent_step hs hnext

/-- The clients whose requests are returned while `c` waits. -/
def servedBefore (numWorkers : ℕ) (s : Scheduler κ) (es : List Event) (c : ℤ) : List ℤ :=
  ((returned (machine numWorkers) .roundRobin s es).map Request.clientId).takeWhile (fun k => k ≠ c)

/-- Before `c` is served only clients ahead of it and clients that are new are,
each once, and then `c` gets its oldest request. -/
theorem servedBefore_run {numWorkers : ℕ} {s t : Scheduler κ} {es : List Event}
    (hrun : (machine numWorkers).RunIf KeepsKeys s es t) (h : s.Coherent) {c : ℤ}
    {oldest : Request} {rest : List Request} (hc : s.pending c = oldest :: rest) :
    (servedBefore numWorkers s es c).Nodup ∧
      (∀ j ∈ servedBefore numWorkers s es c, j ∈ s.ahead c ∨ j ∉ s.requestMap.keys) ∧
      ∀ r ∈ (returned (machine numWorkers) .roundRobin s es).find? (fun r => r.clientId = c),
        r = oldest := by
  induction hrun generalizing rest with
  | nil s => simp [servedBefore, returned]
  | @cons s u t e es hnext hok _ ih =>
    have hu : u.Coherent := coherent_step h hnext
    have hck : c ∈ s.requestMap.keys :=
      UnorderedMap.mem_keys_of_find? (find?_of_pending (by simp [hc]))
    -- a step that returns nothing leaves `c` waiting and may only add a client
    have hquiet : s.returnedBy .roundRobin e = [] → (∃ rest', u.pending c = oldest :: rest') →
        (∀ j ∈ u.ahead c, j ∈ s.requestMap.keys → j ∈ s.ahead c) →
        (∀ j ∈ s.requestMap.keys, j ∈ u.requestMap.keys) →
        (servedBefore numWorkers s (e :: es) c).Nodup ∧
          (∀ j ∈ servedBefore numWorkers s (e :: es) c, j ∈ s.ahead c ∨ j ∉ s.requestMap.keys) ∧
          ∀ r ∈ (returned (machine numWorkers) .roundRobin s (e :: es)).find?
            (fun r => r.clientId = c), r = oldest := by
      rintro hnone ⟨rest', hc'⟩ hahead hkeys
      obtain ⟨hnd, hserved, hfirst⟩ := ih hu hc'
      rw [servedBefore, returned_cons hnext, hnone, List.nil_append]
      refine ⟨hnd, fun j hj => ?_, hfirst⟩
      by_cases hjk : j ∈ s.requestMap.keys
      · exact Or.inl (hahead j ((hserved j hj).resolve_right (fun hn => hn (hkeys j hjk))) hjk)
      · exact Or.inr hjk
    cases e with
    | registerClient k priority p =>
      obtain rfl : s.registerClient k priority p = u := Option.some.inj hnext
      exact hquiet rfl ⟨rest, hc⟩ (fun j hj _ => hj) (fun j hj => hj)
    | deregisterClient k => exact absurd hok id
    | enqueue k requestId fileSize p =>
      have henq := enqueue_of_next hnext
      obtain ⟨hmap, hit, -⟩ := requests_of_enqueue henq
      obtain ⟨hpending, -, -⟩ := push_spec s.requestMap k ⟨k, requestId, fileSize⟩ p
      have hkeys := keys_of_enqueue henq
      refine hquiet rfl ?_ ?_ ?_
      · have hcu := hpending c
        rw [← hmap] at hcu
        change u.pending c = _ at hcu
        change (s.requestMap.find? c).getD [] = _ at hc
        rw [hcu]
        split_ifs with he
        · exact ⟨_, by rw [← he, hc, List.cons_append]⟩
        · exact ⟨rest, hc⟩
      · rw [ahead]
        refine enqueue_ahead h u.requestMap.nodup_keys (hkeys ▸ hok) ?_ hck
        rw [hit]
        exact afterSubscript_eq _ _ _ _
      · intro j hj
        rw [hkeys, UnorderedMap.mem_keys_emplace]
        exact Or.inr hj
    | schedule =>
      obtain ⟨r, hsched⟩ := schedule_of_next hnext
      obtain ⟨hhead, hkeys, hother, hahead⟩ := schedule_ahead h hsched
        (show s.pending c ≠ [] by simp [hc])
      have hby : s.returnedBy .roundRobin .schedule = [r] := by
        simp only [returnedBy, Scheduler.schedule, hsched]
      rw [servedBefore, returned_cons hnext, hby, List.singleton_append, List.map_cons]
      by_cases hrc : r.clientId = c
      · rw [List.takeWhile_cons_of_neg (by simpa using hrc),
          List.find?_cons_of_pos (by simpa using hrc)]
        refine ⟨List.nodup_nil, by simp, fun r' hr' => ?_⟩
        obtain rfl : r = r' := by simpa using hr'
        rw [hrc, hc] at hhead
        simpa using hhead.symm
      · obtain ⟨hmem, hnot, hsubset⟩ := hahead hrc
        obtain ⟨hnd, hserved, hfirst⟩ := ih hu ((hother c (Ne.symm hrc)).trans hc)
        rw [List.takeWhile_cons_of_pos (by simpa using hrc),
          List.find?_cons_of_neg (by simpa using hrc)]
        have hrk : r.clientId ∈ u.requestMap.keys := by
          rw [hkeys]
          refine UnorderedMap.mem_keys_of_find? (find?_of_pending ?_)
          intro hnil
          simp [hnil] at hhead
        refine ⟨List.nodup_cons.mpr ⟨fun hm => ?_, hnd⟩, fun j hj => ?_, hfirst⟩
        · exact (hserved _ hm).elim hnot (fun hn => hn hrk)
        · rcases List.mem_cons.mp hj with rfl | hj
          · exact Or.inl hmem
          · rw [← hkeys]
            exact (hserved j hj).imp_left (hsubset j)

/-- From every reachable state, in every continuation that erases no client and
keeps the clients in their order: before the oldest request of `c` is returned,
every other client is returned at most once. -/
theorem returned_once_before_waiting {numWorkers : ℕ} {s t : Scheduler κ} {es : List Event}
    (hs : (machine numWorkers).Reachable s) {c : ℤ} {oldest : Request} {rest : List Request}
    (hc : s.pending c = oldest :: rest)
    (hrun : (machine numWorkers).RunIf KeepsKeys s es t) :
    (((returned (machine numWorkers) .roundRobin s es).map Request.clientId).takeWhile
        (fun k => k ≠ c)).Nodup ∧
      ∀ r ∈ (returned (machine numWorkers) .roundRobin s es).find? (fun r => r.clientId = c),
        r = oldest := by
  obtain ⟨hnd, -, hfirst⟩ := servedBefore_run hrun (coherent_of_reachable hs) hc
  exact ⟨hnd, hfirst⟩

/-- Client 1 waits behind client 0 while client 2 comes in between. -/
theorem returned_once_before_waiting_newcomer :
    ∃ s t : Scheduler ℚ, (machine 4).run (init 4)
        [.registerClient 0 64 (.splice 0), .registerClient 1 64 (.splice 1),
          .registerClient 2 64 (.splice 2), .enqueue 0 0 100 (.splice 0),
          .enqueue 0 1 100 (.splice 0), .enqueue 1 0 100 (.splice 1)] = some s ∧
      (machine 4).runIf KeepsKeys s
        [.schedule, .enqueue 2 0 100 (.splice 1), .schedule, .schedule] = some t ∧
      (((returned (machine 4) .roundRobin s
        [.schedule, .enqueue 2 0 100 (.splice 1), .schedule, .schedule]).map
          Request.clientId).takeWhile (fun k => k ≠ 1)).Nodup := by
  have hrun : ((machine 4).run (init 4 : Scheduler ℚ)
      [.registerClient 0 64 (.splice 0), .registerClient 1 64 (.splice 1),
        .registerClient 2 64 (.splice 2), .enqueue 0 0 100 (.splice 0),
        .enqueue 0 1 100 (.splice 0), .enqueue 1 0 100 (.splice 1)]).bind (fun s =>
      ((machine 4).runIf KeepsKeys s
        [.schedule, .enqueue 2 0 100 (.splice 1), .schedule, .schedule]).map
          (fun _ => s.pending 1)) = some [⟨1, 0, 100⟩] := by decide +kernel
  obtain ⟨s, hs, hrest⟩ := Option.bind_eq_some_iff.mp hrun
  obtain ⟨t, ht, hc⟩ := Option.map_eq_some_iff.mp hrest
  exact ⟨s, t, hs, ht, (returned_once_before_waiting (Machine.reachable_of_run hs) hc
    (Machine.RunIf.of_runIf ht)).1⟩

end RoundRobin

end Steps

end TinyFile.Scheduler
