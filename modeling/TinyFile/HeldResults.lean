import TinyFile.ServicerBookkeeping

/-!
# What a caller holds

A thread that makes all calls of a `Servicer` holds the ids it has not been given a
result for. Each has its entry in `requestMap` with the caller's own file, and a wait
returns that file's result, if the workers complete requests rightly.
-/
namespace TinyFile.Servicer

/-- The caller holds the ids `held` with their files, and is blocked in the calls
`blocked`. -/
structure Holds (compress : List UInt8 → List UInt8) (held : List (ℕ × List UInt8))
    (blocked : List ℕ) (s : Servicer) : Prop where
  books : Bookkeeping s
  blocked : s.waiting = blocked
  owned : (s.waiting ++ s.unclaimed).Perm (held.map Prod.fst)
  files : ∀ p ∈ held, ∃ d, s.requestMap p.1 = some ⟨p.1, p.2, d⟩ ∧
    ∀ compressedData ∈ d, compressedData = compress p.2
  handlers : ∀ handler ∈ s.handlers, ∃ r, s.requestMap handler.requestId = some r ∧
    r.src = handler.src

variable {compress : List UInt8 → List UInt8} {held : List (ℕ × List UInt8)} {blocked : List ℕ}
  {s t : Servicer}

theorem holds_init (compress : List UInt8 → List UInt8) (numWorkers : ℕ) :
    Holds compress [] [] (init numWorkers) where
  books := bookkeeping_init numWorkers
  blocked := rfl
  owned := List.Perm.refl _
  files := fun _ h => by cases h
  handlers := fun _ h => by cases h

/-- A step that leaves the entries, the handlers and the callers alone. -/
theorem Holds.congr (h : Holds compress held blocked s) (hbooks : Bookkeeping t)
    (hmap : t.requestMap = s.requestMap) (hhandlers : t.handlers = s.handlers)
    (hwaiting : t.waiting = s.waiting) (hunclaimed : t.unclaimed = s.unclaimed) :
    Holds compress held blocked t where
  books := hbooks
  blocked := hwaiting.trans h.blocked
  owned := by rw [hwaiting, hunclaimed]; exact h.owned
  files := by rw [hmap]; exact h.files
  handlers := by rw [hmap, hhandlers]; exact h.handlers

theorem Holds.nodup (h : Holds compress held blocked s) : (held.map Prod.fst).Nodup := by
  rw [← h.owned.nodup_iff, List.nodup_iff_count_le_one]
  intro id
  rw [List.count_append, h.books.owner]
  split_ifs <;> omega

/-- A new call. -/
theorem Holds.submit (h : Holds compress held blocked s) (src : List UInt8)
    (hbooks : Bookkeeping t) (hmap : t.requestMap = (s.submit src).requestMap)
    (hhandlers : t.handlers = s.handlers) {blocked' : List ℕ} (hwaiting : t.waiting = blocked')
    (howned : (t.waiting ++ t.unclaimed).Perm (s.waiting ++ s.unclaimed ++ [s.nextRequestId])) :
    Holds compress (held ++ [(s.nextRequestId, src)]) blocked' t where
  books := hbooks
  blocked := hwaiting
  owned := by
    rw [List.map_append]
    exact howned.trans (h.owned.append_right _)
  files := by
    intro p hp
    have hentry := requestMap_submit h.books src p.1
    rw [hmap, hentry]
    rcases List.mem_append.mp hp with hp | hp
    · obtain ⟨d, hd, hright⟩ := h.files p hp
      have hne : p.1 ≠ s.nextRequestId := by
        intro heq
        rw [heq, h.books.fresh] at hd
        cases hd
      exact ⟨d, by rw [if_neg hne, hd], hright⟩
    · obtain rfl := List.mem_singleton.mp hp
      exact ⟨none, if_pos rfl, fun _ hd => by cases hd⟩
  handlers := by
    intro handler hmem
    rw [hhandlers] at hmem
    obtain ⟨r, hr, hsrc⟩ := h.handlers handler hmem
    have hne : handler.requestId ≠ s.nextRequestId := by
      intro heq
      rw [heq, h.books.fresh] at hr
      cases hr
    exact ⟨r, by rw [hmap, requestMap_submit h.books, if_neg hne, hr], hsrc⟩

theorem Holds.callServiceSync (h : Holds compress held [] s) (halive : s.fault = none)
    (src : List UInt8) :
    Holds compress (held ++ [(s.nextRequestId, src)]) [s.nextRequestId]
      (s.callServiceSync src) := by
  have hbooks : Bookkeeping (s.callServiceSync src) :=
    h.books.next (e := .callServiceSync src) (by simp [next, halive])
  refine h.submit src hbooks rfl rfl ?_ ?_
  · rw [Servicer.callServiceSync, h.blocked, List.nil_append]
  · simp only [Servicer.callServiceSync, Servicer.submit, List.append_assoc]
    exact List.perm_append_comm.append_left _

theorem Holds.callServiceAsync (h : Holds compress held blocked s) (halive : s.fault = none)
    (src : List UInt8) :
    Holds compress (held ++ [(s.nextRequestId, src)]) blocked (s.callServiceAsync src) := by
  have hbooks : Bookkeeping (s.callServiceAsync src) :=
    h.books.next (e := .callServiceAsync src) (by simp [next, halive])
  refine h.submit src hbooks rfl rfl h.blocked ?_
  simp only [Servicer.callServiceAsync, Servicer.submit, List.append_assoc]
  exact List.Perm.refl _

/-- The end of the call that waits for the first of the results. -/
theorem Holds.finish {id : ℕ} {src : List UInt8} {r : Request} {data : List UInt8}
    (waiting unclaimed : List ℕ) (h : Holds compress ((id, src) :: held) blocked s)
    (hmap : s.requestMap id = some r) (hdata : r.compressedData = some data)
    (howned : (s.waiting ++ s.unclaimed).Perm (id :: (waiting ++ unclaimed)))
    (hbooks : Bookkeeping ({ s with waiting := waiting, unclaimed := unclaimed }.finish id data)) :
    data = compress src ∧ Holds compress held waiting
      ({ s with waiting := waiting, unclaimed := unclaimed }.finish id data) := by
  have hnodup := h.nodup
  rw [List.map_cons, List.nodup_cons] at hnodup
  refine ⟨?_, hbooks, rfl, ?_, fun p hp => ?_, fun handler hmem => ?_⟩
  · obtain ⟨d, hd, hright⟩ := h.files (id, src) List.mem_cons_self
    rw [hmap] at hd
    cases hd
    exact hright data hdata
  · exact (howned.symm.trans h.owned).cons_inv
  · obtain ⟨d, hd, hright⟩ := h.files p (List.mem_cons_of_mem _ hp)
    have hne : p.1 ≠ id := fun heq => hnodup.1 (List.mem_map.mpr ⟨p, hp, heq⟩)
    exact ⟨d, (if_neg hne).trans hd, hright⟩
  · obtain ⟨r', hr', hsrc⟩ := h.handlers handler hmem
    have hin : handler.requestId ∈ s.inFlight :=
      List.mem_append_right _ (List.mem_map_of_mem hmem)
    obtain ⟨r'', hr'', hnone⟩ := h.books.outstanding handler.requestId (Or.inr hin)
    have hne : handler.requestId ≠ id := by
      intro heq
      rw [heq, hmap] at hr''
      cases hr''
      rw [hdata] at hnone
      cases hnone
    exact ⟨r', (if_neg hne).trans hr', hsrc⟩

/-- A blocked call that returns has the file's own result. -/
theorem Holds.wake {id : ℕ} {src : List UInt8} (h : Holds compress ((id, src) :: held) [id] s)
    (ht : s.wake id = some t) :
    t.returned = s.returned ++ [(id, compress src)] ∧ Holds compress held [] t := by
  have hbooks := h.books.wake ht
  obtain ⟨d, hd, -⟩ := h.files (id, src) List.mem_cons_self
  simp only [Servicer.wake, h.blocked, List.mem_singleton, if_true, hd,
    List.erase_cons_head] at ht
  obtain ⟨data, hdata, rfl⟩ := Option.map_eq_some_iff.mp ht
  obtain ⟨hright, hnext⟩ := h.finish [] s.unclaimed hd hdata
    (by rw [h.blocked]; exact List.Perm.refl _) hbooks
  exact ⟨by rw [← hright]; rfl, hnext⟩

/-- A call that waits for the first of the results returns it, or is blocked. -/
theorem Holds.waitServiceSync {id : ℕ} {src : List UInt8}
    (h : Holds compress ((id, src) :: held) [] s) (ht : s.waitServiceSync id = some t) :
    (t.returned = s.returned ∧ Holds compress ((id, src) :: held) [id] t) ∨
      (t.returned = s.returned ++ [(id, compress src)] ∧ Holds compress held [] t) := by
  have hbooks := h.books.waitServiceSync ht
  have hmem : id ∈ s.unclaimed := by
    have hid := h.owned.mem_iff.mpr (List.mem_map_of_mem (f := Prod.fst)
      (List.mem_cons_self (a := (id, src))))
    rwa [h.blocked, List.nil_append] at hid
  obtain ⟨d, hd, hright⟩ := h.files (id, src) List.mem_cons_self
  simp only [Servicer.waitServiceSync, hmem, if_true, hd] at ht
  cases hdata : d with
  | none =>
    rw [hdata] at ht
    cases ht
    refine .inl ⟨rfl, hbooks, by rw [h.blocked]; rfl, ?_, h.files, h.handlers⟩
    have howned := h.owned
    rw [h.blocked] at howned ⊢
    exact (List.perm_cons_erase hmem).symm.trans howned
  | some data =>
    rw [hdata] at ht hd
    cases ht
    obtain ⟨hright, hnext⟩ := h.finish s.waiting (s.unclaimed.erase id) hd rfl
      (by rw [h.blocked]; exact List.perm_cons_erase hmem) hbooks
    rw [h.blocked] at hnext
    exact .inr ⟨by rw [← hright]; rfl, by simpa [h.blocked] using hnext⟩

/-- The dispatcher moves ids only. -/
theorem dispatch_keeps (ht : s.dispatch = some t) :
    t.requestMap = s.requestMap ∧ t.handlers = s.handlers ∧ t.waiting = s.waiting ∧
      t.unclaimed = s.unclaimed := by
  unfold Servicer.dispatch at ht
  split at ht
  · cases ht
    unfold sendRequests
    split
    · exact ⟨rfl, rfl, rfl, rfl⟩
    · dsimp only
      split
      · split <;> exact ⟨rfl, rfl, rfl, rfl⟩
      · exact ⟨rfl, rfl, rfl, rfl⟩
  · cases ht
    unfold buildMessage
    split <;> exact ⟨rfl, rfl, rfl, rfl⟩
  · simp only [mqSend] at ht
    split at ht <;> cases ht
    exact ⟨rfl, rfl, rfl, rfl⟩
  · cases ht
    unfold receiveResponses
    split <;> exact ⟨rfl, rfl, rfl, rfl⟩
  · cases ht
    exact ⟨rfl, rfl, rfl, rfl⟩

theorem Holds.scheduleRequest (h : Holds compress held blocked s)
    (ht : s.scheduleRequest = some t) : Holds compress held blocked t := by
  have hbooks := h.books.scheduleRequest ht
  simp only [Servicer.scheduleRequest] at ht
  split at ht
  · split at ht
    · cases ht
    · next id rest hqueue =>
      have hin : id ∈ s.inFlight := by simp [inFlight, hqueue]
      obtain ⟨r, hr, -⟩ := h.books.outstanding id (Or.inr hin)
      rw [hr] at ht
      cases ht
      refine ⟨hbooks, h.blocked, h.owned, h.files, fun handler hmem => ?_⟩
      rcases List.mem_append.mp hmem with hmem | hmem
      · exact h.handlers handler hmem
      · obtain rfl := List.mem_singleton.mp hmem
        exact ⟨r, hr, rfl⟩
  · cases ht

/-- A worker stores the result of its own file. -/
theorem Holds.completeRequest {i : ℕ} {data : List UInt8} (h : Holds compress held blocked s)
    (hright : ∀ handler ∈ s.handlers[i]?, data = compress handler.src)
    (ht : s.completeRequest i data = some t) : Holds compress held blocked t := by
  have hbooks := h.books.completeRequest ht
  obtain ⟨handler, hi, rfl⟩ := Option.map_eq_some_iff.mp ht
  obtain ⟨r, hr, hsrc⟩ := h.handlers handler (List.mem_of_getElem? hi)
  simp only [hr] at hbooks ⊢
  refine ⟨hbooks, h.blocked, h.owned, fun p hp => ?_, fun other hmem => ?_⟩
  · obtain ⟨d, hd, hdata⟩ := h.files p hp
    by_cases heq : p.1 = handler.requestId
    · rw [heq, hr] at hd
      cases hd
      refine ⟨some data, (if_pos heq).trans (by rw [heq]), fun _ hmem => ?_⟩
      obtain rfl := Option.mem_some_iff.mp hmem
      rw [hright handler hi, ← hsrc]
    · exact ⟨d, (if_neg heq).trans hd, hdata⟩
  · obtain ⟨r', hr', hsrc'⟩ := h.handlers other (List.mem_of_mem_eraseIdx hmem)
    by_cases heq : other.requestId = handler.requestId
    · rw [heq, hr] at hr'
      cases hr'
      exact ⟨_, if_pos heq, hsrc'⟩
    · exact ⟨r', (if_neg heq).trans hr', hsrc'⟩

end TinyFile.Servicer
