import TinyFile.Servicer

/-!
# Every request is in one place

A submitted id is in `requestQueue`, on its way through the dispatcher, the
queues, the service and the workers, or completed, and in exactly one of these
places. `requestsInFlight` counts the middle group, and the entry of an id
stays in `requestMap` until the one call that waits for it takes the result.
-/
namespace TinyFile.Servicer

/-- The ids taken from `requestQueue` and not yet completed. -/
def inFlight (s : Servicer) : List ℕ :=
  s.dispatcher.toSend ++ s.clientToServer.map RequestMessage.requestId ++ s.serving ++
    s.serverToClient ++ s.dispatcher.received ++ s.requestResponseQueue ++
    s.handlers.map Handler.requestId

def completedIds (s : Servicer) : List ℕ := s.completed.map Prod.fst

structure Bookkeeping (s : Servicer) : Prop where
  place : ∀ id, s.requestQueue.count id + s.inFlight.count id + s.completedIds.count id =
    if id < s.nextRequestId then 1 else 0
  count : s.requestsInFlight = s.inFlight.length
  bound : s.requestsInFlight ≤ s.numWorkers
  owner : ∀ id, s.waiting.count id + s.unclaimed.count id =
    if (s.requestMap id).isSome then 1 else 0
  submitted : ∀ id, (s.requestMap id).isSome → id < s.nextRequestId
  key : ∀ id request, s.requestMap id = some request → request.requestId = id
  outstanding : ∀ id, id ∈ s.requestQueue ∨ id ∈ s.inFlight →
    ∃ request, s.requestMap id = some request ∧ request.compressedData = none
  delivered : ∀ id request compressedData, s.requestMap id = some request →
    request.compressedData = some compressedData → (id, compressedData) ∈ s.completed
  taken : s.taken.Perm (s.inFlight ++ s.completedIds)
  sent : s.taken = s.sent.map RequestMessage.requestId ++ s.dispatcher.toSend
  returned : ∀ p ∈ s.returned, p ∈ s.completed
  fault : s.fault = if s.nextRequestId ≤ INT_MAX then none else some overflow

theorem bookkeeping_init (numWorkers : ℕ) : Bookkeeping (init numWorkers) := by
  constructor <;> simp [init, inFlight, completedIds, Dispatcher.toSend, Dispatcher.received]

/-- The ids that have been given out are values of an `int`. -/
theorem Bookkeeping.alive_iff {s : Servicer} (h : Bookkeeping s) :
    s.fault = none ↔ s.nextRequestId ≤ INT_MAX := by
  rw [h.fault]
  split_ifs with hle
  · exact iff_of_true rfl hle
  · exact iff_of_false (by simp) hle

/-- Everything that the bookkeeping looks at, apart from the ids in flight. -/
structure SameBooks (s s' : Servicer) : Prop where
  numWorkers : s'.numWorkers = s.numWorkers
  nextRequestId : s'.nextRequestId = s.nextRequestId
  requestMap : s'.requestMap = s.requestMap
  requestQueue : s'.requestQueue = s.requestQueue
  requestsInFlight : s'.requestsInFlight = s.requestsInFlight
  waiting : s'.waiting = s.waiting
  unclaimed : s'.unclaimed = s.unclaimed
  taken : s'.taken = s.taken
  completed : s'.completed = s.completed
  returned : s'.returned = s.returned
  fault : s'.fault = s.fault

/-- A step that only moves an id within flight keeps the books. -/
theorem Bookkeeping.move {s s' : Servicer} (h : Bookkeeping s) (hsame : SameBooks s s')
    (hperm : s'.inFlight.Perm s.inFlight)
    (hsent : s'.sent.map RequestMessage.requestId ++ s'.dispatcher.toSend =
      s.sent.map RequestMessage.requestId ++ s.dispatcher.toSend) : Bookkeeping s' where
  place := by
    intro id
    rw [completedIds, hsame.completed, hsame.requestQueue, hperm.count_eq, hsame.nextRequestId]
    exact h.place id
  count := by rw [hsame.requestsInFlight, h.count, hperm.length_eq]
  bound := by rw [hsame.requestsInFlight, hsame.numWorkers]; exact h.bound
  owner := by rw [hsame.waiting, hsame.unclaimed, hsame.requestMap]; exact h.owner
  submitted := by rw [hsame.requestMap, hsame.nextRequestId]; exact h.submitted
  key := by rw [hsame.requestMap]; exact h.key
  outstanding := by
    intro id hid
    rw [hsame.requestQueue, hperm.mem_iff] at hid
    rw [hsame.requestMap]
    exact h.outstanding id hid
  delivered := by rw [hsame.requestMap, hsame.completed]; exact h.delivered
  taken := by
    rw [hsame.taken, completedIds, hsame.completed]
    exact h.taken.trans (hperm.symm.append_right _)
  sent := by rw [hsame.taken, hsent]; exact h.sent
  returned := by rw [hsame.returned, hsame.completed]; exact h.returned
  fault := by rw [hsame.fault, hsame.nextRequestId]; exact h.fault

/-- A new id is in no place yet and has no entry. -/
theorem Bookkeeping.fresh {s : Servicer} (h : Bookkeeping s) :
    s.requestMap s.nextRequestId = none := by
  cases hm : s.requestMap s.nextRequestId with
  | none => rfl
  | some request => exact absurd (h.submitted s.nextRequestId (by simp [hm])) (lt_irrefl _)

theorem requestMap_submit {s : Servicer} (h : Bookkeeping s) (src : List UInt8) (id : ℕ) :
    (s.submit src).requestMap id =
      if id = s.nextRequestId then some ⟨s.nextRequestId, src, none⟩ else s.requestMap id := by
  simp only [submit, emplace]
  split_ifs with hid
  · rw [hid, h.fresh, Option.getD_none]
  · rfl

/-- A submission by a call that then owns the new id. -/
theorem Bookkeeping.submit {s s' : Servicer} (h : Bookkeeping s) (src : List UInt8)
    (halive : s.fault = none)
    (hs' : s' = { s.submit src with waiting := s'.waiting, unclaimed := s'.unclaimed })
    (howner : ∀ id, s'.waiting.count id + s'.unclaimed.count id =
      s.waiting.count id + s.unclaimed.count id + if id = s.nextRequestId then 1 else 0) :
    Bookkeeping s' := by
  have hmap : ∀ id, s'.requestMap id =
      if id = s.nextRequestId then some ⟨s.nextRequestId, src, none⟩ else s.requestMap id := by
    intro id
    rw [hs']
    exact requestMap_submit h src id
  have hnext : s'.nextRequestId = s.nextRequestId + 1 := by rw [hs']; rfl
  have hqueue : s'.requestQueue = s.requestQueue ++ [s.nextRequestId] := by rw [hs']; rfl
  have hflight : s'.inFlight = s.inFlight := by rw [hs']; rfl
  have hcompleted : s'.completed = s.completed := by rw [hs']; rfl
  refine
    { place := ?_
      count := by rw [hflight, hs']; exact h.count
      bound := by rw [hs']; exact h.bound
      owner := ?_
      submitted := ?_
      key := ?_
      outstanding := ?_
      delivered := ?_
      taken := by rw [hflight, completedIds, hcompleted, hs']; exact h.taken
      sent := by rw [hs']; exact h.sent
      returned := by rw [hcompleted, hs']; exact h.returned
      fault := ?_ }
  · intro id
    have hplace := h.place id
    rw [hqueue, hflight, completedIds, hcompleted, hnext, List.count_append, List.count_singleton]
    rw [completedIds] at hplace
    by_cases hid : s.nextRequestId = id
    · subst hid
      simp only [lt_irrefl, if_false] at hplace
      simp only [beq_self_eq_true, if_true, Nat.lt_succ_self]
      omega
    · have hlt : id < s.nextRequestId + 1 ↔ id < s.nextRequestId := by omega
      simp only [beq_iff_eq, hid, if_false, hlt]
      omega
  · intro id
    rw [howner id, h.owner id, hmap id]
    by_cases hid : id = s.nextRequestId
    · simp [hid, h.fresh]
    · simp [hid]
  · intro id hid
    rw [hmap] at hid
    rw [hnext]
    split_ifs at hid with he
    · omega
    · exact Nat.lt_succ_of_lt (h.submitted id hid)
  · intro id request hid
    rw [hmap] at hid
    split_ifs at hid with he
    · cases hid
      exact he.symm
    · exact h.key id request hid
  · intro id hid
    rw [hmap]
    split_ifs with he
    · exact ⟨_, rfl, rfl⟩
    · rw [hqueue, hflight, List.mem_append, List.mem_singleton] at hid
      exact h.outstanding id (hid.imp_left (fun hq => hq.resolve_right he))
  · intro id request compressedData hid hdata
    rw [hmap] at hid
    rw [hcompleted]
    split_ifs at hid with he
    · cases hid
      cases hdata
    · exact h.delivered id request compressedData hid hdata
  · have hfault : s'.fault = if s.nextRequestId < INT_MAX then s.fault else some overflow := by
      rw [hs']
      rfl
    rw [hfault, hnext, halive]
    simp only [Nat.succ_le_iff]

/-- The end of the one call that waits for a completed id. -/
theorem Bookkeeping.finish {s : Servicer} {waiting unclaimed : List ℕ} {id : ℕ}
    {request : Request} {compressedData : List UInt8} (h : Bookkeeping s)
    (hmap : s.requestMap id = some request) (hdata : request.compressedData = some compressedData)
    (howner : ∀ j, waiting.count j + unclaimed.count j + (if j = id then 1 else 0) =
      s.waiting.count j + s.unclaimed.count j) :
    Bookkeeping
      ({ s with waiting := waiting, unclaimed := unclaimed }.finish id compressedData) := by
  refine
    { place := h.place
      count := h.count
      bound := h.bound
      owner := ?_
      submitted := ?_
      key := ?_
      outstanding := ?_
      delivered := ?_
      taken := h.taken
      sent := h.sent
      returned := ?_
      fault := h.fault }
  · intro j
    have hj := howner j
    rw [h.owner j] at hj
    simp only [Servicer.finish]
    by_cases he : j = id
    · simp only [he, hmap, if_true, Option.isSome_some, Option.isSome_none] at hj ⊢
      simp only [Bool.false_eq_true, if_false]
      omega
    · simp only [he, if_false] at hj ⊢
      omega
  · intro j hj
    simp only [Servicer.finish] at hj
    split_ifs at hj with he
    · simp at hj
    · exact h.submitted j hj
  · intro j r hj
    simp only [Servicer.finish] at hj
    split_ifs at hj with he
    exact h.key j r hj
  · intro j hj
    obtain ⟨r, hr, hnone⟩ := h.outstanding j hj
    have hne : j ≠ id := by
      rintro rfl
      rw [hmap] at hr
      cases hr
      rw [hdata] at hnone
      cases hnone
    refine ⟨r, ?_, hnone⟩
    simp only [Servicer.finish, hne, if_false]
    exact hr
  · intro j r d hj hd
    simp only [Servicer.finish] at hj
    split_ifs at hj with he
    exact h.delivered j r d hj hd
  · intro p hp
    rcases List.mem_append.mp hp with hp | hp
    · exact h.returned p hp
    · rw [List.mem_singleton.mp hp]
      exact h.delivered id request compressedData hmap hdata

theorem count_erase_add {l : List ℕ} {id : ℕ} (h : id ∈ l) (j : ℕ) :
    (l.erase id).count j + (if j = id then 1 else 0) = l.count j := by
  have := (List.perm_cons_erase h).count_eq j
  rw [List.count_cons] at this
  simp only [beq_iff_eq] at this
  rw [this]
  by_cases he : j = id
  · simp [he]
  · simp [he, Ne.symm he]

/-- An id that somebody owns has an entry. -/
theorem Bookkeeping.entry_of_owned {s : Servicer} (h : Bookkeeping s) {id : ℕ}
    (hid : id ∈ s.waiting ∨ id ∈ s.unclaimed) : ∃ request, s.requestMap id = some request := by
  have hpos : 0 < s.waiting.count id + s.unclaimed.count id := by
    rcases hid with hid | hid
    · have := List.count_pos_iff.mpr hid
      omega
    · have := List.count_pos_iff.mpr hid
      omega
  rw [h.owner id] at hpos
  split_ifs at hpos with hsome
  · exact Option.isSome_iff_exists.mp hsome
  · omega

theorem Bookkeeping.waitServiceSync {s t : Servicer} (h : Bookkeeping s) {id : ℕ}
    (ht : s.waitServiceSync id = some t) : Bookkeeping t := by
  simp only [Servicer.waitServiceSync] at ht
  split at ht
  · next hid =>
    obtain ⟨request, hmap⟩ := h.entry_of_owned (Or.inr hid)
    rw [hmap] at ht
    cases hdata : request.compressedData with
    | none =>
      simp only [hdata, Option.some.injEq] at ht
      subst ht
      refine ⟨h.place, h.count, h.bound, ?_, h.submitted, h.key, h.outstanding, h.delivered,
        h.taken, h.sent, h.returned, h.fault⟩
      intro j
      have hj := count_erase_add hid j
      have howner := h.owner j
      simp only [List.count_append, List.count_singleton, beq_iff_eq]
      by_cases he : j = id
      · simp only [he, if_true] at hj howner ⊢
        omega
      · simp only [he, Ne.symm he, if_false] at hj howner ⊢
        omega
    | some compressedData =>
      simp only [hdata, Option.some.injEq] at ht
      subst ht
      refine h.finish hmap hdata ?_
      intro j
      have hj := count_erase_add hid j
      omega
  · cases ht

theorem Bookkeeping.wake {s t : Servicer} (h : Bookkeeping s) {id : ℕ}
    (ht : s.wake id = some t) : Bookkeeping t := by
  simp only [Servicer.wake] at ht
  split at ht
  · next hid =>
    obtain ⟨request, hmap⟩ := h.entry_of_owned (Or.inl hid)
    rw [hmap] at ht
    obtain ⟨compressedData, hdata, rfl⟩ := Option.map_eq_some_iff.mp ht
    refine h.finish hmap hdata ?_
    intro j
    have hj := count_erase_add hid j
    omega
  · cases ht

/-- One turn of `sendRequests`: an id leaves the queue and enters flight. -/
theorem Bookkeeping.sendRequests {s : Servicer} (h : Bookkeeping s)
    (hpc : s.dispatcher = .sendLoop) : Bookkeeping s.sendRequests := by
  have hidle : Bookkeeping { s with dispatcher := .receiveLoop } := by
    refine h.move ⟨rfl, rfl, rfl, rfl, rfl, rfl, rfl, rfl, rfl, rfl, rfl⟩ ?_ ?_
    · simp [inFlight, hpc, Dispatcher.toSend, Dispatcher.received]
    · simp [hpc, Dispatcher.toSend]
  unfold Servicer.sendRequests
  split
  · exact hidle
  · next id rest hqueue =>
    split
    · next hroom =>
      obtain ⟨request, hmap, hdata⟩ := h.outstanding id (Or.inl (by simp [hqueue]))
      have hflight : Servicer.inFlight
          { s with
            requestQueue := rest
            taken := s.taken ++ [id]
            requestsInFlight := s.requestsInFlight + 1
            dispatcher := .building id } = id :: s.inFlight := by
        simp [inFlight, hpc, Dispatcher.toSend, Dispatcher.received]
      simp only [hmap]
      refine
        { place := ?_
          count := by rw [hflight, List.length_cons, h.count]
          bound := hroom
          owner := h.owner
          submitted := h.submitted
          key := h.key
          outstanding := ?_
          delivered := h.delivered
          taken := ?_
          sent := ?_
          returned := h.returned
          fault := h.fault }
      · intro j
        have hj := h.place j
        rw [hqueue, List.count_cons] at hj
        rw [hflight, List.count_cons]
        show rest.count j + (s.inFlight.count j + if id == j then 1 else 0) +
          s.completedIds.count j = if j < s.nextRequestId then 1 else 0
        omega
      · intro j hj
        rw [hflight, List.mem_cons] at hj
        refine h.outstanding j ?_
        rw [hqueue, List.mem_cons]
        tauto
      · rw [hflight]
        have hcons : (s.taken ++ [id]).Perm (id :: s.taken) := List.perm_append_singleton id _
        exact hcons.trans (h.taken.cons id)
      · have hsent := h.sent
        simp only [hpc, Dispatcher.toSend, List.append_nil] at hsent ⊢
        rw [hsent]
    · exact hidle

/-- The reference that `sendRequests` keeps is still good when it is read. -/
theorem Bookkeeping.buildMessage {s : Servicer} (h : Bookkeeping s) {id : ℕ}
    (hpc : s.dispatcher = .building id) : Bookkeeping (s.buildMessage id) := by
  have hid : id ∈ s.inFlight := by simp [inFlight, hpc, Dispatcher.toSend]
  obtain ⟨request, hmap, -⟩ := h.outstanding id (Or.inr hid)
  have hkey := h.key id request hmap
  simp only [Servicer.buildMessage, hmap]
  refine h.move ⟨rfl, rfl, rfl, rfl, rfl, rfl, rfl, rfl, rfl, rfl, rfl⟩ ?_ ?_
  · simp [inFlight, hpc, Dispatcher.toSend, Dispatcher.received, hkey]
  · simp [hpc, Dispatcher.toSend, hkey]

theorem Bookkeeping.dispatch {s t : Servicer} (h : Bookkeeping s) (ht : s.dispatch = some t) :
    Bookkeeping t := by
  unfold Servicer.dispatch at ht
  split at ht
  · next hpc =>
    cases ht
    exact h.sendRequests hpc
  · next id hpc =>
    cases ht
    exact h.buildMessage hpc
  · next message hpc =>
    simp only [mqSend] at ht
    split at ht
    · cases ht
      refine h.move ⟨rfl, rfl, rfl, rfl, rfl, rfl, rfl, rfl, rfl, rfl, rfl⟩ ?_ ?_
      · rw [List.perm_iff_count]
        intro j
        simp only [inFlight, hpc, Dispatcher.toSend, Dispatcher.received, List.map_append,
          List.map_cons, List.map_nil, List.count_append, List.count_nil]
        omega
      · simp [hpc, Dispatcher.toSend]
    · cases ht
  · next hpc =>
    cases ht
    simp only [Servicer.receiveResponses]
    split
    · refine h.move ⟨rfl, rfl, rfl, rfl, rfl, rfl, rfl, rfl, rfl, rfl, rfl⟩ ?_ ?_
      · simp [inFlight, hpc, Dispatcher.toSend, Dispatcher.received]
      · simp [hpc, Dispatcher.toSend]
    · next id rest hqueue =>
      refine h.move ⟨rfl, rfl, rfl, rfl, rfl, rfl, rfl, rfl, rfl, rfl, rfl⟩ ?_ ?_
      · rw [List.perm_iff_count]
        intro j
        simp only [inFlight, hpc, hqueue, Dispatcher.toSend, Dispatcher.received,
          List.count_append, List.count_cons, List.count_nil]
        omega
      · simp [hpc, Dispatcher.toSend]
  · next id hpc =>
    cases ht
    refine h.move ⟨rfl, rfl, rfl, rfl, rfl, rfl, rfl, rfl, rfl, rfl, rfl⟩ ?_ ?_
    · rw [List.perm_iff_count]
      intro j
      simp only [inFlight, hpc, Dispatcher.toSend, Dispatcher.received, List.count_append,
        List.count_nil]
      omega
    · simp [hpc, Dispatcher.toSend]

theorem Bookkeeping.serve {s t : Servicer} (h : Bookkeeping s) (ht : s.serve = some t) :
    Bookkeeping t := by
  simp only [Servicer.serve] at ht
  split at ht
  · cases ht
  · next message rest hqueue =>
    cases ht
    refine h.move ⟨rfl, rfl, rfl, rfl, rfl, rfl, rfl, rfl, rfl, rfl, rfl⟩ ?_ rfl
    rw [List.perm_iff_count]
    intro j
    simp only [inFlight, hqueue, List.map_cons, List.count_append, List.count_cons, List.count_nil]
    omega

theorem Bookkeeping.answer {s t : Servicer} (h : Bookkeeping s) {id : ℕ}
    (ht : s.answer id = some t) : Bookkeeping t := by
  simp only [Servicer.answer] at ht
  split at ht
  · next hid =>
    cases ht
    refine h.move ⟨rfl, rfl, rfl, rfl, rfl, rfl, rfl, rfl, rfl, rfl, rfl⟩ ?_ rfl
    rw [List.perm_iff_count]
    intro j
    have hj := (List.perm_cons_erase hid.1).count_eq j
    simp only [inFlight, List.count_append, List.count_cons, List.count_nil] at hj ⊢
    omega
  · cases ht

theorem Bookkeeping.scheduleRequest {s t : Servicer} (h : Bookkeeping s)
    (ht : s.scheduleRequest = some t) : Bookkeeping t := by
  simp only [Servicer.scheduleRequest] at ht
  split at ht
  · split at ht
    · cases ht
    · next id rest hqueue =>
      have hid : id ∈ s.inFlight := by simp [inFlight, hqueue]
      obtain ⟨request, hmap, -⟩ := h.outstanding id (Or.inr hid)
      rw [hmap] at ht
      cases ht
      refine h.move ⟨rfl, rfl, rfl, rfl, rfl, rfl, rfl, rfl, rfl, rfl, rfl⟩ ?_ rfl
      rw [List.perm_iff_count]
      intro j
      simp only [inFlight, hqueue, List.map_append, List.map_cons, List.map_nil,
        List.count_append, List.count_cons, List.count_nil]
      omega
  · cases ht

/-- A completion takes its id out of flight. -/
theorem inFlight_eraseIdx {s : Servicer} {worker : ℕ} {handler : Handler}
    (hw : s.handlers[worker]? = some handler) :
    s.inFlight.Perm (handler.requestId ::
      Servicer.inFlight { s with handlers := s.handlers.eraseIdx worker }) := by
  obtain ⟨hlt, hget⟩ := List.getElem?_eq_some_iff.mp hw
  have hperm := (List.getElem_cons_eraseIdx_perm hlt).map Handler.requestId
  rw [hget] at hperm
  rw [List.perm_iff_count]
  intro j
  have hj := hperm.count_eq j
  simp only [inFlight, List.map_cons, List.count_append, List.count_cons] at hj ⊢
  omega

/-- The id of a handler is in no other place. -/
theorem Bookkeeping.completed_nowhere {s : Servicer} (h : Bookkeeping s) {worker : ℕ}
    {handler : Handler} (hw : s.handlers[worker]? = some handler) :
    handler.requestId ∉ s.requestQueue ∧
      handler.requestId ∉ Servicer.inFlight { s with handlers := s.handlers.eraseIdx worker } := by
  have hplace := h.place handler.requestId
  rw [(inFlight_eraseIdx hw).count_eq, List.count_cons_self] at hplace
  have hle : (if handler.requestId < s.nextRequestId then 1 else 0) ≤ 1 := by
    split_ifs <;> omega
  constructor
  · intro hm
    have := List.count_pos_iff.mpr hm
    omega
  · intro hm
    have := List.count_pos_iff.mpr hm
    omega

theorem Bookkeeping.completeRequest {s t : Servicer} (h : Bookkeeping s) {worker : ℕ}
    {compressedData : List UInt8} (ht : s.completeRequest worker compressedData = some t) :
    Bookkeeping t := by
  obtain ⟨handler, hw, rfl⟩ := Option.map_eq_some_iff.mp ht
  have hperm := inFlight_eraseIdx hw
  have hid : handler.requestId ∈ s.inFlight := hperm.mem_iff.mpr List.mem_cons_self
  obtain ⟨request, hmap, hnone⟩ := h.outstanding handler.requestId (Or.inr hid)
  have hpos : 0 < s.requestsInFlight := h.count ▸ List.length_pos_of_mem hid
  have hcount := h.count
  rw [hperm.length_eq, List.length_cons] at hcount
  simp only [hmap, SizeT.pred_of_pos hpos]
  refine
    { place := ?_
      count := ?_
      bound := ?_
      owner := ?_
      submitted := ?_
      key := ?_
      outstanding := ?_
      delivered := ?_
      taken := ?_
      sent := h.sent
      returned := fun p hp => List.mem_append_left _ (h.returned p hp)
      fault := h.fault }
  · intro j
    have hj := h.place j
    rw [hperm.count_eq, List.count_cons] at hj
    simp only [completedIds, List.map_append, List.map_cons, List.map_nil, List.count_append,
      List.count_singleton] at hj ⊢
    have hsame : ∀ m c, Servicer.inFlight
        { s with
          handlers := s.handlers.eraseIdx worker
          requestsInFlight := s.requestsInFlight - 1
          requestMap := m
          completed := c } = Servicer.inFlight { s with handlers := s.handlers.eraseIdx worker } :=
      fun _ _ => rfl
    rw [hsame]
    omega
  · show s.requestsInFlight - 1 =
      (Servicer.inFlight { s with handlers := s.handlers.eraseIdx worker }).length
    omega
  · have := h.bound
    show s.requestsInFlight - 1 ≤ s.numWorkers
    omega
  · intro j
    rw [h.owner j]
    by_cases he : j = handler.requestId <;> simp [he, hmap]
  · intro j hj
    refine h.submitted j ?_
    by_cases he : j = handler.requestId
    · simp [he, hmap]
    · simpa [he] using hj
  · intro j r hj
    simp only at hj
    split_ifs at hj with he
    · cases hj
      exact (h.key _ request hmap).trans he.symm
    · exact h.key j r hj
  · intro j hj
    have hflight := h.completed_nowhere hw
    have hj' : j ∈ s.requestQueue ∨
        j ∈ Servicer.inFlight { s with handlers := s.handlers.eraseIdx worker } := hj
    have hne : j ≠ handler.requestId := by
      rintro rfl
      exact hj'.elim hflight.1 hflight.2
    simp only [hne, if_false]
    exact h.outstanding j (hj'.imp_right (fun hm => hperm.mem_iff.mpr (List.mem_cons_of_mem _ hm)))
  · intro j r d hj hd
    simp only at hj
    split_ifs at hj with he
    · cases hj
      cases hd
      exact List.mem_append_right _ (by simp [he])
    · exact List.mem_append_left _ (h.delivered j r d hj hd)
  · have hflat : (s.inFlight ++ s.completedIds).Perm
        (Servicer.inFlight { s with handlers := s.handlers.eraseIdx worker } ++
          (s.completedIds ++ [handler.requestId])) := by
      rw [List.perm_iff_count]
      intro j
      have hj := hperm.count_eq j
      simp only [List.count_append, List.count_cons, List.count_nil] at hj ⊢
      omega
    have hids : completedIds
        { s with completed := s.completed ++ [(handler.requestId, compressedData)] } =
          s.completedIds ++ [handler.requestId] := by simp [completedIds]
    refine (h.taken.trans hflat).trans ?_
    rw [← hids]
    exact List.Perm.refl _

/-- A step is only taken while nothing has ended the process. -/
theorem next_cases {s t : Servicer} {e : Event} (ht : next s e = some t) : s.fault = none := by
  unfold Servicer.next at ht
  split at ht
  · cases ht
  · next hdead => simpa using hdead

theorem Bookkeeping.next {s t : Servicer} (h : Bookkeeping s) {e : Event}
    (ht : next s e = some t) : Bookkeeping t := by
  have halive := next_cases ht
  simp only [Servicer.next, halive, Option.isSome_none, Bool.false_eq_true, if_false] at ht
  cases e with
  | callServiceSync src =>
    cases ht
    refine h.submit src halive rfl ?_
    intro id
    have hnew : (s.callServiceSync src).waiting = s.waiting ++ [s.nextRequestId] := rfl
    have hsame : (s.callServiceSync src).unclaimed = s.unclaimed := rfl
    rw [hnew, hsame, List.count_append, List.count_singleton]
    simp only [beq_iff_eq, eq_comm (a := s.nextRequestId)]
    omega
  | callServiceAsync src =>
    cases ht
    refine h.submit src halive rfl ?_
    intro id
    have hnew : (s.callServiceAsync src).unclaimed = s.unclaimed ++ [s.nextRequestId] := rfl
    have hsame : (s.callServiceAsync src).waiting = s.waiting := rfl
    rw [hnew, hsame, List.count_append, List.count_singleton]
    simp only [beq_iff_eq, eq_comm (a := s.nextRequestId)]
    omega
  | waitServiceSync id => exact h.waitServiceSync ht
  | wake id => exact h.wake ht
  | dispatch => exact h.dispatch ht
  | serve => exact h.serve ht
  | answer id => exact h.answer ht
  | scheduleRequest => exact h.scheduleRequest ht
  | completeRequest worker compressedData => exact h.completeRequest ht

theorem bookkeeping_of_reachable {numWorkers : ℕ} {s : Servicer}
    (h : (machine numWorkers).Reachable s) : Bookkeeping s :=
  h.invariant (bookkeeping_init numWorkers) (fun _ _ _ hs ht => hs.next ht)

theorem constants_sendRequests (s : Servicer) :
    s.sendRequests.numWorkers = s.numWorkers ∧
      s.sendRequests.nextRequestId = s.nextRequestId := by
  unfold sendRequests
  split
  · exact ⟨rfl, rfl⟩
  · dsimp only
    split
    · split <;> exact ⟨rfl, rfl⟩
    · exact ⟨rfl, rfl⟩

theorem constants_dispatch {s t : Servicer} (h : s.dispatch = some t) :
    t.numWorkers = s.numWorkers ∧ t.nextRequestId = s.nextRequestId := by
  unfold dispatch at h
  split at h
  · cases h
    exact constants_sendRequests s
  · cases h
    unfold buildMessage
    split <;> exact ⟨rfl, rfl⟩
  · simp only [mqSend] at h
    split at h <;> cases h
    exact ⟨rfl, rfl⟩
  · cases h
    unfold receiveResponses
    split <;> exact ⟨rfl, rfl⟩
  · cases h
    exact ⟨rfl, rfl⟩

/-- The number of workers never changes, and only a call uses an id. -/
theorem constants_next {s t : Servicer} {e : Event} (h : next s e = some t) :
    t.numWorkers = s.numWorkers ∧
      t.nextRequestId = s.nextRequestId + if e.numbers then 1 else 0 := by
  unfold next at h
  split at h
  · cases h
  · cases e with
    | callServiceSync src => cases h; exact ⟨rfl, rfl⟩
    | callServiceAsync src => cases h; exact ⟨rfl, rfl⟩
    | waitServiceSync id =>
      simp only [waitServiceSync] at h
      split at h
      · split at h
        · cases h; exact ⟨rfl, rfl⟩
        · split at h <;> cases h <;> exact ⟨rfl, rfl⟩
      · cases h
    | wake id =>
      simp only [wake] at h
      split at h
      · split at h
        · cases h; exact ⟨rfl, rfl⟩
        · obtain ⟨d, -, rfl⟩ := Option.map_eq_some_iff.mp h
          exact ⟨rfl, rfl⟩
      · cases h
    | dispatch => exact constants_dispatch h
    | serve =>
      simp only [serve] at h
      split at h <;> cases h
      exact ⟨rfl, rfl⟩
    | answer id =>
      simp only [answer] at h
      split at h <;> cases h
      exact ⟨rfl, rfl⟩
    | scheduleRequest =>
      simp only [scheduleRequest] at h
      split at h
      · split at h
        · cases h
        · split at h <;> cases h <;> exact ⟨rfl, rfl⟩
      · cases h
    | completeRequest worker d =>
      obtain ⟨handler, -, rfl⟩ := Option.map_eq_some_iff.mp h
      dsimp only
      split <;> exact ⟨rfl, rfl⟩

theorem nextRequestId_wake {s t : Servicer} {id : ℕ} (halive : s.fault = none)
    (h : s.wake id = some t) : t.nextRequestId = s.nextRequestId :=
  (constants_next (e := .wake id) (by simpa [next, halive] using h)).2

theorem nextRequestId_waitServiceSync {s t : Servicer} {id : ℕ} (halive : s.fault = none)
    (h : s.waitServiceSync id = some t) : t.nextRequestId = s.nextRequestId :=
  (constants_next (e := .waitServiceSync id) (by simpa [next, halive] using h)).2

theorem numWorkers_of_reachable {numWorkers : ℕ} {s : Servicer}
    (h : (machine numWorkers).Reachable s) : s.numWorkers = numWorkers := by
  induction h with
  | start => rfl
  | step _ ht _ ih => exact (constants_next ht).1.trans ih

theorem Bookkeeping.nodup {s : Servicer} (h : Bookkeeping s) :
    (s.inFlight ++ s.completedIds).Nodup := by
  rw [List.nodup_iff_count_le_one]
  intro id
  have hid := h.place id
  rw [List.count_append]
  split_ifs at hid <;> omega

/-- The ids in flight are those taken from the queue and not yet completed. -/
theorem Bookkeeping.inFlight_perm {s : Servicer} (h : Bookkeeping s) :
    (s.taken.filter (fun id => id ∉ s.completedIds)).Perm s.inFlight := by
  have hnd := h.nodup
  have hdisjoint := (List.nodup_append.mp hnd).2.2
  refine (h.taken.filter _).trans ?_
  have hkeep : s.inFlight.filter (fun id => decide (id ∉ s.completedIds)) = s.inFlight :=
    List.filter_eq_self.mpr (fun id hid => by
      have hnot : id ∉ s.completedIds := fun hm => hdisjoint id hid id hm rfl
      simpa using hnot)
  have hdrop : s.completedIds.filter (fun id => decide (id ∉ s.completedIds)) = [] :=
    List.filter_eq_nil_iff.mpr (fun id hid => by simpa using hid)
  rw [List.filter_append, hkeep, hdrop, List.append_nil]

/-- The client's books are right in every state of every interleaving; what alone ends
the process is the call that uses up the ids. -/
theorem request_bookkeeping {numWorkers : ℕ} {s : Servicer}
    (h : (machine numWorkers).Reachable s) :
    s.requestsInFlight = (s.taken.filter (fun id => id ∉ s.completedIds)).length ∧
    s.requestsInFlight ≤ numWorkers ∧
    (∀ worker compressedData t, s.completeRequest worker compressedData = some t →
      0 < s.requestsInFlight) ∧
    (∀ id, id ∈ s.requestQueue ∨ id ∈ s.taken ∧ id ∉ s.completedIds →
      (s.requestMap id).isSome) ∧
    (s.fault = if s.nextRequestId ≤ INT_MAX then none else some overflow) ∧
    (s.sent.map RequestMessage.requestId).Nodup ∧
    s.taken = s.sent.map RequestMessage.requestId ++ s.dispatcher.toSend ∧
    s.completedIds.Nodup ∧
    ∀ id compressedData, (id, compressedData) ∈ s.returned →
      (id, compressedData) ∈ s.completed := by
  have hbooks := bookkeeping_of_reachable h
  have hworkers : s.numWorkers = numWorkers := numWorkers_of_reachable h
  have hnd := hbooks.nodup
  have htaken : s.taken.Nodup := hbooks.taken.nodup_iff.mpr hnd
  refine ⟨?_, hworkers ▸ hbooks.bound, ?_, ?_, hbooks.fault, ?_, hbooks.sent,
    (List.nodup_append.mp hnd).2.1, fun id d hd => hbooks.returned (id, d) hd⟩
  · rw [hbooks.inFlight_perm.length_eq, hbooks.count]
  · intro worker compressedData t ht
    obtain ⟨handler, hw, -⟩ := Option.map_eq_some_iff.mp ht
    rw [hbooks.count, (inFlight_eraseIdx hw).length_eq]
    exact Nat.succ_pos _
  · intro id hid
    have hplace : id ∈ s.requestQueue ∨ id ∈ s.inFlight :=
      hid.imp_right (fun hm => hbooks.inFlight_perm.mem_iff.mp (List.mem_filter.mpr
        ⟨hm.1, by simpa using hm.2⟩))
    obtain ⟨request, hmap, -⟩ := hbooks.outstanding id hplace
    simp [hmap]
  · rw [hbooks.sent] at htaken
    exact (List.nodup_append.mp htaken).1

/-- Two requests through a client with one worker: the second is sent when the first
has been completed, and its caller is the first to be given a result. -/
def twoRequests : List Event := List.flatten
  [[.callServiceAsync [1, 2], .callServiceSync [3]], List.replicate 4 .dispatch,
    [.serve, .answer 0], List.replicate 3 .dispatch,
    [.scheduleRequest, .dispatch, .completeRequest 0 [9]], List.replicate 4 .dispatch,
    [.serve, .answer 1], List.replicate 3 .dispatch,
    [.scheduleRequest, .completeRequest 0 [8], .wake 1, .waitServiceSync 0]]

theorem request_bookkeeping_two_requests :
    ∃ s, (machine 1).run (init 1) twoRequests = some s ∧ s.returned = [(1, [8]), (0, [9])] ∧
      s.fault = none ∧ (1, [8]) ∈ s.completed ∧ (0, [9]) ∈ s.completed := by
  have hend : ((machine 1).run (init 1) twoRequests).map (fun s => (s.returned, s.nextRequestId)) =
      some ([(1, [8]), (0, [9])], 2) := by
    decide
  obtain ⟨s, hs, hpair⟩ := Option.map_eq_some_iff.mp hend
  obtain ⟨hreturned, hnext⟩ := Prod.mk.inj hpair
  have hreach : (machine 1).Reachable s := Machine.reachable_of_run hs
  obtain ⟨-, -, -, -, hfault, -, -, -, hdelivered⟩ := request_bookkeeping hreach
  rw [hnext, if_pos (by decide)] at hfault
  exact ⟨s, hs, hreturned, hfault, hdelivered 1 [8] (by simp [hreturned]),
    hdelivered 0 [9] (by simp [hreturned])⟩

end TinyFile.Servicer
