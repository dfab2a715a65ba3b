import TinyFile.SemaphoreHandles

/-!
# Named semaphores are semaphores of their own

Whatever names were taken at the start and however the processes interleave: the system
with named semaphores does what the one does in which each exchange has its own, and
between its steps semaphore calls that do not fail.
-/
namespace TinyFile.NamedSystem

variable {cfg : Config} {s t : NamedSystem}

section SystemSteps

variable {system' : System}

/-- A step of the system that uses no semaphore. -/
theorem Bound.setSystem (h : Bound cfg s) (hreachable : (System.machine cfg).Reachable system')
    (hlength : s.system.exchanges.length ≤ system'.exchanges.length)
    (hexchanges : ∀ m e', system'.exchanges[m]? = some e' →
      (∃ e, s.system.exchanges[m]? = some e ∧ e'.request = e.request ∧
        e'.transfer = e.transfer ∧
        (e'.completed = true → e.completed = true ∨ (s.client m).closing = [])) ∨
      s.system.exchanges.length ≤ m ∧ e'.transfer.wires = ⟨0, 1, 0, []⟩ ∧ e'.completed = false)
    (hworkers : ∀ m < system'.exchanges.length, .responding m ∉ system'.workers →
      m < s.system.exchanges.length ∧ .responding m ∉ s.system.workers ∨
        (s.service m).opening = []) :
    Bound cfg { s with system := system' } where
  reachable := hreachable
  unborn m hm := h.unborn m (hlength.trans hm)
  ordered := h.ordered
  opened m hm hresponding := by
    rcases hworkers m hm hresponding with ⟨hlt, hnot⟩ | hopen
    · exact h.opened m hlt hnot
    · exact hopen
  unused m e' k he' hopen := by
    rcases hexchanges m e' he' with ⟨e, he, -, htransfer, -⟩ | ⟨-, hwires, -⟩
    · rw [htransfer]
      exact h.unused m e k he hopen
    · rw [hwires]
      cases k <;> rfl
  linked m e' k he' := by
    rcases hexchanges m e' he' with ⟨e, he, hrequest, -⟩ | ⟨hm, -⟩
    · have hname : nameOf e' = nameOf e := by rw [nameOf, nameOf, hrequest]
      rw [hname]
      exact h.linked m e k he
    · obtain ⟨hservice, hclient⟩ := h.unborn m hm
      dsimp only
      rw [hservice, hclient]
      exact linked_start _ _ k
  old := h.old
  distinct := h.distinct
  values m e' k o he' ho := by
    rcases hexchanges m e' he' with ⟨e, he, -, htransfer, -⟩ | ⟨hm, -⟩
    · rw [htransfer]
      exact h.values m e k o he ho
    · rw [(h.unborn m hm).1] at ho
      cases ho
  released m e' he' hcompleted := by
    rcases hexchanges m e' he' with ⟨e, he, -, -, hor⟩ | ⟨-, -, hnot⟩
    · exact (hor hcompleted).elim (h.released m e he) id
    · rw [hnot] at hcompleted
      cases hcompleted

/-- One that leaves the exchanges alone. -/
theorem Bound.setSystem_same (h : Bound cfg s) (hreachable : (System.machine cfg).Reachable system')
    (hexchanges : system'.exchanges = s.system.exchanges)
    (hworkers : ∀ m, .responding m ∈ s.system.workers →
      .responding m ∈ system'.workers ∨ (s.service m).opening = []) :
    Bound cfg { s with system := system' } := by
  refine h.setSystem hreachable (hexchanges ▸ le_rfl) (fun m e' he' => ?_) fun m hm hnot => ?_
  · exact .inl ⟨e', hexchanges ▸ he', rfl, rfl, .inl⟩
  · by_cases hresponding : .responding m ∈ s.system.workers
    · exact .inr ((hworkers m hresponding).resolve_left hnot)
    · exact .inl ⟨hexchanges ▸ hm, hresponding⟩

/-- One step of a transfer, on the semaphores of the exchange. -/
theorem Bound.setTransfer (h : Bound cfg s) (hreachable : (System.machine cfg).Reachable system')
    {n : ℕ} {e : System.Exchange} {t' : Transfer} (he : s.system.exchanges[n]? = some e)
    (hopen : (s.service n).opening = [])
    (hexchanges : system'.exchanges = s.system.exchanges.set n { e with transfer := t' })
    (hworkers : system'.workers = s.system.workers) :
    Bound cfg { s with
      system := system'
      table := s.table.store Semaphore.all (s.service n).handle (Semaphore.count t'.wires) } := by
  have hcases : ∀ m e', system'.exchanges[m]? = some e' →
      m = n ∧ e' = { e with transfer := t' } ∨ m ≠ n ∧ s.system.exchanges[m]? = some e' := by
    intro m e' he'
    rw [hexchanges] at he'
    exact Slots.getElem?_set_cases he he'
  have hlength : system'.exchanges.length = s.system.exchanges.length := by
    rw [hexchanges, List.length_set]
  constructor
  · exact hreachable
  · intro m hm
    exact h.unborn m (hlength ▸ hm)
  · exact h.ordered
  · intro m hm hnot
    exact h.opened m (hlength ▸ hm) (hworkers ▸ hnot)
  · intro m e' k he' hne
    rcases hcases m e' he' with ⟨rfl, -⟩ | ⟨-, hold⟩
    · exact absurd hopen hne
    · exact h.unused m e' k hold hne
  · intro m e' k he'
    rcases hcases m e' he' with ⟨rfl, rfl⟩ | ⟨-, hold⟩
    · exact (h.linked m e k he).congr rfl
    · exact (h.linked m e' k hold).congr rfl
  · exact h.old
  · exact h.distinct
  · intro m e' k o he' ho
    rcases hcases m e' he' with ⟨rfl, rfl⟩ | ⟨hm, hold⟩
    · exact NamedObjects.value_store k.mem_all ho fun j hj => (h.distinct m j m k o hj ho).2
    · refine (NamedObjects.value_store_of_ne fun j hj => ?_).trans (h.values m e' k o hold ho)
      exact hm (h.distinct m k n j o ho hj).1
  · intro m e' he' hcompleted
    rcases hcases m e' he' with ⟨rfl, rfl⟩ | ⟨-, hold⟩
    · exact h.released m e he hcompleted
    · exact h.released m e' hold hcompleted

end SystemSteps

section Transfers

variable {n : ℕ} {e : System.Exchange} {h' : SemaphoreCalls}

/-- A handler that has the semaphores of its exchange sees what the exchange has. -/
theorem Bound.wires_eq (h : Bound cfg s) (he : s.system.exchanges[n]? = some e)
    (hopen : (s.service n).opening = []) (hhandle : h'.handle = (s.service n).handle) :
    h'.wires s.table e.transfer.wires.history = some e.transfer.wires := by
  have hvalue : ∀ k, ∃ o, (s.service n).handle k = some o ∧
      s.table.value o = Semaphore.count e.transfer.wires k := by
    intro k
    obtain ⟨o, ho⟩ := Option.ne_none_iff_exists'.mp
      (mt (h.linked n e k he).made.mp (by simp [hopen]))
    exact ⟨o, ho, h.values n e k o he ho⟩
  obtain ⟨o₁, ho₁, hv₁⟩ := hvalue .client
  obtain ⟨o₂, ho₂, hv₂⟩ := hvalue .server
  obtain ⟨o₃, ho₃, hv₃⟩ := hvalue .sense
  simp only [SemaphoreCalls.wires, hhandle, ho₁, ho₂, ho₃, hv₁, hv₂, hv₃, Semaphore.count]

/-- So it does what it does in the system. -/
theorem Bound.transfer_eq (h : Bound cfg s) (he : s.system.exchanges[n]? = some e)
    (hopen : (s.service n).opening = []) (hhandle : h'.handle = (s.service n).handle)
    (ev : System.Event) :
    s.transfer cfg n h' ev = (s.system.next cfg ev).bind fun system =>
      system.exchanges[n]?.map fun e' =>
        { s with
          system := system
          table := s.table.store Semaphore.all (s.service n).handle
            (Semaphore.count e'.transfer.wires) } := by
  have hsame : s.system.setExchange n e = s.system := by
    obtain ⟨hlt, rfl⟩ := List.getElem?_eq_some_iff.mp he
    rw [System.setExchange, List.set_getElem_self]
  rw [transfer, he, Option.bind_some, h.wires_eq he hopen hhandle, Option.bind_some, hhandle]
  exact congrArg (fun s' : System => (s'.next cfg ev).bind _) hsame

/-- A handler that is past its first calls has the semaphores of its exchange. -/
theorem Bound.handle_client (h : Bound cfg s) (he : s.system.exchanges[n]? = some e)
    (hopening : (s.client n).opening = []) : (s.client n).handle = (s.service n).handle := by
  funext k
  have hlinked := h.linked n e k he
  obtain ⟨o, ho⟩ := Option.ne_none_iff_exists'.mp (mt hlinked.attached.mp (by simp [hopening]))
  rw [ho, hlinked.same o ho]

theorem responding_mem_of_ne {w m : ℕ} {pc : System.ServiceWorker}
    (hw : s.system.workers[w]? = some pc) (hne : .responding m ≠ pc) (pc' : System.ServiceWorker)
    (hm : .responding m ∈ s.system.workers) : .responding m ∈ s.system.workers.set w pc' :=
  Slots.mem_set_of_ne hw hm hne

end Transfers

section Runs

variable {system' : System}

theorem bound_allocate (h : Bound cfg s) {w : ℕ} (hreach : (System.machine cfg).Reachable system')
    (hstep : s.system.step cfg (.allocate w) = some system') :
    Bound cfg { s with system := system' } := by
  obtain ⟨request, requestSize, hw, ⟨fault, -, rfl⟩ | ⟨gs, m, -, rfl⟩⟩ :=
    System.allocate_cases hstep
  · exact h.setSystem_same hreach rfl fun _ hm => .inl hm
  refine h.setSystem hreach (by simp [System.granted]) (fun n e' he' => ?_) fun n hn hnot => ?_
  · rcases System.getElem?_exchanges_append he' with hold | ⟨rfl, rfl⟩
    · exact .inl ⟨e', hold, rfl, rfl, .inl⟩
    · exact .inr ⟨le_rfl, rfl, rfl⟩
  · have hne : n ≠ s.system.exchanges.length := by
      rintro rfl
      have hlt := (List.getElem?_eq_some_iff.mp hw).1
      exact hnot (List.mem_of_getElem? (List.getElem?_set_self hlt))
    have hlt : n < s.system.exchanges.length := by
      have hsucc : n < s.system.exchanges.length + 1 := by simpa [System.granted] using hn
      omega
    exact .inl ⟨hlt, fun hold => hnot (responding_mem_of_ne hw (by simp) _ hold)⟩

theorem bound_respond (h : Bound cfg s) {w : ℕ} (hready : s.ready (.respond w) = true)
    (hreach : (System.machine cfg).Reachable system')
    (hstep : s.system.step cfg (.respond w) = some system') :
    Bound cfg { s with system := system' } := by
  obtain ⟨n, e, hw, -, ⟨fault, rfl⟩ | ⟨-, -, rfl⟩⟩ := System.respond_cases hstep
  · exact h.setSystem_same hreach rfl fun _ hm => .inl hm
  refine h.setSystem_same hreach rfl fun m hm => ?_
  by_cases hmn : m = n
  · subst hmn
    refine .inr ?_
    simpa [ready, served, hw, System.ServiceWorker.exchange] using hready
  · exact .inl (responding_mem_of_ne hw (by simpa using hmn) _ hm)

theorem bound_complete (h : Bound cfg s) {c j : ℕ} (hready : s.ready (.complete c j) = true)
    (hreach : (System.machine cfg).Reachable system')
    (hstep : s.system.step cfg (.complete c j) = some system') :
    Bound cfg { s with system := system' } := by
  obtain ⟨n, e, hw, he, -, rfl⟩ := System.complete_cases hstep
  have hclosed : (s.client n).closing = [] := by
    have hcalls : (s.client n).opening = [] ∧ (s.client n).closing = [] := by
      simpa [ready, processed, hw, System.ClientWorker.processed] using hready
    exact hcalls.2
  refine h.setSystem hreach (by simp [System.setExchange, System.setClient]) (fun m e' he' => ?_)
    fun m hm hnot => .inl ⟨?_, hnot⟩
  · rcases Slots.getElem?_set_cases he he' with ⟨rfl, rfl⟩ | ⟨-, hold⟩
    · exact .inl ⟨e, he, rfl, rfl, fun _ => .inr hclosed⟩
    · exact .inl ⟨e', hold, rfl, rfl, .inl⟩
  · simpa [System.setExchange, System.setClient] using hm

/-- A step of the system that uses no semaphore keeps the handles right. -/
theorem bound_of_next (h : Bound cfg s) {ev : System.Event} (hready : s.ready ev = true)
    (hserve : ∀ w, ev ≠ .serve w) (hprocess : ∀ c j, ev ≠ .process c j)
    (hnext : s.system.next cfg ev = some system') : Bound cfg { s with system := system' } := by
  have hreach : (System.machine cfg).Reachable system' := h.reachable.step hnext trivial
  have hstep := System.step_of_next hnext
  have hsame : system'.exchanges = s.system.exchanges → system'.workers = s.system.workers →
      Bound cfg { s with system := system' } :=
    fun hexchanges hworkers => h.setSystem_same hreach hexchanges fun _ hm => .inl (hworkers ▸ hm)
  cases ev with
  | submit c src =>
    obtain ⟨small, rfl⟩ := System.submit_cases hstep
    exact hsame rfl rfl
  | dispatch c =>
    obtain ⟨h', -, rfl⟩ := System.dispatch_cases hstep
    exact hsame rfl rfl
  | scheduleRequest c j =>
    obtain ⟨n, rest, -, -, rfl⟩ := System.scheduleRequest_cases hstep
    exact hsame rfl rfl
  | process c j => exact absurd rfl (hprocess c j)
  | complete c j => exact bound_complete h hready hreach hstep
  | destroy c j =>
    obtain ⟨n, e, -, -, rfl⟩ := System.destroy_cases hstep
    exact hsame rfl rfl
  | poll c =>
    obtain ⟨call, rest, -, -, rfl⟩ := System.poll_cases hstep
    exact hsame rfl rfl
  | enqueue =>
    obtain ⟨request, -, -, rfl⟩ := System.enqueue_cases hstep
    exact hsame rfl rfl
  | schedule w i =>
    obtain ⟨request, hw, -, -, rfl⟩ := System.schedule_cases hstep
    exact h.setSystem_same hreach rfl fun m hm => .inl (responding_mem_of_ne hw (by simp) _ hm)
  | allocate w => exact bound_allocate h hreach hstep
  | respond w => exact bound_respond h hready hreach hstep
  | serve w => exact absurd rfl (hserve w)
  | destroyHandler w =>
    obtain ⟨n, e, hw, -, -, rfl⟩ := System.destroyHandler_cases hstep
    exact h.setSystem_same hreach rfl fun m hm => .inl (responding_mem_of_ne hw (by simp) _ hm)

/-- One step of a transfer is the system's own. -/
theorem transfer_step (h : Bound cfg s) {n : ℕ} {e : System.Exchange} {h' : SemaphoreCalls}
    {ev : System.Event} (he : s.system.exchanges[n]? = some e)
    (hopen : (s.service n).opening = []) (hhandle : h'.handle = (s.service n).handle)
    (hnext : s.system.next cfg ev = some system') {t' : Transfer}
    (hexchanges : system'.exchanges = s.system.exchanges.set n { e with transfer := t' })
    (hworkers : system'.workers = s.system.workers) :
    ∃ t, s.transfer cfg n h' ev = some t ∧ t.system = system' ∧ Bound cfg t := by
  have hlt := (List.getElem?_eq_some_iff.mp he).1
  have hget : system'.exchanges[n]? = some { e with transfer := t' } := by
    rw [hexchanges, List.getElem?_set_self hlt]
  refine ⟨_, ?_, rfl, h.setTransfer (h.reachable.step hnext trivial) he hopen hexchanges hworkers⟩
  rw [h.transfer_eq he hopen hhandle, hnext, Option.bind_some, hget, Option.map_some]

/-- What a handler that is ready, or another thread, can do in the system it does here. -/
theorem step_of_ready (h : Bound cfg s) {ev : System.Event} (hready : s.ready ev = true)
    (hnext : s.system.next cfg ev = some system') :
    ∃ t, s.step cfg ev = some t ∧ t.system = system' ∧ Bound cfg t := by
  have hrest : (∀ w, ev ≠ .serve w) → (∀ c j, ev ≠ .process c j) →
      ∃ t, (s.system.next cfg ev).map (fun system => { s with system := system }) = some t ∧
        t.system = system' ∧ Bound cfg t := fun hserve hprocess =>
    ⟨_, by rw [hnext, Option.map_some], rfl, bound_of_next h hready hserve hprocess hnext⟩
  unfold step
  rw [if_pos hready]
  cases ev with
  | serve w =>
    obtain ⟨n, e, m', t', hw, he, -, rfl⟩ := System.serve_cases (System.step_of_next hnext)
    have hn : s.served w = some n := by simp [served, hw, System.ServiceWorker.exchange]
    have hopen : (s.service n).opening = [] := by simpa [ready, hn] using hready
    simp only [hn, Option.bind_some]
    exact transfer_step h he hopen rfl hnext rfl rfl
  | process c j =>
    obtain ⟨n, e, m', t', hw, he, -, rfl⟩ := System.process_cases (System.step_of_next hnext)
    have hn : s.processed c j = some n := by simp [processed, hw, System.ClientWorker.processed]
    have hopening : (s.client n).opening = [] := by simpa [ready, hn] using hready
    obtain ⟨e', he', -, hopen⟩ := h.opened_of_processed hn
    obtain rfl : e = e' := Option.some.inj (he.symm.trans he')
    simp only [hn, Option.bind_some]
    exact transfer_step h he hopen (h.handle_client he hopening) hnext rfl rfl
  | _ => exact hrest (fun _ h => by cases h) fun _ _ h => by cases h

/-- Nothing else happens here. -/
theorem next_of_step (h : Bound cfg s) {ev : System.Event} (hstep : s.step cfg ev = some t) :
    s.ready ev = true ∧ s.system.next cfg ev = some t.system := by
  unfold step at hstep
  split_ifs at hstep with hready
  refine ⟨hready, ?_⟩
  have htransfer : ∀ {n : ℕ} {e : System.Exchange} {h' : SemaphoreCalls},
      s.system.exchanges[n]? = some e → (s.service n).opening = [] →
      h'.handle = (s.service n).handle → s.transfer cfg n h' ev = some t →
      s.system.next cfg ev = some t.system := by
    intro n e h' he hopen hhandle htransfer
    rw [h.transfer_eq he hopen hhandle] at htransfer
    obtain ⟨system', hnext, hmap⟩ := Option.bind_eq_some_iff.mp htransfer
    obtain ⟨e', -, rfl⟩ := Option.map_eq_some_iff.mp hmap
    exact hnext
  have hrest : (s.system.next cfg ev).map (fun system => { s with system := system }) = some t →
      s.system.next cfg ev = some t.system := by
    intro hmap
    obtain ⟨system', hnext, rfl⟩ := Option.map_eq_some_iff.mp hmap
    exact hnext
  cases ev with
  | serve w =>
    obtain ⟨n, hn, hstep⟩ := Option.bind_eq_some_iff.mp hstep
    obtain ⟨e, he, -⟩ := Option.bind_eq_some_iff.mp hstep
    exact htransfer he (by simpa [ready, hn] using hready) rfl hstep
  | process c j =>
    obtain ⟨n, hn, hstep⟩ := Option.bind_eq_some_iff.mp hstep
    obtain ⟨e, he, -, hopen⟩ := h.opened_of_processed hn
    exact htransfer he hopen (h.handle_client he (by simpa [ready, hn] using hready)) hstep
  | _ => exact hrest hstep

theorem step_cases (h : Bound cfg s) {ev : System.Event} (hstep : s.step cfg ev = some t) :
    s.system.next cfg ev = some t.system ∧ Bound cfg t := by
  obtain ⟨hready, hnext⟩ := next_of_step h hstep
  obtain ⟨t', hstep', -, hbound⟩ := step_of_ready h hready hnext
  rw [hstep] at hstep'
  obtain rfl := Option.some.inj hstep'
  exact ⟨hnext, hbound⟩

/-- A semaphore call leaves the system alone, and a step of the system is its own. -/
theorem next_cases (h : Bound cfg s) {e : Event} (hnext : s.next cfg e = some t) :
    Bound cfg t ∧ (∀ ev, e.ofSystem = some ev → s.system.next cfg ev = some t.system) ∧
      (e.ofSystem = none → t.system = s.system) := by
  cases e with
  | step ev =>
    obtain ⟨hsystem, hbound⟩ := step_cases h hnext
    exact ⟨hbound, fun ev' hev => Option.some.inj hev ▸ hsystem, fun hev => by cases hev⟩
  | serviceCall w =>
    simp only [next] at hnext
    split_ifs at hnext
    obtain ⟨hsystem, hbound⟩ := serviceCall_step h hnext
    exact ⟨hbound, fun _ hev => (by cases hev), fun _ => hsystem⟩
  | clientCall c j =>
    simp only [next] at hnext
    split_ifs at hnext
    obtain ⟨hsystem, hbound⟩ := clientCall_step h hnext
    exact ⟨hbound, fun _ hev => (by cases hev), fun _ => hsystem⟩

/-- Without its semaphore calls a run is one of the system. -/
theorem runIf_system {table : SemaphoreTable} {ok : System → System.Event → Prop}
    {es : List Event} (h : Bound cfg s)
    (hrun : (machine cfg table).RunIf (fun s e => ∀ ev, e.ofSystem = some ev → ok s.system ev)
      s es t) :
    Bound cfg t ∧
      (System.machine cfg).RunIf ok s.system (es.filterMap Event.ofSystem) t.system := by
  induction hrun with
  | nil s => exact ⟨h, .nil _⟩
  | @cons s u t e es hnext hok _ ih =>
    obtain ⟨hbound, hstep, hcall⟩ := next_cases h hnext
    obtain ⟨hend, hrest⟩ := ih hbound
    refine ⟨hend, ?_⟩
    cases hev : e.ofSystem with
    | none => rwa [List.filterMap_cons_none hev, ← hcall hev]
    | some ev =>
      rw [List.filterMap_cons_some hev]
      exact .cons (hstep ev hev) (hok ev hev) hrest

end Runs

section Progress

variable {n : ℕ} {e : System.Exchange}

theorem due_of_calls {h : SemaphoreCalls} {finished : Bool}
    (hcalls : h.opening ≠ [] ∨ finished = true ∧ h.closing ≠ []) :
    ∃ next, h.due finished = some next := by
  cases hopening : h.opening with
  | cons call l =>
    simp only [SemaphoreCalls.due, hopening]
    exact ⟨_, rfl⟩
  | nil =>
    obtain ⟨hfinished, hclosing⟩ := hcalls.resolve_left (absurd hopening)
    obtain ⟨call, l, hl⟩ := List.exists_cons_of_ne_nil hclosing
    simp only [SemaphoreCalls.due, hopening, hl, hfinished, if_true]
    exact ⟨_, rfl⟩

theorem serviceCall_enabled {w : ℕ} (hn : s.served w = some n)
    (he : s.system.exchanges[n]? = some e) (hfault : s.system.fault.isNone = true)
    (hcalls : (s.service n).opening ≠ [] ∨
      e.transfer.service.phase = .finished ∧ (s.service n).closing ≠ []) :
    ∃ t, s.next cfg (.serviceCall w) = some t := by
  obtain ⟨next, hdue⟩ := due_of_calls (hcalls.imp_right (And.imp_left decide_eq_true))
  exact ⟨_, by simp only [NamedSystem.next, hfault, if_true, serviceCall, hn, he, hdue,
    Option.bind_some, Option.map_some]; rfl⟩

theorem clientCall_enabled {c j : ℕ} (hn : s.processed c j = some n)
    (he : s.system.exchanges[n]? = some e) (hfault : (s.system.clients c).fault.isNone = true)
    (hcalls : (s.client n).opening ≠ [] ∨
      e.transfer.client.phase = .finished ∧ (s.client n).closing ≠ []) :
    ∃ t, s.next cfg (.clientCall c j) = some t := by
  obtain ⟨next, hdue⟩ := due_of_calls (hcalls.imp_right (And.imp_left decide_eq_true))
  exact ⟨_, by simp only [NamedSystem.next, hfault, if_true, clientCall, hn, he, hdue,
    Option.bind_some, Option.map_some]; rfl⟩

/-- A handler that is not ready has a semaphore call to make. -/
theorem call_of_not_ready {ev : System.Event} {system' : System}
    (hnext : s.system.next cfg ev = some system') (hready : s.ready ev = false) :
    ∃ e t, e.ofSystem = none ∧ s.next cfg e = some t := by
  have halive : s.system.alive ev = true := by
    by_contra halive
    rw [System.next, if_neg halive] at hnext
    cases hnext
  have hstep := System.step_of_next hnext
  have hservice : ∀ {w n : ℕ} {e : System.Exchange}, s.served w = some n →
      s.system.exchanges[n]? = some e → s.system.fault.isNone = true →
      (s.service n).opening ≠ [] ∨
        e.transfer.service.phase = .finished ∧ (s.service n).closing ≠ [] →
      ∃ e t, e.ofSystem = none ∧ s.next cfg e = some t := by
    intro w n e hn he hfault hcalls
    obtain ⟨t, ht⟩ : ∃ t, s.next cfg (.serviceCall w) = some t :=
      serviceCall_enabled hn he hfault hcalls
    exact ⟨.serviceCall w, t, rfl, ht⟩
  have hclient : ∀ {c j n : ℕ} {e : System.Exchange}, s.processed c j = some n →
      s.system.exchanges[n]? = some e → (s.system.clients c).fault.isNone = true →
      (s.client n).opening ≠ [] ∨
        e.transfer.client.phase = .finished ∧ (s.client n).closing ≠ [] →
      ∃ e t, e.ofSystem = none ∧ s.next cfg e = some t := by
    intro c j n e hn he hfault hcalls
    obtain ⟨t, ht⟩ : ∃ t, s.next cfg (.clientCall c j) = some t :=
      clientCall_enabled hn he hfault hcalls
    exact ⟨.clientCall c j, t, rfl, ht⟩
  cases ev with
  | respond w =>
    obtain ⟨n, e, hw, he, -⟩ := System.respond_cases hstep
    have hn : s.served w = some n := by simp [served, hw, System.ServiceWorker.exchange]
    exact hservice hn he halive (.inl (by simpa [ready, hn] using hready))
  | serve w =>
    obtain ⟨n, e, m', t', hw, he, -⟩ := System.serve_cases hstep
    have hn : s.served w = some n := by simp [served, hw, System.ServiceWorker.exchange]
    exact hservice hn he halive (.inl (by simpa [ready, hn] using hready))
  | destroyHandler w =>
    obtain ⟨n, e, hw, he, hphase, -⟩ := System.destroyHandler_cases hstep
    have hn : s.served w = some n := by simp [served, hw, System.ServiceWorker.exchange]
    refine hservice hn he halive ?_
    by_cases hopening : (s.service n).opening = []
    · exact .inr ⟨hphase, by simpa [ready, hn, hopening] using hready⟩
    · exact .inl hopening
  | process c j =>
    obtain ⟨n, e, m', t', hw, he, -⟩ := System.process_cases hstep
    have hn : s.processed c j = some n := by simp [processed, hw, System.ClientWorker.processed]
    exact hclient hn he halive (.inl (by simpa [ready, hn] using hready))
  | complete c j =>
    obtain ⟨n, e, hw, he, hphase, -⟩ := System.complete_cases hstep
    have hn : s.processed c j = some n := by simp [processed, hw, System.ClientWorker.processed]
    refine hclient hn he halive ?_
    by_cases hopening : (s.client n).opening = []
    · exact .inr ⟨hphase, by simpa [ready, hn, hopening] using hready⟩
    · exact .inl hopening
  | _ => cases hready

end Progress

/-- Whatever names were taken at the start: without its semaphore calls, every run is
one of the system in which each exchange has semaphores of its own, under the same
conditions on its steps. No call fails, and a step of the system that cannot be taken
only waits for calls. A client's handler has opened what the service's handler of its
exchange has created, and that belongs to no other; and when a call of a client has
been completed, its names are free. -/
theorem named_semaphores {table : SemaphoreTable} {ok : System → System.Event → Prop}
    {es : List Event}
    (h : (machine cfg table).RunIf (fun s e => ∀ ev, e.ofSystem = some ev → ok s.system ev)
      (init cfg table) es s) :
    (System.machine cfg).RunIf ok (System.init cfg) (es.filterMap Event.ofSystem) s.system ∧
      (∀ e t, e.ofSystem = none → s.next cfg e = some t → t.system = s.system) ∧
      (∀ ev system', s.system.next cfg ev = some system' →
        (∃ t, s.next cfg (.step ev) = some t ∧ t.system = system') ∨
          ∃ e t, e.ofSystem = none ∧ s.next cfg e = some t) ∧
      (∀ n k o, (s.client n).handle k = some o → (s.service n).handle k = some o) ∧
      (∀ n k m l o, (s.service n).handle k = some o → (s.service m).handle l = some o →
        n = m ∧ k = l) ∧
      ∀ (n : ℕ) (e : System.Exchange) (k : Semaphore), s.system.exchanges[n]? = some e →
        e.completed = true → s.table.object (nameOf e k) = none := by
  obtain ⟨hbound, hrun⟩ := runIf_system (bound_init cfg table) h
  refine ⟨hrun, fun e t hcall hnext => (next_cases hbound hnext).2.2 hcall, ?_, ?_, hbound.distinct,
    ?_⟩
  · intro ev system' hnext
    by_cases hready : s.ready ev = true
    · obtain ⟨t, hstep, hsystem, -⟩ := step_of_ready hbound hready hnext
      exact .inl ⟨t, hstep, hsystem⟩
    · exact .inr (call_of_not_ready hnext (by simpa using hready))
  · intro n k o ho
    by_cases hn : n < s.system.exchanges.length
    · exact (hbound.linked n _ k (List.getElem?_eq_getElem hn)).same o ho
    · rw [(hbound.unborn n (Nat.le_of_not_lt hn)).2] at ho
      cases ho
  · intro n e k he hcompleted
    refine (hbound.linked n e k he).gone ?_
    rw [hbound.released n e he hcompleted]
    exact List.not_mem_nil

/-- An earlier run has left every name taken. -/
def leftovers : SemaphoreTable := ⟨fun _ => some 0, fun _ => 0, 1⟩

/-- One request from its submission until the client's worker has completed it. -/
def namedRun : List Event := List.flatten
  [List.map Event.step (.submit 0 [1, 2, 3] :: System.requestRun 0 ++ [.schedule 0 0, .allocate 0]),
    List.replicate 6 (.serviceCall 0), List.map Event.step (.respond 0 :: System.receiveRun 0 0),
    List.replicate 3 (.clientCall 0 0), List.map Event.step (System.transferRun 0 0 0),
    List.replicate 5 (.step (.process 0 0)), [.step (.serve 0)],
    List.replicate 3 (.serviceCall 0), [.step (.destroyHandler 0)],
    List.replicate 6 (.clientCall 0 0), [.step (.complete 0 0)]]

theorem named_semaphores_leftovers : ∃ s e,
    (machine (System.smallService fun _ => 1) leftovers).run
      (init (System.smallService fun _ => 1) leftovers) namedRun = some s ∧
    s.system.exchanges[0]? = some e ∧ e.transfer.client.compressedData = [3, 8, 1, 2, 3] ∧
      ∀ k, s.table.object (nameOf e k) = none := by
  have hmap : ((machine (System.smallService fun _ => 1) leftovers).run
      (init (System.smallService fun _ => 1) leftovers) namedRun).map
      (fun s => s.system.exchanges[0]?.map
        fun e => (e.completed, e.transfer.client.compressedData)) =
      some (some (true, [3, 8, 1, 2, 3])) := by decide +kernel
  obtain ⟨s, hrun, hs⟩ := Option.map_eq_some_iff.mp hmap
  obtain ⟨e, he, hfields⟩ := Option.map_eq_some_iff.mp hs
  obtain ⟨-, -, -, -, -, hfree⟩ := @named_semaphores _ _ _ (fun _ _ => True) _
    ((Machine.RunIf.of_run hrun).mono fun _ _ _ _ _ => trivial)
  exact ⟨s, e, hrun, he, congrArg Prod.snd hfields,
    fun k => hfree 0 e k he (congrArg Prod.fst hfields)⟩

end TinyFile.NamedSystem
