import TinyFile.SystemInvariant

/-!
# Exclusive segments

The service destroys a handler, and gives its segment back, as soon as the last
chunk is posted; it does not wait for the client to copy that chunk. In runs in
which each handler outlives the client's last read, a segment belongs to one
request until then.
-/
namespace TinyFile.System

/-- Handlers are only destroyed when their client has copied the last chunk. -/
def awaitsLastRead (s : System) : Event → Bool
  | .destroyHandler w =>
      match s.workers[w]? with
      | some (.serving n) => s.exchanges[n]?.all (fun e => decide e.transfer.LastRead)
      | _ => true
  | _ => true

/-- The exchange whose handler, on either side, takes the step. -/
def Event.exchange (s : System) : Event → Option ℕ
  | .serve w => s.workers[w]?.bind ServiceWorker.exchange
  | .process c j => (s.clients c).workers[j]?.bind ClientWorker.processed
  | _ => none

/-- Every transfer is undisturbed, and the service's handler is only gone after
the client's last read. -/
def Undisturbed (cfg : Config) (s : System) : Prop :=
  ∀ n e, s.exchanges[n]? = some e →
    e.Live cfg s.memory ∧ (n ∉ s.handlers → e.transfer.LastRead)

section Steps

variable {cfg : Config} {s s' : System}

theorem undisturbed_init (cfg : Config) : Undisturbed cfg (init cfg) := by
  intro n e he
  cases he

theorem Undisturbed.congr (h : Undisturbed cfg s) (hexchanges : s'.exchanges = s.exchanges)
    (hhandlers : s'.handlers = s.handlers) (hmemory : s'.memory = s.memory) :
    Undisturbed cfg s' := by
  intro n e he
  rw [hexchanges] at he
  rw [hhandlers, hmemory]
  exact h n e he

theorem Exchange.Live.of_lastRead {e : Exchange} {m : Memory} (h : e.Live cfg m)
    (hread : e.transfer.LastRead) (m' : Memory) : e.Live cfg m' := by
  obtain ⟨x, hx, hstage⟩ := h
  exact ⟨x, hx, hstage.of_lastRead hread m'⟩

/-- A handler moves its exchange on. -/
theorem Undisturbed.setExchange {n : ℕ} {e e' : Exchange} {m' : Memory} (hinv : Invariant cfg s)
    (h : Undisturbed cfg s) (he : s.exchanges[n]? = some e) (hlive : e'.Live cfg m')
    (hframe : n ∈ s.handlers →
      ∀ segment a, ¬ e.segment.Covers segment a → m' segment a = s.memory segment a)
    (htail : n ∉ s.handlers → m' = s.memory ∧ e'.transfer.LastRead) :
    Undisturbed cfg { s.setExchange n e' with memory := m' } := by
  obtain ⟨hlt, -⟩ := List.getElem?_eq_some_iff.mp he
  intro m e₂ hm
  by_cases hmn : m = n
  · subst hmn
    have hset : (s.exchanges.set m e')[m]? = some e₂ := hm
    rw [List.getElem?_set_self hlt] at hset
    cases hset
    exact ⟨hlive, fun hn => (htail hn).2⟩
  · have hold : s.exchanges[m]? = some e₂ := (List.getElem?_set_ne (Ne.symm hmn)).symm.trans hm
    obtain ⟨hlive₂, hread⟩ := h m e₂ hold
    refine ⟨?_, hread⟩
    by_cases hn : n ∈ s.handlers
    · by_cases hmem : m ∈ s.handlers
      · exact hlive₂.congr fun segment a hc =>
          hframe hn segment a (hinv.disjoint hmem hn hmn hold he segment a hc)
      · exact hlive₂.of_lastRead (hread hmem) m'
    · rw [(htail hn).1]
      exact hlive₂

theorem undisturbed_serve {w : ℕ} (hinv : Invariant cfg s) (h : Undisturbed cfg s)
    (hstep : s.step cfg (.serve w) = some s') : Undisturbed cfg s' := by
  obtain ⟨n, e, m', t', hw, he, hserve, rfl⟩ := serve_cases hstep
  have hn : n ∈ s.handlers := List.mem_filterMap.mpr ⟨_, List.mem_of_getElem? hw, rfl⟩
  obtain ⟨x, hx, hstage⟩ := (h n e he).1
  rw [← hx] at hserve
  obtain ⟨hstage', hframe⟩ := Transfer.serviceStep_stage hstage hserve
  have hseg : x.segment = e.segment := congrArg Job.segment hx
  rw [hseg] at hframe
  have h' : Undisturbed cfg { s.setExchange n { e with transfer := t' } with memory := m' } :=
    h.setExchange hinv he ⟨x, hx, hstage'⟩ (fun _ => hframe) (fun hnot => absurd hn hnot)
  exact h'

theorem undisturbed_process {c j : ℕ} (hinv : Invariant cfg s) (h : Undisturbed cfg s)
    (hstep : s.step cfg (.process c j) = some s') : Undisturbed cfg s' := by
  obtain ⟨n, e, m', t', hw, he, hprocess, rfl⟩ := process_cases hstep
  obtain ⟨⟨x, hx, hstage⟩, hread⟩ := h n e he
  have htail : n ∉ s.handlers → m' = s.memory := fun hn =>
    ((hinv.tail n e he hn).clientStep hprocess).2
  rw [← hx] at hprocess
  obtain ⟨hstage', hframe⟩ := Transfer.clientStep_stage hstage hprocess
  have hseg : x.segment = e.segment := congrArg Job.segment hx
  rw [hseg] at hframe
  have h' : Undisturbed cfg { s.setExchange n { e with transfer := t' } with memory := m' } :=
    h.setExchange hinv he ⟨x, hx, hstage'⟩ (fun _ => hframe) (fun hn =>
      ⟨htail hn, hstage.lastRead_clientStep (hread hn) hprocess⟩)
  exact h'

theorem undisturbed_complete {c j : ℕ} (hinv : Invariant cfg s) (h : Undisturbed cfg s)
    (hstep : s.step cfg (.complete c j) = some s') : Undisturbed cfg s' := by
  obtain ⟨n, e, hw, he, -, rfl⟩ := complete_cases hstep
  have h' : Undisturbed cfg (s.setExchange n { e with completed := true }) :=
    h.setExchange hinv he (h n e he).1 (fun _ _ _ _ => rfl) (fun hn => ⟨rfl, (h n e he).2 hn⟩)
  exact h'

theorem Undisturbed.granted {w requestSize : ℕ} {request : Request} {m : ShmManager}
    {e : Exchange} (hinv' : Invariant cfg (s.granted w m e)) (h : Undisturbed cfg s)
    (hw : s.workers[w]? = some (.allocating request requestSize)) :
    Undisturbed cfg (s.granted w m e) := by
  intro n e' he'
  have hmem := (handlers_granted (m := m) (e := e) hw).mem_iff (a := n)
  rw [List.mem_cons] at hmem
  rcases getElem?_exchanges_append he' with he | ⟨hlast, -⟩
  · exact ⟨(h n e' he).1, fun hn => (h n e' he).2 (fun hn' => hn (hmem.mpr (.inr hn')))⟩
  · have hn := hmem.mpr (.inl hlast)
    exact ⟨hinv'.live n e' he' hn, fun hnot => absurd hn hnot⟩

theorem undisturbed_allocate {w : ℕ} (hinv' : Invariant cfg s') (h : Undisturbed cfg s)
    (hstep : s.step cfg (.allocate w) = some s') : Undisturbed cfg s' := by
  obtain ⟨request, requestSize, hw, hcases⟩ := allocate_cases hstep
  rcases hcases with ⟨fault, -, rfl⟩ | ⟨gs, m, -, rfl⟩
  · exact h
  · exact h.granted hinv' hw

/-- Here the condition on the step is used. -/
theorem undisturbed_destroyHandler {w : ℕ} (h : Undisturbed cfg s)
    (hok : s.awaitsLastRead (.destroyHandler w) = true)
    (hstep : s.step cfg (.destroyHandler w) = some s') : Undisturbed cfg s' := by
  obtain ⟨n, e, hw, he, -, rfl⟩ := destroyHandler_cases hstep
  have hread : e.transfer.LastRead := by simpa [awaitsLastRead, hw, he] using hok
  intro m e' hget
  have he' : s.exchanges[m]? = some e' := hget
  refine ⟨(h m e' he').1, fun hm => ?_⟩
  by_cases hmn : m = n
  · subst hmn
    rw [he] at he'
    cases he'
    exact hread
  · refine (h m e' he').2 (fun hm' => ?_)
    rcases List.mem_cons.mp ((handlers_destroyed hw).mem_iff.mp hm') with hm' | hm'
    · exact hmn hm'
    · exact hm hm'

theorem undisturbed_step {ev : Event} (hinv : Invariant cfg s) (h : Undisturbed cfg s)
    (hok : s.awaitsLastRead ev = true) (hstep : s.step cfg ev = some s') :
    Undisturbed cfg s' := by
  have hinv' := invariant_step hinv hstep
  cases ev with
  | submit c src =>
    obtain ⟨small, rfl⟩ := submit_cases hstep
    exact h
  | dispatch c =>
    obtain ⟨h', -, rfl⟩ := dispatch_cases hstep
    exact h
  | scheduleRequest c j =>
    obtain ⟨n, rest, -, -, rfl⟩ := scheduleRequest_cases hstep
    exact h
  | process c j => exact undisturbed_process hinv h hstep
  | complete c j => exact undisturbed_complete hinv h hstep
  | destroy c j =>
    obtain ⟨n, e, -, -, rfl⟩ := destroy_cases hstep
    exact h
  | poll c =>
    obtain ⟨call, rest, -, -, rfl⟩ := poll_cases hstep
    exact h
  | enqueue =>
    obtain ⟨request, -, -, rfl⟩ := enqueue_cases hstep
    exact h
  | schedule w i =>
    obtain ⟨request, hw, -, -, rfl⟩ := schedule_cases hstep
    exact h.congr rfl (Slots.filterMap_set ServiceWorker.exchange hw rfl) rfl
  | allocate w => exact undisturbed_allocate hinv' h hstep
  | respond w =>
    obtain ⟨n, e, hw, -, hcases⟩ := respond_cases hstep
    rcases hcases with ⟨fault, rfl⟩ | ⟨-, -, rfl⟩
    · exact h
    · exact h.congr rfl (Slots.filterMap_set ServiceWorker.exchange hw rfl) rfl
  | serve w => exact undisturbed_serve hinv h hstep
  | destroyHandler w => exact undisturbed_destroyHandler h hok hstep

theorem undisturbed_of_reachable
    (h : (machine cfg).ReachableIf (fun s ev => s.awaitsLastRead ev = true) s) :
    Invariant cfg s ∧ Undisturbed cfg s := by
  have hinv : Invariant cfg s := invariant_of_reachable h.reachable
  refine ⟨hinv, ?_⟩
  induction h with
  | start => exact undisturbed_init cfg
  | step hs hnext hok ih =>
    have hinv₀ := invariant_of_reachable hs.reachable
    exact undisturbed_step hinv₀ (ih hinv₀) hok (step_of_next hnext)

end Steps

/-- What a request may rely on. -/
structure Exclusive (cfg : Config) (s : System) (n : ℕ) (e : Exchange) : Prop where
  unavailable : ¬ e.transfer.LastRead →
    ∀ id ∈ e.segment.getSegmentIds, s.manager.availableSegments[id]? = some false
  apart : ¬ e.transfer.LastRead → ∀ n' e', n' ≠ n → s.exchanges[n']? = some e' →
    e'.transfer.service.phase.accesses = true ∨ e'.transfer.client.phase.accesses = true →
    ∀ segment a, e.segment.Covers segment a → ¬ e'.segment.Covers segment a
  unwritten : ¬ e.transfer.LastRead → ∀ ev s', s.next cfg ev = some s' →
    ev.exchange s ≠ some n →
    ∀ segment a, e.segment.Covers segment a → s'.memory segment a = s.memory segment a
  own : ∃ o, Unread e.transfer.wires.history o
  data : e.transfer.client.phase = .finished →
    e.transfer.client.compressedData = cfg.compress e.request.src

section Consequences

variable {cfg : Config} {s s' : System} {n : ℕ} {e : Exchange}

/-- The ids of a live handler's segment are marked allocated. -/
theorem Invariant.unavailable (h : Invariant cfg s) (he : s.exchanges[n]? = some e)
    (hn : n ∈ s.handlers) :
    ∀ id ∈ e.segment.getSegmentIds, s.manager.availableSegments[id]? = some false := by
  intro id hid
  obtain ⟨g, hg, rfl⟩ := List.mem_map.mp hid
  have hheld : g ∈ s.held :=
    List.mem_flatMap.mpr ⟨n, hn, by rw [segmentOf_eq he]; exact hg⟩
  exact h.pool.flag_of_held hheld

/-- A handler that is in its segment belongs to an exchange that the service has
not left. -/
theorem Undisturbed.mem_of_accesses (h : Undisturbed cfg s)
    (he : s.exchanges[n]? = some e)
    (hacc : e.transfer.service.phase.accesses = true ∨
      e.transfer.client.phase.accesses = true) : n ∈ s.handlers := by
  by_contra hn
  obtain ⟨⟨x, -, hstage⟩, hread⟩ := h n e he
  obtain ⟨hs, hc⟩ := hstage.no_access_of_lastRead (hread hn)
  rw [hs, hc] at hacc
  simp at hacc

/-- A step writes only to the segment of its own exchange, and only while the
service's handler is there. -/
theorem memory_of_step {ev : Event} (h : Invariant cfg s) (hstep : s.step cfg ev = some s')
    (hmem : n ∈ s.handlers) (he : s.exchanges[n]? = some e) (hev : ev.exchange s ≠ some n)
    (segment a : ℕ) (hc : e.segment.Covers segment a) :
    s'.memory segment a = s.memory segment a := by
  cases ev with
  | serve w =>
    obtain ⟨n', e', m', t', hw, he', hserve, rfl⟩ := serve_cases hstep
    have hn' : n' ∈ s.handlers := List.mem_filterMap.mpr ⟨_, List.mem_of_getElem? hw, rfl⟩
    have hne : n ≠ n' := by
      rintro rfl
      simp [Event.exchange, hw, ServiceWorker.exchange] at hev
    obtain ⟨x, hx, hstage⟩ := h.live n' e' he' hn'
    rw [← hx] at hserve
    have hframe := (Transfer.serviceStep_stage hstage hserve).frame
    have hseg : x.segment = e'.segment := congrArg Job.segment hx
    rw [hseg] at hframe
    exact hframe segment a (h.disjoint hmem hn' hne he he' segment a hc)
  | process c j =>
    obtain ⟨n', e', m', t', hw, he', hprocess, rfl⟩ := process_cases hstep
    have hne : n ≠ n' := by
      rintro rfl
      simp [Event.exchange, hw, ClientWorker.processed] at hev
    by_cases hn' : n' ∈ s.handlers
    · obtain ⟨x, hx, hstage⟩ := h.live n' e' he' hn'
      rw [← hx] at hprocess
      have hframe := (Transfer.clientStep_stage hstage hprocess).frame
      have hseg : x.segment = e'.segment := congrArg Job.segment hx
      rw [hseg] at hframe
      exact hframe segment a (h.disjoint hmem hn' hne he he' segment a hc)
    · have hsame : m' = s.memory := ((h.tail n' e' he' hn').clientStep hprocess).2
      exact congrFun (congrFun hsame segment) a
  | submit c src =>
    obtain ⟨small, rfl⟩ := submit_cases hstep
    rfl
  | dispatch c =>
    obtain ⟨h', -, rfl⟩ := dispatch_cases hstep
    rfl
  | scheduleRequest c j =>
    obtain ⟨n', rest, -, -, rfl⟩ := scheduleRequest_cases hstep
    rfl
  | complete c j =>
    obtain ⟨n', e', -, -, -, rfl⟩ := complete_cases hstep
    rfl
  | destroy c j =>
    obtain ⟨n', e', -, -, rfl⟩ := destroy_cases hstep
    rfl
  | poll c =>
    obtain ⟨call, rest, -, -, rfl⟩ := poll_cases hstep
    rfl
  | enqueue =>
    obtain ⟨request, -, -, rfl⟩ := enqueue_cases hstep
    rfl
  | schedule w i =>
    obtain ⟨request, -, -, -, rfl⟩ := schedule_cases hstep
    rfl
  | allocate w =>
    obtain ⟨request, requestSize, -, ⟨fault, -, rfl⟩ | ⟨gs, m, -, rfl⟩⟩ := allocate_cases hstep
    · rfl
    · rfl
  | respond w =>
    obtain ⟨n', e', -, -, ⟨fault, rfl⟩ | ⟨-, -, rfl⟩⟩ := respond_cases hstep
    · rfl
    · rfl
  | destroyHandler w =>
    obtain ⟨n', e', -, -, -, rfl⟩ := destroyHandler_cases hstep
    rfl

end Consequences

/-- In every run that destroys a service handler only after its client's last
read, a segment belongs to its request until that read. -/
theorem segment_exclusive {cfg : Config} {s : System}
    (h : (machine cfg).ReachableIf (fun s ev => s.awaitsLastRead ev = true) s) {n : ℕ}
    {e : Exchange} (he : s.exchanges[n]? = some e) : Exclusive cfg s n e := by
  obtain ⟨hinv, hund⟩ := undisturbed_of_reachable h
  obtain ⟨⟨x, hx, hstage⟩, hread⟩ := hund n e he
  have hmem : ¬ e.transfer.LastRead → n ∈ s.handlers := by
    intro hnot
    by_contra hn
    exact hnot (hread hn)
  refine ⟨fun hnot => hinv.unavailable he (hmem hnot), ?_, ?_, hstage.unread, ?_⟩
  · intro hnot n' e' hne he' hacc
    exact hinv.disjoint (hmem hnot) (hund.mem_of_accesses he' hacc) hne.symm he he'
  · intro hnot ev s' hnext hev
    exact memory_of_step hinv (step_of_next hnext) (hmem hnot) he hev
  · intro hphase
    have hsrc : x.src = e.request.src := congrArg Job.src hx
    have hcompress : x.compress = cfg.compress := congrArg Job.compress hx
    rw [(hstage.finished hphase).1, Session.output, hsrc, hcompress]

/-- One client's whole request; the service destroys its handler at the end. -/
def undisturbedRun : List Event := List.flatten
  [[.submit 0 [1, 2, 3]], requestRun 0, responseRun 0, receiveRun 0 0, transferRun 0 0 0,
    List.replicate 5 (.process 0 0), [.serve 0, .destroyHandler 0]]

/-- One client's whole request, its last read and the end of the service's handler; the
second client's request is given the segment then. -/
def handedOnRun : List Event := List.flatten
  [undisturbedRun, [.submit 1 [4, 5, 6]], requestRun 1, responseRun 1, receiveRun 1 0,
    transferRun 1 1 0, List.replicate 5 (.process 1 0)]

theorem segment_exclusive_two_requests : ∃ s e e',
    (machine (smallService (fun _ => 1))).ReachableIf (fun s ev => s.awaitsLastRead ev = true) s ∧
      s.exchanges = [e, e'] ∧ e'.segment = e.segment ∧
      e.transfer.client.compressedData = [3, 8, 1, 2, 3] ∧
      e'.transfer.client.compressedData = [3, 8, 4, 5, 6] := by
  have hmap : ((machine (smallService (fun _ => 1))).runIf
      (fun s ev => s.awaitsLastRead ev = true) (machine (smallService (fun _ => 1))).start
      handedOnRun).map (fun s => s.exchanges.map
        (fun e => (e.transfer.client.phase, e.request.src, e.segment))) =
      some [(.finished, [1, 2, 3], [⟨0, 0, 0, 32⟩]), (.finished, [4, 5, 6], [⟨0, 0, 0, 32⟩])] := by
    decide +kernel
  obtain ⟨s, hrun, hs⟩ := Option.map_eq_some_iff.mp hmap
  obtain ⟨e, rest, hexchanges, he, hrest⟩ := List.map_eq_cons_iff.mp hs
  obtain ⟨e', rest', rfl, he', hnil⟩ := List.map_eq_cons_iff.mp hrest
  rw [List.map_eq_nil_iff.mp hnil] at hexchanges
  simp only [Prod.mk.injEq] at he he'
  have hreach := Machine.reachableIf_of_runIf hrun
  have hdata := (segment_exclusive hreach (n := 0) (by rw [hexchanges]; rfl)).data he.1
  have hdata' := (segment_exclusive hreach (n := 1) (by rw [hexchanges]; rfl)).data he'.1
  rw [he.2.1] at hdata
  rw [he'.2.1] at hdata'
  exact ⟨s, e, e', hreach, hexchanges, he'.2.2.trans he.2.2.symm,
    hdata.trans (by decide +kernel), hdata'.trans (by decide +kernel)⟩

/-- Two clients: the service has posted the first one's chunk and destroyed its
handler, and uses the segment for the second one. -/
def reuseRun : List Event := List.flatten
  [[.submit 0 [1, 2, 3], .submit 1 [4, 5, 6]], requestRun 0, requestRun 1, responseRun 0,
    receiveRun 0 0, transferRun 0 0 0, [.serve 0, .destroyHandler 0]]

/-- The second client's transfer, and then the rest of the first one's. -/
def reusedRun : List Event := List.flatten
  [reuseRun, responseRun 1, receiveRun 1 0, transferRun 1 1 0,
    List.replicate 5 (.process 0 0), [.complete 0 0]]

/-- The segment is available before the first client's last read, and that client
then completes its request with the second client's file. -/
theorem segment_reused_before_last_read :
    (∃ s e, (machine (smallService (fun _ => 1))).Reachable s ∧ s.exchanges[0]? = some e ∧
      ¬ e.transfer.LastRead ∧ e.segment.getSegmentIds = [0] ∧
      s.manager.availableSegments[0]? = some true) ∧
    (∃ s e, (machine (smallService (fun _ => 1))).Reachable s ∧ s.exchanges[0]? = some e ∧
      e.completed = true ∧ e.request.src = [1, 2, 3] ∧
      e.transfer.client.compressedData = [3, 8, 4, 5, 6]) := by
  constructor
  · have hmap : ((machine (smallService (fun _ => 1))).run
        (machine (smallService (fun _ => 1))).start reuseRun).map
        (fun s => s.exchanges[0]?.map (fun e => (decide e.transfer.LastRead,
          e.segment.getSegmentIds, s.manager.availableSegments[0]?))) =
        some (some (false, [0], some true)) := by decide +kernel
    obtain ⟨s, hrun, hs⟩ := Option.map_eq_some_iff.mp hmap
    obtain ⟨e, he, hfields⟩ := Option.map_eq_some_iff.mp hs
    simp only [Prod.mk.injEq, decide_eq_false_iff_not] at hfields
    exact ⟨s, e, Machine.reachable_of_run hrun, he, hfields⟩
  · have hmap : ((machine (smallService (fun _ => 1))).run
        (machine (smallService (fun _ => 1))).start reusedRun).map
        (fun s => s.exchanges[0]?.map (fun e => (e.completed, e.request.src,
          e.transfer.client.compressedData))) =
        some (some (true, [1, 2, 3], [3, 8, 4, 5, 6])) := by decide +kernel
    obtain ⟨s, hrun, hs⟩ := Option.map_eq_some_iff.mp hmap
    obtain ⟨e, he, hfields⟩ := Option.map_eq_some_iff.mp hs
    simp only [Prod.mk.injEq] at hfields
    exact ⟨s, e, Machine.reachable_of_run hrun, he, hfields⟩

end TinyFile.System
