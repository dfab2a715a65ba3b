import TinyFile.System

/-!
# What each step does

One inversion lemma for each kind of step: where its thread was, what it found,
and the state that it leaves.
-/
namespace TinyFile.System

variable {cfg : Config} {s s' : System}

/-- The state after a worker was granted a segment for its request. -/
def granted (s : System) (w : ℕ) (m : ShmManager) (e : Exchange) : System :=
  { s.setWorker w (.responding s.exchanges.length) with
    manager := m
    exchanges := s.exchanges ++ [e] }

theorem step_of_next {ev : Event} (h : s.next cfg ev = some s') : s.step cfg ev = some s' := by
  simp only [next] at h
  split_ifs at h
  exact h

theorem alive_of_next {ev : Event} (h : s.next cfg ev = some s') : s.alive ev = true := by
  simp only [next] at h
  split_ifs at h with halive
  exact halive

theorem submit_cases {c : ℕ} {src : List UInt8} (h : s.step cfg (.submit c src) = some s') :
    ∃ small, s' = s.setClient c ((s.clients c).submit src small) := by
  simp only [step] at h
  split_ifs at h with small
  exact ⟨small, (Option.some.inj h).symm⟩

theorem dispatch_cases {c : ℕ} (h : s.step cfg (.dispatch c) = some s') :
    ∃ h', (s.clients c).dispatch s.exchanges = some h' ∧ s' = s.setClient c h' := by
  obtain ⟨h', hdispatch, rfl⟩ := Option.map_eq_some_iff.mp h
  exact ⟨h', hdispatch, rfl⟩

theorem scheduleRequest_cases {c j : ℕ} (h : s.step cfg (.scheduleRequest c j) = some s') :
    ∃ n rest, (s.clients c).workers[j]? = some .idle ∧
      (s.clients c).requestResponseQueue = n :: rest ∧
      s' = s.setClient c { s.clients c with
        requestResponseQueue := rest
        workers := (s.clients c).workers.set j (.processing n) } := by
  obtain ⟨h', hschedule, rfl⟩ := Option.map_eq_some_iff.mp h
  simp only [Client.scheduleRequest] at hschedule
  split at hschedule
  · next n rest hw hq =>
    cases hschedule
    exact ⟨n, rest, hw, hq, rfl⟩
  · cases hschedule

theorem process_cases {c j : ℕ} (h : s.step cfg (.process c j) = some s') :
    ∃ n e m' t', (s.clients c).workers[j]? = some (.processing n) ∧ s.exchanges[n]? = some e ∧
      Transfer.clientStep (e.job cfg) s.memory e.transfer = some (m', t') ∧
      s' = ({ s.setExchange n { e with transfer := t' } with memory := m' } : System).setClient c
        { s.clients c with fault := t'.client.phase.fault } := by
  simp only [step, process] at h
  split at h
  · next n hw =>
    obtain ⟨e, he, h⟩ := Option.bind_eq_some_iff.mp h
    obtain ⟨⟨m', t'⟩, hprocess, rfl⟩ := Option.map_eq_some_iff.mp h
    exact ⟨n, e, m', t', hw, he, hprocess, rfl⟩
  · cases h

theorem complete_cases {c j : ℕ} (h : s.step cfg (.complete c j) = some s') :
    ∃ n e, (s.clients c).workers[j]? = some (.processing n) ∧ s.exchanges[n]? = some e ∧
      e.transfer.client.phase = .finished ∧
      s' = (s.setClient c ((s.clients c).completeRequest j n)).setExchange n
        { e with completed := true } := by
  simp only [step, complete] at h
  split at h
  · next n hw =>
    obtain ⟨e, he, h⟩ := Option.bind_eq_some_iff.mp h
    split_ifs at h with hphase
    cases h
    exact ⟨n, e, hw, he, hphase, rfl⟩
  · cases h

theorem destroy_cases {c j : ℕ} (h : s.step cfg (.destroy c j) = some s') :
    ∃ n e, (s.clients c).workers[j]? = some (.destroying n) ∧ s.exchanges[n]? = some e ∧
      s' = s.setClient c ((s.clients c).destroy j e.segment.getSegmentIds) := by
  simp only [step, destroy] at h
  split at h
  · next n hw =>
    obtain ⟨e, he, rfl⟩ := Option.map_eq_some_iff.mp h
    exact ⟨n, e, hw, he, rfl⟩
  · cases h

theorem poll_cases {c : ℕ} (h : s.step cfg (.poll c) = some s') :
    ∃ call rest, s.registration = .polling ∧ (s.clients c).clientToServer = call :: rest ∧
      s' = { s.setClient c { s.clients c with clientToServer := rest } with
        registration := .enqueueing { call with clientId := c } } := by
  simp only [step, poll] at h
  split at h
  · next call rest hr hq =>
    cases h
    exact ⟨call, rest, hr, hq, rfl⟩
  · cases h

theorem enqueue_cases (h : s.step cfg .enqueue = some s') :
    ∃ request, s.registration = .enqueueing request ∧ s.mutexHeld = false ∧
      s' = { s with pending := s.pending ++ [request], registration := .polling } := by
  simp only [step, enqueue] at h
  split at h
  · cases h
  · next request hr =>
    split_ifs at h with hmutex
    cases h
    exact ⟨request, hr, by simpa using hmutex, rfl⟩

theorem schedule_cases {w i : ℕ} (h : s.step cfg (.schedule w i) = some s') :
    ∃ request, s.workers[w]? = some .idle ∧ s.pending[i]? = some request ∧
      s.mutexHeld = false ∧
      s' = { s.setWorker w (.allocating request (Scheduler.handlerShmSize s.manager
          (s.pending.eraseIdx i).length cfg.serviceWorkers request.fileSize cfg.strategy)) with
        pending := s.pending.eraseIdx i } := by
  simp only [step, schedule] at h
  split at h
  · next request hw hr =>
    split_ifs at h with hmutex
    cases h
    exact ⟨request, hw, hr, by simpa using hmutex, rfl⟩
  · cases h

theorem allocate_cases {w : ℕ} (h : s.step cfg (.allocate w) = some s') :
    ∃ request requestSize, s.workers[w]? = some (.allocating request requestSize) ∧
      ((∃ fault, s.manager.getShmSegment requestSize = .error fault ∧
        s' = { s with fault := some fault }) ∨
      ∃ gs m, s.manager.getShmSegment requestSize = .ok (some (gs, m)) ∧
        s' = s.granted w m
          ⟨request, gs, Transfer.init ⟨gs, request.src, cfg.compress⟩, false⟩) := by
  simp only [step, allocate] at h
  split at h
  · next request requestSize hw =>
    refine ⟨request, requestSize, hw, ?_⟩
    split at h
    · next fault hgrant => exact .inl ⟨fault, hgrant, (Option.some.inj h).symm⟩
    · cases h
    · next gs m hgrant => exact .inr ⟨gs, m, hgrant, (Option.some.inj h).symm⟩
  · cases h

theorem respond_cases {w : ℕ} (h : s.step cfg (.respond w) = some s') :
    ∃ n e, s.workers[w]? = some (.responding n) ∧ s.exchanges[n]? = some e ∧
      ((∃ fault, s' = { s with fault := some fault }) ∨
      RegistrationVisitor.checkSize
          (MQServerRequestMessage.getContentSize e.segment.getSegmentIds) = .ok () ∧
        (s.clients e.request.clientId).serverToClient.length < CLIENT_MAX_MSG ∧
        s' = (s.setWorker w (.serving n)).setClient e.request.clientId
          { s.clients e.request.clientId with
            serverToClient := (s.clients e.request.clientId).serverToClient ++ [n] }) := by
  simp only [step, respond] at h
  split at h
  · next n hw =>
    obtain ⟨e, he, h⟩ := Option.bind_eq_some_iff.mp h
    refine ⟨n, e, hw, he, ?_⟩
    split at h
    · next fault _ => exact .inl ⟨fault, (Option.some.inj h).symm⟩
    · next hsize =>
      split_ifs at h with hroom
      exact .inr ⟨hsize, hroom, (Option.some.inj h).symm⟩
  · cases h

theorem serve_cases {w : ℕ} (h : s.step cfg (.serve w) = some s') :
    ∃ n e m' t', s.workers[w]? = some (.serving n) ∧ s.exchanges[n]? = some e ∧
      Transfer.serviceStep (e.job cfg) s.memory e.transfer = some (m', t') ∧
      s' = { s.setExchange n { e with transfer := t' } with
        memory := m', fault := t'.service.phase.fault } := by
  simp only [step, serve] at h
  split at h
  · next n hw =>
    obtain ⟨e, he, h⟩ := Option.bind_eq_some_iff.mp h
    obtain ⟨⟨m', t'⟩, hserve, rfl⟩ := Option.map_eq_some_iff.mp h
    exact ⟨n, e, m', t', hw, he, hserve, rfl⟩
  · cases h

theorem destroyHandler_cases {w : ℕ} (h : s.step cfg (.destroyHandler w) = some s') :
    ∃ n e, s.workers[w]? = some (.serving n) ∧ s.exchanges[n]? = some e ∧
      e.transfer.service.phase = .finished ∧
      s' = { s.setWorker w .idle with
        manager := s.manager.releaseShmSegment e.segment.getSegmentIds } := by
  simp only [step, destroyHandler] at h
  split at h
  · next n hw =>
    obtain ⟨e, he, h⟩ := Option.bind_eq_some_iff.mp h
    split_ifs at h with hphase
    cases h
    exact ⟨n, e, hw, he, hphase, rfl⟩
  · cases h

end TinyFile.System
