import TinyFile.SystemInvariant

/-!
# Where an exchange is

No worker vanishes, and an exchange that is not completed is with a worker of the
service that has yet to respond, or among the responses of its client.
-/
namespace TinyFile.System

structure Placed (cfg : Config) (s : System) : Prop where
  workers : s.workers.length = cfg.serviceWorkers
  clientWorkers : ∀ c, (s.clients c).workers.length = cfg.numWorkers c
  destroying : ∀ c n, .destroying n ∈ (s.clients c).workers → n < s.exchanges.length
  located : ∀ n e, s.exchanges[n]? = some e → e.completed = false →
    .responding n ∈ s.workers ∨ n ∈ (s.clients e.request.clientId).responses
  completed : ∀ (n : ℕ) e, s.exchanges[n]? = some e → e.completed = true →
    e.transfer.client.phase = .finished

variable {cfg : Config} {s s' : System}

theorem placed_init (cfg : Config) : Placed cfg (init cfg) where
  workers := List.length_replicate
  clientWorkers := fun _ => List.length_replicate
  destroying := fun _ _ h => by cases List.eq_of_mem_replicate h
  located := fun _ _ he => by cases he
  completed := fun _ _ he => by cases he

section Frame

/-- A step of one client that loses no response. -/
theorem Placed.setClient {c : ℕ} {h' : Client} (h : Placed cfg s)
    (hlength : h'.workers.length = (s.clients c).workers.length)
    (hdestroying : ∀ n, .destroying n ∈ h'.workers → n < s.exchanges.length)
    (hresponses : ∀ n ∈ (s.clients c).responses, n ∈ h'.responses) :
    Placed cfg (s.setClient c h') where
  workers := h.workers
  clientWorkers := by
    intro d
    by_cases hd : d = c
    · subst hd
      rw [clients_setClient, hlength, h.clientWorkers]
    · rw [clients_setClient_of_ne s h' hd, h.clientWorkers]
  destroying := by
    intro d n hn
    by_cases hd : d = c
    · subst hd
      rw [clients_setClient] at hn
      exact hdestroying n hn
    · rw [clients_setClient_of_ne s h' hd] at hn
      exact h.destroying d n hn
  located := by
    intro n e he hopen
    refine (h.located n e he hopen).imp_right fun hn => ?_
    by_cases hd : e.request.clientId = c
    · rw [hd, clients_setClient]
      exact hresponses n (hd ▸ hn)
    · rwa [clients_setClient_of_ne s h' hd]
  completed := h.completed

/-- A step of one client that leaves its workers alone. -/
theorem Placed.setClient_same {c : ℕ} {h' : Client} (h : Placed cfg s)
    (hworkers : h'.workers = (s.clients c).workers)
    (huntaken : ∀ n ∈ (s.clients c).untaken, n ∈ h'.untaken) : Placed cfg (s.setClient c h') := by
  refine h.setClient (by rw [hworkers]) (fun n hn => ?_) fun n hn => ?_
  · rw [hworkers] at hn
    exact h.destroying c n hn
  · rcases List.mem_append.mp hn with hn | hn
    · exact List.mem_append_left _ (huntaken n hn)
    · exact List.mem_append_right _ (hworkers ▸ hn)

/-- A worker of the service that has no response to send moves on. -/
theorem Placed.setWorker {w : ℕ} {pc pc' : ServiceWorker} (h : Placed cfg s)
    (hw : s.workers[w]? = some pc) (hpc : ∀ n, pc ≠ .responding n) :
    Placed cfg (s.setWorker w pc') where
  workers := by
    simp only [System.setWorker, List.length_set]
    exact h.workers
  clientWorkers := h.clientWorkers
  destroying := h.destroying
  located := fun n e he hopen => (h.located n e he hopen).imp_left fun hn =>
    Slots.mem_set_of_ne hw hn (hpc n).symm
  completed := h.completed

/-- A handler moves an exchange on. -/
theorem Placed.setTransfer {n : ℕ} {e : Exchange} {t' : Transfer} (h : Placed cfg s)
    (he : s.exchanges[n]? = some e)
    (hphase : e.completed = true → t'.client.phase = .finished) :
    Placed cfg (s.setExchange n { e with transfer := t' }) where
  workers := h.workers
  clientWorkers := h.clientWorkers
  destroying := by
    intro c m hm
    simp only [setExchange, List.length_set]
    exact h.destroying c m hm
  located := by
    intro m e₂ he₂ hopen
    rcases Slots.getElem?_set_cases he he₂ with ⟨rfl, rfl⟩ | ⟨-, hold⟩
    · exact h.located m e he hopen
    · exact h.located m e₂ hold hopen
  completed := by
    intro m e₂ he₂ hdone
    rcases Slots.getElem?_set_cases he he₂ with ⟨rfl, rfl⟩ | ⟨-, hold⟩
    · exact hphase hdone
    · exact h.completed m e₂ hold hdone

end Frame

section Steps

theorem placed_dispatch {c : ℕ} (h : Placed cfg s)
    (hstep : s.step cfg (.dispatch c) = some s') : Placed cfg s' := by
  obtain ⟨h', hdispatch, rfl⟩ := dispatch_cases hstep
  obtain ⟨hperm, hworkers⟩ := Client.dispatch_perm hdispatch
  exact h.setClient_same hworkers fun n hn => hperm.mem_iff.mpr hn

theorem placed_scheduleRequest {c j : ℕ} (h : Placed cfg s)
    (hstep : s.step cfg (.scheduleRequest c j) = some s') : Placed cfg s' := by
  obtain ⟨n, rest, hw, hq, rfl⟩ := scheduleRequest_cases hstep
  refine h.setClient (List.length_set ..) (fun m hm => ?_) fun m hm => ?_
  · rcases List.mem_or_eq_of_mem_set hm with hm | hm
    · exact h.destroying c m hm
    · cases hm
  · -- the response moves from the head of the queue to the worker
    have hold := (Slots.perm_get ClientWorker.processed hw).mem_iff (a := m)
    have hnew := (Slots.perm_set ClientWorker.processed hw (.processing n)).mem_iff (a := m)
    simp only [ClientWorker.processed, Option.toList, List.mem_append, List.mem_cons,
      List.not_mem_nil, false_or, or_false] at hold hnew
    simp only [Client.responses, Client.untaken, hq, List.mem_append, List.mem_cons] at hm ⊢
    rw [hold] at hm
    rw [hnew]
    tauto

theorem placed_complete {c j : ℕ} (h : Placed cfg s)
    (hstep : s.step cfg (.complete c j) = some s') : Placed cfg s' := by
  obtain ⟨n, e, hw, he, hphase, rfl⟩ := complete_cases hstep
  obtain ⟨hlt, -⟩ := List.getElem?_eq_some_iff.mp he
  have hset : ∀ {m e₂}, (s.exchanges.set n { e with completed := true })[m]? = some e₂ →
      m = n ∧ e₂ = { e with completed := true } ∨ m ≠ n ∧ s.exchanges[m]? = some e₂ :=
    fun hm => Slots.getElem?_set_cases he hm
  refine ⟨h.workers, fun d => ?_, fun d m hm => ?_, fun m e₂ hm hopen => ?_,
    fun m e₂ hm hdone => ?_⟩
  · have hlength := h.clientWorkers d
    by_cases hd : d = c
    · subst hd
      rw [← hlength]
      simp [System.setExchange, System.setClient, Client.completeRequest]
    · simpa [System.setExchange, System.setClient, hd] using hlength
  · have hlength : (s.exchanges.set n { e with completed := true }).length =
      s.exchanges.length := List.length_set ..
    show m < (s.exchanges.set n { e with completed := true }).length
    rw [hlength]
    by_cases hd : d = c
    · subst hd
      simp only [System.setExchange, clients_setClient] at hm
      rcases List.mem_or_eq_of_mem_set hm with hm | hm
      · exact h.destroying d m hm
      · cases hm
        exact hlt
    · simp only [System.setExchange, clients_setClient_of_ne s _ hd] at hm
      exact h.destroying d m hm
  · rcases hset hm with ⟨-, rfl⟩ | ⟨hne, hold⟩
    · cases hopen
    · refine (h.located m e₂ hold hopen).imp_right fun hr => ?_
      simp only [System.setExchange]
      by_cases hd : e₂.request.clientId = c
      · rw [hd] at hr ⊢
        rw [clients_setClient]
        have hold' := (Slots.perm_get ClientWorker.processed hw).mem_iff (a := m)
        have hnew := (Slots.perm_set ClientWorker.processed hw (.destroying n)).mem_iff (a := m)
        simp only [ClientWorker.processed, Option.toList, List.mem_append, List.mem_cons,
          List.not_mem_nil, false_or, or_false] at hold' hnew
        simp only [Client.responses, Client.untaken, Client.completeRequest,
          List.mem_append] at hr ⊢
        rw [hold'] at hr
        rw [hnew]
        tauto
      · rwa [clients_setClient_of_ne s _ hd]
  · rcases hset hm with ⟨rfl, rfl⟩ | ⟨-, hold⟩
    · exact hphase
    · exact h.completed m e₂ hold hdone

theorem placed_destroy {c j : ℕ} (h : Placed cfg s)
    (hstep : s.step cfg (.destroy c j) = some s') : Placed cfg s' := by
  obtain ⟨n, e, hw, -, rfl⟩ := destroy_cases hstep
  have hsame := Slots.filterMap_set ClientWorker.processed hw
    (show ClientWorker.processed .idle = ClientWorker.processed (.destroying n) from rfl)
  refine h.setClient (List.length_set ..) (fun m hm => ?_) fun m hm => ?_
  · rcases List.mem_or_eq_of_mem_set hm with hm | hm
    · exact h.destroying c m hm
    · cases hm
  · rw [Client.responses] at hm ⊢
    simp only [Client.destroy, hsame]
    exact hm

theorem placed_allocate {w : ℕ} (h : Placed cfg s)
    (hstep : s.step cfg (.allocate w) = some s') : Placed cfg s' := by
  obtain ⟨request, requestSize, hw, hcases⟩ := allocate_cases hstep
  rcases hcases with ⟨fault, -, rfl⟩ | ⟨gs, m, -, rfl⟩
  · exact { h with }
  · obtain ⟨hlt, -⟩ := List.getElem?_eq_some_iff.mp hw
    refine ⟨?_, h.clientWorkers, fun c n hn => ?_, fun n e he hopen => ?_, fun n e he hdone => ?_⟩
    · simp only [granted, System.setWorker, List.length_set]
      exact h.workers
    · have hn' := h.destroying c n hn
      simp only [granted, List.length_append, List.length_singleton]
      omega
    · rcases getElem?_exchanges_append he with hold | ⟨rfl, -⟩
      · exact (h.located n e hold hopen).imp_left fun hn =>
          Slots.mem_set_of_ne hw hn (by simp)
      · exact .inl (List.mem_iff_getElem?.mpr ⟨w, List.getElem?_set_self hlt⟩)
    · rcases getElem?_exchanges_append he with hold | ⟨-, rfl⟩
      · exact h.completed n e hold hdone
      · cases hdone

theorem placed_respond {w : ℕ} (h : Placed cfg s)
    (hstep : s.step cfg (.respond w) = some s') : Placed cfg s' := by
  obtain ⟨n, e, hw, he, hcases⟩ := respond_cases hstep
  rcases hcases with ⟨fault, rfl⟩ | ⟨-, -, rfl⟩
  · exact { h with }
  · set c := e.request.clientId with hc
    set h' : Client := { s.clients c with serverToClient := (s.clients c).serverToClient ++ [n] }
    have hkeep : ∀ m ∈ (s.clients c).responses, m ∈ h'.responses := fun m hm =>
      (Client.responses_push n).mem_iff.mpr (List.mem_cons_of_mem n hm)
    refine ⟨?_, fun d => ?_, fun d m hm => ?_, fun m e₂ hm hopen => ?_, h.completed⟩
    · simp only [System.setClient, System.setWorker, List.length_set]
      exact h.workers
    · by_cases hd : d = c
      · rw [hd, clients_setClient]
        exact h.clientWorkers c
      · rw [clients_setClient_of_ne _ h' hd]
        exact h.clientWorkers d
    · by_cases hd : d = c
      · rw [hd, clients_setClient] at hm
        exact h.destroying c m hm
      · rw [clients_setClient_of_ne _ h' hd] at hm
        exact h.destroying d m hm
    · have hm' : s.exchanges[m]? = some e₂ := hm
      by_cases hmn : m = n
      · subst hmn
        rw [he] at hm'
        cases hm'
        refine .inr ?_
        rw [← hc, clients_setClient]
        exact (Client.responses_push m).mem_iff.mpr List.mem_cons_self
      · refine (h.located m e₂ hm' hopen).imp (fun hr => ?_) fun hr => ?_
        · exact Slots.mem_set_of_ne hw hr (by simpa using hmn)
        · by_cases hd : e₂.request.clientId = c
          · rw [hd] at hr ⊢
            rw [clients_setClient]
            exact hkeep m hr
          · rw [clients_setClient_of_ne _ h' hd]
            exact hr

theorem placed_step {ev : Event} (hinv : Invariant cfg s) (h : Placed cfg s)
    (hstep : s.step cfg ev = some s') : Placed cfg s' := by
  cases ev with
  | submit c src =>
    obtain ⟨small, rfl⟩ := submit_cases hstep
    exact h.setClient_same rfl fun _ hn => hn
  | dispatch c => exact placed_dispatch h hstep
  | scheduleRequest c j => exact placed_scheduleRequest h hstep
  | process c j =>
    obtain ⟨n, e, m', t', hw, he, -, rfl⟩ := process_cases hstep
    obtain ⟨-, e', he', -, hopen⟩ := hinv.responses c n (mem_responses_of_processing hw)
    rw [he] at he'
    cases he'
    have hset : Placed cfg (s.setExchange n { e with transfer := t' }) :=
      h.setTransfer he fun hdone => by simp [hopen] at hdone
    have h' : Placed cfg { s.setExchange n { e with transfer := t' } with memory := m' } :=
      { hset with }
    exact h'.setClient_same rfl fun _ hn => hn
  | complete c j => exact placed_complete h hstep
  | destroy c j => exact placed_destroy h hstep
  | poll c =>
    obtain ⟨call, rest, -, -, rfl⟩ := poll_cases hstep
    have h' : Placed cfg (s.setClient c { s.clients c with clientToServer := rest }) :=
      h.setClient_same rfl fun _ hn => hn
    exact { h' with }
  | enqueue =>
    obtain ⟨request, -, -, rfl⟩ := enqueue_cases hstep
    exact { h with }
  | schedule w i =>
    obtain ⟨request, hw, -, -, rfl⟩ := schedule_cases hstep
    have h' : ∀ size, Placed cfg (s.setWorker w (.allocating request size)) :=
      fun _ => h.setWorker hw fun n hn => by cases hn
    exact { h' _ with }
  | allocate w => exact placed_allocate h hstep
  | respond w => exact placed_respond h hstep
  | serve w =>
    obtain ⟨n, e, m', t', hw, he, hserve, rfl⟩ := serve_cases hstep
    have hset : Placed cfg (s.setExchange n { e with transfer := t' }) := by
      refine h.setTransfer he fun hdone => ?_
      rw [serviceStep_client hserve]
      exact h.completed n e he hdone
    exact { hset with }
  | destroyHandler w =>
    obtain ⟨n, e, hw, -, -, rfl⟩ := destroyHandler_cases hstep
    have h' : Placed cfg (s.setWorker w .idle) := h.setWorker hw fun m hm => by cases hm
    exact { h' with }

end Steps

theorem placed_of_reachable (h : (machine cfg).Reachable s) : Placed cfg s := by
  induction h with
  | start => exact placed_init cfg
  | step hs hnext _ ih =>
    exact placed_step (invariant_of_reachable hs.reachable) ih (step_of_next hnext)

end TinyFile.System
