import TinyFile.ClientLife
import TinyFile.WorkerPool

/-!
# Clients that leave

The destructor of `Servicer` sends QUEUE_DELETION and unlinks its queues
whatever is still going on. No thread of the service throws while a client
unlinks its queues only after the service has opened them, and the service
closes them only after it has answered all requests of the client.
-/
namespace TinyFile.Service

variable {κ : Type}

/-- The next step of the registration thread ends the service neither now nor
later. -/
def harmlessTurn (s : Service κ) (p : Placement ℤ) : Turn → Bool
  | .identifying => decide (s.nextClientId < INT_MAX)
  | .visiting .closingServerToClient c => !s.busy c
  | .visiting .deregistering c => decide (s.scheduler.requestMapIterator ≠ .atKey c)
  | .enqueueing c _ _ =>
      match p with
      | .splice _ => true
      | .rehash _ =>
          decide (c ∈ s.scheduler.requestMap.keys ∨ s.scheduler.requestMapIterator = .atEnd)
  | _ => true

def harmless (s : Service κ) : Event → Bool
  | .unlink c => !s.opening c
  | .register p => s.harmlessTurn p s.registrationWorker
  | .writeBlocking w =>
      match s.workers[w]? with
      | some (.responding _ shmSegment) => decide (shmSegment.getSegmentIds.length ≤ 1532)
      | _ => true
  | _ => true

structure Safe (cfg : Config) (s : Service κ) : Prop where
  life : LifeInvariant cfg.strategy s
  work : WorkInvariant cfg s
  fault : s.fault = none

variable {cfg : Config} {s s' : Service κ}

theorem safe_init (cfg : Config) : Safe cfg (init cfg : Service κ) where
  life := lifeInvariant_init cfg.strategy cfg
  work := workInvariant_init cfg
  fault := rfl

section Clients

/-- A client that goes on keeps the service as it is. -/
theorem Safe.move (h : Safe cfg s) {c : ℤ} {phase : Phase} {messages : List RegistrationMessage}
    {ids : List ℤ} (hm : ClientMove c phase messages ids s s')
    (hlife : LifeInvariant cfg.strategy s') : Safe cfg s' where
  life := hlife
  work := h.work.congr hm.workers hm.manager
  fault := hm.fault.trans h.fault

theorem safe_registration (h : Safe cfg s) (hstep : s.send .registration = some s') :
    Safe cfg s' := by
  have hlife := life_registration h.life hstep
  have hs := send_cases hstep
  refine ⟨hlife, h.work.congr ?_ ?_, ?_⟩
  · rw [hs]
  · rw [hs]
  · rw [hs]
    exact h.fault

theorem safe_identify (h : Safe cfg s) (hids : IdInvariant s) (hstep : s.identify = some s') :
    Safe cfg s' := by
  obtain ⟨c, rest, -, hm⟩ := identify_cases hstep
  exact h.move hm (life_identify h.life hids hstep)

theorem safe_createQueue {c : ℤ} (h : Safe cfg s) (hstep : s.createQueue c = some s') :
    Safe cfg s' := by
  obtain ⟨phase, -, -, -, hm⟩ := createQueue_cases hstep
  exact h.move hm (life_createQueue h.life hstep)

theorem safe_announce {c priority : ℤ} (h : Safe cfg s) (hstep : s.announce c priority = some s') :
    Safe cfg s' :=
  h.move (announce_cases hstep).2 (life_announce h.life hstep)

theorem safe_leave {c : ℤ} (h : Safe cfg s) (hstep : s.leave c = some s') : Safe cfg s' :=
  h.move (leave_cases hstep).2 (life_leave h.life hstep)

theorem safe_unlink {c : ℤ} (h : Safe cfg s) (hok : s.opening c = false)
    (hstep : s.unlink c = some s') : Safe cfg s' := by
  obtain ⟨phase, -, -, -, hm⟩ := unlink_cases hstep
  exact h.move hm (life_unlink h.life hok hstep)

end Clients

section Registration

variable [IntCast κ] [Zero κ] [LT κ] [DecidableLT κ]

theorem life_register {p : Placement ℤ} (h : LifeInvariant cfg.strategy s)
    (hok : s.harmlessTurn p s.registrationWorker = true) (hstep : s.register p = some s') :
    LifeInvariant cfg.strategy s' ∧ s'.fault = s.fault := by
  simp only [register] at hstep
  split at hstep
  · next hturn =>
    cases hstep
    exact life_reg h hturn
  · next hturn =>
    rw [hturn] at hok
    exact life_visitRegistration h hturn (of_decide_eq_true hok) hstep
  · next v c hturn =>
    rw [hturn] at hok
    cases hv : v.opens with
    | true => exact life_opening h hturn hv hstep
    | false =>
      refine life_closing h hturn hv ?_ ?_ hstep
      · rintro rfl
        simpa [harmlessTurn] using hok
      · rintro rfl
        exact of_decide_eq_true hok
  · next clientIds hturn =>
    cases hstep
    exact life_dispatch h hturn
  · next c request clientIds hturn =>
    rw [hturn] at hok
    refine life_enqueue h hturn ?_ hstep
    rintro order rfl
    exact of_decide_eq_true hok

theorem safe_register {p : Placement ℤ} (h : Safe cfg s)
    (hok : s.harmlessTurn p s.registrationWorker = true) (hstep : s.register p = some s') :
    Safe cfg s' := by
  obtain ⟨hlife, hfault⟩ := life_register h.life hok hstep
  obtain ⟨hworkers, hmanager⟩ := workers_of_register hstep
  exact ⟨hlife, h.work.congr hworkers hmanager, hfault.trans h.fault⟩

end Registration

section Workers

/-- A worker that goes on in `setWorker` with the requests of served clients. -/
theorem unanswered_setWorker {w : ℕ} {pc : Worker} (h : LifeInvariant cfg.strategy s)
    (hpc : ∀ c, pc.unanswered = some c → s.Attended c) :
    ∀ x ∈ (s.setWorker w pc).workers, ∀ c, x.unanswered = some c → s.Attended c := by
  intro x hx
  rcases List.mem_or_eq_of_mem_set hx with hx | rfl
  · exact h.unanswered x hx
  · exact hpc

/-- A step that leaves the tables and the scheduler alone. -/
theorem life_worker (h : LifeInvariant cfg.strategy s) (hsame : SameTables s s')
    (hscheduler : s'.scheduler = s.scheduler)
    (hunanswered : ∀ x ∈ s'.workers, ∀ c, x.unanswered = some c → s.Attended c) :
    LifeInvariant cfg.strategy s' := by
  refine h.congr hsame.standing (hscheduler ▸ h.sound) (by rw [hscheduler]) ?_ hunanswered ?_
  · rw [hscheduler]
    exact h.pending
  · rw [hsame.registrationWorker]
    exact h.dispatching

variable [Add κ] [Sub κ] [Mul κ] [Div κ] [NatCast κ] [IntCast κ] [Zero κ] [LT κ] [DecidableLT κ]

theorem safe_request {c : ℤ} {fileSize : ℕ} (h : Safe cfg s)
    (hstep : s.step cfg (.request c fileSize) = some s') : Safe cfg s' := by
  have hsame := sameTables_of_step rfl hstep
  simp only [step, request] at hstep
  split_ifs at hstep <;> cases hstep <;>
    exact ⟨life_worker h.life hsame rfl h.life.unanswered, h.work.congr rfl rfl, h.fault⟩

theorem safe_receive {c : ℤ} (h : Safe cfg s) (hstep : s.step cfg (.receive c) = some s') :
    Safe cfg s' := by
  have hsame := sameTables_of_step rfl hstep
  simp only [step, receive] at hstep
  split at hstep
  · cases hstep
  · split_ifs at hstep
    cases hstep
    exact ⟨life_worker h.life hsame rfl h.life.unanswered, h.work.congr rfl rfl, h.fault⟩

theorem safe_clientProcess {w : ℕ} (h : Safe cfg s)
    (hstep : s.step cfg (.clientProcess w) = some s') : Safe cfg s' := by
  have hsame := sameTables_of_step rfl hstep
  simp only [step, clientProcess] at hstep
  split at hstep
  · next request job memory transfer hw =>
    split_ifs at hstep
    obtain ⟨⟨m, t⟩, hclient, rfl⟩ := Option.map_eq_some_iff.mp hstep
    have horder := h.work.inOrder _ (List.mem_of_getElem? hw)
    refine ⟨life_worker h.life hsame rfl (unanswered_setWorker h.life ?_),
      (h.work.setWorker hw (horder.clientStep hclient) rfl).congr rfl rfl, h.fault⟩
    intro c hc
    cases hc
  · cases hstep

/-- `schedule` finds a request of a served client. -/
theorem safe_schedule {w : ℕ} (h : Safe cfg s) (hstep : s.step cfg (.schedule w) = some s') :
    Safe cfg s' := by
  have hsame := sameTables_of_step rfl hstep
  simp only [step, schedule] at hstep
  split at hstep
  · next hw =>
    split_ifs at hstep with hwait
    rw [not_or] at hwait
    obtain ⟨r, t, rest, hrun, hsound, hregistered, -, hp, hpending⟩ :=
      h.life.sound.schedule (Nat.pos_of_ne_zero hwait.2)
    rw [hrun] at hstep
    cases hstep
    have hattended : s.Attended r.clientId := h.life.pending _ (by simp [hp])
    have horder := h.work.inOrder_handlerShmSize r t.requestCount r.fileSize
    refine ⟨h.life.congr hsame.standing hsound hregistered ?_
      (unanswered_setWorker h.life ?_) h.life.dispatching,
      (h.work.setWorker hw horder rfl).congr rfl rfl, h.fault⟩
    · intro c hc
      by_cases hcr : c = r.clientId
      · exact hcr ▸ hattended
      · rw [hpending c, if_neg hcr] at hc
        exact h.life.pending c hc
    · intro c hc
      cases hc
      exact hattended
  · cases hstep

/-- `getShmSegment` is asked for a multiple of the internal size. -/
theorem safe_allocate {w : ℕ} (h : Safe cfg s) (hstep : s.step cfg (.allocate w) = some s') :
    Safe cfg s' := by
  have hsame := sameTables_of_step rfl hstep
  simp only [step, allocate] at hstep
  split at hstep
  · next request requestSize hw =>
    rcases h.work.grant hw with hnone | ⟨gs, m, hgrant, hwork⟩
    · rw [hnone] at hstep
      cases hstep
    · rw [hgrant] at hstep
      cases hstep
      refine ⟨life_worker h.life hsame rfl (unanswered_setWorker h.life ?_), hwork, h.fault⟩
      exact h.life.unanswered (.allocating request requestSize) (List.mem_of_getElem? hw)
  · cases hstep

/-- `writeBlocking` finds its client registered. -/
theorem safe_writeBlocking {w : ℕ} (h : Safe cfg s) (hok : s.harmless (.writeBlocking w) = true)
    (hstep : s.step cfg (.writeBlocking w) = some s') : Safe cfg s' := by
  have hsame := sameTables_of_step rfl hstep
  simp only [step, writeBlocking] at hstep
  split at hstep
  · next request shmSegment hw =>
    have hattended := h.life.unanswered _ (List.mem_of_getElem? hw)
    have horder : (Worker.sending request shmSegment).InOrder :=
      h.work.inOrder (.responding request shmSegment) (List.mem_of_getElem? hw)
    simp only [harmless, hw, decide_eq_true_eq] at hok
    rw [(RegistrationVisitor.checkSize_iff _).mpr hok] at hstep
    simp only [if_pos (hattended request.clientId rfl).registered] at hstep
    cases hstep
    exact ⟨life_worker h.life hsame rfl (unanswered_setWorker h.life hattended),
      h.work.setWorker hw horder rfl, h.fault⟩
  · cases hstep

/-- The `mq_send` of the response finds the descriptor open. -/
theorem safe_mqSend {w : ℕ} {src : List UInt8} {memory : Memory} (h : Safe cfg s)
    (hstep : s.step cfg (.mqSend w src memory) = some s') : Safe cfg s' := by
  have hsame := sameTables_of_step rfl hstep
  simp only [step, mqSend] at hstep
  split at hstep
  · next request shmSegment hw =>
    have hattended := h.life.unanswered _ (List.mem_of_getElem? hw) request.clientId rfl
    have horder := h.work.inOrder _ (List.mem_of_getElem? hw)
    rw [if_neg (not_not.mpr hattended.opened)] at hstep
    split_ifs at hstep with hroom
    cases hstep
    have hstart := inOrder_init cfg horder hroom.2.2 request memory
    have hwork := h.work.setWorker hw hstart rfl
    refine ⟨life_worker h.life hsame rfl (unanswered_setWorker h.life ?_),
      hwork.congr rfl rfl, h.fault⟩
    intro c hc
    cases hc
  · cases hstep

theorem safe_process {w : ℕ} (h : Safe cfg s) (hstep : s.step cfg (.process w) = some s') :
    Safe cfg s' := by
  have hsame := sameTables_of_step rfl hstep
  simp only [step, process] at hstep
  split at hstep
  · next request job memory transfer hw =>
    obtain ⟨⟨m, t⟩, hservice, rfl⟩ := Option.map_eq_some_iff.mp hstep
    have horder := h.work.inOrder _ (List.mem_of_getElem? hw)
    obtain ⟨horder', hfault⟩ := horder.serviceStep hservice
    refine ⟨life_worker h.life hsame rfl (unanswered_setWorker h.life ?_),
      (h.work.setWorker hw horder' rfl).congr rfl rfl, hfault⟩
    intro c hc
    cases hc
  · cases hstep

theorem safe_destroyHandler {w : ℕ} (h : Safe cfg s)
    (hstep : s.step cfg (.destroyHandler w) = some s') : Safe cfg s' := by
  have hsame := sameTables_of_step rfl hstep
  simp only [step, destroyHandler] at hstep
  split at hstep
  · next request job memory transfer hw =>
    split_ifs at hstep
    cases hstep
    refine ⟨life_worker h.life hsame rfl (unanswered_setWorker h.life ?_),
      h.work.release hw, h.fault⟩
    intro c hc
    cases hc
  · cases hstep

theorem safe_step {e : Event} (h : Safe cfg s) (hids : IdInvariant s)
    (hok : s.harmless e = true)
    (hstep : s.step cfg e = some s') : Safe cfg s' := by
  cases e with
  | registration => exact safe_registration h hstep
  | identify => exact safe_identify h hids hstep
  | createQueue c => exact safe_createQueue h hstep
  | announce c priority => exact safe_announce h hstep
  | request c fileSize => exact safe_request h hstep
  | receive c => exact safe_receive h hstep
  | leave c => exact safe_leave h hstep
  | unlink c => exact safe_unlink h (by simpa [harmless] using hok) hstep
  | clientProcess w => exact safe_clientProcess h hstep
  | register p => exact safe_register h hok hstep
  | schedule w => exact safe_schedule h hstep
  | allocate w => exact safe_allocate h hstep
  | writeBlocking w => exact safe_writeBlocking h hok hstep
  | mqSend w src memory => exact safe_mqSend h hstep
  | process w => exact safe_process h hstep
  | destroyHandler w => exact safe_destroyHandler h hstep

end Workers

section Departure

variable [Add κ] [Sub κ] [Mul κ] [Div κ] [NatCast κ] [IntCast κ] [Zero κ] [LT κ] [DecidableLT κ]

theorem safe_of_reachable (h : (machine cfg).ReachableIf (fun s e => s.harmless e = true) s) :
    Safe cfg s := by
  have hboth : IdInvariant s ∧ Safe cfg s := by
    induction h with
    | start => exact ⟨idInvariant_init cfg, safe_init cfg⟩
    | step _ hnext hok ih =>
      obtain ⟨hstep, -⟩ := next_cases hnext
      exact ⟨ih.1.step hstep, safe_step ih.2 ih.1 hok hstep⟩
  exact hboth.2

/-- The registration thread takes steps that put a new entry first. -/
def registerSteps (n : ℕ) : List Event := List.replicate n (.register (.splice 0))

/-- The first client registers and announces its queues. -/
def arrival : List Event :=
  .registration :: registerSteps 2 ++ [.identify, .createQueue 0, .createQueue 0, .announce 0 64]

/-- The service opens the queues, and a worker picks the client's request. -/
def picked : List Event := List.flatten
  [arrival, registerSteps 4, [.request 0 3], registerSteps 5, [.schedule 0, .allocate 0]]

/-- The client leaves after its answer, while its file is being received. -/
def answeredThenLeaves : List Event := List.flatten
  [picked, [.writeBlocking 0, .mqSend 0 [1, 2, 3] (fun _ _ => 0), .receive 0, .leave 0],
    registerSteps 6, [.unlink 0, .unlink 0]]

end Departure

end TinyFile.Service
