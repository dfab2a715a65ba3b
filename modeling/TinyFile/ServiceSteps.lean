import TinyFile.Service

/-!
# What the steps of the service leave alone

The registration thread, the clients' constructors and destructors and the
workers share the tables of `RegistrationVisitor`. A worker leaves them alone, a
visit changes the entries of one client, and what a client may do is decided by
its phase.
-/
namespace TinyFile

/-- What a message says to the service about one client. -/
inductive Notice where
  | creation
  | deletion
  deriving DecidableEq

def RegistrationMessage.notice (c : ℤ) : RegistrationMessage → Option Notice
  | .registration => none
  | .queueCreation d _ => if d = c then some .creation else none
  | .queueDeletion d => if d = c then some .deletion else none

namespace Service

variable {κ : Type}

def Turn.visit (c : ℤ) : Turn → Option Visit
  | .visiting v d => if d = c then some v else none
  | _ => none

/-- The clients that `dispatch` has still to serve. -/
def Turn.toServe : Turn → List ℤ
  | .dispatching clientIds => clientIds
  | .enqueueing c _ clientIds => c :: clientIds
  | _ => []

def Phase.early : Phase → Bool
  | .absent | .identified | .createdClientToServer | .createdServerToClient => true
  | _ => false

/-- The destructor has sent its message. -/
def Phase.left : Phase → Bool
  | .deleting | .unlinkedClientToServer | .gone => true
  | _ => false

/-- A visit that still needs the client's queues. -/
def Visit.opens : Visit → Bool
  | .registering _ | .openingServerToClient | .openingClientToServer => true
  | _ => false

/-- A visit to a client that is no longer in `registeredClients`. -/
def Visit.drops : Visit → Bool
  | .deregistering | .erasingQueues => true
  | _ => false

/-- What a client has sent after its QUEUE_CREATION was received. -/
inductive Sent : Phase → List Notice → Prop
  | nothing : Sent .running []
  | deletion {phase : Phase} : phase.left = true → Sent phase [.deletion]

theorem Phase.left_of_early {phase : Phase} (hp : phase.early = true) : phase.left = false := by
  cases phase <;> simp_all [Phase.early, Phase.left]

theorem Sent.not_early {phase : Phase} {sent : List Notice} (h : Sent phase sent) :
    phase.early = false := by
  cases h with
  | nothing => rfl
  | deletion hl =>
    by_contra he
    simp [Phase.left_of_early (by simpa using he)] at hl

/-- The destructor's message is the last one. -/
theorem Sent.leave {sent : List Notice} (h : Sent .running sent) :
    Sent .deleting (sent ++ [.deletion]) := by
  cases h with
  | nothing => exact .deletion rfl
  | deletion hl => cases hl

/-- The destructor sends nothing after its message. -/
theorem Sent.unlink {phase phase' : Phase} {sent : List Notice} (h : Sent phase sent)
    (hp : phase.left = true) (hp' : phase'.left = true) : Sent phase' sent := by
  cases h with
  | nothing => cases hp
  | deletion _ => exact .deletion hp'

/-- The messages of one client that wait in the registration queue. -/
def notices (s : Service κ) (c : ℤ) : List Notice :=
  s.clientToServerRegistrationQueue.filterMap (RegistrationMessage.notice c)

/-- The tables and queues that the life of the clients is about. -/
structure SameTables (s s' : Service κ) : Prop where
  nextClientId : s'.nextClientId = s.nextClientId
  registeredClients : s'.registeredClients = s.registeredClients
  blocking : s'.blockingServerToClientQueues = s.blockingServerToClientQueues
  nonBlocking : s'.nonBlockingClientToServerQueues = s.nonBlockingClientToServerQueues
  messages : s'.clientToServerRegistrationQueue = s.clientToServerRegistrationQueue
  ids : s'.serverToClientRegistrationQueue = s.serverToClientRegistrationQueue
  registrationWorker : s'.registrationWorker = s.registrationWorker
  phase : ∀ c, (s'.clients c).phase = (s.clients c).phase

/-- The registration thread visits one client, and changes only its entries. -/
structure VisitFrame (c : ℤ) (s s' : Service κ) : Prop where
  nextClientId : s'.nextClientId = s.nextClientId
  ids : s'.serverToClientRegistrationQueue = s.serverToClientRegistrationQueue
  workers : s'.workers = s.workers
  phase : ∀ d, (s'.clients d).phase = (s.clients d).phase
  notices : ∀ d, d ≠ c → s'.notices d = s.notices d
  visit : ∀ d, d ≠ c → s'.registrationWorker.visit d = s.registrationWorker.visit d
  registered : ∀ d, d ≠ c → (d ∈ s'.registeredClients ↔ d ∈ s.registeredClients)
  scheduled : ∀ d, d ≠ c → (d ∈ s'.scheduler.registered ↔ d ∈ s.scheduler.registered)
  blocking : ∀ d, d ≠ c →
    s'.blockingServerToClientQueues.find? d = s.blockingServerToClientQueues.find? d
  nonBlocking : ∀ d, d ≠ c →
    s'.nonBlockingClientToServerQueues.find? d = s.nonBlockingClientToServerQueues.find? d
  serves : s'.registrationWorker.toServe = []

/-- One client goes on to `phase` and sends `messages`; the ids that wait for a
client become `ids`. -/
structure ClientMove (c : ℤ) (phase : Phase) (messages : List RegistrationMessage) (ids : List ℤ)
    (s s' : Service κ) : Prop where
  nextClientId : s'.nextClientId = s.nextClientId
  registeredClients : s'.registeredClients = s.registeredClients
  blocking : s'.blockingServerToClientQueues = s.blockingServerToClientQueues
  nonBlocking : s'.nonBlockingClientToServerQueues = s.nonBlockingClientToServerQueues
  registrationWorker : s'.registrationWorker = s.registrationWorker
  scheduler : s'.scheduler = s.scheduler
  manager : s'.manager = s.manager
  workers : s'.workers = s.workers
  fault : s'.fault = s.fault
  messages : s'.clientToServerRegistrationQueue = s.clientToServerRegistrationQueue ++ messages
  ids : s'.serverToClientRegistrationQueue = ids
  phase : (s'.clients c).phase = phase
  other : ∀ d, d ≠ c → (s'.clients d).phase = (s.clients d).phase

variable {s s' : Service κ}

/-- What a message adds to the messages of each client. -/
theorem notices_append {messages : List RegistrationMessage}
    (h : s'.clientToServerRegistrationQueue = s.clientToServerRegistrationQueue ++ messages)
    (c : ℤ) :
    s'.notices c = s.notices c ++ messages.filterMap (RegistrationMessage.notice c) := by
  rw [notices, h, List.filterMap_append]
  rfl

section Clients

theorem send_cases {message : RegistrationMessage} (h : s.send message = some s') :
    s' = { s with
      clientToServerRegistrationQueue := s.clientToServerRegistrationQueue ++ [message] } := by
  simp only [send] at h
  split_ifs at h
  exact (Option.some.inj h).symm

/-- `setClient` changes one client only. -/
theorem clientMove_setClient {c : ℤ} (h : Client) {messages : List RegistrationMessage}
    {ids : List ℤ} (hs : s' = { s.setClient c h with
      clientToServerRegistrationQueue := s.clientToServerRegistrationQueue ++ messages
      serverToClientRegistrationQueue := ids }) :
    ClientMove c h.phase messages ids s s' := by
  subst hs
  refine ⟨rfl, rfl, rfl, rfl, rfl, rfl, rfl, rfl, rfl, rfl, rfl, ?_, fun d hd => ?_⟩
  · exact congrArg Client.phase (clients_setClient s c h)
  · exact congrArg Client.phase (clients_setClient_of_ne s h hd)

theorem identify_cases (h : s.identify = some s') :
    ∃ c rest, s.serverToClientRegistrationQueue = c :: rest ∧
      ClientMove c .identified [] rest s s' := by
  simp only [identify] at h
  split at h
  · cases h
  · next c rest hq =>
    refine ⟨c, rest, hq, clientMove_setClient { s.clients c with phase := .identified } ?_⟩
    rw [List.append_nil]
    exact (Option.some.inj h).symm

/-- A client that goes on without a message. -/
theorem clientMove_silent {c : ℤ} {h : Client} (hs : some (s.setClient c h) = some s') :
    ClientMove c h.phase [] s.serverToClientRegistrationQueue s s' := by
  refine clientMove_setClient h ?_
  rw [List.append_nil]
  exact (Option.some.inj hs).symm

theorem createQueue_cases {c : ℤ} (h : s.createQueue c = some s') :
    ∃ phase : Phase, (s.clients c).phase ≠ .absent ∧ (s.clients c).phase.early = true ∧
      phase.early = true ∧ ClientMove c phase [] s.serverToClientRegistrationQueue s s' := by
  simp only [createQueue] at h
  split at h
  · next hp =>
    exact ⟨_, by simp [hp], by simp [hp, Phase.early], rfl, clientMove_silent h⟩
  · next hp =>
    exact ⟨_, by simp [hp], by simp [hp, Phase.early], rfl, clientMove_silent h⟩
  · cases h

theorem announce_cases {c priority : ℤ} (h : s.announce c priority = some s') :
    (s.clients c).phase = .createdServerToClient ∧
      ClientMove c .running [.queueCreation c priority] s.serverToClientRegistrationQueue s s' := by
  simp only [announce] at h
  split_ifs at h with hp
  obtain ⟨s₁, hsend, rfl⟩ := Option.map_eq_some_iff.mp h
  rw [send_cases hsend]
  exact ⟨hp, clientMove_setClient { s.clients c with phase := .running } rfl⟩

theorem leave_cases {c : ℤ} (h : s.leave c = some s') :
    (s.clients c).phase = .running ∧
      ClientMove c .deleting [.queueDeletion c] s.serverToClientRegistrationQueue s s' := by
  simp only [leave] at h
  split_ifs at h with hp
  obtain ⟨s₁, hsend, rfl⟩ := Option.map_eq_some_iff.mp h
  rw [send_cases hsend]
  exact ⟨hp, clientMove_setClient { s.clients c with phase := .deleting } rfl⟩

theorem unlink_cases {c : ℤ} (h : s.unlink c = some s') :
    ∃ phase : Phase, (s.clients c).phase ≠ .absent ∧ (s.clients c).phase.left = true ∧
      phase.left = true ∧ ClientMove c phase [] s.serverToClientRegistrationQueue s s' := by
  simp only [unlink] at h
  split at h
  · next hp => exact ⟨_, by simp [hp], by simp [hp, Phase.left], rfl, clientMove_silent h⟩
  · next hp => exact ⟨_, by simp [hp], by simp [hp, Phase.left], rfl, clientMove_silent h⟩
  · cases h

/-- What a step of one client leaves alone in it, it leaves alone in all clients. -/
theorem read_setClient {α : Type*} (f : Client → α) (s : Service κ) {c : ℤ} (h : Client)
    (hsame : f h = f (s.clients c)) (d : ℤ) :
    f ((s.setClient c h).clients d) = f (s.clients d) := by
  by_cases hd : d = c
  · rw [hd, clients_setClient, hsame]
  · rw [clients_setClient_of_ne s h hd]

end Clients

/-- The steps of the workers and of the handlers, and those of a client that
only uses its queues. -/
def Event.keepsTables : Event → Bool
  | .request _ _ | .receive _ | .clientProcess _ | .schedule _ | .allocate _ | .writeBlocking _
  | .mqSend _ _ _ | .process _ | .destroyHandler _ => true
  | _ => false

theorem mem_registered_deregisterClient {t t' : Scheduler κ} {c : ℤ}
    (h : t.deregisterClient c = .ok t') (d : ℤ) :
    d ∈ t'.registered ↔ d ∈ t.registered ∧ d ≠ c := by
  simp only [Scheduler.deregisterClient] at h
  split at h
  · cases h
  · cases h
    exact UnorderedMap.mem_keys_erase

section Steps

variable [Add κ] [Sub κ] [Mul κ] [Div κ] [NatCast κ] [IntCast κ] [Zero κ] [LT κ] [DecidableLT κ]

/-- A thread of the service takes a step only if none has thrown. -/
theorem next_cases {cfg : Config} {e : Event} (h : s.next cfg e = some s') :
    s.step cfg e = some s' ∧ (e.isService = true → s.fault = none) := by
  simp only [next] at h
  split_ifs at h with halive
  refine ⟨h, fun he => ?_⟩
  cases e <;> first | exact Option.isNone_iff_eq_none.mp halive | cases he

theorem sameTables_of_step {cfg : Config} {e : Event} (he : e.keepsTables = true)
    (h : s.step cfg e = some s') : SameTables s s' := by
  have hframe : ∀ s₁ : Service κ, s₁.nextClientId = s.nextClientId →
      s₁.registeredClients = s.registeredClients →
      s₁.blockingServerToClientQueues = s.blockingServerToClientQueues →
      s₁.nonBlockingClientToServerQueues = s.nonBlockingClientToServerQueues →
      s₁.clientToServerRegistrationQueue = s.clientToServerRegistrationQueue →
      s₁.serverToClientRegistrationQueue = s.serverToClientRegistrationQueue →
      s₁.registrationWorker = s.registrationWorker → s₁.clients = s.clients →
      SameTables s s₁ := fun s₁ h₁ h₂ h₃ h₄ h₅ h₆ h₇ h₈ =>
    ⟨h₁, h₂, h₃, h₄, h₅, h₆, h₇, fun c => by rw [h₈]⟩
  cases e with
  | request c fileSize =>
    simp only [step, request] at h
    split_ifs at h <;> cases h <;>
      exact ⟨rfl, rfl, rfl, rfl, rfl, rfl, rfl, read_setClient Client.phase s _ rfl⟩
  | receive c =>
    simp only [step, receive] at h
    split at h
    · cases h
    · split_ifs at h
      cases h
      exact ⟨rfl, rfl, rfl, rfl, rfl, rfl, rfl, read_setClient Client.phase s _ rfl⟩
  | clientProcess w =>
    simp only [step, clientProcess] at h
    split at h
    · next request job memory transfer hw =>
      split_ifs at h
      obtain ⟨r, -, rfl⟩ := Option.map_eq_some_iff.mp h
      exact ⟨rfl, rfl, rfl, rfl, rfl, rfl, rfl,
        read_setClient Client.phase s
          { s.clients request.clientId with fault := r.2.client.phase.fault } rfl⟩
    · cases h
  | schedule w =>
    simp only [step, schedule] at h
    split at h
    · split_ifs at h
      split at h <;> cases h <;> exact hframe _ rfl rfl rfl rfl rfl rfl rfl rfl
    · cases h
  | allocate w =>
    simp only [step, allocate] at h
    split at h
    · split at h <;> cases h <;> exact hframe _ rfl rfl rfl rfl rfl rfl rfl rfl
    · cases h
  | writeBlocking w =>
    simp only [step, writeBlocking] at h
    split at h
    · split at h
      · cases h
        exact hframe _ rfl rfl rfl rfl rfl rfl rfl rfl
      · split_ifs at h <;> cases h <;> exact hframe _ rfl rfl rfl rfl rfl rfl rfl rfl
    · cases h
  | mqSend w src memory =>
    simp only [step, mqSend] at h
    split at h
    · next request shmSegment heq =>
      split_ifs at h
      · cases h
        exact hframe _ rfl rfl rfl rfl rfl rfl rfl rfl
      · cases h
        exact ⟨rfl, rfl, rfl, rfl, rfl, rfl, rfl,
          read_setClient Client.phase s { s.clients request.clientId with serverToClient := _ } rfl⟩
    · cases h
  | process w =>
    simp only [step, process] at h
    split at h
    · obtain ⟨r, -, rfl⟩ := Option.map_eq_some_iff.mp h
      exact hframe _ rfl rfl rfl rfl rfl rfl rfl rfl
    · cases h
  | destroyHandler w =>
    simp only [step, destroyHandler] at h
    split at h
    · split_ifs at h
      cases h
      exact hframe _ rfl rfl rfl rfl rfl rfl rfl rfl
    · cases h
  | _ => cases he

end Steps

theorem reg_frame (s : Service κ) : s.reg.workers = s.workers ∧ s.reg.manager = s.manager ∧
    s.reg.nextClientId = s.nextClientId ∧
    s.reg.serverToClientRegistrationQueue = s.serverToClientRegistrationQueue := by
  unfold reg
  split
  · exact ⟨rfl, rfl, rfl, rfl⟩
  · exact ⟨rfl, rfl, rfl, rfl⟩
  · split_ifs <;> exact ⟨rfl, rfl, rfl, rfl⟩
  · split_ifs <;> exact ⟨rfl, rfl, rfl, rfl⟩

theorem dispatch_frame (s : Service κ) (clientIds : List ℤ) :
    (s.dispatch clientIds).workers = s.workers ∧ (s.dispatch clientIds).manager = s.manager ∧
      (s.dispatch clientIds).nextClientId = s.nextClientId ∧
      (s.dispatch clientIds).serverToClientRegistrationQueue =
        s.serverToClientRegistrationQueue := by
  unfold dispatch
  split
  · exact ⟨rfl, rfl, rfl, rfl⟩
  · split <;> exact ⟨rfl, rfl, rfl, rfl⟩

/-- A step of a visit that does not throw: what it found, and the tables and the
turn behind it. -/
inductive Advance [IntCast κ] (s : Service κ) (c : ℤ) (p : Placement ℤ) :
    Visit → Service κ → Prop
  | registering (priority : ℤ) : s.mutexHeld = false → Advance s c p (.registering priority)
      { s with
        scheduler := s.scheduler.registerClient c priority p
        registrationWorker := .visiting .openingServerToClient c }
  | openingServerToClient : (s.clients c).phase.serverToClientExists = true →
      Advance s c p .openingServerToClient
        { s with
          blockingServerToClientQueues := assign s.blockingServerToClientQueues c true p
          registrationWorker := .visiting .openingClientToServer c }
  | openingClientToServer : (s.clients c).phase.clientToServerExists = true →
      Advance s c p .openingClientToServer
        { s with
          nonBlockingClientToServerQueues := assign s.nonBlockingClientToServerQueues c true p
          registrationWorker := .reg }
  | closingServerToClient : s.blockingServerToClientQueues.find? c = some true →
      Advance s c p .closingServerToClient
        { s with
          blockingServerToClientQueues := s.blockingServerToClientQueues.modify c (fun _ => false)
          registrationWorker := .visiting .closingClientToServer c }
  | closingClientToServer : s.nonBlockingClientToServerQueues.find? c = some true →
      Advance s c p .closingClientToServer
        { s with
          nonBlockingClientToServerQueues :=
            s.nonBlockingClientToServerQueues.modify c (fun _ => false)
          registrationWorker := .visiting .erasing c }
  | erasing : Advance s c p .erasing
      { s with
        registeredClients := s.registeredClients.erase c
        registrationWorker := .visiting .deregistering c }
  | deregistering {scheduler : Scheduler κ} : s.mutexHeld = false →
      s.scheduler.deregisterClient c = .ok scheduler → Advance s c p .deregistering
        { s with
          scheduler := scheduler
          registrationWorker := .visiting .erasingQueues c }
  | erasingQueues : Advance s c p .erasingQueues
      { s with
        blockingServerToClientQueues := s.blockingServerToClientQueues.erase c
        nonBlockingClientToServerQueues := s.nonBlockingClientToServerQueues.erase c
        registrationWorker := .reg }

/-- A step of a visit throws and changes nothing, or the visit goes on. -/
theorem visit_cases [IntCast κ] {c : ℤ} {p : Placement ℤ} {v : Visit}
    (h : s.visit c p v = some s') :
    (∃ fault, s' = { s with fault := some fault }) ∨ s.Advance c p v s' := by
  cases v with
  | registering priority =>
    simp only [Service.visit] at h
    split_ifs at h with hmutex
    cases h
    exact .inr (.registering priority (Bool.eq_false_of_not_eq_true hmutex))
  | openingServerToClient =>
    simp only [Service.visit] at h
    split_ifs at h with hopen <;> cases h
    · exact .inr (.openingServerToClient hopen)
    · exact .inl ⟨_, rfl⟩
  | openingClientToServer =>
    simp only [Service.visit] at h
    split_ifs at h with hopen <;> cases h
    · exact .inr (.openingClientToServer hopen)
    · exact .inl ⟨_, rfl⟩
  | closingServerToClient =>
    simp only [Service.visit] at h
    split_ifs at h with hopen <;> cases h
    · exact .inr (.closingServerToClient hopen)
    · exact .inl ⟨_, rfl⟩
  | closingClientToServer =>
    simp only [Service.visit] at h
    split_ifs at h with hopen <;> cases h
    · exact .inr (.closingClientToServer hopen)
    · exact .inl ⟨_, rfl⟩
  | erasing =>
    cases h
    exact .inr .erasing
  | deregistering =>
    simp only [Service.visit] at h
    split_ifs at h with hmutex
    split at h <;> cases h
    · exact .inr (.deregistering (Bool.eq_false_of_not_eq_true hmutex) ‹_›)
    · exact .inl ⟨_, rfl⟩
  | erasingQueues =>
    cases h
    exact .inr .erasingQueues

/-- The registration thread leaves the workers and their memory alone. -/
theorem workers_of_register [IntCast κ] [Zero κ] [LT κ] [DecidableLT κ] {p : Placement ℤ}
    (h : s.register p = some s') : s'.workers = s.workers ∧ s'.manager = s.manager := by
  simp only [register] at h
  split at h
  · cases h
    exact ⟨(reg_frame s).1, (reg_frame s).2.1⟩
  · simp only [visitRegistration] at h
    split_ifs at h <;> cases h <;> exact ⟨rfl, rfl⟩
  · next v c hturn =>
    rcases visit_cases h with ⟨fault, rfl⟩ | hadvance
    · exact ⟨rfl, rfl⟩
    · cases hadvance <;> exact ⟨rfl, rfl⟩
  · next clientIds _ =>
    cases h
    exact ⟨(dispatch_frame s clientIds).1, (dispatch_frame s clientIds).2.1⟩
  · simp only [enqueue] at h
    split_ifs at h
    split at h <;> cases h <;> exact ⟨rfl, rfl⟩

/-- A message to `reg` about the client `c` starts a visit. -/
theorem visitFrame_of_message {c : ℤ} {v : Visit} {m : RegistrationMessage}
    {rest : List RegistrationMessage} {registered : Finset ℤ}
    (hturn : s.registrationWorker = .reg) (hq : s.clientToServerRegistrationQueue = m :: rest)
    (hm : ∀ d, d ≠ c → m.notice d = none)
    (hregistered : ∀ d, d ≠ c → (d ∈ registered ↔ d ∈ s.registeredClients)) :
    VisitFrame c s { s with
      clientToServerRegistrationQueue := rest
      registeredClients := registered
      registrationWorker := .visiting v c } := by
  refine ⟨rfl, rfl, rfl, fun _ => rfl, fun d hd => ?_, fun d hd => ?_, hregistered,
    fun _ _ => Iff.rfl, fun _ _ => rfl, fun _ _ => rfl, rfl⟩
  · simp only [notices, hq, List.filterMap_cons, hm d hd]
  · rw [hturn]
    exact if_neg (Ne.symm hd)

/-- A step of a visit changes the entries of the visited client only. -/
theorem visitFrame_of_visit [IntCast κ] {c : ℤ} {p : Placement ℤ} {v : Visit}
    (hv : s.registrationWorker = .visiting v c) (h : s.visit c p v = some s') :
    VisitFrame c s s' := by
  have hother : ∀ (w : Visit) (d : ℤ), d ≠ c →
      Turn.visit d (.visiting w c) = s.registrationWorker.visit d := by
    intro w d hd
    rw [hv, Turn.visit, Turn.visit, if_neg (Ne.symm hd), if_neg (Ne.symm hd)]
  have hdone : ∀ d, d ≠ c → Turn.visit d .reg = s.registrationWorker.visit d := by
    intro d hd
    rw [hv]
    exact (if_neg (Ne.symm hd)).symm
  have hassign : ∀ (m : UnorderedMap ℤ Bool) (d : ℤ), d ≠ c →
      (assign m c true p).find? d = m.find? d := by
    intro m d hd
    rw [assign, UnorderedMap.find?_modify, if_neg hd, UnorderedMap.find?_emplace_of_ne _ hd]
  rcases visit_cases h with ⟨fault, rfl⟩ | hadvance
  · refine ⟨rfl, rfl, rfl, fun _ => rfl, fun _ _ => rfl, fun _ _ => rfl, fun _ _ => Iff.rfl,
      fun _ _ => Iff.rfl, fun _ _ => rfl, fun _ _ => rfl, ?_⟩
    show s.registrationWorker.toServe = []
    rw [hv]
    rfl
  cases hadvance with
  | registering priority _ =>
    refine ⟨rfl, rfl, rfl, fun _ => rfl, fun _ _ => rfl, hother _, fun _ _ => Iff.rfl,
      fun d hd => ?_, fun _ _ => rfl, fun _ _ => rfl, rfl⟩
    rw [Scheduler.mem_registered_registerClient]
    exact ⟨fun hm => hm.resolve_left hd, Or.inr⟩
  | openingServerToClient _ =>
    exact ⟨rfl, rfl, rfl, fun _ => rfl, fun _ _ => rfl, hother _, fun _ _ => Iff.rfl,
      fun _ _ => Iff.rfl, hassign _, fun _ _ => rfl, rfl⟩
  | openingClientToServer _ =>
    exact ⟨rfl, rfl, rfl, fun _ => rfl, fun _ _ => rfl, hdone, fun _ _ => Iff.rfl,
      fun _ _ => Iff.rfl, fun _ _ => rfl, hassign _, rfl⟩
  | closingServerToClient _ =>
    exact ⟨rfl, rfl, rfl, fun _ => rfl, fun _ _ => rfl, hother _, fun _ _ => Iff.rfl,
      fun _ _ => Iff.rfl, fun d hd => UnorderedMap.find?_modify_of_ne _ hd _, fun _ _ => rfl, rfl⟩
  | closingClientToServer _ =>
    exact ⟨rfl, rfl, rfl, fun _ => rfl, fun _ _ => rfl, hother _, fun _ _ => Iff.rfl,
      fun _ _ => Iff.rfl, fun _ _ => rfl, fun d hd => UnorderedMap.find?_modify_of_ne _ hd _, rfl⟩
  | erasing =>
    refine ⟨rfl, rfl, rfl, fun _ => rfl, fun _ _ => rfl, hother _, fun d hd => ?_,
      fun _ _ => Iff.rfl, fun _ _ => rfl, fun _ _ => rfl, rfl⟩
    rw [Finset.mem_erase]
    exact ⟨fun hm => hm.2, fun hm => ⟨hd, hm⟩⟩
  | deregistering _ hrun =>
    refine ⟨rfl, rfl, rfl, fun _ => rfl, fun _ _ => rfl, hother _, fun _ _ => Iff.rfl,
      fun d hd => ?_, fun _ _ => rfl, fun _ _ => rfl, rfl⟩
    rw [mem_registered_deregisterClient hrun]
    exact ⟨fun hm => hm.1, fun hm => ⟨hm, hd⟩⟩
  | erasingQueues =>
    refine ⟨rfl, rfl, rfl, fun _ => rfl, fun _ _ => rfl, hdone, fun _ _ => Iff.rfl,
      fun _ _ => Iff.rfl, fun d hd => ?_, fun d hd => ?_, rfl⟩
    · rw [UnorderedMap.find?_erase, if_neg hd]
    · rw [UnorderedMap.find?_erase, if_neg hd]

end Service

end TinyFile
