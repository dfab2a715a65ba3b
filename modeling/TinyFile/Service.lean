import TinyFile.CreditScheduler
import TinyFile.System

/-!
# Clients that come and go

`RegistrationVisitor.cpp` and the constructor and the destructor of the client's
`Servicer`, with the real scheduler and the compression workers around them. The
registration thread alternates `reg` and `dispatch`; each message queue that is
opened, closed or unlinked, each lock and each access to the tables that the
workers read is a step of its own.

A queue's name is the client's id, so a queue exists while its client has
created and not unlinked it. A descriptor keeps working after the unlink. The
handlers of an exchange work on a memory of their own, since no two handlers of
the service share a segment. Of a file the service knows the size; its bytes,
and what the segment held before, are fixed when the response has been sent.
-/
namespace TinyFile

/-- A message in the registration queue. -/
inductive RegistrationMessage where
  | registration
  | queueCreation (clientId priority : ℤ)
  | queueDeletion (clientId : ℤ)
  deriving DecidableEq

namespace Service

/-- `MQClientRequestMessage`. -/
structure ClientRequest where
  requestId : ℤ
  fileSize : ℕ
  deriving DecidableEq

/-- How far a `Servicer` is in its constructor or its destructor. -/
inductive Phase where
  | absent
  | identified
  | createdClientToServer
  | createdServerToClient
  | running
  | deleting
  | unlinkedClientToServer
  | gone
  deriving DecidableEq

def Phase.clientToServerExists : Phase → Bool
  | .createdClientToServer | .createdServerToClient | .running | .deleting => true
  | _ => false

def Phase.serverToClientExists : Phase → Bool
  | .createdServerToClient | .running | .deleting | .unlinkedClientToServer => true
  | _ => false

/-- The client's threads run until the destructor has closed its queues. -/
def Phase.atWork : Phase → Bool
  | .running | .deleting => true
  | _ => false

/-- A client with what is in its two queues, and the requests whose responses it
has received. Its `fault` ends its process, and not the service. -/
structure Client where
  phase : Phase
  nextRequestId : ℤ
  clientToServer : List ClientRequest
  serverToClient : List (ℤ × List ℕ)
  received : List ℤ
  fault : Option Fault
  deriving DecidableEq

/-- What is left of a visit to `visitQueueCreation` or `visitQueueDeletion`. -/
inductive Visit where
  | registering (priority : ℤ)
  | openingServerToClient
  | openingClientToServer
  | closingServerToClient
  | closingClientToServer
  | erasing
  | deregistering
  | erasingQueues
  deriving DecidableEq

/-- `RegistrationWorker`. The loop of `dispatch` still has `clientIds` to serve,
the first of them first. -/
inductive Turn where
  | reg
  | identifying
  | visiting (visit : Visit) (clientId : ℤ)
  | dispatching (clientIds : List ℤ)
  | enqueueing (clientId : ℤ) (request : ClientRequest) (clientIds : List ℤ)
  deriving DecidableEq

/-- `ServiceFileCompressorWorker`: in `schedule`, waiting for memory with
`requestMapMutex` held, before the check and before the `mq_send` of
`writeBlocking`, and behind it. -/
inductive Worker where
  | idle
  | allocating (request : Request) (requestSize : ℕ)
  | responding (request : Request) (shmSegment : FragmentedShmSegment)
  | sending (request : Request) (shmSegment : FragmentedShmSegment)
  | processing (request : Request) (job : Job) (memory : Memory) (transfer : Transfer)

end Service

structure Service (κ : Type) where
  nextClientId : ℤ
  registeredClients : Finset ℤ
  blockingServerToClientQueues : UnorderedMap ℤ Bool
  nonBlockingClientToServerQueues : UnorderedMap ℤ Bool
  clientToServerRegistrationQueue : List RegistrationMessage
  serverToClientRegistrationQueue : List ℤ
  registrationWorker : Service.Turn
  scheduler : Scheduler κ
  manager : ShmManager
  workers : List Service.Worker
  clients : ℤ → Service.Client
  fault : Option Fault

namespace Service

variable {κ : Type}

def Worker.holdsMutex : Worker → Bool
  | .allocating _ _ => true
  | _ => false

/-- The client of a request that has not been answered. -/
def Worker.unanswered : Worker → Option ℤ
  | .allocating request _ | .responding request _ | .sending request _ => some request.clientId
  | _ => none

def Worker.segment : Worker → Option FragmentedShmSegment
  | .responding _ shmSegment | .sending _ shmSegment => some shmSegment
  | .processing _ job _ _ => some job.segment
  | _ => none

def init (cfg : Config) : Service κ where
  nextClientId := 0
  registeredClients := ∅
  blockingServerToClientQueues := .empty
  nonBlockingClientToServerQueues := .empty
  clientToServerRegistrationQueue := []
  serverToClientRegistrationQueue := []
  registrationWorker := .reg
  scheduler := Scheduler.init cfg.serviceWorkers
  manager := cfg.manager
  workers := List.replicate cfg.serviceWorkers .idle
  clients := fun _ => ⟨.absent, 0, [], [], [], none⟩
  fault := none

def setClient (s : Service κ) (c : ℤ) (h : Client) : Service κ :=
  { s with clients := fun d => if d = c then h else s.clients d }

@[simp] theorem clients_setClient (s : Service κ) (c : ℤ) (h : Client) :
    (s.setClient c h).clients c = h := if_pos rfl

theorem clients_setClient_of_ne (s : Service κ) {c d : ℤ} (h : Client) (hd : d ≠ c) :
    (s.setClient c h).clients d = s.clients d := if_neg hd

def setWorker (s : Service κ) (w : ℕ) (pc : Worker) : Service κ :=
  { s with workers := s.workers.set w pc }

def throwing (s : Service κ) (message : String) : Service κ :=
  { s with fault := some (.runtimeError message) }

def mutexHeld (s : Service κ) : Bool := s.workers.any Worker.holdsMutex

/-- `map[key] = value`. -/
def assign (m : UnorderedMap ℤ Bool) (c : ℤ) (value : Bool) (p : Placement ℤ) :
    UnorderedMap ℤ Bool := (m.emplace c value p).modify c (fun _ => value)

section Clients

/-- A new client sends its registration; `mq_send` blocks while the queue is full. -/
def send (s : Service κ) (message : RegistrationMessage) : Option (Service κ) :=
  if s.clientToServerRegistrationQueue.length < REGISTRATION_MAX_MSG then
    some { s with
      clientToServerRegistrationQueue := s.clientToServerRegistrationQueue ++ [message] }
  else none

/-- One of the clients that wait for an id receives the next one. -/
def identify (s : Service κ) : Option (Service κ) :=
  match s.serverToClientRegistrationQueue with
  | [] => none
  | c :: rest => some
      { s.setClient c { s.clients c with phase := .identified } with
        serverToClientRegistrationQueue := rest }

/-- The constructor creates its two queues. -/
def createQueue (s : Service κ) (c : ℤ) : Option (Service κ) :=
  match (s.clients c).phase with
  | .identified => some (s.setClient c { s.clients c with phase := .createdClientToServer })
  | .createdClientToServer =>
      some (s.setClient c { s.clients c with phase := .createdServerToClient })
  | _ => none

/-- The constructor sends QUEUE_CREATION. -/
def announce (s : Service κ) (c priority : ℤ) : Option (Service κ) :=
  if (s.clients c).phase = .createdServerToClient then
    (s.send (.queueCreation c priority)).map
      (fun s => s.setClient c { s.clients c with phase := .running })
  else none

/-- A call of the application and its `mq_send`; `nextRequestId` is an `int`. -/
def request (s : Service κ) (c : ℤ) (fileSize : ℕ) : Option (Service κ) :=
  let h := s.clients c
  if h.phase.atWork ∧ fileSize < SizeT.modulus then
    if h.nextRequestId < INT_MAX then
      if h.clientToServer.length < CLIENT_MAX_MSG then some (s.setClient c
        { h with
          nextRequestId := h.nextRequestId + 1
          clientToServer := h.clientToServer ++ [⟨h.nextRequestId, fileSize⟩] })
      else none
    else some (s.setClient c { h with fault := some (.undefinedBehavior "nextRequestId++") })
  else none

def receive (s : Service κ) (c : ℤ) : Option (Service κ) :=
  let h := s.clients c
  match h.serverToClient with
  | [] => none
  | response :: rest =>
      if h.phase.atWork then
        some (s.setClient c
          { h with serverToClient := rest, received := response.1 :: h.received })
      else none

/-- `~Servicer` sends QUEUE_DELETION, whatever is still going on. -/
def leave (s : Service κ) (c : ℤ) : Option (Service κ) :=
  if (s.clients c).phase = .running then
    (s.send (.queueDeletion c)).map
      (fun s => s.setClient c { s.clients c with phase := .deleting })
  else none

/-- `~Servicer` unlinks its two queues. -/
def unlink (s : Service κ) (c : ℤ) : Option (Service κ) :=
  match (s.clients c).phase with
  | .deleting => some (s.setClient c { s.clients c with phase := .unlinkedClientToServer })
  | .unlinkedClientToServer => some (s.setClient c { s.clients c with phase := .gone })
  | _ => none

end Clients

section Registration

/-- One turn of the loop in `reg`; without a message the thread goes on to
`dispatch`. -/
def reg (s : Service κ) : Service κ :=
  match s.clientToServerRegistrationQueue with
  | [] =>
      { s with registrationWorker := .dispatching s.nonBlockingClientToServerQueues.keys }
  | .registration :: rest =>
      { s with clientToServerRegistrationQueue := rest, registrationWorker := .identifying }
  | .queueCreation c priority :: rest =>
      if c ∈ s.registeredClients then
        s.throwing s!"RegistrationVisitor: clientId {c} already registered"
      else
        { s with
          clientToServerRegistrationQueue := rest
          registeredClients := insert c s.registeredClients
          registrationWorker := .visiting (.registering priority) c }
  | .queueDeletion c :: rest =>
      if c ∈ s.registeredClients then
        { s with
          clientToServerRegistrationQueue := rest
          registrationWorker := .visiting .closingServerToClient c }
      else s.throwing s!"RegistrationVisitor: clientId {c} not registered"

/-- `visitRegistration`. -/
def visitRegistration (s : Service κ) : Option (Service κ) :=
  if s.serverToClientRegistrationQueue.length < REGISTRATION_MAX_MSG then
    if s.nextClientId < INT_MAX then some
      { s with
        serverToClientRegistrationQueue :=
          s.serverToClientRegistrationQueue ++ [s.nextClientId]
        nextClientId := s.nextClientId + 1
        registrationWorker := .reg }
    else some { s with fault := some (.undefinedBehavior "nextClientId++") }
  else none

/-- The loop of `dispatch`. -/
def dispatch (s : Service κ) : List ℤ → Service κ
  | [] => { s with registrationWorker := .reg }
  | c :: clientIds =>
      match (s.clients c).clientToServer with
      | [] => { s with registrationWorker := .dispatching clientIds }
      | request :: rest =>
          { s.setClient c { s.clients c with clientToServer := rest } with
            registrationWorker := .enqueueing c request (c :: clientIds) }

variable [Add κ] [Sub κ] [Mul κ] [Div κ] [NatCast κ] [IntCast κ] [Zero κ] [LT κ] [DecidableLT κ]

/-- The steps of `visitQueueCreation` and `visitQueueDeletion`. -/
def visit (s : Service κ) (c : ℤ) (p : Placement ℤ) : Visit → Option (Service κ)
  | .registering priority =>
      if s.mutexHeld then none
      else some
        { s with
          scheduler := s.scheduler.registerClient c priority p
          registrationWorker := .visiting .openingServerToClient c }
  | .openingServerToClient =>
      if (s.clients c).phase.serverToClientExists then some
        { s with
          blockingServerToClientQueues := assign s.blockingServerToClientQueues c true p
          registrationWorker := .visiting .openingClientToServer c }
      else some (s.throwing "RegistrationVisitor: failed to open message queue")
  | .openingClientToServer =>
      if (s.clients c).phase.clientToServerExists then some
        { s with
          nonBlockingClientToServerQueues := assign s.nonBlockingClientToServerQueues c true p
          registrationWorker := .reg }
      else some (s.throwing "RegistrationVisitor: failed to open message queue")
  | .closingServerToClient =>
      if s.blockingServerToClientQueues.find? c = some true then some
        { s with
          blockingServerToClientQueues := s.blockingServerToClientQueues.modify c (fun _ => false)
          registrationWorker := .visiting .closingClientToServer c }
      else some (s.throwing
        s!"RegistrationVisitor: failed to close blockingServerToClientQueue for {c} with errno: 9")
  | .closingClientToServer =>
      if s.nonBlockingClientToServerQueues.find? c = some true then some
        { s with
          nonBlockingClientToServerQueues :=
            s.nonBlockingClientToServerQueues.modify c (fun _ => false)
          registrationWorker := .visiting .erasing c }
      else some (s.throwing
        s!"RegistrationVisitor: failed to close nonBlockingClientToServerQueue for {c} with errno: 9")
  | .erasing => some
      { s with
        registeredClients := s.registeredClients.erase c
        registrationWorker := .visiting .deregistering c }
  | .deregistering =>
      if s.mutexHeld then none
      else
        match s.scheduler.deregisterClient c with
        | .ok scheduler => some
            { s with
              scheduler := scheduler
              registrationWorker := .visiting .erasingQueues c }
        | .error fault => some { s with fault := some fault }
  | .erasingQueues => some
      { s with
        blockingServerToClientQueues := s.blockingServerToClientQueues.erase c
        nonBlockingClientToServerQueues := s.nonBlockingClientToServerQueues.erase c
        registrationWorker := .reg }

/-- `Scheduler::enqueue` of a message that `dispatch` has received. -/
def enqueue (s : Service κ) (c : ℤ) (request : ClientRequest) (clientIds : List ℤ)
    (p : Placement ℤ) : Option (Service κ) :=
  if s.mutexHeld then none
  else
    match s.scheduler.enqueue c request.requestId request.fileSize p with
    | (.ok _, scheduler) =>
        some { s with scheduler := scheduler, registrationWorker := .dispatching clientIds }
    | (.error fault, scheduler) => some { s with scheduler := scheduler, fault := some fault }

/-- The next step of the registration thread. -/
def register (s : Service κ) (p : Placement ℤ) : Option (Service κ) :=
  match s.registrationWorker with
  | .reg => some s.reg
  | .identifying => s.visitRegistration
  | .visiting v c => s.visit c p v
  | .dispatching clientIds => some (s.dispatch clientIds)
  | .enqueueing c request clientIds => s.enqueue c request clientIds p

end Registration

section Workers

/-- `schedule`, past its wait for `requestCount`. -/
def schedule [Add κ] [Sub κ] [Mul κ] [Div κ] [NatCast κ] [IntCast κ] [Zero κ] [LT κ]
    [DecidableLT κ] (cfg : Config) (s : Service κ) (w : ℕ) : Option (Service κ) :=
  match s.workers[w]? with
  | some .idle =>
      if s.mutexHeld ∨ s.scheduler.requestCount = 0 then none
      else
        match s.scheduler.schedule cfg.strategy with
        | .error fault => some { s with fault := some fault }
        | .ok (request, scheduler) => some
            { s.setWorker w (.allocating request (Scheduler.handlerShmSize s.manager
                scheduler.requestCount cfg.serviceWorkers request.fileSize cfg.strategy)) with
              scheduler := scheduler }
  | _ => none

/-- `getShmSegment(size)`, the handler's constructor and the unlock. -/
def allocate (s : Service κ) (w : ℕ) : Option (Service κ) :=
  match s.workers[w]? with
  | some (.allocating request requestSize) =>
      match s.manager.getShmSegment requestSize with
      | .error fault => some { s with fault := some fault }
      | .ok none => none
      | .ok (some (shmSegment, manager)) =>
          some { s.setWorker w (.responding request shmSegment) with manager := manager }
  | _ => none

/-- The two checks of `writeBlocking`. -/
def writeBlocking (s : Service κ) (w : ℕ) : Option (Service κ) :=
  match s.workers[w]? with
  | some (.responding request shmSegment) =>
      match RegistrationVisitor.checkSize
          (MQServerRequestMessage.getContentSize shmSegment.getSegmentIds) with
      | .error fault => some { s with fault := some fault }
      | .ok () =>
          if request.clientId ∈ s.registeredClients then
            some (s.setWorker w (.sending request shmSegment))
          else some (s.throwing
            s!"RegistrationVisitor: clientId {request.clientId} not registered")
  | _ => none

/-- The `mq_send` of `writeBlocking`, through the descriptor in the table. -/
def mqSend (cfg : Config) (s : Service κ) (w : ℕ) (src : List UInt8) (memory : Memory) :
    Option (Service κ) :=
  match s.workers[w]? with
  | some (.sending request shmSegment) =>
      let h := s.clients request.clientId
      let job : Job := ⟨shmSegment, src, cfg.compress⟩
      if s.blockingServerToClientQueues.find? request.clientId ≠ some true then
        some (s.throwing "RegistrationVisitor: failed to send message")
      else if h.serverToClient.length < CLIENT_MAX_MSG ∧ src.length = request.fileSize ∧
          src.length < SizeT.modulus then
        some ((s.setWorker w
            (.processing request job memory (Transfer.init job))).setClient
          request.clientId
          { h with
            serverToClient :=
              h.serverToClient ++ [(request.requestId, shmSegment.getSegmentIds)] })
      else none
  | _ => none

/-- One step of the service's `process`. -/
def process (s : Service κ) (w : ℕ) : Option (Service κ) :=
  match s.workers[w]? with
  | some (.processing request job memory transfer) =>
      (Transfer.serviceStep job memory transfer).map fun r =>
        { s.setWorker w (.processing request job r.1 r.2) with
          fault := r.2.service.phase.fault }
  | _ => none

/-- One step of the client's `process`, once the client has the response. -/
def clientProcess (s : Service κ) (w : ℕ) : Option (Service κ) :=
  match s.workers[w]? with
  | some (.processing request job memory transfer) =>
      let h := s.clients request.clientId
      if request.requestId ∈ h.received then
        (Transfer.clientStep job memory transfer).map fun r =>
          (s.setWorker w (.processing request job r.1 r.2)).setClient request.clientId
            { h with fault := r.2.client.phase.fault }
      else none
  | _ => none

/-- The worker destroys its handler when `process` has returned. -/
def destroyHandler (s : Service κ) (w : ℕ) : Option (Service κ) :=
  match s.workers[w]? with
  | some (.processing _ job _ transfer) =>
      if transfer.service.phase = .finished then some
        { s.setWorker w .idle with
          manager := s.manager.releaseShmSegment job.segment.getSegmentIds }
      else none
  | _ => none

end Workers

inductive Event where
  | registration
  | identify
  | createQueue (c : ℤ)
  | announce (c priority : ℤ)
  | request (c : ℤ) (fileSize : ℕ)
  | receive (c : ℤ)
  | leave (c : ℤ)
  | unlink (c : ℤ)
  | clientProcess (w : ℕ)
  | register (p : Placement ℤ)
  | schedule (w : ℕ)
  | allocate (w : ℕ)
  | writeBlocking (w : ℕ)
  | mqSend (w : ℕ) (src : List UInt8) (memory : Memory)
  | process (w : ℕ)
  | destroyHandler (w : ℕ)

def Event.isService : Event → Bool
  | .register _ | .schedule _ | .allocate _ | .writeBlocking _ | .mqSend _ _ _ | .process _
  | .destroyHandler _ => true
  | _ => false

variable [Add κ] [Sub κ] [Mul κ] [Div κ] [NatCast κ] [IntCast κ] [Zero κ] [LT κ] [DecidableLT κ]

def step (cfg : Config) (s : Service κ) : Event → Option (Service κ)
  | .registration => s.send .registration
  | .identify => s.identify
  | .createQueue c => s.createQueue c
  | .announce c priority => s.announce c priority
  | .request c fileSize => s.request c fileSize
  | .receive c => s.receive c
  | .leave c => s.leave c
  | .unlink c => s.unlink c
  | .clientProcess w => s.clientProcess w
  | .register p => s.register p
  | .schedule w => s.schedule cfg w
  | .allocate w => s.allocate w
  | .writeBlocking w => s.writeBlocking w
  | .mqSend w src memory => s.mqSend cfg w src memory
  | .process w => s.process w
  | .destroyHandler w => s.destroyHandler w

/-- The process that a step belongs to still runs. -/
def alive (s : Service κ) : Event → Bool
  | .registration | .identify => true
  | .createQueue c | .announce c _ | .request c _ | .receive c | .leave c | .unlink c =>
      (s.clients c).fault.isNone
  | .clientProcess w =>
      match s.workers[w]? with
      | some (.processing request _ _ _) => (s.clients request.clientId).fault.isNone
      | _ => true
  | _ => s.fault.isNone

/-- An uncaught throw ends its process. -/
def next (cfg : Config) (s : Service κ) (e : Event) : Option (Service κ) :=
  if s.alive e then s.step cfg e else none

def machine (cfg : Config) : Machine (Service κ) Event where
  start := init cfg
  next := next cfg

end Service

end TinyFile
