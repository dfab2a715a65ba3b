import TinyFile.ResponseSize
import TinyFile.Transfer

/-!
# The service and its clients

All threads of one service and of its registered clients, step by step: the
dispatcher and the workers of each client, the registration thread and the
compression workers of the service. A request picked by a worker is given a
segment, which makes an exchange: the two handlers, their three semaphores and
the segment. The semaphores are named by the client and the request; here an
exchange is known by its number, and that number stands for the response that
names its segment ids.

Which pending request `schedule` picks is left open. Mutexes other than the
service's `requestMapMutex`, which a worker holds while it waits for memory, are
only held for one step.
-/
namespace TinyFile

/-- A service on a pool that its constructor accepts, and the compressor, which
never returns an empty string. -/
structure Config where
  n_sms : ℕ
  sms_size : ℕ
  manager : ShmManager
  accepted : ShmManager.init n_sms sms_size INTERNAL_REP_SIZE = some manager
  strategy : Strategy
  serviceWorkers : ℕ
  numWorkers : ℕ → ℕ
  compress : List UInt8 → List UInt8
  compress_pos : ∀ src, src.length < SizeT.modulus → 0 < (compress src).length
  compress_small : ∀ src, src.length < SizeT.modulus → (compress src).length < SizeT.modulus

namespace System

/-- A call of an application, with its file. The message to the service carries
the size of the file. -/
structure Call where
  requestId : ℕ
  src : List UInt8
  small : src.length < SizeT.modulus
  deriving DecidableEq

def Call.fileSize (r : Call) : ℕ := r.src.length

/-- A call as the service knows it. -/
structure Request extends Call where
  clientId : ℕ
  deriving DecidableEq

/-- What a request becomes when it is given a segment. `completed` is set when
the client's handler has called `completeRequest`. -/
structure Exchange where
  request : Request
  segment : FragmentedShmSegment
  transfer : Transfer
  completed : Bool
  deriving DecidableEq

/-- `ClientDispatcherWorker`: in the loop of `sendRequests`, before `mq_send`, in
the loop of `receiveResponses`, or with a response in hand. -/
inductive Dispatcher where
  | sendLoop
  | posting (call : Call)
  | receiveLoop
  | pushing (exchange : ℕ)
  deriving DecidableEq

/-- `ClientFileCompressorWorker`: its handler is processed and then destroyed. -/
inductive ClientWorker where
  | idle
  | processing (exchange : ℕ)
  | destroying (exchange : ℕ)
  deriving DecidableEq

/-- One client process with its two request queues. -/
structure Client where
  numWorkers : ℕ
  nextRequestId : ℕ
  requestQueue : List Call
  requestsInFlight : ℕ
  dispatcher : Dispatcher
  clientToServer : List Call
  serverToClient : List ℕ
  requestResponseQueue : List ℕ
  manager : ShmManager
  workers : List ClientWorker
  fault : Option Fault
  deriving DecidableEq

/-- The registration thread: it polls the clients' queues, or holds a message
that it is about to enqueue. -/
inductive Registration where
  | polling
  | enqueueing (request : Request)
  deriving DecidableEq

/-- `ServiceFileCompressorWorker`: in `schedule`, with a request picked and
`requestMapMutex` held, before `mq_send` of the response, or in `process`. -/
inductive ServiceWorker where
  | idle
  | allocating (request : Request) (requestSize : ℕ)
  | responding (exchange : ℕ)
  | serving (exchange : ℕ)
  deriving DecidableEq

end System

structure System where
  memory : Memory
  manager : ShmManager
  pending : List System.Request
  registration : System.Registration
  workers : List System.ServiceWorker
  clients : ℕ → System.Client
  exchanges : List System.Exchange
  fault : Option Fault

namespace System

def Exchange.job (cfg : Config) (e : Exchange) : Job := ⟨e.segment, e.request.src, cfg.compress⟩

def ServiceWorker.holdsMutex : ServiceWorker → Bool
  | .allocating _ _ => true
  | _ => false

/-- The exchange whose handler the worker owns. -/
def ServiceWorker.exchange : ServiceWorker → Option ℕ
  | .responding n | .serving n => some n
  | _ => none

def ClientWorker.processed : ClientWorker → Option ℕ
  | .processing n => some n
  | _ => none

namespace Client

def init (manager : ShmManager) (numWorkers : ℕ) : Client where
  numWorkers := numWorkers
  nextRequestId := 0
  requestQueue := []
  requestsInFlight := 0
  dispatcher := .sendLoop
  clientToServer := []
  serverToClient := []
  requestResponseQueue := []
  manager := manager
  workers := List.replicate numWorkers .idle
  fault := none

/-- `callServiceSync` and `callServiceAsync`; `nextRequestId` is an `int`. -/
def submit (h : Client) (src : List UInt8) (small : src.length < SizeT.modulus) : Client :=
  { h with
    nextRequestId := h.nextRequestId + 1
    requestQueue := h.requestQueue ++ [⟨h.nextRequestId, src, small⟩]
    fault :=
      if h.nextRequestId < INT_MAX then h.fault
      else some (.undefinedBehavior "nextRequestId++") }

/-- One turn of the loop in `sendRequests`. -/
def sendRequests (h : Client) : Client :=
  match h.requestQueue with
  | [] => { h with dispatcher := .receiveLoop }
  | call :: rest =>
      if h.requestsInFlight < h.numWorkers then
        { h with
          requestQueue := rest
          requestsInFlight := h.requestsInFlight + 1
          dispatcher := .posting call }
      else { h with dispatcher := .receiveLoop }

/-- `mq_send` blocks while the queue is full. -/
def mqSend (h : Client) (call : Call) : Option Client :=
  if h.clientToServer.length < CLIENT_MAX_MSG then
    some { h with clientToServer := h.clientToServer ++ [call], dispatcher := .sendLoop }
  else none

/-- `mq_receive` in `receiveResponses`. -/
def receiveResponses (h : Client) : Client :=
  match h.serverToClient with
  | [] => { h with dispatcher := .sendLoop }
  | n :: rest => { h with serverToClient := rest, dispatcher := .pushing n }

/-- `getShmSegment(ids)` and the push of the response. -/
def pushResponse (h : Client) (n : ℕ) (ids : List ℕ) : Client :=
  match h.manager.getShmSegmentByIds ids with
  | (.ok _, m) =>
      { h with
        manager := m
        requestResponseQueue := h.requestResponseQueue ++ [n]
        dispatcher := .receiveLoop }
  | (.error fault, m) => { h with manager := m, fault := some fault }

/-- The next step of the dispatcher thread. -/
def dispatch (h : Client) (exchanges : List Exchange) : Option Client :=
  match h.dispatcher with
  | .sendLoop => some h.sendRequests
  | .posting call => h.mqSend call
  | .receiveLoop => some h.receiveResponses
  | .pushing n => exchanges[n]?.map (fun e => h.pushResponse n e.segment.getSegmentIds)

/-- `scheduleRequest` by a worker; a wait that times out changes nothing. -/
def scheduleRequest (h : Client) (j : ℕ) : Option Client :=
  match h.workers[j]?, h.requestResponseQueue with
  | some .idle, n :: rest =>
      some { h with requestResponseQueue := rest, workers := h.workers.set j (.processing n) }
  | _, _ => none

/-- `completeRequest`. -/
def completeRequest (h : Client) (j n : ℕ) : Client :=
  { h with
    requestsInFlight := SizeT.pred h.requestsInFlight
    workers := h.workers.set j (.destroying n) }

/-- The end of `run`: the handler and with it its segment are destroyed. -/
def destroy (h : Client) (j : ℕ) (ids : List ℕ) : Client :=
  { h with manager := h.manager.releaseShmSegment ids, workers := h.workers.set j .idle }

end Client

def init (cfg : Config) : System where
  memory := fun _ _ => 0
  manager := cfg.manager
  pending := []
  registration := .polling
  workers := List.replicate cfg.serviceWorkers .idle
  clients := fun c => Client.init cfg.manager (cfg.numWorkers c)
  exchanges := []
  fault := none

def setClient (s : System) (c : ℕ) (h : Client) : System :=
  { s with clients := fun d => if d = c then h else s.clients d }

@[simp] theorem clients_setClient (s : System) (c : ℕ) (h : Client) :
    (s.setClient c h).clients c = h := if_pos rfl

theorem clients_setClient_of_ne (s : System) {c d : ℕ} (h : Client) (hd : d ≠ c) :
    (s.setClient c h).clients d = s.clients d := if_neg hd

def setWorker (s : System) (w : ℕ) (pc : ServiceWorker) : System :=
  { s with workers := s.workers.set w pc }

def setExchange (s : System) (n : ℕ) (e : Exchange) : System :=
  { s with exchanges := s.exchanges.set n e }

/-- Some worker holds `requestMapMutex`. -/
def mutexHeld (s : System) : Bool := s.workers.any ServiceWorker.holdsMutex

/-- `dispatch` of `RegistrationVisitor` takes a message of a client. -/
def poll (s : System) (c : ℕ) : Option System :=
  match s.registration, (s.clients c).clientToServer with
  | .polling, call :: rest =>
      some { s.setClient c { s.clients c with clientToServer := rest } with
        registration := .enqueueing { call with clientId := c } }
  | _, _ => none

/-- `Scheduler::enqueue`, which takes `requestMapMutex`. -/
def enqueue (s : System) : Option System :=
  match s.registration with
  | .polling => none
  | .enqueueing request =>
      if s.mutexHeld then none
      else some { s with pending := s.pending ++ [request], registration := .polling }

/-- `schedule` by a worker: it takes `requestMapMutex`, picks a request and
selects the size of its segment. -/
def schedule (cfg : Config) (s : System) (w i : ℕ) : Option System :=
  match s.workers[w]?, s.pending[i]? with
  | some .idle, some request =>
      if s.mutexHeld then none
      else
        let pending := s.pending.eraseIdx i
        let requestSize := Scheduler.handlerShmSize s.manager pending.length cfg.serviceWorkers
          request.fileSize cfg.strategy
        some { s.setWorker w (.allocating request requestSize) with pending := pending }
  | _, _ => none

/-- `getShmSegment(size)`, the handler's constructor and the unlock. -/
def allocate (cfg : Config) (s : System) (w : ℕ) : Option System :=
  match s.workers[w]? with
  | some (.allocating request requestSize) =>
      match s.manager.getShmSegment requestSize with
      | .error fault => some { s with fault := some fault }
      | .ok none => none
      | .ok (some (gs, m)) => some
          { s.setWorker w (.responding s.exchanges.length) with
            manager := m
            exchanges := s.exchanges ++
              [⟨request, gs, Transfer.init ⟨gs, request.src, cfg.compress⟩, false⟩] }
  | _ => none

/-- `writeBlocking` of the response. -/
def respond (s : System) (w : ℕ) : Option System :=
  match s.workers[w]? with
  | some (.responding n) =>
      s.exchanges[n]?.bind fun e =>
        match RegistrationVisitor.checkSize
            (MQServerRequestMessage.getContentSize e.segment.getSegmentIds) with
        | .error fault => some { s with fault := some fault }
        | .ok () =>
            let c := e.request.clientId
            let h := s.clients c
            if h.serverToClient.length < CLIENT_MAX_MSG then
              some ((s.setWorker w (.serving n)).setClient c
                { h with serverToClient := h.serverToClient ++ [n] })
            else none
  | _ => none

/-- One step of the service's `process`. -/
def serve (cfg : Config) (s : System) (w : ℕ) : Option System :=
  match s.workers[w]? with
  | some (.serving n) =>
      s.exchanges[n]?.bind fun e =>
        (Transfer.serviceStep (e.job cfg) s.memory e.transfer).map fun r =>
          { s.setExchange n { e with transfer := r.2 } with
            memory := r.1
            fault := r.2.service.phase.fault }
  | _ => none

/-- The worker destroys the handler when `process` has returned. -/
def destroyHandler (s : System) (w : ℕ) : Option System :=
  match s.workers[w]? with
  | some (.serving n) =>
      s.exchanges[n]?.bind fun e =>
        if e.transfer.service.phase = .finished then
          some { s.setWorker w .idle with
            manager := s.manager.releaseShmSegment e.segment.getSegmentIds }
        else none
  | _ => none

/-- One step of the client's `process`. -/
def process (cfg : Config) (s : System) (c j : ℕ) : Option System :=
  match (s.clients c).workers[j]? with
  | some (.processing n) =>
      s.exchanges[n]?.bind fun e =>
        (Transfer.clientStep (e.job cfg) s.memory e.transfer).map fun r =>
          { (s.setExchange n { e with transfer := r.2 }).setClient c
              { s.clients c with fault := r.2.client.phase.fault } with
            memory := r.1 }
  | _ => none

/-- The end of the client's `process`. -/
def complete (s : System) (c j : ℕ) : Option System :=
  match (s.clients c).workers[j]? with
  | some (.processing n) =>
      s.exchanges[n]?.bind fun e =>
        if e.transfer.client.phase = .finished then
          some ((s.setExchange n { e with completed := true }).setClient c
            ((s.clients c).completeRequest j n))
        else none
  | _ => none

def destroy (s : System) (c j : ℕ) : Option System :=
  match (s.clients c).workers[j]? with
  | some (.destroying n) =>
      s.exchanges[n]?.map fun e =>
        s.setClient c ((s.clients c).destroy j e.segment.getSegmentIds)
  | _ => none

inductive Event where
  | submit (c : ℕ) (src : List UInt8)
  | dispatch (c : ℕ)
  | scheduleRequest (c j : ℕ)
  | process (c j : ℕ)
  | complete (c j : ℕ)
  | destroy (c j : ℕ)
  | poll (c : ℕ)
  | enqueue
  | schedule (w i : ℕ)
  | allocate (w : ℕ)
  | respond (w : ℕ)
  | serve (w : ℕ)
  | destroyHandler (w : ℕ)
  deriving DecidableEq

/-- The process of the thread that moves; an uncaught throw has ended it. -/
def alive (s : System) : Event → Bool
  | .submit c _ | .dispatch c | .scheduleRequest c _ | .process c _ | .complete c _
  | .destroy c _ => (s.clients c).fault.isNone
  | _ => s.fault.isNone

def step (cfg : Config) (s : System) : Event → Option System
  | .submit c src =>
      if small : src.length < SizeT.modulus then
        some (s.setClient c ((s.clients c).submit src small))
      else none
  | .dispatch c => ((s.clients c).dispatch s.exchanges).map (s.setClient c)
  | .scheduleRequest c j => ((s.clients c).scheduleRequest j).map (s.setClient c)
  | .process c j => s.process cfg c j
  | .complete c j => s.complete c j
  | .destroy c j => s.destroy c j
  | .poll c => s.poll c
  | .enqueue => s.enqueue
  | .schedule w i => s.schedule cfg w i
  | .allocate w => s.allocate cfg w
  | .respond w => s.respond w
  | .serve w => s.serve cfg w
  | .destroyHandler w => s.destroyHandler w

def next (cfg : Config) (s : System) (e : Event) : Option System :=
  if s.alive e then s.step cfg e else none

def machine (cfg : Config) : Machine System Event where
  start := init cfg
  next := next cfg

theorem snappyLiteral_pos (src : List UInt8) : 0 < (Transfer.snappyLiteral src).length := by
  simp only [Transfer.snappyLiteral]
  split
  · simp
  · split_ifs
    · simp
    · omega

theorem snappyLiteral_small (src : List UInt8) (h : src.length < SizeT.modulus) :
    (Transfer.snappyLiteral src).length < SizeT.modulus := by
  have hmod : (18 : ℕ) < SizeT.modulus := by decide
  simp only [Transfer.snappyLiteral]
  split
  · exact lt_trans (by decide) hmod
  · split_ifs
    · simp only [List.length_cons]
      omega
    · exact h

/-- A service with a pool of one internal segment. -/
def smallService (numWorkers : ℕ → ℕ) : Config where
  n_sms := 1
  sms_size := 32
  manager := (ShmManager.init 1 32 INTERNAL_REP_SIZE).get (by decide)
  accepted := (Option.some_get _).symm
  strategy := .roundRobin
  serviceWorkers := NUM_WORKERS
  numWorkers := numWorkers
  compress := Transfer.snappyLiteral
  compress_pos := fun src _ => snappyLiteral_pos src
  compress_small := snappyLiteral_small

/-- A client's dispatcher sends one request, and the service enqueues it. -/
def requestRun (c : ℕ) : List Event := [.dispatch c, .dispatch c, .poll c, .enqueue]

/-- A worker of the service takes the first request and responds to it. -/
def responseRun (w : ℕ) : List Event := [.schedule w 0, .allocate w, .respond w]

/-- A client's dispatcher, at the end of its sending loop, receives a response
and a worker takes it. -/
def receiveRun (c j : ℕ) : List Event :=
  [.dispatch c, .dispatch c, .dispatch c, .scheduleRequest c j]

/-- A transfer of up to 24 bytes until the service has posted its only chunk. -/
def transferRun (w c j : ℕ) : List Event := List.flatten
  [List.replicate 4 (.process c j), List.replicate 9 (.serve w),
    List.replicate 4 (.process c j), List.replicate 4 (.serve w)]

end System

end TinyFile
