import Mathlib
import TinyFile.Common
import TinyFile.Machine

/-!
# The client's request bookkeeping

`Servicer.hpp` and the calls of `Servicer.cpp` that move requests. A critical
section is one step: `requestMap` is only touched under `requestMapMutex`,
`requestQueue` and `requestsInFlight` only under both locks. `sendRequests` drops
its locks around `mq_send`, so its loop is split there, and the request it then
reads through its reference is read from the map as it is at that moment.

The service is the environment: it takes each message once and answers it once.
The call that increments the `int` of the next id beyond its range ends the process.
The fields that only logging and registration use are left out, and so is the
segment of a response.
-/
namespace TinyFile

namespace Servicer

/-- `Servicer::Request`; `compressedData` is null until the request completes. -/
structure Request where
  requestId : ℕ
  src : List UInt8
  compressedData : Option (List UInt8)
  deriving DecidableEq

def Request.fileSize (request : Request) : ℕ := request.src.length

/-- `MQClientRequestMessage`. -/
structure RequestMessage where
  requestId : ℕ
  fileSize : ℕ
  deriving DecidableEq

/-- The parts of a `ClientFileCompressorHandler` that `createHandler` fills in. -/
structure Handler where
  requestId : ℕ
  src : List UInt8
  deriving DecidableEq

/-- Where the dispatcher is: at the head of the loop in `sendRequests`, with its
locks dropped before the message is built, before `mq_send`, in
`receiveResponses`, or with a response in hand. -/
inductive Dispatcher where
  | sendLoop
  | building (requestId : ℕ)
  | posting (message : RequestMessage)
  | receiveLoop
  | pushing (requestId : ℕ)
  deriving DecidableEq

def Dispatcher.toSend : Dispatcher → List ℕ
  | .building requestId => [requestId]
  | .posting message => [message.requestId]
  | _ => []

def Dispatcher.received : Dispatcher → List ℕ
  | .pushing requestId => [requestId]
  | _ => []

end Servicer

/-- `Servicer` with its threads and queues. `waiting` are the calls blocked on
their condition, `unclaimed` the ids that `callServiceAsync` returned and nobody
has waited for. `taken` to `returned` record what happened. -/
structure Servicer where
  numWorkers : ℕ
  nextRequestId : ℕ
  requestMap : ℕ → Option Servicer.Request
  requestQueue : List ℕ
  requestsInFlight : ℕ
  requestResponseQueue : List ℕ
  dispatcher : Servicer.Dispatcher
  handlers : List Servicer.Handler
  waiting : List ℕ
  unclaimed : List ℕ
  clientToServer : List Servicer.RequestMessage
  serving : List ℕ
  serverToClient : List ℕ
  taken : List ℕ
  sent : List Servicer.RequestMessage
  completed : List (ℕ × List UInt8)
  returned : List (ℕ × List UInt8)
  fault : Option Fault

namespace Servicer

def init (numWorkers : ℕ) : Servicer where
  numWorkers := numWorkers
  nextRequestId := 0
  requestMap := fun _ => none
  requestQueue := []
  requestsInFlight := 0
  requestResponseQueue := []
  dispatcher := .sendLoop
  handlers := []
  waiting := []
  unclaimed := []
  clientToServer := []
  serving := []
  serverToClient := []
  taken := []
  sent := []
  completed := []
  returned := []
  fault := none

/-- `unordered_map::emplace` keeps an entry that is already there. -/
def emplace (m : ℕ → Option Request) (requestId : ℕ) (request : Request) : ℕ → Option Request :=
  fun j => if j = requestId then some ((m j).getD request) else m j

def notFound (s : Servicer) : Servicer :=
  { s with fault := some (.runtimeError "Servicer: request not found") }

def overflow : Fault := .undefinedBehavior "nextRequestId++"

/-- What `callServiceSync` and `callServiceAsync` share. -/
def submit (s : Servicer) (src : List UInt8) : Servicer :=
  { s with
    requestMap := emplace s.requestMap s.nextRequestId ⟨s.nextRequestId, src, none⟩
    requestQueue := s.requestQueue ++ [s.nextRequestId]
    nextRequestId := s.nextRequestId + 1
    fault := if s.nextRequestId < INT_MAX then s.fault else some overflow }

/-- `callServiceSync` up to its wait; the entry was just made, so it waits. -/
def callServiceSync (s : Servicer) (src : List UInt8) : Servicer :=
  { s.submit src with waiting := s.waiting ++ [s.nextRequestId] }

def callServiceAsync (s : Servicer) (src : List UInt8) : Servicer :=
  { s.submit src with unclaimed := s.unclaimed ++ [s.nextRequestId] }

/-- The end of a wait: the result is moved out and the entry erased. -/
def finish (s : Servicer) (requestId : ℕ) (compressedData : List UInt8) : Servicer :=
  { s with
    requestMap := fun j => if j = requestId then none else s.requestMap j
    returned := s.returned ++ [(requestId, compressedData)] }

/-- `waitServiceSync` for an id that nobody has waited for: it returns at once if
the result is there. -/
def waitServiceSync (s : Servicer) (requestId : ℕ) : Option Servicer :=
  if requestId ∈ s.unclaimed then
    let s := { s with unclaimed := s.unclaimed.erase requestId }
    match s.requestMap requestId with
    | none => some s.notFound
    | some request =>
        match request.compressedData with
        | none => some { s with waiting := s.waiting ++ [requestId] }
        | some compressedData => some (s.finish requestId compressedData)
  else none

/-- A blocked call evaluates its predicate and, if it holds, returns. -/
def wake (s : Servicer) (requestId : ℕ) : Option Servicer :=
  if requestId ∈ s.waiting then
    match s.requestMap requestId with
    | none => some s.notFound
    | some request =>
        request.compressedData.map fun compressedData =>
          { s with waiting := s.waiting.erase requestId }.finish requestId compressedData
  else none

/-- One turn of the loop in `sendRequests`, up to where the locks are dropped. -/
def sendRequests (s : Servicer) : Servicer :=
  match s.requestQueue with
  | [] => { s with dispatcher := .receiveLoop }
  | requestId :: rest =>
      if s.requestsInFlight < s.numWorkers then
        let s := { s with requestQueue := rest, taken := s.taken ++ [requestId] }
        match s.requestMap requestId with
        | none => s.notFound
        | some _ =>
            { s with
              requestsInFlight := s.requestsInFlight + 1
              dispatcher := .building requestId }
      else { s with dispatcher := .receiveLoop }

/-- With the locks dropped, the message is built through the reference. -/
def buildMessage (s : Servicer) (requestId : ℕ) : Servicer :=
  match s.requestMap requestId with
  | none => { s with fault := some (.undefinedBehavior "use of an erased request") }
  | some request =>
      { s with dispatcher := .posting ⟨request.requestId, request.fileSize⟩ }

/-- `mq_send` blocks while the queue is full. -/
def mqSend (s : Servicer) (message : RequestMessage) : Option Servicer :=
  if s.clientToServer.length < CLIENT_MAX_MSG then
    some { s with
      clientToServer := s.clientToServer ++ [message]
      sent := s.sent ++ [message]
      dispatcher := .sendLoop }
  else none

/-- One turn of the loop in `receiveResponses`. -/
def receiveResponses (s : Servicer) : Servicer :=
  match s.serverToClient with
  | [] => { s with dispatcher := .sendLoop }
  | requestId :: rest =>
      { s with serverToClient := rest, dispatcher := .pushing requestId }

/-- The next step of the dispatcher thread. -/
def dispatch (s : Servicer) : Option Servicer :=
  match s.dispatcher with
  | .sendLoop => some s.sendRequests
  | .building requestId => some (s.buildMessage requestId)
  | .posting message => s.mqSend message
  | .receiveLoop => some s.receiveResponses
  | .pushing requestId => some
      { s with
        requestResponseQueue := s.requestResponseQueue ++ [requestId]
        dispatcher := .receiveLoop }

/-- `scheduleRequest` by a worker without a handler; a wait that times out
changes nothing. -/
def scheduleRequest (s : Servicer) : Option Servicer :=
  if s.handlers.length < s.numWorkers then
    match s.requestResponseQueue with
    | [] => none
    | requestId :: rest =>
        match s.requestMap requestId with
        | none => some s.notFound
        | some request => some
            { s with
              requestResponseQueue := rest
              handlers := s.handlers ++ [⟨requestId, request.src⟩] }
  else none

/-- `completeRequest` at the end of a handler's `process`. -/
def completeRequest (s : Servicer) (worker : ℕ) (compressedData : List UInt8) : Option Servicer :=
  s.handlers[worker]?.map fun handler =>
    let s := { s with
      handlers := s.handlers.eraseIdx worker
      requestsInFlight := SizeT.pred s.requestsInFlight }
    match s.requestMap handler.requestId with
    | none => s.notFound
    | some request =>
        { s with
          requestMap := fun j =>
            if j = handler.requestId then
              some { request with compressedData := some compressedData }
            else s.requestMap j
          completed := s.completed ++ [(handler.requestId, compressedData)] }

/-- The service takes the next message. -/
def serve (s : Servicer) : Option Servicer :=
  match s.clientToServer with
  | [] => none
  | message :: rest => some
      { s with clientToServer := rest, serving := s.serving ++ [message.requestId] }

/-- The service answers a message that it has taken, with its id. -/
def answer (s : Servicer) (requestId : ℕ) : Option Servicer :=
  if requestId ∈ s.serving ∧ s.serverToClient.length < CLIENT_MAX_MSG then
    some { s with
      serving := s.serving.erase requestId
      serverToClient := s.serverToClient ++ [requestId] }
  else none

inductive Event where
  | callServiceSync (src : List UInt8)
  | callServiceAsync (src : List UInt8)
  | waitServiceSync (requestId : ℕ)
  | wake (requestId : ℕ)
  | dispatch
  | serve
  | answer (requestId : ℕ)
  | scheduleRequest
  | completeRequest (worker : ℕ) (compressedData : List UInt8)

/-- The calls that give out an id. -/
def Event.numbers : Event → Bool
  | .callServiceSync _ | .callServiceAsync _ => true
  | _ => false

/-- A throw in one of these threads ends the process. -/
def next (s : Servicer) (e : Event) : Option Servicer :=
  if s.fault.isSome then none
  else
    match e with
    | .callServiceSync src => some (s.callServiceSync src)
    | .callServiceAsync src => some (s.callServiceAsync src)
    | .waitServiceSync requestId => s.waitServiceSync requestId
    | .wake requestId => s.wake requestId
    | .dispatch => s.dispatch
    | .serve => s.serve
    | .answer requestId => s.answer requestId
    | .scheduleRequest => s.scheduleRequest
    | .completeRequest worker compressedData => s.completeRequest worker compressedData

def machine (numWorkers : ℕ) : Machine Servicer Event where
  start := init numWorkers
  next := next

end Servicer

end TinyFile
