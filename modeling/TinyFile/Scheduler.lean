import TinyFile.Common
import TinyFile.NodeList
import TinyFile.UnorderedMap

/-!
# The request scheduler

`Scheduler.hpp` and `Scheduler.cpp`, both strategies. The credit arithmetic is
generic: the source computes in `double`, and the results that need exact
credits take the rationals. The functions below run with `requestMapMutex`
held; the wait for `requestCount` is the caller's guard, and the handler that a
picked request is wrapped in is built in `TinyFile.ShmManager`. The sum
`totalCredits`, which nothing reads, is left out.
-/
namespace TinyFile

structure Request where
  clientId : ℤ
  requestId : ℤ
  fileSize : ℕ
  deriving DecidableEq, Repr

inductive CreditType where
  | UNDER
  | OVER
  | IDLE
  deriving DecidableEq, Repr

inductive Strategy where
  | roundRobin
  | credit
  deriving DecidableEq, Repr

/-- `Scheduler::Credit`; the iterator has no value before the first `enqueue`. -/
structure Credit (κ : Type) where
  clientId : ℤ
  priority : κ
  credit : κ
  type : CreditType
  iterator : Option NodeList.Iterator
  deriving DecidableEq

structure Scheduler (κ : Type) where
  numWorkers : ℕ
  clientCredits : UnorderedMap ℤ (Credit κ)
  underQueue : NodeList ℤ
  overQueue : NodeList ℤ
  requestMap : UnorderedMap ℤ (List Request)
  requestMapIterator : Cursor ℤ
  requestCount : ℕ

/-- An insertion of a new key that rehashes invalidates a stored iterator; the
end iterator stays comparable with `end()`. -/
def Cursor.afterSubscript {α β : Type*} [DecidableEq α] (c : Cursor α)
    (m : UnorderedMap α β) (k : α) (p : Placement α) : Cursor α :=
  match c, p with
  | .atKey j, .rehash _ => if k ∈ m.keys then .atKey j else .invalid
  | c, _ => c

/-- Erasing an entry invalidates the iterators to it. -/
def Cursor.afterErase {α : Type*} [DecidableEq α] (c : Cursor α) (k : α) : Cursor α :=
  if c = .atKey k then .invalid else c

/-- The iterator to the first of the remaining entries. -/
def Cursor.ofEntries {α β : Type*} : List (α × β) → Cursor α
  | [] => .atEnd
  | e :: _ => .atKey e.1

/-- The entries from an iterator to the end, if the iterator may be used. -/
def Cursor.entriesFrom {α β : Type*} [DecidableEq α] (c : Cursor α) (m : UnorderedMap α β) :
    Option (List (α × β)) :=
  match c with
  | .atEnd => some []
  | .atKey k => if k ∈ m.keys then some (m.entries.dropWhile (fun e => e.1 ≠ k)) else none
  | .invalid => none

namespace Scheduler

variable {κ : Type}

def init (numWorkers : ℕ) : Scheduler κ where
  numWorkers := numWorkers
  clientCredits := .empty
  underQueue := .empty 0
  overQueue := .empty 1
  requestMap := .empty
  requestMapIterator := .atEnd
  requestCount := 0

/-- The requests of a client; a client without an entry has none. -/
def pending (s : Scheduler κ) (clientId : ℤ) : List Request :=
  (s.requestMap.find? clientId).getD []

/-- The number of requests waiting for all clients. -/
def totalPending (s : Scheduler κ) : ℕ := s.requestMap.total List.length

def registered (s : Scheduler κ) : List ℤ := s.clientCredits.keys

/-- Write a client's credit record back. -/
def store (s : Scheduler κ) (clientId : ℤ) (c : Credit κ) : Scheduler κ :=
  { s with clientCredits := s.clientCredits.modify clientId (fun _ => c) }

section Arithmetic

variable [Add κ] [Sub κ] [Mul κ] [Div κ] [NatCast κ] [IntCast κ] [Zero κ] [LT κ]
  [DecidableLT κ]

/-- `registerClient`: the initial credit is the priority. -/
def registerClient (s : Scheduler κ) (clientId priority : ℤ) (p : Placement ℤ) : Scheduler κ :=
  { s with
    clientCredits := s.clientCredits.emplace clientId
      ⟨clientId, (priority : κ), (priority : κ), .IDLE, none⟩ p }

/-- `deregisterClient`. -/
def deregisterClient (s : Scheduler κ) (clientId : ℤ) : Except Fault (Scheduler κ) :=
  match s.clientCredits.find? clientId with
  | none => .error (.runtimeError s!"Scheduler: clientId {clientId} not registered")
  | some _ => .ok
      { s with
        clientCredits := s.clientCredits.erase clientId
        requestMap := s.requestMap.erase clientId
        requestMapIterator := s.requestMapIterator.afterErase clientId }

/-- Append a client to the queue that its credit selects. -/
def append (s : Scheduler κ) (c : Credit κ) : Scheduler κ :=
  if 0 < c.credit then
    { s with underQueue := (s.underQueue.pushBack c.clientId).1 }.store c.clientId
      { c with type := .UNDER, iterator := some (s.underQueue.pushBack c.clientId).2 }
  else
    { s with overQueue := (s.overQueue.pushBack c.clientId).1 }.store c.clientId
      { c with type := .OVER, iterator := some (s.overQueue.pushBack c.clientId).2 }

/-- `Credit::enqueue`; the credit record is written back in either case. -/
def creditEnqueue (s : Scheduler κ) (c : Credit κ) : Scheduler κ :=
  if c.type = .IDLE then s.append c else s.store c.clientId c

/-- Erase through an iterator that was set before and points into this queue. -/
def eraseNode (q : NodeList ℤ) (it : Option NodeList.Iterator) : Except Fault (NodeList ℤ) :=
  match it.bind q.erase with
  | some q' => .ok q'
  | none => .error (.undefinedBehavior "std::list::erase")

/-- `Credit::dequeue`. -/
def creditDequeue (s : Scheduler κ) (c : Credit κ) : Except Fault (Scheduler κ) :=
  match c.type with
  | .UNDER => do
      let q ← eraseNode s.underQueue c.iterator
      return { s with underQueue := q }
  | .OVER => do
      let q ← eraseNode s.overQueue c.iterator
      return { s with overQueue := q }
  | .IDLE => .error (.runtimeError "Scheduler: schedule called on idle Credit")

/-- What a client earns when a file of another client is scheduled. -/
def gain (s : Scheduler κ) (fileSize : ℕ) (c : Credit κ) : κ :=
  c.credit + c.priority * (fileSize : κ) / (DEFAULT_PRIORITY : κ) /
    (FILE_CREDIT_MULTIPLIER : κ) / (s.numWorkers : κ)

/-- What is left to a client whose file is scheduled. -/
def charge (s : Scheduler κ) (fileSize : ℕ) (c : Credit κ) : κ :=
  c.credit - (fileSize : κ) / (FILE_CREDIT_MULTIPLIER : κ) / (s.numWorkers : κ)

/-- The loop body of `Credit::schedule` for another client: credit it and, if it
waits, take it out of its queue and append it again. -/
def requeue (s : Scheduler κ) (fileSize : ℕ) (c : Credit κ) : Except Fault (Scheduler κ) :=
  let c := { c with credit := s.gain fileSize c }
  if c.type = .IDLE then .ok (s.store c.clientId c)
  else do
    let s ← s.creditDequeue c
    return s.creditEnqueue { c with type := .IDLE }

/-- The loop over `clientCredits` in iteration order. -/
def requeueOthers (clientId : ℤ) (fileSize : ℕ) :
    List ℤ → Scheduler κ → Except Fault (Scheduler κ)
  | [], s => .ok s
  | otherClientId :: others, s =>
      if otherClientId = clientId then requeueOthers clientId fileSize others s
      else
        match s.clientCredits.find? otherClientId with
        | none => requeueOthers clientId fileSize others s
        | some c => do
            let s ← s.requeue fileSize c
            requeueOthers clientId fileSize others s

/-- `Credit::schedule`. -/
def creditSchedule (s : Scheduler κ) (c : Credit κ) : Except Fault (Request × Scheduler κ) :=
  match s.pending c.clientId with
  | [] => .error (.runtimeError "Scheduler: schedule called on Credit with empty runqueue")
  | request :: rest => do
      let s := { s with requestMap := s.requestMap.modify c.clientId (fun _ => rest) }
      let s ← s.creditDequeue c
      let s ← requeueOthers c.clientId request.fileSize s.clientCredits.keys s
      let c := { c with credit := s.charge request.fileSize c }
      if rest ≠ [] then return (request, s.append c)
      else return (request, s.store c.clientId { c with type := .IDLE })

/-- `Scheduler::enqueue`. A throw leaves the request map and the counter changed,
so the state is returned beside the outcome. -/
def enqueue (s : Scheduler κ) (clientId requestId : ℤ) (fileSize : ℕ) (p : Placement ℤ) :
    Except Fault Unit × Scheduler κ :=
  let s :=
    { s with
      requestMap := (s.requestMap.emplace clientId [] p).modify clientId
        (fun requests => requests ++ [⟨clientId, requestId, fileSize⟩])
      requestMapIterator := s.requestMapIterator.afterSubscript s.requestMap clientId p
      requestCount := s.requestCount + 1 }
  match s.clientCredits.find? clientId with
  | none => (.error (.runtimeError s!"Scheduler: clientId {clientId} not registered"), s)
  | some c => (.ok (), s.creditEnqueue c)

/-- `scheduleCredit`, once the wait for `requestCount` is over: the front of
`underQueue`, else the front of `overQueue`. -/
def scheduleCredit (s : Scheduler κ) : Except Fault (Request × Scheduler κ) :=
  match s.underQueue.values ++ s.overQueue.values with
  | [] => .error (.undefinedBehavior "std::list::front on an empty list")
  | clientId :: _ =>
      match s.clientCredits.find? clientId with
      | none => .error (.runtimeError s!"Scheduler: clientId {clientId} not registered")
      | some c => do
          let (request, s) ← s.creditSchedule c
          return (request, { s with requestCount := s.requestCount - 1 })

end Arithmetic

/-- The scan `while (requestMapIterator != requestMap.end())`: the first entry
with a request, and the iterator one past it. -/
def scan : List (ℤ × List Request) → Option (ℤ × Request × Cursor ℤ)
  | [] => none
  | (_, []) :: entries => scan entries
  | (clientId, request :: _) :: entries => some (clientId, request, Cursor.ofEntries entries)

/-- `scheduleRoundRobin`, once the wait for `requestCount` is over: scan from the
stored iterator, then once more from the beginning. -/
def scheduleRoundRobin (s : Scheduler κ) : Except Fault (Request × Scheduler κ) :=
  match s.requestMapIterator.entriesFrom s.requestMap with
  | none => .error (.undefinedBehavior "use of an invalidated requestMapIterator")
  | some entries =>
      match (scan entries).or (scan s.requestMap.entries) with
      | none => .error (.runtimeError "FileCompressionHandler: no requests to process")
      | some (clientId, request, iterator) => .ok (request,
          { s with
            requestMap := s.requestMap.modify clientId List.tail
            requestMapIterator := iterator
            requestCount := s.requestCount - 1 })

/-- `Scheduler::schedule` through the strategy object. -/
def schedule [Add κ] [Sub κ] [Mul κ] [Div κ] [NatCast κ] [IntCast κ] [Zero κ] [LT κ]
    [DecidableLT κ] (s : Scheduler κ) : Strategy → Except Fault (Request × Scheduler κ)
  | .roundRobin => s.scheduleRoundRobin
  | .credit => s.scheduleCredit

end Scheduler

end TinyFile
