import TinyFile.RequestFlow
import TinyFile.SoundScheduler

/-!
# The system with its scheduler

In the system a worker picks any pending request. Here the registration thread and the
workers call the scheduler itself, under either strategy: it keeps the requests, and
its queues and its count decide who is next and what segment is asked for. The calls
that wait are kept beside it only for their files. No client leaves, as in the system.
-/
namespace TinyFile

structure ScheduledSystem (κ : Type) where
  system : System
  scheduler : Scheduler κ

namespace ScheduledSystem

variable {κ : Type}

/-- A request as the scheduler knows it. -/
def toScheduler (r : System.Request) : Request := ⟨r.clientId, r.requestId, r.fileSize⟩

/-- `other` are the steps that do not touch the scheduler. -/
inductive Event where
  | registerClient (c : ℕ) (priority : ℤ) (p : Placement ℤ)
  | enqueue (p : Placement ℤ)
  | schedule (w : ℕ)
  | other (ev : System.Event)

def init (cfg : Config) : ScheduledSystem κ where
  system := System.init cfg
  scheduler := Scheduler.init cfg.serviceWorkers

section Arithmetic

variable [Add κ] [Sub κ] [Mul κ] [Div κ] [NatCast κ] [IntCast κ] [Zero κ] [LT κ] [DecidableLT κ]

/-- `Scheduler::registerClient` in `visitQueueCreation`. -/
def registerClient (d : ScheduledSystem κ) (c : ℕ) (priority : ℤ) (p : Placement ℤ) :
    Option (ScheduledSystem κ) :=
  if (c : ℤ) ∈ d.scheduler.registered ∨ d.system.registration ≠ .polling ∨
      d.system.mutexHeld = true then none
  else some { d with scheduler := d.scheduler.registerClient c priority p }

/-- `Scheduler::enqueue` in `dispatch`. -/
def enqueue (d : ScheduledSystem κ) (p : Placement ℤ) : Option (ScheduledSystem κ) :=
  match d.system.registration with
  | .polling => none
  | .enqueueing request =>
      if d.system.mutexHeld then none
      else
        match d.scheduler.enqueue request.clientId request.requestId request.fileSize p with
        | (.error fault, scheduler) => some ⟨{ d.system with fault := some fault }, scheduler⟩
        | (.ok (), scheduler) => some
            ⟨{ d.system with
                pending := d.system.pending ++ [request]
                registration := .polling }, scheduler⟩

/-- `Scheduler::schedule` by a worker, behind the wait for `requestCount`. -/
def schedule (cfg : Config) (d : ScheduledSystem κ) (w : ℕ) : Option (ScheduledSystem κ) :=
  match d.system.workers[w]? with
  | some .idle =>
      if d.system.mutexHeld = true ∨ d.scheduler.requestCount = 0 then none
      else
        match d.scheduler.schedule cfg.strategy with
        | .error fault => some { d with system := { d.system with fault := some fault } }
        | .ok (request, scheduler) =>
            (d.system.pending.find? fun r => toScheduler r = request).map fun r =>
              let requestSize := Scheduler.handlerShmSize d.system.manager scheduler.requestCount
                cfg.serviceWorkers request.fileSize cfg.strategy
              ⟨{ d.system.setWorker w (.allocating r requestSize) with
                  pending := d.system.pending.eraseP fun r => toScheduler r = request },
                scheduler⟩
  | _ => none

/-- The steps of the system that leave the scheduler alone; `dispatch` only reads the
queues of registered clients. -/
def other (cfg : Config) (d : ScheduledSystem κ) (ev : System.Event) :
    Option (ScheduledSystem κ) :=
  match ev with
  | .enqueue | .schedule _ _ => none
  | .poll c =>
      if (c : ℤ) ∈ d.scheduler.registered then
        (d.system.next cfg (.poll c)).map fun s => { d with system := s }
      else none
  | ev => (d.system.next cfg ev).map fun s => { d with system := s }

/-- A throw ends the service. -/
def next (cfg : Config) (d : ScheduledSystem κ) : Event → Option (ScheduledSystem κ)
  | .registerClient c priority p =>
      if d.system.fault.isSome then none else d.registerClient c priority p
  | .enqueue p => if d.system.fault.isSome then none else d.enqueue p
  | .schedule w => if d.system.fault.isSome then none else d.schedule cfg w
  | .other ev => d.other cfg ev

def machine (cfg : Config) : Machine (ScheduledSystem κ) Event where
  start := init cfg
  next := next cfg

end Arithmetic

/-- No insertion of a new key rehashes `requestMap` under the stored iterator. -/
def keepsIterator (d : ScheduledSystem κ) : Event → Bool
  | .enqueue (.rehash _) =>
      match d.system.registration with
      | .polling => true
      | .enqueueing r => decide ((r.clientId : ℤ) ∈ d.scheduler.requestMap.keys ∨
          d.scheduler.requestMapIterator = .atEnd)
  | _ => true

end ScheduledSystem

end TinyFile
