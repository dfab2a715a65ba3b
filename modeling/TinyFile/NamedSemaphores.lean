import TinyFile.NamedObjects
import TinyFile.RequestFlow

/-!
# The semaphores under their names

The two handlers of an exchange find their semaphores by names made of the client's
id and the request's, in a table that all processes share and that earlier runs may
have left full of names. `process` of the service's handler resets and creates the
three semaphores before it responds, and closes them at its end. `process` of the
client's handler opens them first, and at its end closes and unlinks them. Each call
is a step of its own. The semaphores of an exchange in the system's state are not
relied on: each step of a handler puts there what its own handles show.

Of the errors of the calls the table knows `EEXIST` and `ENOENT`.
-/
namespace TinyFile

/-- The semaphores of an exchange. -/
inductive Semaphore where
  | client
  | server
  | sense
  deriving DecidableEq

namespace Semaphore

def all : List Semaphore := [.client, .server, .sense]

theorem mem_all (k : Semaphore) : k ∈ all := by cases k <;> decide

/-- The handlers' variable for it. -/
def varName : Semaphore → String
  | .client => "shmClientSemaphore"
  | .server => "shmServerSemaphore"
  | .sense => "shmSenseSemaphore"

/-- The value with which the service creates it. -/
def initial : Semaphore → ℕ
  | .client => 0
  | .server => 1
  | .sense => 0

def count (w : Wires) : Semaphore → ℕ
  | .client => w.shmClientSemaphore
  | .server => w.shmServerSemaphore
  | .sense => w.shmSenseSemaphore

end Semaphore

/-! `CommunicationManager.cpp`. -/
namespace CommunicationManager

def getShmClientSemaphoreName (clientId requestId : ℕ) : String :=
  "/shm_client_semaphore_" ++ toString clientId ++ "_" ++ toString requestId

def getShmServerSemaphoreName (clientId requestId : ℕ) : String :=
  "/shm_server_semaphore_" ++ toString clientId ++ "_" ++ toString requestId

def getShmSenseSemaphoreName (clientId requestId : ℕ) : String :=
  "/shm_sense_semaphore_" ++ toString clientId ++ "_" ++ toString requestId

def semaphoreName (clientId requestId : ℕ) : Semaphore → String
  | .client => getShmClientSemaphoreName clientId requestId
  | .server => getShmServerSemaphoreName clientId requestId
  | .sense => getShmSenseSemaphoreName clientId requestId

theorem underscore_not_mem (n : ℕ) : '_' ∉ Nat.toDigits 10 n := by
  intro h
  have hdigit := Nat.isDigit_of_mem_toDigits (by decide) (by decide) h
  revert hdigit
  decide

/-- What the name of a semaphore starts with. -/
def stem : Semaphore → List Char
  | .client => "/shm_client_semaphore_".toList
  | .server => "/shm_server_semaphore_".toList
  | .sense => "/shm_sense_semaphore_".toList

theorem toList_semaphoreName (c r : ℕ) (k : Semaphore) :
    (semaphoreName c r k).toList = stem k ++ (Nat.toDigits 10 c ++ '_' :: Nat.toDigits 10 r) := by
  have hdigits : ∀ n : ℕ, (toString n).toList = Nat.toDigits 10 n := fun n => Nat.toList_repr
  have hjoin : ∀ pre : String, (pre ++ toString c ++ "_" ++ toString r).toList =
      pre.toList ++ (Nat.toDigits 10 c ++ '_' :: Nat.toDigits 10 r) := by
    intro pre
    rw [String.toList_append, String.toList_append, String.toList_append, hdigits, hdigits,
      List.append_assoc, List.append_assoc]
    rfl
  cases k <;> exact hjoin _

/-- The eighth character tells which semaphore it is. -/
theorem stem_inj {k k' : Semaphore} {l l' : List Char} (h : stem k ++ l = stem k' ++ l') :
    k = k' := by
  have hlength : ∀ k, 8 ≤ (stem k).length := by intro k; cases k <;> decide
  have htake := congrArg (List.take 8) h
  rw [List.take_append_of_le_length (hlength k), List.take_append_of_le_length (hlength k')]
    at htake
  revert htake
  cases k <;> cases k' <;> decide

/-- Different semaphores of different requests have different names. -/
theorem semaphoreName_inj {c r c' r' : ℕ} {k k' : Semaphore}
    (h : semaphoreName c r k = semaphoreName c' r' k') : k = k' ∧ c = c' ∧ r = r' := by
  have hchars := String.toList_inj.mpr h
  rw [toList_semaphoreName, toList_semaphoreName] at hchars
  obtain rfl := stem_inj hchars
  have hids := List.append_cancel_left hchars
  obtain ⟨hc, -, hr⟩ := (List.append_cons_inj_of_notMem (underscore_not_mem c)
    (underscore_not_mem r)).mp hids
  have hrepr : ∀ {m n : ℕ}, Nat.toDigits 10 m = Nat.toDigits 10 n → m = n := by
    intro m n hdigits
    rw [← Nat.toList_repr, ← Nat.toList_repr] at hdigits
    exact Nat.repr_inj.mp (String.toList_inj.mp hdigits)
  exact ⟨rfl, hrepr hc, hrepr hr⟩

end CommunicationManager

/-- The named semaphores of the machine on which all processes run. -/
abbrev SemaphoreTable := NamedObjects String ℕ

/-- `reset` is the `sem_unlink` that a missing name does not fail, `create` a `sem_open`
with `O_CREAT | O_EXCL`, and `attach` one without. -/
inductive SemaphoreCall where
  | reset (k : Semaphore)
  | create (k : Semaphore)
  | attach (k : Semaphore)
  | close (k : Semaphore)
  | unlink (k : Semaphore)
  deriving DecidableEq

/-- What is left of the calls before and after the loops of `process`, and the values
of its variables. -/
structure SemaphoreCalls where
  opening : List SemaphoreCall
  closing : List SemaphoreCall
  handle : Semaphore → Option ℕ

namespace SemaphoreCall

/-- The call, with the name of the handler for its texts. -/
def perform (handler : String) (name : Semaphore → String) (table : SemaphoreTable)
    (handle : Semaphore → Option ℕ) :
    SemaphoreCall → Except Fault (SemaphoreTable × (Semaphore → Option ℕ))
  | .reset k => .ok (table.unlink (name k), handle)
  | .create k =>
      match table.create (name k) k.initial with
      | some (o, table) => .ok (table, Function.update handle k (some o))
      | none => .error (.runtimeError (handler ++ ": failed to open " ++ k.varName))
  | .attach k =>
      match table.object (name k) with
      | some o => .ok (table, Function.update handle k (some o))
      | none => .error (.runtimeError (handler ++ ": failed to open " ++ k.varName))
  | .close k =>
      match handle k with
      | some _ => .ok (table, handle)
      | none => .error (.runtimeError (handler ++ ": failed to close " ++ k.varName))
  | .unlink k =>
      match table.object (name k) with
      | some _ => .ok (table.unlink (name k), handle)
      | none => .error (.runtimeError (handler ++ ": failed to unlink " ++ k.varName))

end SemaphoreCall

namespace SemaphoreCalls

/-- `ServiceFileCompressorHandler::process`. -/
def ofService : SemaphoreCalls where
  opening := [.reset .client, .create .client, .reset .server, .create .server, .reset .sense,
    .create .sense]
  closing := [.close .client, .close .server, .close .sense]
  handle := fun _ => none

/-- `ClientFileCompressorHandler::process`. -/
def ofClient : SemaphoreCalls where
  opening := [.attach .client, .attach .server, .attach .sense]
  closing := [.close .client, .close .server, .close .sense, .unlink .client, .unlink .server,
    .unlink .sense]
  handle := fun _ => none

/-- The next call, and what is left behind it; those after the loops come when these
have `finished`. -/
def due (h : SemaphoreCalls) (finished : Bool) : Option (SemaphoreCall × SemaphoreCalls) :=
  match h.opening, h.closing with
  | call :: rest, _ => some (call, { h with opening := rest })
  | [], call :: rest => if finished then some (call, { h with closing := rest }) else none
  | [], [] => none

/-- The three semaphores as the handler sees them. -/
def wires (h : SemaphoreCalls) (table : SemaphoreTable) (history : List Traffic) : Option Wires :=
  match h.handle .client, h.handle .server, h.handle .sense with
  | some c, some v, some x => some ⟨table.value c, table.value v, table.value x, history⟩
  | _, _, _ => none

end SemaphoreCalls

/-- The system with the table, and the calls of both handlers of each exchange. -/
structure NamedSystem where
  system : System
  table : SemaphoreTable
  service : ℕ → SemaphoreCalls
  client : ℕ → SemaphoreCalls

namespace NamedSystem

inductive Event where
  | step (ev : System.Event)
  | serviceCall (w : ℕ)
  | clientCall (c j : ℕ)
  deriving DecidableEq

/-- The step of the system, unless it is a semaphore call. -/
def Event.ofSystem : Event → Option System.Event
  | .step ev => some ev
  | .serviceCall _ | .clientCall _ _ => none

/-- Any names may be taken at the start. -/
def init (cfg : Config) (table : SemaphoreTable) : NamedSystem where
  system := System.init cfg
  table := table
  service := fun _ => .ofService
  client := fun _ => .ofClient

/-- The exchange of a worker of the service. -/
def served (s : NamedSystem) (w : ℕ) : Option ℕ :=
  s.system.workers[w]?.bind System.ServiceWorker.exchange

/-- The exchange of a worker of a client. -/
def processed (s : NamedSystem) (c j : ℕ) : Option ℕ :=
  (s.system.clients c).workers[j]?.bind System.ClientWorker.processed

/-- The handler that takes the step has made the calls that come before it. -/
def ready (s : NamedSystem) : System.Event → Bool
  | .respond w | .serve w => (s.served w).all fun n => (s.service n).opening.isEmpty
  | .destroyHandler w =>
      (s.served w).all fun n => (s.service n).opening.isEmpty && (s.service n).closing.isEmpty
  | .process c j => (s.processed c j).all fun n => (s.client n).opening.isEmpty
  | .complete c j =>
      (s.processed c j).all fun n => (s.client n).opening.isEmpty && (s.client n).closing.isEmpty
  | _ => true

/-- One step of a transfer, on the semaphores that the handler has opened. -/
def transfer (cfg : Config) (s : NamedSystem) (n : ℕ) (h : SemaphoreCalls) (ev : System.Event) :
    Option NamedSystem :=
  s.system.exchanges[n]?.bind fun e =>
    (h.wires s.table e.transfer.wires.history).bind fun w =>
      let seen := { e with transfer := { e.transfer with wires := w } }
      ((s.system.setExchange n seen).next cfg ev).bind fun system =>
        system.exchanges[n]?.map fun e' =>
          { s with
            system := system
            table := s.table.store Semaphore.all h.handle (Semaphore.count e'.transfer.wires) }

def step (cfg : Config) (s : NamedSystem) (ev : System.Event) : Option NamedSystem :=
  if s.ready ev then
    match ev with
    | .serve w => (s.served w).bind fun n => s.transfer cfg n (s.service n) ev
    | .process c j => (s.processed c j).bind fun n => s.transfer cfg n (s.client n) ev
    | ev => (s.system.next cfg ev).map fun system => { s with system := system }
  else none

/-- The next semaphore call of a worker of the service. -/
def serviceCall (s : NamedSystem) (w : ℕ) : Option NamedSystem :=
  (s.served w).bind fun n =>
    s.system.exchanges[n]?.bind fun e =>
      ((s.service n).due (e.transfer.service.phase = .finished)).map fun (call, rest) =>
        match call.perform "ServiceFileCompressorHandler"
            (CommunicationManager.semaphoreName e.request.clientId e.request.requestId) s.table
            (s.service n).handle with
        | .ok (table, handle) =>
            { s with
              table := table
              service := Function.update s.service n { rest with handle := handle } }
        | .error fault => { s with system := { s.system with fault := some fault } }

/-- The next semaphore call of a worker of a client. The response has named the request. -/
def clientCall (s : NamedSystem) (c j : ℕ) : Option NamedSystem :=
  (s.processed c j).bind fun n =>
    s.system.exchanges[n]?.bind fun e =>
      ((s.client n).due (e.transfer.client.phase = .finished)).map fun (call, rest) =>
        match call.perform "ClientFileCompressorHandler"
            (CommunicationManager.semaphoreName c e.request.requestId) s.table
            (s.client n).handle with
        | .ok (table, handle) =>
            { s with
              table := table
              client := Function.update s.client n { rest with handle := handle } }
        | .error fault =>
            { s with
              system := s.system.setClient c { s.system.clients c with fault := some fault } }

def next (cfg : Config) (s : NamedSystem) : Event → Option NamedSystem
  | .step ev => s.step cfg ev
  | .serviceCall w => if s.system.fault.isNone then s.serviceCall w else none
  | .clientCall c j => if (s.system.clients c).fault.isNone then s.clientCall c j else none

/-- All interleavings, on a table of semaphores with whatever was left there. -/
def machine (cfg : Config) (table : SemaphoreTable) : Machine NamedSystem Event where
  start := init cfg table
  next := next cfg

end NamedSystem

end TinyFile
