import TinyFile.Servicer

/-!
# The application

`App.cpp`: it sends files through its `Servicer` and compares what comes back,
uncompressed, with the file. Of the command line only the state and the two paths are
left. Files stay as they are while the application runs, and `snappy` is a pair of
functions.
-/
namespace TinyFile

/-- What a worker hands to `completeRequest` is `right` for its own file. -/
def Servicer.answers (right : List UInt8 → List UInt8 → Prop) (s : Servicer) :
    Servicer.Event → Prop
  | .completeRequest i compressedData =>
      ∀ handler ∈ s.handlers[i]?, right handler.src compressedData
  | _ => True

namespace App

inductive ProcessState where
  | SYNC
  | ASYNC
  deriving DecidableEq

/-- What `main` does one after the other; with one file, `processFileAsync` does what
it does with a list of one. -/
inductive Task where
  | processFileSync (file : String)
  | processFileAsync (files : List String)
  | openFileList (fileListPath : String)
  deriving DecidableEq

def Task.files : Task → List String
  | .processFileSync file => [file]
  | .processFileAsync files => files
  | .openFileList _ => []

/-- A file that opens: what `file_size` returns, or the text of what it throws, as for a
directory, and what the stream delivers. -/
structure File where
  fileSize : Except String ℕ
  content : List UInt8

/-- What the application runs on; a path that does not open has no file and no lines. -/
structure Setup where
  numWorkers : ℕ
  disk : String → Option File
  fileLists : String → Option (List String)
  compress : List UInt8 → List UInt8
  uncompress : List UInt8 → List UInt8

/-- The lines of the file list, if one is given. -/
def Setup.lines (x : Setup) (fileListPath : Option String) : List String :=
  (fileListPath.bind x.fileLists).getD []

/-- The switch in `main`. -/
def program (x : Setup) (state : ProcessState) (filePath fileListPath : Option String) :
    List Task :=
  let openFileList := fileListPath.toList.map Task.openFileList
  match state with
  | .SYNC => filePath.toList.map Task.processFileSync ++ openFileList ++
      (x.lines fileListPath).map Task.processFileSync
  | .ASYNC => filePath.toList.map (fun file => Task.processFileAsync [file]) ++ openFileList ++
      fileListPath.toList.map (fun _ => Task.processFileAsync (x.lines fileListPath))

/-- Where the main thread is: between two tasks, in `callServiceSync`, in the loop
that calls `callServiceAsync`, or in the one that waits, before or in
`waitServiceSync`. -/
inductive Position where
  | ready
  | blocked (fileData : List UInt8) (requestId : ℕ)
  | calling (fileData : List (List UInt8)) (requestIds : List ℕ)
  | collecting (fileData : List (List UInt8)) (requestIds : List ℕ) (i : ℕ)
  | waiting (fileData : List (List UInt8)) (requestIds : List ℕ) (i : ℕ)
  deriving DecidableEq

end App

/-- `checked` are the results for which it printed `SUCCESS`. -/
structure App where
  servicer : Servicer
  tasks : List App.Task
  position : App.Position
  checked : List (List UInt8)
  fault : Option Fault

namespace App

def failedToOpen (path : String) : Fault := .runtimeError s!"Failed to open file: {path}"

def readFile (disk : String → Option File) (filePath : String) : Except Fault (List UInt8) :=
  match disk filePath with
  | none => .error (failedToOpen filePath)
  | some file =>
      match file.fileSize with
      | .error message => .error (.runtimeError message)
      | .ok fileSize =>
          if file.content.length < fileSize then
            .error (.runtimeError s!"Failed to read file: {filePath}")
          else .ok (file.content.take fileSize)

def init (x : Setup) (tasks : List Task) : App where
  servicer := Servicer.init x.numWorkers
  tasks := tasks
  position := .ready
  checked := []
  fault := none

/-- The comparison with the file. -/
def check (x : Setup) (a : App) (fileData compressedData : List UInt8) : App :=
  if x.uncompress compressedData = fileData then
    { a with checked := a.checked ++ [compressedData] }
  else { a with fault := some (.runtimeError "Uncompressed data does not match original data") }

/-- A call that waits has returned with a result, or the thread is blocked in it. -/
def resume (x : Setup) (a : App) (s : Servicer) (fileData : List UInt8) (returned : Position)
    (tasks : List Task) (blocked : Position) : App :=
  match s.returned.drop a.servicer.returned.length with
  | [] => { a with servicer := s, position := blocked }
  | (_, compressedData) :: _ =>
      check x { a with servicer := s, position := returned, tasks := tasks } fileData
        compressedData

/-- A task begins. -/
def start (x : Setup) (a : App) : Task → App
  | .processFileSync file =>
      match readFile x.disk file with
      | .error fault => { a with fault := some fault }
      | .ok fileData =>
          { a with
            servicer := a.servicer.callServiceSync fileData
            position := .blocked fileData a.servicer.nextRequestId }
  | .processFileAsync _ => { a with position := .calling [] [] }
  | .openFileList fileListPath =>
      match x.fileLists fileListPath with
      | none => { a with fault := some (failedToOpen fileListPath) }
      | some _ => { a with tasks := a.tasks.tail }

/-- One turn of the loop that calls. -/
def call (x : Setup) (a : App) (files : List String) (fileData : List (List UInt8))
    (requestIds : List ℕ) : App :=
  match files[requestIds.length]? with
  | none => { a with position := .collecting fileData requestIds 0 }
  | some file =>
      match readFile x.disk file with
      | .error fault => { a with fault := some fault }
      | .ok src =>
          { a with
            servicer := a.servicer.callServiceAsync src
            position := .calling (fileData ++ [src])
              (requestIds ++ [a.servicer.nextRequestId]) }

/-- The next step of the main thread. -/
def main (x : Setup) (a : App) : Option App :=
  match a.tasks with
  | [] => none
  | task :: tasks =>
      match a.position with
      | .ready => some (a.start x task)
      | .blocked fileData requestId =>
          (a.servicer.wake requestId).map fun s =>
            a.resume x s fileData .ready tasks a.position
      | .calling fileData requestIds => some (a.call x task.files fileData requestIds)
      | .collecting fileData requestIds i =>
          match fileData[i]?, requestIds[i]? with
          | some src, some requestId =>
              (a.servicer.waitServiceSync requestId).map fun s =>
                a.resume x s src (.collecting fileData requestIds (i + 1)) a.tasks
                  (.waiting fileData requestIds i)
          | _, _ => some { a with position := .ready, tasks := tasks }
      | .waiting fileData requestIds i =>
          match fileData[i]?, requestIds[i]? with
          | some src, some requestId =>
              (a.servicer.wake requestId).map fun s =>
                a.resume x s src (.collecting fileData requestIds (i + 1)) a.tasks a.position
          | _, _ => none

/-- `library` are the steps of the threads of `Servicer` and of the service. -/
inductive Event where
  | main
  | library (e : Servicer.Event)

/-- The calls that only the application makes. -/
def isCall : Servicer.Event → Bool
  | .callServiceSync _ | .callServiceAsync _ | .waitServiceSync _ | .wake _ => true
  | _ => false

/-- A throw in any thread ends the process. -/
def next (x : Setup) (a : App) (e : Event) : Option App :=
  if a.fault.isSome || a.servicer.fault.isSome then none
  else
    match e with
    | .main => a.main x
    | .library e =>
        if isCall e then none else (a.servicer.next e).map fun s => { a with servicer := s }

def machine (x : Setup) (tasks : List Task) : Machine App Event where
  start := init x tasks
  next := next x

def answersRight (x : Setup) (a : App) : Event → Prop
  | .library e => a.servicer.answers (fun src data => data = x.compress src) e
  | .main => True

instance (right : List UInt8 → List UInt8 → Prop) [∀ src data, Decidable (right src data)]
    (s : Servicer) (e : Servicer.Event) : Decidable (s.answers right e) :=
  match e with
  | .completeRequest i compressedData =>
      inferInstanceAs (Decidable (∀ handler ∈ s.handlers[i]?, right handler.src compressedData))
  | .callServiceSync _ | .callServiceAsync _ | .waitServiceSync _ | .wake _ | .dispatch | .serve
  | .answer _ | .scheduleRequest => inferInstanceAs (Decidable True)

instance (x : Setup) (a : App) (e : Event) : Decidable (answersRight x a e) :=
  match e with
  | .library e =>
      inferInstanceAs (Decidable (a.servicer.answers (fun src data => data = x.compress src) e))
  | .main => inferInstanceAs (Decidable True)

end App

end TinyFile
