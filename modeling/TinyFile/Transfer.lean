import TinyFile.LittleEndian
import TinyFile.Machine
import TinyFile.ShmSegment

/-!
# The transfer of one file

`process` of `ServiceFileCompressorHandler.cpp` and
`ClientFileCompressorHandler.cpp`. Each wait, post and access to the segment is a
step of its own, and so are the header and the payload of a message. Both
directions run the same two loops: the sender waits on `shmServerSemaphore` and
posts `shmClientSemaphore`, the receiver the other way round. The two message
classes are equal, and their check for a null pointer, which neither handler
passes, is left out. `history` records the messages.
-/
namespace TinyFile

/-! `ShmClientDataMessage` and `ShmServerDataMessage`. -/
namespace ShmDataMessage

def headerSize : ℕ := 8

def writeHeader (gs : FragmentedShmSegment) (dataSize : ℕ) (m : Memory) : Except Fault Memory :=
  gs.write (LittleEndian.toBytes headerSize dataSize) 0 m

def writeData (gs : FragmentedShmSegment) (data : List UInt8) (m : Memory) :
    Except Fault Memory := gs.write data headerSize m

def parse (gs : FragmentedShmSegment) (m : Memory) : Except Fault ℕ :=
  (gs.read headerSize 0 m).map LittleEndian.ofBytes

def copyData (gs : FragmentedShmSegment) (dataSize bufferSize : ℕ) (m : Memory) :
    Except Fault (List UInt8) :=
  if bufferSize < dataSize then .error (.runtimeError "buffer size is too small")
  else gs.read dataSize headerSize m

end ShmDataMessage

/-! `ShmServerFileMessage` is a header alone. -/
namespace ShmServerFileMessage

def write (gs : FragmentedShmSegment) (fileSize : ℕ) (m : Memory) : Except Fault Memory :=
  gs.write (LittleEndian.toBytes 8 fileSize) 0 m

def parse (gs : FragmentedShmSegment) (m : Memory) : Except Fault ℕ :=
  (gs.read 8 0 m).map LittleEndian.ofBytes

end ShmServerFileMessage

inductive Message where
  | chunk (data : List UInt8)
  | file (compressedFileSize : ℕ)
  deriving DecidableEq

inductive Traffic where
  | wrote (message : Message)
  | read (message : Message)
  deriving DecidableEq

/-- The three semaphores of a request, and the messages so far. -/
structure Wires where
  shmClientSemaphore : ℕ
  shmServerSemaphore : ℕ
  shmSenseSemaphore : ℕ
  history : List Traffic
  deriving DecidableEq

inductive SendPc where
  | loop
  | header
  | data (dataSize : ℕ)
  | post
  deriving DecidableEq

inductive ReceivePc where
  | loop
  | parse
  | copy (dataSize : ℕ)
  | post
  deriving DecidableEq

/-- Between the wait and the post of an access to the segment. -/
def SendPc.accesses : SendPc → Bool
  | .header | .data _ => true
  | .loop | .post => false

def ReceivePc.accesses : ReceivePc → Bool
  | .parse | .copy _ => true
  | .loop | .post => false

/-- A sending loop and its `fileSendSize`. -/
structure Sender where
  pc : SendPc
  sent : ℕ

/-- A receiving loop with its buffer and its `fileRecvSize`. -/
structure Receiver where
  pc : ReceivePc
  buffer : List UInt8
  received : ℕ

/-- What one step of a loop comes to. -/
inductive Turn (α : Type) where
  | blocked
  | exited
  | threw (fault : Fault)
  | stepped (a : α)

/-- The size of the next chunk. -/
def chunkSize (gs : FragmentedShmSegment) (size sent : ℕ) : ℕ :=
  min (SizeT.sub size sent) (SizeT.sub gs.size ShmDataMessage.headerSize)

/-- One step of `while (fileSendSize < size)` over the bytes `src`. -/
def sendStep (gs : FragmentedShmSegment) (src : List UInt8) (size : ℕ) (m : Memory) (w : Wires)
    (s : Sender) : Turn (Memory × Wires × Sender) :=
  match s.pc with
  | .loop =>
      if s.sent < size then
        if 0 < w.shmServerSemaphore then
          .stepped (m, { w with shmServerSemaphore := w.shmServerSemaphore - 1 },
            { s with pc := .header })
        else .blocked
      else .exited
  | .header =>
      let dataSize := chunkSize gs size s.sent
      match ShmDataMessage.writeHeader gs dataSize m with
      | .error fault => .threw fault
      | .ok m => .stepped (m,
          { w with
            history := w.history ++ [.wrote (.chunk ((src.drop s.sent).take dataSize))] },
          { s with pc := .data dataSize })
  | .data dataSize =>
      match ShmDataMessage.writeData gs ((src.drop s.sent).take dataSize) m with
      | .error fault => .threw fault
      | .ok m => .stepped (m, w, { pc := .post, sent := SizeT.add s.sent dataSize })
  | .post =>
      .stepped (m, { w with shmClientSemaphore := w.shmClientSemaphore + 1 },
        { s with pc := .loop })

/-- One step of `while (fileRecvSize < size)`. -/
def receiveStep (gs : FragmentedShmSegment) (size : ℕ) (m : Memory) (w : Wires) (r : Receiver) :
    Turn (Wires × Receiver) :=
  match r.pc with
  | .loop =>
      if r.received < size then
        if 0 < w.shmClientSemaphore then
          .stepped ({ w with shmClientSemaphore := w.shmClientSemaphore - 1 },
            { r with pc := .parse })
        else .blocked
      else .exited
  | .parse =>
      match ShmDataMessage.parse gs m with
      | .error fault => .threw fault
      | .ok dataSize => .stepped (w, { r with pc := .copy dataSize })
  | .copy dataSize =>
      match ShmDataMessage.copyData gs dataSize (SizeT.sub size r.received) m with
      | .error fault => .threw fault
      | .ok data => .stepped ({ w with history := w.history ++ [.read (.chunk data)] },
          { pc := .post
            buffer := splice r.buffer r.received data
            received := SizeT.add r.received dataSize })
  | .post =>
      .stepped ({ w with shmServerSemaphore := w.shmServerSemaphore + 1 }, { r with pc := .loop })

inductive ServicePhase where
  | receiving (pc : ReceivePc)
  | compressing
  | draining
  | writingFile
  | postingFile
  | sending (pc : SendPc)
  | finished
  | threw (fault : Fault)
  deriving DecidableEq

inductive ClientPhase where
  | sending (pc : SendPc)
  | waitingSense
  | parsingFile
  | postingParsed
  | receiving (pc : ReceivePc)
  | finished
  | threw (fault : Fault)
  deriving DecidableEq

def ServicePhase.accesses : ServicePhase → Bool
  | .receiving pc => pc.accesses
  | .writingFile => true
  | .sending pc => pc.accesses
  | _ => false

def ClientPhase.accesses : ClientPhase → Bool
  | .sending pc => pc.accesses
  | .parsingFile => true
  | .receiving pc => pc.accesses
  | _ => false

def ServicePhase.fault : ServicePhase → Option Fault
  | .threw fault => some fault
  | _ => none

def ClientPhase.fault : ClientPhase → Option Fault
  | .threw fault => some fault
  | _ => none

/-- `ServiceFileCompressorHandler`. -/
structure ServiceHandler where
  phase : ServicePhase
  rawData : List UInt8
  fileRecvSize : ℕ
  compressedData : List UInt8
  compressedFileSize : ℕ
  fileSendSize : ℕ
  deriving DecidableEq

/-- `ClientFileCompressorHandler`. -/
structure ClientHandler where
  phase : ClientPhase
  fileSendSize : ℕ
  compressedFileSize : ℕ
  compressedData : List UInt8
  fileRecvSize : ℕ
  deriving DecidableEq

/-- The file, the segment that both handlers hold, and the compressor. -/
structure Job where
  segment : FragmentedShmSegment
  src : List UInt8
  compress : List UInt8 → List UInt8

def Job.fileSize (x : Job) : ℕ := x.src.length

structure Transfer where
  wires : Wires
  service : ServiceHandler
  client : ClientHandler
  deriving DecidableEq

inductive Side where
  | service
  | client
  deriving DecidableEq

namespace Transfer

/-- Both handlers at the start of their loops, the semaphores as the service
opens them. -/
def init (x : Job) : Transfer where
  wires := ⟨0, 1, 0, []⟩
  service := ⟨.receiving .loop, List.replicate x.fileSize 0, 0, [], 0, 0⟩
  client := ⟨.sending .loop, 0, 0, [], 0⟩

/-- The next step of `ServiceFileCompressorHandler::process`; `none` while it
waits or when it is over. -/
def serviceStep (x : Job) (m : Memory) (t : Transfer) : Option (Memory × Transfer) :=
  let h := t.service
  let w := t.wires
  match h.phase with
  | .receiving pc =>
      match receiveStep x.segment x.fileSize m w ⟨pc, h.rawData, h.fileRecvSize⟩ with
      | .blocked => none
      | .exited => some (m, { t with service := { h with phase := .compressing } })
      | .threw fault => some (m, { t with service := { h with phase := .threw fault } })
      | .stepped (w, r) => some (m,
          { t with
            wires := w
            service :=
              { h with phase := .receiving r.pc, rawData := r.buffer, fileRecvSize := r.received } })
  | .compressing =>
      let compressedData := x.compress h.rawData
      some (m,
        { t with
          service :=
            { h with
              phase := .draining
              compressedData := compressedData
              compressedFileSize := compressedData.length } })
  | .draining =>
      if 0 < w.shmServerSemaphore then some (m,
        { t with
          wires := { w with shmServerSemaphore := w.shmServerSemaphore - 1 }
          service := { h with phase := .writingFile } })
      else none
  | .writingFile =>
      match ShmServerFileMessage.write x.segment h.compressedFileSize m with
      | .error fault => some (m, { t with service := { h with phase := .threw fault } })
      | .ok m => some (m,
          { t with
            wires := { w with history := w.history ++ [.wrote (.file h.compressedFileSize)] }
            service := { h with phase := .postingFile } })
  | .postingFile => some (m,
      { t with
        wires := { w with shmSenseSemaphore := w.shmSenseSemaphore + 1 }
        service := { h with phase := .sending .loop } })
  | .sending pc =>
      match sendStep x.segment h.compressedData h.compressedFileSize m w
          ⟨pc, h.fileSendSize⟩ with
      | .blocked => none
      | .exited => some (m, { t with service := { h with phase := .finished } })
      | .threw fault => some (m, { t with service := { h with phase := .threw fault } })
      | .stepped (m, w, s) => some (m,
          { t with
            wires := w
            service := { h with phase := .sending s.pc, fileSendSize := s.sent } })
  | .finished => none
  | .threw _ => none

/-- The next step of `ClientFileCompressorHandler::process`. -/
def clientStep (x : Job) (m : Memory) (t : Transfer) : Option (Memory × Transfer) :=
  let h := t.client
  let w := t.wires
  match h.phase with
  | .sending pc =>
      match sendStep x.segment x.src x.fileSize m w ⟨pc, h.fileSendSize⟩ with
      | .blocked => none
      | .exited => some (m, { t with client := { h with phase := .waitingSense } })
      | .threw fault => some (m, { t with client := { h with phase := .threw fault } })
      | .stepped (m, w, s) => some (m,
          { t with
            wires := w
            client := { h with phase := .sending s.pc, fileSendSize := s.sent } })
  | .waitingSense =>
      if 0 < w.shmSenseSemaphore then some (m,
        { t with
          wires := { w with shmSenseSemaphore := w.shmSenseSemaphore - 1 }
          client := { h with phase := .parsingFile } })
      else none
  | .parsingFile =>
      match ShmServerFileMessage.parse x.segment m with
      | .error fault => some (m, { t with client := { h with phase := .threw fault } })
      | .ok compressedFileSize => some (m,
          { t with
            wires := { w with history := w.history ++ [.read (.file compressedFileSize)] }
            client :=
              { h with
                phase := .postingParsed
                compressedFileSize := compressedFileSize
                compressedData := List.replicate compressedFileSize 0 } })
  | .postingParsed => some (m,
      { t with
        wires := { w with shmServerSemaphore := w.shmServerSemaphore + 1 }
        client := { h with phase := .receiving .loop } })
  | .receiving pc =>
      match receiveStep x.segment h.compressedFileSize m w
          ⟨pc, h.compressedData, h.fileRecvSize⟩ with
      | .blocked => none
      | .exited => some (m, { t with client := { h with phase := .finished } })
      | .threw fault => some (m, { t with client := { h with phase := .threw fault } })
      | .stepped (w, r) => some (m,
          { t with
            wires := w
            client :=
              { h with
                phase := .receiving r.pc, compressedData := r.buffer, fileRecvSize := r.received } })
  | .finished => none
  | .threw _ => none

def step (x : Job) (m : Memory) (t : Transfer) : Side → Option (Memory × Transfer)
  | .service => serviceStep x m t
  | .client => clientStep x m t

/-- The two handlers alone with a memory. -/
def machine (x : Job) (m : Memory) : Machine (Memory × Transfer) Side where
  start := (m, init x)
  next := fun s side => step x s.1 s.2 side

/-- The client has copied out the last chunk: what it has received is what the
service has compressed. -/
def LastRead (t : Transfer) : Prop :=
  0 < t.client.fileRecvSize ∧ t.client.fileRecvSize = t.service.compressedFileSize

instance (t : Transfer) : Decidable t.LastRead := inferInstanceAs (Decidable (_ ∧ _))

/-- What Snappy makes of fewer than 15 bytes: the length and one literal. Longer
data is not compressed here. -/
def snappyLiteral (data : List UInt8) : List UInt8 :=
  match data.length with
  | 0 => [0]
  | n + 1 => if n < 14 then UInt8.ofNat (n + 1) :: UInt8.ofNat (4 * n) :: data else data

end Transfer

end TinyFile
