import TinyFile.Common
import TinyFile.LittleEndian
import TinyFile.RawBuffer

/-!
# Message formats

The messages of `mq_client_message` and `mq_server_message`, byte for byte.
`serialize` allocates `getContentSize()` bytes and copies the type and the fields
one after the other; `deserialize` is given a pointer into the receive buffer,
which goes on behind the message. Access out of the buffer is undefined.
-/
namespace TinyFile.Message

def SIZEOF_INT : ℕ := 4
def SIZEOF_SIZE_T : ℕ := 8

/-- `max_size()` of a `std::vector<int>`. -/
def VECTOR_INT_MAX_SIZE : ℕ := 2305843009213693951

inductive MQClientMessageType where
  | REGISTRATION
  | QUEUE_CREATION
  | QUEUE_DELETION
  | REQUEST
  deriving DecidableEq, Repr

def MQClientMessageType.toInt : MQClientMessageType → Int32
  | REGISTRATION => 0
  | QUEUE_CREATION => 1
  | QUEUE_DELETION => 2
  | REQUEST => 3

inductive MQServerMessageType where
  | ID
  | RESPONSE
  deriving DecidableEq, Repr

def MQServerMessageType.toInt : MQServerMessageType → Int32
  | ID => 0
  | RESPONSE => 1

section Access

/-- The object representation of an `int`. -/
def intBytes (x : Int32) : List UInt8 := LittleEndian.toBytes SIZEOF_INT x.toUInt32.toNat

/-- The object representation of a `size_t`. -/
def sizeBytes (x : UInt64) : List UInt8 := LittleEndian.toBytes SIZEOF_SIZE_T x.toNat

def outOfBounds : Fault := .undefinedBehavior "access out of the message buffer"

/-- `std::copy` of an object's bytes. -/
def copyBytes (buffer : List UInt8) (dest : ℕ) (src : List UInt8) : Except Fault (List UInt8) :=
  match RawBuffer.copy buffer dest src with
  | some buffer => .ok buffer
  | none => .error outOfBounds

def copyInt (buffer : List UInt8) (dest : ℕ) (x : Int32) : Except Fault (List UInt8) :=
  copyBytes buffer dest (intBytes x)

def copySize (buffer : List UInt8) (dest : ℕ) (x : UInt64) : Except Fault (List UInt8) :=
  copyBytes buffer dest (sizeBytes x)

/-- `*reinterpret_cast<int*>(buffer)`. -/
def readInt (buffer : List UInt8) (offset : ℕ) : Except Fault Int32 :=
  match RawBuffer.fetch buffer offset SIZEOF_INT with
  | some bytes => .ok ⟨UInt32.ofNat (LittleEndian.ofBytes bytes)⟩
  | none => .error outOfBounds

/-- `*reinterpret_cast<size_t*>(buffer)`. -/
def readSize (buffer : List UInt8) (offset : ℕ) : Except Fault UInt64 :=
  match RawBuffer.fetch buffer offset SIZEOF_SIZE_T with
  | some bytes => .ok (UInt64.ofNat (LittleEndian.ofBytes bytes))
  | none => .error outOfBounds

@[simp] theorem length_intBytes (x : Int32) : (intBytes x).length = SIZEOF_INT :=
  LittleEndian.length_toBytes _ _

@[simp] theorem length_sizeBytes (x : UInt64) : (sizeBytes x).length = SIZEOF_SIZE_T :=
  LittleEndian.length_toBytes _ _

/-- What is copied is read back, whatever stands before and behind it. -/
theorem readInt_spec {buffer front : List UInt8} {x : Int32} {offset : ℕ}
    (ho : offset = front.length) (h : front ++ intBytes x <+: buffer) :
    readInt buffer offset = .ok x := by
  have hfetch := RawBuffer.fetch_spec h
  rw [length_intBytes, ← ho] at hfetch
  have hvalue : LittleEndian.ofBytes (intBytes x) = x.toUInt32.toNat :=
    LittleEndian.ofBytes_toBytes x.toUInt32.toNat_lt
  simp only [readInt, hfetch, hvalue, UInt32.ofNat_toNat]

theorem readSize_spec {buffer front : List UInt8} {x : UInt64} {offset : ℕ}
    (ho : offset = front.length) (h : front ++ sizeBytes x <+: buffer) :
    readSize buffer offset = .ok x := by
  have hfetch := RawBuffer.fetch_spec h
  rw [length_sizeBytes, ← ho] at hfetch
  have hvalue : LittleEndian.ofBytes (sizeBytes x) = x.toNat :=
    LittleEndian.ofBytes_toBytes x.toNat_lt
  simp only [readSize, hfetch, hvalue, UInt64.ofNat_toNat]

/-- The first of several fields, and the others behind it. -/
theorem prefix_split {buffer front field rest : List UInt8}
    (h : front ++ (field ++ rest) <+: buffer) :
    front ++ field <+: buffer ∧ (front ++ field) ++ rest <+: buffer := by
  rw [← List.append_assoc] at h
  exact ⟨(List.prefix_append _ _).trans h, h⟩

/-- The type stands at the start of every message. -/
theorem readInt_type {buffer fields : List UInt8} {x : Int32} (h : intBytes x ++ fields <+: buffer) :
    readInt buffer 0 = .ok x :=
  readInt_spec (show 0 = ([] : List UInt8).length from rfl) ((List.prefix_append _ _).trans h)

/-- Behind the bytes `content`, an operation writes the bytes `src` and nothing
but them. -/
def Writes (content src : List UInt8) (f : List UInt8 → Except Fault (List UInt8)) : Prop :=
  ∀ buffer, content <+: buffer → content.length + src.length ≤ buffer.length →
    ∃ buffer', f buffer = .ok buffer' ∧ buffer'.length = buffer.length ∧
      (content ++ src) <+: buffer'

theorem Writes.pure (content : List UInt8) : Writes content [] (fun buffer => .ok buffer) :=
  fun buffer h _ => ⟨buffer, rfl, rfl, by simpa using h⟩

theorem Writes.bind {content src src' : List UInt8}
    {f g : List UInt8 → Except Fault (List UInt8)} (hf : Writes content src f)
    (hg : Writes (content ++ src) src' g) :
    Writes content (src ++ src') (fun buffer => f buffer >>= g) := by
  intro buffer h hroom
  rw [List.length_append] at hroom
  obtain ⟨buffer₁, hrun₁, hlen₁, hpre₁⟩ := hf buffer h (by omega)
  obtain ⟨buffer₂, hrun₂, hlen₂, hpre₂⟩ := hg buffer₁ hpre₁
    (by rw [List.length_append]; omega)
  refine ⟨buffer₂, ?_, hlen₂.trans hlen₁, by rwa [List.append_assoc] at hpre₂⟩
  simp only [hrun₁]
  exact hrun₂

theorem writes_copyBytes {content src : List UInt8} {dest : ℕ} (h : dest = content.length) :
    Writes content src (fun buffer => copyBytes buffer dest src) := by
  intro buffer hpre hroom
  obtain ⟨buffer', hcopy, hlen, hpre'⟩ := RawBuffer.copy_spec hpre hroom
  exact ⟨buffer', by simp only [copyBytes, h, hcopy], hlen, hpre'⟩

theorem writes_copyInt {content : List UInt8} {dest : ℕ} (h : dest = content.length) (x : Int32) :
    Writes content (intBytes x) (fun buffer => copyInt buffer dest x) := writes_copyBytes h

theorem writes_copySize {content : List UInt8} {dest : ℕ} (h : dest = content.length)
    (x : UInt64) : Writes content (sizeBytes x) (fun buffer => copySize buffer dest x) :=
  writes_copyBytes h

/-- Writing a whole buffer leaves nothing of what it held before. -/
theorem Writes.fill {src : List UInt8} {f : List UInt8 → Except Fault (List UInt8)}
    (h : Writes [] src f) {buffer : List UInt8} (hlen : buffer.length = src.length) :
    f buffer = .ok src := by
  obtain ⟨buffer', hrun, hlen', hpre⟩ := h buffer List.nil_prefix (by simp [hlen])
  rw [hrun, ← hpre.eq_of_length (by simp [hlen', hlen]), List.nil_append]

end Access

/-- `AbstractMQClientMessage::serialize` and `AbstractMQServerMessage::serialize`
on the allocated buffer. -/
def serializeInto (messageType : Int32)
    (serializeContents : List UInt8 → ℕ → Except Fault (List UInt8)) (buffer : List UInt8) :
    Except Fault (List UInt8) := do
  let buffer ← copyInt buffer 0 messageType
  serializeContents buffer SIZEOF_INT

/-- A message kind: how large it is, how it is written and how it is read. -/
structure Format (μ : Type) where
  messageType : Int32
  getContentSize : μ → ℕ
  serializeContents : μ → List UInt8 → ℕ → Except Fault (List UInt8)
  deserialize : List UInt8 → Except Fault μ

namespace Format

variable {μ : Type} (F : Format μ)

/-- `serialize`; `make_unique<char[]>` clears the buffer. -/
def serialize (m : μ) : Except Fault (List UInt8) :=
  serializeInto F.messageType (F.serializeContents m) (List.replicate (F.getContentSize m) 0)

/-- Serializing writes all of `getContentSize()` bytes, whatever the buffer held,
the type first, and deserializing them gives the message back, whatever follows
them. -/
def RoundTrips (m : μ) : Prop :=
  ∃ bytes, F.serialize m = .ok bytes ∧ bytes.length = F.getContentSize m ∧
    (∀ buffer : List UInt8, buffer.length = F.getContentSize m →
      serializeInto F.messageType (F.serializeContents m) buffer = .ok bytes) ∧
    ∀ rest, readInt (bytes ++ rest) 0 = .ok F.messageType ∧ F.deserialize (bytes ++ rest) = .ok m

variable {F}

/-- What has to be known of a kind: the bytes of its fields, how many they are,
and that the reader finds them. -/
theorem serialize_of_fields {m : μ} {fields : List UInt8}
    (hwrites : Writes (intBytes F.messageType) fields
      (fun buffer => F.serializeContents m buffer SIZEOF_INT))
    (hsize : F.getContentSize m = SIZEOF_INT + fields.length) {buffer : List UInt8}
    (hlen : buffer.length = F.getContentSize m) :
    serializeInto F.messageType (F.serializeContents m) buffer =
      .ok (intBytes F.messageType ++ fields) := by
  have hall : Writes [] (intBytes F.messageType ++ fields)
      (serializeInto F.messageType (F.serializeContents m)) :=
    (writes_copyInt rfl F.messageType).bind hwrites
  exact hall.fill (by rw [hlen, hsize, List.length_append, length_intBytes])

theorem roundTrips_of_fields {m : μ} {fields : List UInt8}
    (hwrites : Writes (intBytes F.messageType) fields
      (fun buffer => F.serializeContents m buffer SIZEOF_INT))
    (hsize : F.getContentSize m = SIZEOF_INT + fields.length)
    (hread : ∀ buffer, intBytes F.messageType ++ fields <+: buffer →
      F.deserialize buffer = .ok m) : F.RoundTrips m :=
  ⟨intBytes F.messageType ++ fields, serialize_of_fields hwrites hsize (by simp),
    by rw [hsize, List.length_append, length_intBytes],
    fun _ hlen => serialize_of_fields hwrites hsize hlen,
    fun _ => ⟨readInt_type (List.prefix_append (intBytes F.messageType ++ fields) _),
      hread _ (List.prefix_append _ _)⟩⟩

/-- Reading what was written. -/
theorem RoundTrips.read {m : μ} (h : F.RoundTrips m) {bytes : List UInt8}
    (hbytes : F.serialize m = .ok bytes) (rest : List UInt8) :
    readInt (bytes ++ rest) 0 = .ok F.messageType ∧ F.deserialize (bytes ++ rest) = .ok m := by
  obtain ⟨bytes', hrun, -, -, hread⟩ := h
  rw [hrun] at hbytes
  cases hbytes
  exact hread rest

end Format

section Client

/-- It has no fields. -/
structure MQClientRegistrationMessage where
  deriving DecidableEq, Repr

namespace MQClientRegistrationMessage

def getContentSize (_ : MQClientRegistrationMessage) : ℕ := SIZEOF_INT

def serializeContents (_ : MQClientRegistrationMessage) (buffer : List UInt8) (_dest : ℕ) :
    Except Fault (List UInt8) := .ok buffer

def deserialize (_ : List UInt8) : Except Fault MQClientRegistrationMessage := .ok {}

def format : Format MQClientRegistrationMessage where
  messageType := MQClientMessageType.REGISTRATION.toInt
  getContentSize := getContentSize
  serializeContents := serializeContents
  deserialize := deserialize

theorem roundTrips (m : MQClientRegistrationMessage) : format.RoundTrips m :=
  Format.roundTrips_of_fields (Writes.pure _) rfl (fun _ _ => rfl)

end MQClientRegistrationMessage

structure MQClientQueueCreationMessage where
  clientId : Int32
  priority : Int32
  deriving DecidableEq, Repr

namespace MQClientQueueCreationMessage

def getContentSize (_ : MQClientQueueCreationMessage) : ℕ := SIZEOF_INT + SIZEOF_INT + SIZEOF_INT

def serializeContents (m : MQClientQueueCreationMessage) (buffer : List UInt8) (dest : ℕ) :
    Except Fault (List UInt8) := do
  let buffer ← copyInt buffer dest m.clientId
  copyInt buffer (dest + SIZEOF_INT) m.priority

def deserialize (buffer : List UInt8) : Except Fault MQClientQueueCreationMessage := do
  let _ ← readInt buffer 0
  let clientId ← readInt buffer SIZEOF_INT
  let priority ← readInt buffer (SIZEOF_INT + SIZEOF_INT)
  return ⟨clientId, priority⟩

def format : Format MQClientQueueCreationMessage where
  messageType := MQClientMessageType.QUEUE_CREATION.toInt
  getContentSize := getContentSize
  serializeContents := serializeContents
  deserialize := deserialize

theorem roundTrips (m : MQClientQueueCreationMessage) : format.RoundTrips m := by
  refine Format.roundTrips_of_fields
    ((writes_copyInt rfl m.clientId).bind (writes_copyInt (by simp) m.priority)) rfl ?_
  intro buffer h
  obtain ⟨h₁, h₂⟩ := prefix_split h
  have hclientId : readInt buffer SIZEOF_INT = .ok m.clientId := readInt_spec (by simp) h₁
  have hpriority : readInt buffer (SIZEOF_INT + SIZEOF_INT) = .ok m.priority :=
    readInt_spec (by simp) h₂
  simp only [format, deserialize, readInt_type h, hclientId, hpriority]
  rfl

end MQClientQueueCreationMessage

structure MQClientQueueDeletionMessage where
  clientId : Int32
  deriving DecidableEq, Repr

namespace MQClientQueueDeletionMessage

def getContentSize (_ : MQClientQueueDeletionMessage) : ℕ := SIZEOF_INT + SIZEOF_INT

def serializeContents (m : MQClientQueueDeletionMessage) (buffer : List UInt8) (dest : ℕ) :
    Except Fault (List UInt8) := copyInt buffer dest m.clientId

def deserialize (buffer : List UInt8) : Except Fault MQClientQueueDeletionMessage := do
  let _ ← readInt buffer 0
  let clientId ← readInt buffer SIZEOF_INT
  return ⟨clientId⟩

def format : Format MQClientQueueDeletionMessage where
  messageType := MQClientMessageType.QUEUE_DELETION.toInt
  getContentSize := getContentSize
  serializeContents := serializeContents
  deserialize := deserialize

theorem roundTrips (m : MQClientQueueDeletionMessage) : format.RoundTrips m := by
  refine Format.roundTrips_of_fields (writes_copyInt rfl m.clientId) rfl ?_
  intro buffer h
  have hclientId : readInt buffer SIZEOF_INT = .ok m.clientId := readInt_spec (by simp) h
  simp only [format, deserialize, readInt_type h, hclientId]
  rfl

end MQClientQueueDeletionMessage

structure MQClientRequestMessage where
  requestId : Int32
  fileSize : UInt64
  deriving DecidableEq, Repr

namespace MQClientRequestMessage

def getContentSize (_ : MQClientRequestMessage) : ℕ := SIZEOF_INT + SIZEOF_INT + SIZEOF_SIZE_T

def serializeContents (m : MQClientRequestMessage) (buffer : List UInt8) (dest : ℕ) :
    Except Fault (List UInt8) := do
  let buffer ← copyInt buffer dest m.requestId
  copySize buffer (dest + SIZEOF_INT) m.fileSize

def deserialize (buffer : List UInt8) : Except Fault MQClientRequestMessage := do
  let _ ← readInt buffer 0
  let requestId ← readInt buffer SIZEOF_INT
  let fileSize ← readSize buffer (SIZEOF_INT + SIZEOF_INT)
  return ⟨requestId, fileSize⟩

def format : Format MQClientRequestMessage where
  messageType := MQClientMessageType.REQUEST.toInt
  getContentSize := getContentSize
  serializeContents := serializeContents
  deserialize := deserialize

theorem roundTrips (m : MQClientRequestMessage) : format.RoundTrips m := by
  refine Format.roundTrips_of_fields
    ((writes_copyInt rfl m.requestId).bind (writes_copySize (by simp) m.fileSize)) rfl ?_
  intro buffer h
  obtain ⟨h₁, h₂⟩ := prefix_split h
  have hrequestId : readInt buffer SIZEOF_INT = .ok m.requestId := readInt_spec (by simp) h₁
  have hfileSize : readSize buffer (SIZEOF_INT + SIZEOF_INT) = .ok m.fileSize :=
    readSize_spec (by simp) h₂
  simp only [format, deserialize, readInt_type h, hrequestId, hfileSize]
  rfl

end MQClientRequestMessage

/-- A message that the registration queue carries. -/
inductive AbstractMQClientRegistrationMessage where
  | registration (m : MQClientRegistrationMessage)
  | queueCreation (m : MQClientQueueCreationMessage)
  | queueDeletion (m : MQClientQueueDeletionMessage)
  deriving DecidableEq, Repr

/-- `AbstractMQClientRegistrationMessage::deserialize`. -/
def AbstractMQClientRegistrationMessage.deserialize (buffer : List UInt8) :
    Except Fault AbstractMQClientRegistrationMessage := do
  let messageType ← readInt buffer 0
  if messageType = MQClientMessageType.REGISTRATION.toInt then
    return .registration (← MQClientRegistrationMessage.deserialize buffer)
  else if messageType = MQClientMessageType.QUEUE_CREATION.toInt then
    return .queueCreation (← MQClientQueueCreationMessage.deserialize buffer)
  else if messageType = MQClientMessageType.QUEUE_DELETION.toInt then
    return .queueDeletion (← MQClientQueueDeletionMessage.deserialize buffer)
  else .error (.runtimeError "AbstractMQClientRegistrationMessage: unknown message type")

namespace AbstractMQClientRegistrationMessage

/-- The reader of the registration queue recovers the kind and the message. -/
def Selects {μ : Type} (F : Format μ) (kind : μ → AbstractMQClientRegistrationMessage) : Prop :=
  ∀ m bytes, F.serialize m = .ok bytes →
    ∀ rest, deserialize (bytes ++ rest) = .ok (kind m)

theorem selects_registration : Selects MQClientRegistrationMessage.format registration := by
  intro m bytes hbytes rest
  obtain ⟨htype, hm⟩ := m.roundTrips.read hbytes rest
  change MQClientRegistrationMessage.deserialize (bytes ++ rest) = .ok m at hm
  simp only [deserialize, htype, hm]
  rfl

theorem selects_queueCreation : Selects MQClientQueueCreationMessage.format queueCreation := by
  intro m bytes hbytes rest
  obtain ⟨htype, hm⟩ := m.roundTrips.read hbytes rest
  change MQClientQueueCreationMessage.deserialize (bytes ++ rest) = .ok m at hm
  simp only [deserialize, htype, hm]
  rfl

theorem selects_queueDeletion : Selects MQClientQueueDeletionMessage.format queueDeletion := by
  intro m bytes hbytes rest
  obtain ⟨htype, hm⟩ := m.roundTrips.read hbytes rest
  change MQClientQueueDeletionMessage.deserialize (bytes ++ rest) = .ok m at hm
  simp only [deserialize, htype, hm]
  rfl

end AbstractMQClientRegistrationMessage

end Client

section Server

structure MQServerIdMessage where
  clientId : Int32
  numShmSegments : UInt64
  shmSegmentSize : UInt64
  internalRepSize : UInt64
  deriving DecidableEq, Repr

namespace MQServerIdMessage

def getContentSize (_ : MQServerIdMessage) : ℕ :=
  SIZEOF_INT + SIZEOF_INT + SIZEOF_SIZE_T + SIZEOF_SIZE_T + SIZEOF_SIZE_T

def serializeContents (m : MQServerIdMessage) (buffer : List UInt8) (dest : ℕ) :
    Except Fault (List UInt8) := do
  let buffer ← copyInt buffer dest m.clientId
  let buffer ← copySize buffer (dest + SIZEOF_INT) m.numShmSegments
  let buffer ← copySize buffer (dest + SIZEOF_INT + SIZEOF_SIZE_T) m.shmSegmentSize
  copySize buffer (dest + SIZEOF_INT + SIZEOF_SIZE_T + SIZEOF_SIZE_T) m.internalRepSize

def deserialize (buffer : List UInt8) : Except Fault MQServerIdMessage := do
  let _ ← readInt buffer 0
  let clientId ← readInt buffer SIZEOF_INT
  let numShmSegments ← readSize buffer (SIZEOF_INT + SIZEOF_INT)
  let shmSegmentSize ← readSize buffer (SIZEOF_INT + SIZEOF_INT + SIZEOF_SIZE_T)
  let internalRepSize ← readSize buffer (SIZEOF_INT + SIZEOF_INT + SIZEOF_SIZE_T + SIZEOF_SIZE_T)
  return ⟨clientId, numShmSegments, shmSegmentSize, internalRepSize⟩

def format : Format MQServerIdMessage where
  messageType := MQServerMessageType.ID.toInt
  getContentSize := getContentSize
  serializeContents := serializeContents
  deserialize := deserialize

theorem roundTrips (m : MQServerIdMessage) : format.RoundTrips m := by
  refine Format.roundTrips_of_fields ((writes_copyInt rfl m.clientId).bind
    ((writes_copySize (by simp) m.numShmSegments).bind
      ((writes_copySize (by simp [Nat.add_assoc]) m.shmSegmentSize).bind
        (writes_copySize (by simp [Nat.add_assoc]) m.internalRepSize)))) rfl ?_
  intro buffer h
  obtain ⟨h₁, h⟩ := prefix_split h
  obtain ⟨h₂, h⟩ := prefix_split h
  obtain ⟨h₃, h₄⟩ := prefix_split h
  have hclientId : readInt buffer SIZEOF_INT = .ok m.clientId := readInt_spec (by simp) h₁
  have hnum : readSize buffer (SIZEOF_INT + SIZEOF_INT) = .ok m.numShmSegments :=
    readSize_spec (by simp) h₂
  have hsize : readSize buffer (SIZEOF_INT + SIZEOF_INT + SIZEOF_SIZE_T) =
      .ok m.shmSegmentSize := readSize_spec (by simp [Nat.add_assoc]) h₃
  have hrep : readSize buffer (SIZEOF_INT + SIZEOF_INT + SIZEOF_SIZE_T + SIZEOF_SIZE_T) =
      .ok m.internalRepSize := readSize_spec (by simp [Nat.add_assoc]) h₄
  simp only [format, deserialize, readInt_type ((List.prefix_append _ _).trans h₁), hclientId,
    hnum, hsize, hrep]
  rfl

end MQServerIdMessage

/-- The count is kept beside the vector; both constructors take it from there. -/
structure MQServerRequestMessage where
  requestId : Int32
  shmSegmentIds : List Int32
  shmSegmentCount : UInt64
  count_eq : shmSegmentCount.toNat = shmSegmentIds.length
  length_le : shmSegmentIds.length ≤ VECTOR_INT_MAX_SIZE
  deriving DecidableEq

namespace MQServerRequestMessage

/-- Both constructors. -/
def ofIds (requestId : Int32) (shmSegmentIds : List Int32)
    (h : shmSegmentIds.length ≤ VECTOR_INT_MAX_SIZE) : MQServerRequestMessage where
  requestId := requestId
  shmSegmentIds := shmSegmentIds
  shmSegmentCount := UInt64.ofNat shmSegmentIds.length
  count_eq := by
    rw [UInt64.toNat_ofNat']
    exact Nat.mod_eq_of_lt (lt_of_le_of_lt h (by decide))
  length_le := h

def getContentSize (m : MQServerRequestMessage) : ℕ :=
  SIZEOF_INT + SIZEOF_INT + SIZEOF_SIZE_T + SIZEOF_INT * m.shmSegmentIds.length

/-- The loop over `shmSegmentIds`: `n` ids are left, from index `i` on. -/
def copyIds (ids : List Int32) : ℕ → ℕ → List UInt8 → ℕ → Except Fault (List UInt8)
  | 0, _, buffer, _ => .ok buffer
  | n + 1, i, buffer, dest =>
      match ids[i]? with
      | none => .error (.undefinedBehavior "shmSegmentIds out of range")
      | some id => do
          let buffer ← copyInt buffer dest id
          copyIds ids n (i + 1) buffer (dest + SIZEOF_INT)

def serializeContents (m : MQServerRequestMessage) (buffer : List UInt8) (dest : ℕ) :
    Except Fault (List UInt8) := do
  let buffer ← copyInt buffer dest m.requestId
  let buffer ← copySize buffer (dest + SIZEOF_INT) m.shmSegmentCount
  copyIds m.shmSegmentIds m.shmSegmentCount.toNat 0 buffer (dest + SIZEOF_INT + SIZEOF_SIZE_T)

/-- The loop that fills the vector. -/
def readIds (buffer : List UInt8) : (n : ℕ) → ℕ → Except Fault (List.Vector Int32 n)
  | 0, _ => .ok .nil
  | n + 1, offset => do
      let id ← readInt buffer offset
      let ids ← readIds buffer n (offset + SIZEOF_INT)
      return .cons id ids

/-- The vector's constructor refuses a count above `max_size()`. -/
def deserialize (buffer : List UInt8) : Except Fault MQServerRequestMessage := do
  let _ ← readInt buffer 0
  let requestId ← readInt buffer SIZEOF_INT
  let shmSegmentCount ← readSize buffer (SIZEOF_INT + SIZEOF_INT)
  if h : shmSegmentCount.toNat ≤ VECTOR_INT_MAX_SIZE then
    let shmSegmentIds ← readIds buffer shmSegmentCount.toNat
      (SIZEOF_INT + SIZEOF_INT + SIZEOF_SIZE_T)
    return ofIds requestId shmSegmentIds.toList (by rw [shmSegmentIds.toList_length]; exact h)
  else .error (.runtimeError "cannot create std::vector larger than max_size()")

def format : Format MQServerRequestMessage where
  messageType := MQServerMessageType.RESPONSE.toInt
  getContentSize := getContentSize
  serializeContents := serializeContents
  deserialize := deserialize

def idsBytes (ids : List Int32) : List UInt8 := ids.flatMap intBytes

theorem length_idsBytes (ids : List Int32) : (idsBytes ids).length = SIZEOF_INT * ids.length := by
  simp [idsBytes, List.length_flatMap, Nat.mul_comm]

theorem writes_copyIds {content : List UInt8} {dest : ℕ} (h : dest = content.length)
    {front ids : List Int32} :
    Writes content (idsBytes ids)
      (fun buffer => copyIds (front ++ ids) ids.length front.length buffer dest) := by
  induction ids generalizing content dest front with
  | nil => exact Writes.pure content
  | cons id ids ih =>
    have hget : (front ++ id :: ids)[front.length]? = some id := by simp
    have hrest : Writes (content ++ intBytes id) (idsBytes ids) (fun buffer =>
        copyIds (front ++ id :: ids) ids.length (front.length + 1) buffer (dest + SIZEOF_INT)) := by
      have hnext := @ih (content ++ intBytes id) (dest + SIZEOF_INT) (by simp [h]) (front ++ [id])
      simpa using hnext
    have hall := (writes_copyInt h id).bind hrest
    simpa only [copyIds, List.length_cons, hget, idsBytes, List.flatMap_cons] using hall

theorem readIds_spec {buffer front : List UInt8} {ids : List Int32} {n offset : ℕ}
    (hn : n = ids.length) (ho : offset = front.length) (h : front ++ idsBytes ids <+: buffer) :
    readIds buffer n offset = .ok ⟨ids, hn.symm⟩ := by
  subst hn
  induction ids generalizing front offset with
  | nil => rfl
  | cons id ids ih =>
    obtain ⟨hid, hids⟩ := prefix_split h
    have hoffset : offset + SIZEOF_INT = (front ++ intBytes id).length := by simp [ho]
    simp only [List.length_cons, readIds, readInt_spec ho hid, ih hoffset hids]
    rfl

/-- A message is what a constructor makes of its fields. -/
theorem ofIds_eq (m : MQServerRequestMessage) :
    ofIds m.requestId m.shmSegmentIds m.length_le = m := by
  have hcount : UInt64.ofNat m.shmSegmentIds.length = m.shmSegmentCount := by
    rw [← m.count_eq, UInt64.ofNat_toNat]
  cases m
  simp only [ofIds, mk.injEq, true_and]
  exact hcount

theorem roundTrips (m : MQServerRequestMessage) : format.RoundTrips m := by
  have hids : Writes (intBytes format.messageType ++ intBytes m.requestId ++
      sizeBytes m.shmSegmentCount) (idsBytes m.shmSegmentIds) (fun buffer =>
      copyIds m.shmSegmentIds m.shmSegmentCount.toNat 0 buffer
        (SIZEOF_INT + SIZEOF_INT + SIZEOF_SIZE_T)) := by
    rw [m.count_eq]
    have hloop := @writes_copyIds (intBytes format.messageType ++ intBytes m.requestId ++
      sizeBytes m.shmSegmentCount) (SIZEOF_INT + SIZEOF_INT + SIZEOF_SIZE_T) (by simp [Nat.add_assoc]) []
      m.shmSegmentIds
    exact hloop
  refine Format.roundTrips_of_fields ((writes_copyInt rfl m.requestId).bind
    ((writes_copySize (by simp) m.shmSegmentCount).bind hids)) ?_ ?_
  · simp only [format, getContentSize, List.length_append, length_intBytes, length_sizeBytes,
      length_idsBytes]
    omega
  intro buffer h
  obtain ⟨h₁, h⟩ := prefix_split h
  obtain ⟨h₂, h₃⟩ := prefix_split h
  have hrequestId : readInt buffer SIZEOF_INT = .ok m.requestId := readInt_spec (by simp) h₁
  have hcount : readSize buffer (SIZEOF_INT + SIZEOF_INT) = .ok m.shmSegmentCount :=
    readSize_spec (by simp) h₂
  have hread : readIds buffer m.shmSegmentCount.toNat (SIZEOF_INT + SIZEOF_INT + SIZEOF_SIZE_T) =
      .ok ⟨m.shmSegmentIds, m.count_eq.symm⟩ :=
    readIds_spec m.count_eq (by simp [Nat.add_assoc]) h₃
  have hle : m.shmSegmentCount.toNat ≤ VECTOR_INT_MAX_SIZE := m.count_eq ▸ m.length_le
  simp only [format, deserialize, readInt_type ((List.prefix_append _ _).trans h₁), hrequestId,
    hcount]
  refine (dif_pos hle).trans ?_
  simp only [hread]
  exact congrArg Except.ok m.ofIds_eq

end MQServerRequestMessage

end Server

open AbstractMQClientRegistrationMessage in
/-- Every message comes back from its bytes, the registration messages with their
kind, and the messages of fixed size fit the queue they travel on. -/
theorem message_formats :
    ((∀ m, MQClientRegistrationMessage.format.RoundTrips m ∧
        m.getContentSize ≤ REGISTRATION_MSG_SIZE) ∧
      Selects MQClientRegistrationMessage.format registration) ∧
    ((∀ m, MQClientQueueCreationMessage.format.RoundTrips m ∧
        m.getContentSize ≤ REGISTRATION_MSG_SIZE) ∧
      Selects MQClientQueueCreationMessage.format queueCreation) ∧
    ((∀ m, MQClientQueueDeletionMessage.format.RoundTrips m ∧
        m.getContentSize ≤ REGISTRATION_MSG_SIZE) ∧
      Selects MQClientQueueDeletionMessage.format queueDeletion) ∧
    (∀ m, MQClientRequestMessage.format.RoundTrips m ∧ m.getContentSize ≤ CLIENT_MSG_SIZE) ∧
    (∀ m, MQServerIdMessage.format.RoundTrips m ∧ m.getContentSize ≤ REGISTRATION_MSG_SIZE) ∧
    ∀ m, MQServerRequestMessage.format.RoundTrips m := by
  have hregistration : SIZEOF_INT ≤ REGISTRATION_MSG_SIZE := by decide
  have hcreation : SIZEOF_INT + SIZEOF_INT + SIZEOF_INT ≤ REGISTRATION_MSG_SIZE := by decide
  have hdeletion : SIZEOF_INT + SIZEOF_INT ≤ REGISTRATION_MSG_SIZE := by decide
  have hrequest : SIZEOF_INT + SIZEOF_INT + SIZEOF_SIZE_T ≤ CLIENT_MSG_SIZE := by decide
  have hid : SIZEOF_INT + SIZEOF_INT + SIZEOF_SIZE_T + SIZEOF_SIZE_T + SIZEOF_SIZE_T ≤
    REGISTRATION_MSG_SIZE := by decide
  exact ⟨⟨fun m => ⟨m.roundTrips, hregistration⟩, selects_registration⟩,
    ⟨fun m => ⟨m.roundTrips, hcreation⟩, selects_queueCreation⟩,
    ⟨fun m => ⟨m.roundTrips, hdeletion⟩, selects_queueDeletion⟩,
    fun m => ⟨m.roundTrips, hrequest⟩, fun m => ⟨m.roundTrips, hid⟩, fun m => m.roundTrips⟩

/-- A response with two ids: type, request id, count and ids. -/
example : MQServerRequestMessage.format.serialize
    (.ofIds 7 [1, -1] (by decide)) =
      .ok [1, 0, 0, 0, 7, 0, 0, 0, 2, 0, 0, 0, 0, 0, 0, 0, 1, 0, 0, 0, 255, 255, 255, 255] := by
  decide

end TinyFile.Message
