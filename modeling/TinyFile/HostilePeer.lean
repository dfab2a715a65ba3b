import TinyFile.SegmentAccess
import TinyFile.Transfer

/-!
# A peer that writes whatever it likes

The segment of a request is shared memory, which other processes can write at any
time. `processClientData` and `processServerData` read it piece by piece, the
length of a chunk before its bytes, and trust nothing but the length they have
read. Below every inner read finds a memory of its own, so the segment changes
arbitrarily between any two of them.
-/
namespace TinyFile

namespace Access

/-- The bytes read one after the other, each read from a memory of its own. -/
def readEach : List Access → (ℕ → Memory) → Except Fault (List UInt8)
  | [], _ => .ok []
  | a :: as, ms => do
      let head ← a.read (ms 0)
      let tail ← readEach as (fun i => ms (i + 1))
      return head ++ tail

theorem readEach_const (as : List Access) (m : Memory) :
    readEach as (fun _ => m) = readAll as m := by
  induction as with
  | nil => rfl
  | cons a as ih => simp only [readEach, readAll, ih]

/-- Reads in bounds return as many bytes as they ask for. -/
theorem readEach_ok {dataSize : ℕ} {as : List Access}
    (h : ∀ a ∈ as, a.InBounds dataSize ∧ a.segment.size < SizeT.modulus) (ms : ℕ → Memory) :
    ∃ data, readEach as ms = .ok data ∧ data.length = (as.map Access.size).sum := by
  induction as generalizing ms with
  | nil => exact ⟨[], rfl, rfl⟩
  | cons a as ih =>
    obtain ⟨hbounds, hsize⟩ := h a List.mem_cons_self
    obtain ⟨tail, htail, hlen⟩ :=
      ih (fun a' ha' => h a' (List.mem_cons_of_mem a ha')) (fun i => ms (i + 1))
    simp only [readEach, read, ContiguousShmSegment.read,
      if_pos (guard_of_inBounds hbounds hsize), htail]
    exact ⟨_, rfl, by simp [hlen]⟩

end Access

namespace FragmentedShmSegment

/-- `read` of a segment that changes between the inner reads. -/
def readUnder (gs : FragmentedShmSegment) (dataSize offset : ℕ) (ms : ℕ → Memory) :
    Except Fault (List UInt8) :=
  if SizeT.add offset dataSize ≤ gs.size then Access.readEach (gs.accesses dataSize offset) ms
  else .error (gs.sizeExceeded "read" dataSize offset)

/-- `readUnder` of a segment that does not change is `read`. -/
theorem readUnder_const (gs : FragmentedShmSegment) (dataSize offset : ℕ) (m : Memory) :
    gs.readUnder dataSize offset (fun _ => m) = gs.read dataSize offset m := by
  unfold readUnder read
  split_ifs
  · rw [Access.readEach_const, readLoop_eq gs dataSize 0]
    rfl
  · rfl

/-- The accesses of a call within the segment add up to the size of the call. -/
theorem accessLoop_sum {gs : FragmentedShmSegment} {dataSize dataOffset offset : ℕ}
    (h : offset + dataSize ≤ gs.total) :
    ((gs.accessLoop dataSize dataOffset offset).map Access.size).sum = dataSize := by
  induction gs generalizing dataSize dataOffset offset with
  | nil =>
    simp only [total, List.map_nil, List.sum_nil] at h
    simp only [accessLoop, List.map_nil, List.sum_nil]
    omega
  | cons g gs ih =>
    rw [total_cons] at h
    unfold accessLoop
    split_ifs with h₀ h₁ h₂
    · simp [h₀]
    · exact ih (by omega)
    · simp only [List.map_cons, List.sum_cons]
      rw [ih (by omega)]
      omega
    · simp only [List.map_cons, List.sum_cons]
      rw [ih (by omega)]
      omega

/-- A read within the segment returns what it asks for, whoever writes meanwhile. -/
theorem readUnder_ok {gs : FragmentedShmSegment} (h : gs.total < SizeT.modulus)
    {dataSize offset : ℕ} (hfit : offset + dataSize ≤ gs.total) (ms : ℕ → Memory) :
    ∃ data, gs.readUnder dataSize offset ms = .ok data ∧ data.length = dataSize := by
  obtain ⟨data, hread, hlen⟩ := Access.readEach_ok (accesses_bounds h dataSize offset) ms
  refine ⟨data, ?_, hlen.trans (accessLoop_sum hfit)⟩
  rw [readUnder, SizeT.add_of_lt (by omega), size_eq_total h, if_pos hfit, hread]

theorem readUnder_error {gs : FragmentedShmSegment} (h : gs.total < SizeT.modulus)
    {dataSize offset : ℕ} (hsum : offset + dataSize < SizeT.modulus)
    (hover : gs.total < offset + dataSize) (ms : ℕ → Memory) :
    gs.readUnder dataSize offset ms = .error (gs.sizeExceeded "read" dataSize offset) := by
  rw [readUnder, SizeT.add_of_lt hsum, size_eq_total h, if_neg (by omega)]

end FragmentedShmSegment

/-- The buffer that a handler receives a file into, and how far it is filled. -/
structure ReceiveBuffer where
  data : List UInt8
  fileRecvSize : ℕ

/-- What one round finds in the segment: the reads of the header and those of the
bytes. -/
structure Round where
  header : ℕ → Memory
  payload : ℕ → Memory

/-- The length that the header of a round claims. -/
def Round.dataSize (r : Round) (gs : FragmentedShmSegment) : Except Fault ℕ :=
  (gs.readUnder ShmDataMessage.headerSize 0 r.header).map LittleEndian.ofBytes

namespace ReceiveBuffer

/-- `parse`, `copyData` into the rest of a buffer of `size` bytes, and the sum. -/
def receive (gs : FragmentedShmSegment) (size : ℕ) (b : ReceiveBuffer) (r : Round) :
    Except Fault Unit × ReceiveBuffer :=
  match r.dataSize gs with
  | .error fault => (.error fault, b)
  | .ok dataSize =>
      if SizeT.sub size b.fileRecvSize < dataSize then
        (.error (.runtimeError "buffer size is too small"), b)
      else
        match gs.readUnder dataSize ShmDataMessage.headerSize r.payload with
        | .error fault => (.error fault, b)
        | .ok data => (.ok (),
            { data := splice b.data b.fileRecvSize data
              fileRecvSize := SizeT.add b.fileRecvSize dataSize })

/-- In a segment that keeps still, `receive` is `parse` and `copyData`. -/
theorem receive_const (gs : FragmentedShmSegment) (size : ℕ) (b : ReceiveBuffer) (m : Memory) :
    receive gs size b ⟨fun _ => m, fun _ => m⟩ =
      match ShmDataMessage.parse gs m with
      | .error fault => (.error fault, b)
      | .ok dataSize =>
          match ShmDataMessage.copyData gs dataSize (SizeT.sub size b.fileRecvSize) m with
          | .error fault => (.error fault, b)
          | .ok data => (.ok (),
              { data := splice b.data b.fileRecvSize data
                fileRecvSize := SizeT.add b.fileRecvSize dataSize }) := by
  simp only [receive, Round.dataSize, FragmentedShmSegment.readUnder_const, ShmDataMessage.parse,
    ShmDataMessage.copyData]
  split
  · rfl
  · split_ifs <;> rfl

/-- The buffer has its size and is not overfull. -/
structure Filled (size : ℕ) (b : ReceiveBuffer) : Prop where
  length : b.data.length = size
  le : b.fileRecvSize ≤ size

/-- What a call may do to the buffer, whatever it finds in the segment. -/
structure Contained (gs : FragmentedShmSegment) (size : ℕ) (b : ReceiveBuffer) (r : Round)
    (outcome : Except Fault Unit) (b' : ReceiveBuffer) : Prop where
  room : SizeT.sub size b.fileRecvSize = size - b.fileRecvSize
  filled : b'.Filled size
  too_long : ∀ n, r.dataSize gs = .ok n →
    size - b.fileRecvSize < n ∨ gs.size < ShmDataMessage.headerSize + n →
    ∃ fault, outcome = .error fault
  thrown : (∃ fault, outcome = .error fault) → b' = b
  copied : outcome = .ok () → ∃ n, r.dataSize gs = .ok n ∧
    b'.fileRecvSize = b.fileRecvSize + n ∧
    (∀ a ∈ gs.accesses n ShmDataMessage.headerSize,
      b.fileRecvSize + (a.dataOffset + a.size) ≤ b'.fileRecvSize ∧
        a.offset + a.size ≤ a.segment.size) ∧
    b'.data.take b.fileRecvSize = b.data.take b.fileRecvSize ∧
    b'.data.drop b'.fileRecvSize = b.data.drop b'.fileRecvSize

variable {gs : FragmentedShmSegment} {size : ℕ} {b : ReceiveBuffer}

/-- A round that throws. -/
theorem contained_of_throw (hsize : size < SizeT.modulus) (hb : b.Filled size) (r : Round)
    (fault : Fault) : Contained gs size b r (.error fault) b where
  room := SizeT.sub_of_le hb.le hsize
  filled := hb
  too_long := fun _ _ _ => ⟨fault, rfl⟩
  thrown := fun _ => rfl
  copied := fun h => by cases h

/-- Every round is contained, whatever the segment holds at each read. -/
theorem contained_receive (h : gs.WellFormed) (hsize : size < 2 ^ 63) (hb : b.Filled size)
    (r : Round) : Contained gs size b r (receive gs size b r).1 (receive gs size b r).2 := by
  have hsize' : size < SizeT.modulus := by
    unfold SizeT.modulus
    omega
  have hroom := SizeT.sub_of_le hb.le hsize'
  have hle := hb.le
  have hlen := hb.length
  unfold receive
  cases hn : r.dataSize gs with
  | error fault => exact contained_of_throw hsize' hb r fault
  | ok n =>
    simp only
    split_ifs with hshort
    · exact contained_of_throw hsize' hb r _
    · rw [hroom, not_lt] at hshort
      by_cases hfit : ShmDataMessage.headerSize + n ≤ gs.total
      · obtain ⟨data, hread, hdata⟩ :=
          FragmentedShmSegment.readUnder_ok h.small hfit r.payload
        rw [hread]
        have hadd : SizeT.add b.fileRecvSize n = b.fileRecvSize + n :=
          SizeT.add_of_lt (by omega)
        have hsplice : (splice b.data b.fileRecvSize data).length = b.data.length :=
          length_splice (by omega)
        simp only [hadd]
        refine ⟨hroom, ⟨hsplice.trans hlen, by simp only; omega⟩, ?_, ?_, fun _ => ⟨n, hn, rfl, ?_,
          take_splice le_rfl (by omega), ?_⟩⟩
        · intro n' hn' hlong
          rw [hn, Except.ok.injEq] at hn'
          rw [FragmentedShmSegment.size_eq_total h.small] at hlong
          omega
        · rintro ⟨fault, hfault⟩
          cases hfault
        · intro a ha
          obtain ⟨⟨hbuffer, hsegment⟩, -⟩ := FragmentedShmSegment.accesses_bounds h.small _ _ a ha
          exact ⟨by simp only; omega, hsegment⟩
        · simp only
          rw [← hdata]
          exact drop_splice (by omega)
      · rw [FragmentedShmSegment.readUnder_error h.small
          (by unfold ShmDataMessage.headerSize SizeT.modulus; omega) (by omega)]
        exact contained_of_throw hsize' hb r _

/-- A handler's loop, which goes on while its buffer is not full and ends with a
throw: the part `buffer` of its state moves as `receive` says. -/
structure Receives {σ : Type} (gs : FragmentedShmSegment) (size : ℕ) (buffer : σ → ReceiveBuffer)
    (M : Machine σ Round) : Prop where
  start : (buffer M.start).Filled size
  step : ∀ s r t, M.Reachable s → M.next s r = some t →
    receive gs size (buffer s) r = (.ok (), buffer t)

variable {σ : Type} {buffer : σ → ReceiveBuffer} {M : Machine σ Round}

theorem Receives.filled (hM : Receives gs size buffer M) (h : gs.WellFormed)
    (hsize : size < 2 ^ 63) {s : σ} (hs : M.Reachable s) : (buffer s).Filled size := by
  induction hs with
  | start => exact hM.start
  | @step s t r hs hnext _ ih =>
    have hcontained := (contained_receive h hsize ih r).filled
    rwa [hM.step s r t hs hnext] at hcontained

/-- The bytes that have been received stay what they are, for the whole run. -/
theorem Receives.earlier (hM : Receives gs size buffer M) (h : gs.WellFormed)
    (hsize : size < 2 ^ 63) {s t : σ} {rounds : List Round}
    (hrun : M.RunIf (fun _ _ => True) s rounds t) (hs : M.Reachable s) :
    (buffer s).fileRecvSize ≤ (buffer t).fileRecvSize ∧
      (buffer t).data.take (buffer s).fileRecvSize =
        (buffer s).data.take (buffer s).fileRecvSize := by
  induction hrun with
  | nil => exact ⟨le_rfl, rfl⟩
  | @cons s u t r rounds hnext _ _ ih =>
    have hcontained := contained_receive h hsize (hM.filled h hsize hs) r
    rw [hM.step s r u hs hnext] at hcontained
    obtain ⟨n, -, hgrown, -, hearlier, -⟩ := hcontained.copied rfl
    obtain ⟨hle, htake⟩ := ih (hs.step hnext trivial)
    dsimp only at hgrown
    refine ⟨by omega, ?_⟩
    have hcut := congrArg (List.take (buffer s).fileRecvSize) htake
    rw [List.take_take, List.take_take, min_eq_left (by omega)] at hcut
    exact hcut.trans hearlier

/-- What a handler keeps to in a state of its loop: its buffer is not overfull, a
call of `process` is contained, and no later call changes what has been received. -/
structure Shield (gs : FragmentedShmSegment) (size : ℕ) (buffer : σ → ReceiveBuffer)
    (process : σ → Round → Except Fault Unit × σ) (M : Machine σ Round) (s : σ) : Prop where
  le : (buffer s).fileRecvSize ≤ size
  call : ∀ r, Contained gs size (buffer s) r (process s r).1 (buffer (process s r).2)
  earlier : ∀ rounds t, M.RunIf (fun _ _ => True) s rounds t →
    (buffer t).data.take (buffer s).fileRecvSize = (buffer s).data.take (buffer s).fileRecvSize

def Shielded (gs : FragmentedShmSegment) (size : ℕ) (buffer : σ → ReceiveBuffer)
    (process : σ → Round → Except Fault Unit × σ) (M : Machine σ Round) : Prop :=
  ∀ s, M.Reachable s → Shield gs size buffer process M s

/-- A loop is shielded if its calls do to its buffer what `receive` does. -/
theorem Receives.shielded (hM : Receives gs size buffer M) (h : gs.WellFormed)
    (hsize : size < 2 ^ 63) {process : σ → Round → Except Fault Unit × σ}
    (hprocess : ∀ s r, M.Reachable s → (process s r).1 = (receive gs size (buffer s) r).1 ∧
      buffer (process s r).2 = (receive gs size (buffer s) r).2) :
    Shielded gs size buffer process M := by
  intro s hs
  have hfilled := hM.filled h hsize hs
  refine ⟨hfilled.le, fun r => ?_, fun rounds t hrun => (hM.earlier h hsize hrun hs).2⟩
  obtain ⟨houtcome, hbuffer⟩ := hprocess s r hs
  rw [houtcome, hbuffer]
  exact contained_receive h hsize hfilled r

end ReceiveBuffer

namespace ServiceFileCompressorHandler

def buffer (h : ServiceHandler) : ReceiveBuffer := ⟨h.rawData, h.fileRecvSize⟩

/-- `processClientData`. -/
def processClientData (shmSegment : FragmentedShmSegment) (fileSize : ℕ) (h : ServiceHandler)
    (r : Round) : Except Fault Unit × ServiceHandler :=
  let b := ReceiveBuffer.receive shmSegment fileSize (buffer h) r
  (b.1, { h with rawData := b.2.data, fileRecvSize := b.2.fileRecvSize })

/-- The receiving loop of `process`. -/
def receiving (shmSegment : FragmentedShmSegment) (fileSize : ℕ) :
    Machine ServiceHandler Round where
  start := ⟨.receiving .loop, List.replicate fileSize 0, 0, [], 0, 0⟩
  next h r :=
    if h.fileRecvSize < fileSize then
      match processClientData shmSegment fileSize h r with
      | (.ok _, h') => some h'
      | (.error _, _) => none
    else none

theorem receives (shmSegment : FragmentedShmSegment) (fileSize : ℕ) :
    ReceiveBuffer.Receives shmSegment fileSize buffer (receiving shmSegment fileSize) where
  start := ⟨List.length_replicate, Nat.zero_le _⟩
  step := by
    intro h r h' _ hnext
    simp only [receiving] at hnext
    split_ifs at hnext
    split at hnext
    · next u h'' hrun =>
      obtain ⟨hok, rfl⟩ := Prod.mk.inj hrun
      cases hnext
      exact Prod.ext hok rfl
    · cases hnext

end ServiceFileCompressorHandler

namespace ClientFileCompressorHandler

def buffer (h : ClientHandler) : ReceiveBuffer := ⟨h.compressedData, h.fileRecvSize⟩

/-- `processServerData`. -/
def processServerData (shmSegment : FragmentedShmSegment) (h : ClientHandler) (r : Round) :
    Except Fault Unit × ClientHandler :=
  let b := ReceiveBuffer.receive shmSegment h.compressedFileSize (buffer h) r
  (b.1, { h with compressedData := b.2.data, fileRecvSize := b.2.fileRecvSize })

/-- The receiving loop of `process`, once `processFileData` has allocated the
buffer for the size that it has read. -/
def receiving (shmSegment : FragmentedShmSegment) (fileSendSize compressedFileSize : ℕ) :
    Machine ClientHandler Round where
  start := ⟨.receiving .loop, fileSendSize, compressedFileSize,
    List.replicate compressedFileSize 0, 0⟩
  next h r :=
    if h.fileRecvSize < h.compressedFileSize then
      match processServerData shmSegment h r with
      | (.ok _, h') => some h'
      | (.error _, _) => none
    else none

/-- A step of the loop is a call of `processServerData`. -/
theorem of_next {shmSegment : FragmentedShmSegment} {fileSendSize compressedFileSize : ℕ}
    {h h' : ClientHandler} {r : Round}
    (hnext : (receiving shmSegment fileSendSize compressedFileSize).next h r = some h') :
    processServerData shmSegment h r = (.ok (), h') := by
  simp only [receiving] at hnext
  split_ifs at hnext
  split at hnext
  · next u h'' hrun =>
    cases hnext
    exact hrun
  · cases hnext

/-- The size of the buffer stays. -/
theorem compressedFileSize_of_reachable {shmSegment : FragmentedShmSegment}
    {fileSendSize compressedFileSize : ℕ} {h : ClientHandler}
    (hr : (receiving shmSegment fileSendSize compressedFileSize).Reachable h) :
    h.compressedFileSize = compressedFileSize := by
  induction hr with
  | start => rfl
  | step _ hnext _ ih =>
    obtain ⟨-, rfl⟩ := Prod.mk.inj (of_next hnext)
    exact ih

theorem receives (shmSegment : FragmentedShmSegment) (fileSendSize compressedFileSize : ℕ) :
    ReceiveBuffer.Receives shmSegment compressedFileSize buffer
      (receiving shmSegment fileSendSize compressedFileSize) where
  start := ⟨List.length_replicate, Nat.zero_le _⟩
  step := by
    intro h r h' hr hnext
    obtain ⟨hok, rfl⟩ := Prod.mk.inj (of_next hnext)
    rw [← compressedFileSize_of_reachable hr]
    exact Prod.ext hok rfl

end ClientFileCompressorHandler

/-- Neither handler lets a peer that writes the segment as it likes, also between
the reads of one call, reach outside the rest of the receive buffer. -/
theorem hostile_peer {shmSegment : FragmentedShmSegment} (h : shmSegment.WellFormed)
    {fileSize : ℕ} (hsize : fileSize < 2 ^ 63) (fileSendSize : ℕ) :
    ReceiveBuffer.Shielded shmSegment fileSize ServiceFileCompressorHandler.buffer
      (ServiceFileCompressorHandler.processClientData shmSegment fileSize)
      (ServiceFileCompressorHandler.receiving shmSegment fileSize) ∧
    ReceiveBuffer.Shielded shmSegment fileSize ClientFileCompressorHandler.buffer
      (ClientFileCompressorHandler.processServerData shmSegment)
      (ClientFileCompressorHandler.receiving shmSegment fileSendSize fileSize) := by
  constructor
  · refine (ServiceFileCompressorHandler.receives shmSegment fileSize).shielded h hsize ?_
    intro handler r _
    exact ⟨rfl, rfl⟩
  · refine (ClientFileCompressorHandler.receives shmSegment fileSendSize fileSize).shielded h
      hsize ?_
    intro handler r hr
    rw [← ClientFileCompressorHandler.compressedFileSize_of_reachable hr]
    exact ⟨rfl, rfl⟩

/-- A header that claims `2 ^ 64 - 1` bytes makes the call throw. -/
theorem hostile_peer_huge_header :
    ∃ fault, (ServiceFileCompressorHandler.processClientData [⟨0, 0, 0, 32⟩] 10
      (ServiceFileCompressorHandler.receiving [⟨0, 0, 0, 32⟩] 10).start
      ⟨fun _ _ _ => 255, fun _ _ _ => 0⟩).1 = .error fault := by
  have hwf : FragmentedShmSegment.WellFormed [⟨0, 0, 0, 32⟩] :=
    ⟨List.pairwise_singleton _ _, by decide⟩
  obtain ⟨hservice, -⟩ := hostile_peer hwf (show 10 < 2 ^ 63 by decide) 0
  exact ((hservice _ .start).call ⟨fun _ _ _ => 255, fun _ _ _ => 0⟩).too_long (2 ^ 64 - 1) rfl
    (Or.inl (by decide))

end TinyFile
