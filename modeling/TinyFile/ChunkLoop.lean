import TinyFile.Transfer

/-!
# The two loops over one file

`ChunkStage` lists the stages that a sending and a receiving loop over the same
bytes pass through together: the places of both, the two semaphores that they
share, both offsets, and what of the current chunk is in the segment. Either
loop moves from one stage to the next, no check of it throws, and in no stage
do both wait.
-/
namespace TinyFile

/-- `Unread history o`: every message so far was read once before the next one
was written, except possibly the last one, `o`, which is not read yet. -/
inductive Unread : List Traffic → Option Message → Prop
  | nil : Unread [] none
  | wrote {history : List Traffic} (message : Message) :
      Unread history none → Unread (history ++ [.wrote message]) (some message)
  | read {history : List Traffic} {message : Message} :
      Unread history (some message) → Unread (history ++ [.read message]) none

namespace Turn

/-- The step did not throw; if it exited or moved, then as described. -/
def Meets {α : Type} (t : Turn α) (exited : Prop) (stepped : α → Prop) : Prop :=
  match t with
  | .blocked => True
  | .exited => exited
  | .threw _ => False
  | .stepped a => stepped a

end Turn

variable {gs : FragmentedShmSegment} {src buffer : List UInt8} {m m' : Memory}
  {o sense : ℕ} {history : List Traffic}

/-- The header in the segment. -/
def HasHeader (gs : FragmentedShmSegment) (n : ℕ) (m : Memory) : Prop :=
  (gs.bytes m).take 8 = LittleEndian.toBytes 8 n

/-- The payload in the segment. -/
def HasData (gs : FragmentedShmSegment) (data : List UInt8) (m : Memory) : Prop :=
  ((gs.bytes m).drop 8).take data.length = data

/-- The bytes that the sender puts into one message at offset `o`. -/
def chunk (gs : FragmentedShmSegment) (src : List UInt8) (o : ℕ) : List UInt8 :=
  (src.drop o).take (gs.total - 8)

/-- A segment and a file that the loops can work with. -/
structure Sendable (gs : FragmentedShmSegment) (src : List UInt8) : Prop where
  wellFormed : gs.WellFormed
  room : 8 < gs.total
  small : src.length < SizeT.modulus

/-- The receiver has the first `o` bytes. -/
structure Received (src buffer : List UInt8) (o : ℕ) : Prop where
  length : buffer.length = src.length
  le : o ≤ src.length
  take : buffer.take o = src.take o

theorem Received.eq (h : Received src buffer src.length) : buffer = src := by
  have htake := h.take
  rwa [List.take_length, ← h.length, List.take_length] at htake

theorem length_chunk : (chunk gs src o).length = min (src.length - o) (gs.total - 8) := by
  rw [chunk, List.length_take, List.length_drop, min_comm]

theorem Received.chunk (h : Received src buffer o) :
    Received src (splice buffer o (chunk gs src o)) (o + (chunk gs src o).length) := by
  have hle := h.le
  have hlen := h.length
  have hchunk : (TinyFile.chunk gs src o).length ≤ src.length - o := by
    rw [length_chunk]
    omega
  refine ⟨by rw [length_splice (by omega), hlen], by omega, ?_⟩
  have hpart : TinyFile.chunk gs src o = (src.drop o).take (TinyFile.chunk gs src o).length := by
    rw [TinyFile.chunk, List.length_take, List.take_eq_take_min]
  rw [take_add_splice (by omega), h.take, List.take_add, ← hpart]

theorem chunkSize_eq (h : Sendable gs src) (ho : o ≤ src.length) :
    chunkSize gs src.length o = (chunk gs src o).length := by
  have hsmall := h.wellFormed.small
  have hroom := h.room
  rw [chunkSize, FragmentedShmSegment.size_eq_total hsmall, ShmDataMessage.headerSize,
    SizeT.sub_of_le ho h.small, SizeT.sub_of_le hroom.le hsmall, length_chunk]

theorem take_chunk : (src.drop o).take (chunk gs src o).length = chunk gs src o := by
  rw [chunk, List.length_take, List.take_eq_take_min]
  simp

theorem add_length_chunk_le (ho : o ≤ src.length) : o + (chunk gs src o).length ≤ src.length := by
  rw [length_chunk]
  omega

theorem chunk_fits (h : Sendable gs src) : 8 + (chunk gs src o).length ≤ gs.total := by
  have hroom := h.room
  rw [length_chunk]
  omega

theorem HasHeader.congr {n : ℕ} (h : HasHeader gs n m) (hb : gs.bytes m' = gs.bytes m) :
    HasHeader gs n m' := by rwa [HasHeader, hb]

theorem HasData.congr {data : List UInt8} (h : HasData gs data m)
    (hb : gs.bytes m' = gs.bytes m) : HasData gs data m' := by rwa [HasData, hb]

/-- Writing a header. -/
theorem write_header (h : gs.WellFormed) (hroom : 8 < gs.total) (n : ℕ) (m : Memory) :
    ∃ m', gs.write (LittleEndian.toBytes 8 n) 0 m = .ok m' ∧ HasHeader gs n m' ∧
      ∀ segment a, ¬ gs.Covers segment a → m' segment a = m segment a := by
  obtain ⟨m', hw, hb, hf⟩ := FragmentedShmSegment.write_spec h m
    (show 0 + (LittleEndian.toBytes 8 n).length ≤ gs.total by
      rw [LittleEndian.length_toBytes]
      omega)
  refine ⟨m', hw, ?_, hf⟩
  have hread := take_drop_splice (l := gs.bytes m) (d := LittleEndian.toBytes 8 n) (Nat.zero_le _)
  rwa [List.drop_zero, LittleEndian.length_toBytes, ← hb] at hread

/-- Writing a payload keeps the header. -/
theorem write_data (h : gs.WellFormed) {data : List UInt8} (hfit : 8 + data.length ≤ gs.total)
    {n : ℕ} (hheader : HasHeader gs n m) :
    ∃ m', ShmDataMessage.writeData gs data m = .ok m' ∧ HasHeader gs n m' ∧ HasData gs data m' ∧
      ∀ segment a, ¬ gs.Covers segment a → m' segment a = m segment a := by
  obtain ⟨m', hw, hb, hf⟩ := FragmentedShmSegment.write_spec h m hfit
  have hlen : 8 ≤ (gs.bytes m).length := by
    rw [FragmentedShmSegment.length_bytes]
    omega
  refine ⟨m', hw, ?_, ?_, hf⟩
  · rw [HasHeader, hb, take_splice le_rfl hlen]
    exact hheader
  · rw [HasData, hb]
    exact take_drop_splice hlen

/-- Reading a header. -/
theorem parse_header (h : gs.WellFormed) (hroom : 8 < gs.total) {n : ℕ} (hn : n < SizeT.modulus)
    (hheader : HasHeader gs n m) : (gs.read 8 0 m).map LittleEndian.ofBytes = .ok n := by
  have hpow : SizeT.modulus = 256 ^ 8 := by norm_num [SizeT.modulus]
  rw [FragmentedShmSegment.read_spec h m (by omega), List.drop_zero, hheader]
  exact congrArg Except.ok (LittleEndian.ofBytes_toBytes (hpow ▸ hn))

/-- Reading a payload. -/
theorem copy_data (h : gs.WellFormed) {data : List UInt8} (hfit : 8 + data.length ≤ gs.total)
    (hdata : HasData gs data m) {bufferSize : ℕ} (hbuffer : data.length ≤ bufferSize) :
    ShmDataMessage.copyData gs data.length bufferSize m = .ok data := by
  rw [ShmDataMessage.copyData, if_neg (by omega), ShmDataMessage.headerSize,
    FragmentedShmSegment.read_spec h m hfit]
  exact congrArg Except.ok hdata

/-- The stages of one chunk: the wires, the sender and the receiver. -/
inductive ChunkStage (gs : FragmentedShmSegment) (src : List UInt8) (m : Memory) (sense : ℕ) :
    Wires → Sender → Receiver → Prop
  | free {o : ℕ} {buffer : List UInt8} {history : List Traffic} : Received src buffer o →
      Unread history none →
      ChunkStage gs src m sense ⟨0, 1, sense, history⟩ ⟨.loop, o⟩ ⟨.loop, buffer, o⟩
  | header {o : ℕ} {buffer : List UInt8} {history : List Traffic} : Received src buffer o →
      o < src.length → Unread history none →
      ChunkStage gs src m sense ⟨0, 0, sense, history⟩ ⟨.header, o⟩ ⟨.loop, buffer, o⟩
  | data {o : ℕ} {buffer : List UInt8} {history : List Traffic} : Received src buffer o →
      o < src.length → Unread history (some (.chunk (chunk gs src o))) →
      HasHeader gs (chunk gs src o).length m →
      ChunkStage gs src m sense ⟨0, 0, sense, history⟩ ⟨.data (chunk gs src o).length, o⟩
        ⟨.loop, buffer, o⟩
  | sent {o : ℕ} {buffer : List UInt8} {history : List Traffic} : Received src buffer o →
      o < src.length → Unread history (some (.chunk (chunk gs src o))) →
      HasHeader gs (chunk gs src o).length m → HasData gs (chunk gs src o) m →
      ChunkStage gs src m sense ⟨0, 0, sense, history⟩ ⟨.post, o + (chunk gs src o).length⟩
        ⟨.loop, buffer, o⟩
  | full {o : ℕ} {buffer : List UInt8} {history : List Traffic} : Received src buffer o →
      o < src.length → Unread history (some (.chunk (chunk gs src o))) →
      HasHeader gs (chunk gs src o).length m → HasData gs (chunk gs src o) m →
      ChunkStage gs src m sense ⟨1, 0, sense, history⟩ ⟨.loop, o + (chunk gs src o).length⟩
        ⟨.loop, buffer, o⟩
  | parse {o : ℕ} {buffer : List UInt8} {history : List Traffic} : Received src buffer o →
      o < src.length → Unread history (some (.chunk (chunk gs src o))) →
      HasHeader gs (chunk gs src o).length m → HasData gs (chunk gs src o) m →
      ChunkStage gs src m sense ⟨0, 0, sense, history⟩ ⟨.loop, o + (chunk gs src o).length⟩
        ⟨.parse, buffer, o⟩
  | copy {o : ℕ} {buffer : List UInt8} {history : List Traffic} : Received src buffer o →
      o < src.length → Unread history (some (.chunk (chunk gs src o))) →
      HasData gs (chunk gs src o) m →
      ChunkStage gs src m sense ⟨0, 0, sense, history⟩ ⟨.loop, o + (chunk gs src o).length⟩
        ⟨.copy (chunk gs src o).length, buffer, o⟩
  | received {o : ℕ} {buffer : List UInt8} {history : List Traffic} : Received src buffer o →
      Unread history none →
      ChunkStage gs src m sense ⟨0, 0, sense, history⟩ ⟨.loop, o⟩ ⟨.post, buffer, o⟩

namespace ChunkStage

variable {w : Wires} {s : Sender} {r : Receiver}

/-- Only the bytes of the segment matter. -/
theorem congr (h : ChunkStage gs src m sense w s r) (hb : gs.bytes m' = gs.bytes m) :
    ChunkStage gs src m' sense w s r := by
  cases h with
  | free hr hu => exact .free hr hu
  | header hr ho hu => exact .header hr ho hu
  | data hr ho hu hh => exact .data hr ho hu (hh.congr hb)
  | sent hr ho hu hh hd => exact .sent hr ho hu (hh.congr hb) (hd.congr hb)
  | full hr ho hu hh hd => exact .full hr ho hu (hh.congr hb) (hd.congr hb)
  | parse hr ho hu hh hd => exact .parse hr ho hu (hh.congr hb) (hd.congr hb)
  | copy hr ho hu hd => exact .copy hr ho hu (hd.congr hb)
  | received hr hu => exact .received hr hu

/-- With no permit the sender waits or leaves its loop. -/
theorem send_waits {P : Memory × Wires × Sender → Prop} (hle : s.sent ≤ src.length)
    (hpc : s.pc = .loop) (hw : w.shmServerSemaphore = 0) :
    (sendStep gs src src.length m w s).Meets (s.pc = .loop ∧ s.sent = src.length) P := by
  simp only [sendStep, hpc, hw]
  split_ifs with h₁ h₂
  · simp at h₂
  · trivial
  · exact ⟨trivial, by omega⟩

/-- A step of the sender. -/
theorem send (hs : Sendable gs src) (h : ChunkStage gs src m sense w s r) :
    (sendStep gs src src.length m w s).Meets (s.pc = .loop ∧ s.sent = src.length) (fun t =>
      ChunkStage gs src t.1 sense t.2.1 t.2.2 r ∧
      ∀ segment a, ¬ gs.Covers segment a → t.1 segment a = m segment a) := by
  cases h with
  | @free o buffer history hr hu =>
    simp only [sendStep]
    split_ifs with h₁ h₂
    · exact ⟨.header hr h₁ hu, fun _ _ _ => rfl⟩
    · trivial
    · have hle := hr.le
      exact ⟨trivial, by omega⟩
  | @header o buffer history hr ho hu =>
    obtain ⟨m', hw, hh, hf⟩ := write_header hs.wellFormed hs.room (chunk gs src o).length m
    simp only [sendStep, chunkSize_eq hs ho.le, ShmDataMessage.writeHeader,
      ShmDataMessage.headerSize, hw, take_chunk]
    exact ⟨.data hr ho (.wrote _ hu) hh, hf⟩
  | @data o buffer history hr ho hu hh =>
    obtain ⟨m', hw, hh', hd, hf⟩ := write_data hs.wellFormed (chunk_fits (o := o) hs) hh
    have hsum : SizeT.add o (chunk gs src o).length = o + (chunk gs src o).length := by
      apply SizeT.add_of_lt
      have hsmall := hs.small
      rw [length_chunk]
      omega
    simp only [sendStep, take_chunk, hw, hsum]
    exact ⟨.sent hr ho hu hh' hd, hf⟩
  | sent hr ho hu hh hd => exact ⟨.full hr ho hu hh hd, fun _ _ _ => rfl⟩
  | full hr ho hu hh hd => exact send_waits (add_length_chunk_le ho.le) rfl rfl
  | parse hr ho hu hh hd => exact send_waits (add_length_chunk_le ho.le) rfl rfl
  | copy hr ho hu hd => exact send_waits (add_length_chunk_le ho.le) rfl rfl
  | received hr hu => exact send_waits hr.le rfl rfl

/-- With no permit the receiver waits or leaves its loop. -/
theorem receive_waits {P : Wires × Receiver → Prop} (hle : r.received ≤ src.length)
    (hpc : r.pc = .loop) (hw : w.shmClientSemaphore = 0) :
    (receiveStep gs src.length m w r).Meets (r.pc = .loop ∧ r.received = src.length) P := by
  simp only [receiveStep, hpc, hw]
  split_ifs with h₁ h₂
  · simp at h₂
  · trivial
  · exact ⟨trivial, by omega⟩

/-- A step of the receiver. -/
theorem receive (hs : Sendable gs src) (h : ChunkStage gs src m sense w s r) :
    (receiveStep gs src.length m w r).Meets (r.pc = .loop ∧ r.received = src.length) (fun t =>
      ChunkStage gs src m sense t.1 s t.2) := by
  cases h with
  | free hr hu => exact receive_waits hr.le rfl rfl
  | header hr ho hu => exact receive_waits hr.le rfl rfl
  | data hr ho hu hh => exact receive_waits hr.le rfl rfl
  | sent hr ho hu hh hd => exact receive_waits hr.le rfl rfl
  | @full o buffer history hr ho hu hh hd =>
    simp only [receiveStep]
    rw [if_pos ho, if_pos one_pos]
    exact .parse hr ho hu hh hd
  | @parse o buffer history hr ho hu hh hd =>
    have hsmall : (chunk gs src o).length < SizeT.modulus := by
      have hle : o + (chunk gs src o).length ≤ src.length := add_length_chunk_le ho.le
      have hsrc := hs.small
      omega
    have hp : ShmDataMessage.parse gs m = .ok (chunk gs src o).length :=
      parse_header hs.wellFormed hs.room hsmall hh
    simp only [receiveStep, hp]
    exact .copy hr ho hu hd
  | @copy o buffer history hr ho hu hd =>
    have hle : o + (chunk gs src o).length ≤ src.length := add_length_chunk_le ho.le
    have hsrc := hs.small
    have hc : ShmDataMessage.copyData gs (chunk gs src o).length (SizeT.sub src.length o) m =
        .ok (chunk gs src o) := by
      apply copy_data hs.wellFormed (chunk_fits hs) hd
      rw [SizeT.sub_of_le ho.le hsrc]
      omega
    have hsum : SizeT.add o (chunk gs src o).length = o + (chunk gs src o).length :=
      SizeT.add_of_lt (by omega)
    simp only [receiveStep, hc, hsum]
    exact .received hr.chunk (.read hu)
  | received hr hu => exact .free hr hu

/-- Unless both loops are over, one of them can go on within its loop. -/
theorem progress (h : ChunkStage gs src m sense w s r) :
    (sendStep gs src src.length m w s ≠ .blocked ∧ ¬ (s.pc = .loop ∧ s.sent = src.length)) ∨
    (receiveStep gs src.length m w r ≠ .blocked ∧
      ¬ (r.pc = .loop ∧ r.received = src.length)) ∨
    ((s.pc = .loop ∧ s.sent = src.length) ∧ r.pc = .loop ∧ r.received = src.length) := by
  cases h with
  | @free o buffer history hr hu =>
    rcases hr.le.lt_or_eq with ho | rfl
    · exact .inl ⟨by simp [sendStep, ho], by simp [ho.ne]⟩
    · exact .inr (.inr ⟨⟨rfl, rfl⟩, rfl, rfl⟩)
  | header hr ho hu =>
    refine .inl ⟨?_, by simp⟩
    simp only [sendStep]
    split <;> simp
  | data hr ho hu hh =>
    refine .inl ⟨?_, by simp⟩
    simp only [sendStep]
    split <;> simp
  | sent hr ho hu hh hd => exact .inl ⟨by simp [sendStep], by simp⟩
  | full hr ho hu hh hd => exact .inr (.inl ⟨by simp [receiveStep, ho], by simp [ho.ne]⟩)
  | parse hr ho hu hh hd =>
    refine .inr (.inl ⟨?_, by simp⟩)
    simp only [receiveStep]
    split <;> simp
  | copy hr ho hu hd =>
    refine .inr (.inl ⟨?_, by simp⟩)
    simp only [receiveStep]
    split <;> simp
  | received hr hu => exact .inr (.inl ⟨by simp [receiveStep], by simp⟩)

/-- The two loops are not in the segment together. -/
theorem exclusive (h : ChunkStage gs src m sense w s r) :
    ¬ (s.pc.accesses = true ∧ r.pc.accesses = true) := by
  cases h <;> simp [SendPc.accesses, ReceivePc.accesses]

theorem sense_eq (h : ChunkStage gs src m sense w s r) : w.shmSenseSemaphore = sense := by
  cases h <;> rfl

theorem unread (h : ChunkStage gs src m sense w s r) : ∃ o, Unread w.history o := by
  cases h <;> exact ⟨_, by assumption⟩

/-- When the receiver has everything, the loops are done with the segment. -/
theorem done (h : ChunkStage gs src m sense w s r) (hpc : r.pc = .loop)
    (hrecv : r.received = src.length) :
    w = ⟨0, 1, sense, w.history⟩ ∧ s = ⟨.loop, src.length⟩ ∧ r = ⟨.loop, src, src.length⟩ ∧
      Unread w.history none := by
  cases h with
  | free hr hu =>
    obtain rfl := hrecv
    exact ⟨rfl, rfl, by rw [hr.eq], hu⟩
  | header hr ho hu => exact absurd hrecv ho.ne
  | data hr ho hu hh => exact absurd hrecv ho.ne
  | sent hr ho hu hh hd => exact absurd hrecv ho.ne
  | full hr ho hu hh hd => exact absurd hrecv ho.ne
  | parse hr ho hu hh hd => cases hpc
  | copy hr ho hu hd => cases hpc
  | received hr hu => cases hpc

/-- After the last chunk was copied nothing in the segment matters. -/
theorem after_last (h : ChunkStage gs src m sense w s r) (hrecv : r.received = src.length) :
    (r.pc = .loop ∨ r.pc = .post) ∧ s.pc = .loop ∧ ∀ m', ChunkStage gs src m' sense w s r := by
  cases h with
  | free hr hu => exact ⟨.inl rfl, rfl, fun _ => .free hr hu⟩
  | header hr ho hu => exact absurd hrecv ho.ne
  | data hr ho hu hh => exact absurd hrecv ho.ne
  | sent hr ho hu hh hd => exact absurd hrecv ho.ne
  | full hr ho hu hh hd => exact absurd hrecv ho.ne
  | parse hr ho hu hh hd => exact absurd hrecv ho.ne
  | copy hr ho hu hd => exact absurd hrecv ho.ne
  | received hr hu => exact ⟨.inr rfl, rfl, fun _ => .received hr hu⟩

end ChunkStage

end TinyFile
