import TinyFile.Flow
import TinyFile.SystemInvariant

/-!
# How long a transfer takes

Each handler counts down its own steps: four for a chunk, one to leave a loop,
and those that hand over the size of the compressed file. How the two take turns
does not matter, so all complete runs have one length.
-/
namespace TinyFile

/-- The chunks that `size` bytes are sent in. -/
def chunks (gs : FragmentedShmSegment) (size : ℕ) : ℕ :=
  (size + (gs.total - 8) - 1) / (gs.total - 8)

/-- The steps that a sending loop has still to take. -/
def Sender.left (gs : FragmentedShmSegment) (size : ℕ) (s : Sender) : ℕ :=
  match s.pc with
  | .loop => 4 * chunks gs (size - s.sent)
  | .header => 4 * chunks gs (size - s.sent) - 1
  | .data _ => 4 * chunks gs (size - s.sent) - 2
  | .post => 4 * chunks gs (size - s.sent) + 1

def Receiver.left (gs : FragmentedShmSegment) (size : ℕ) (r : Receiver) : ℕ :=
  match r.pc with
  | .loop => 4 * chunks gs (size - r.received)
  | .parse => 4 * chunks gs (size - r.received) - 1
  | .copy _ => 4 * chunks gs (size - r.received) - 2
  | .post => 4 * chunks gs (size - r.received) + 1

section Chunks

variable {gs : FragmentedShmSegment} {src : List UInt8} {m : Memory} {sense o : ℕ} {w : Wires}
  {s : Sender} {r : Receiver}

theorem chunks_zero (hroom : 8 < gs.total) : chunks gs 0 = 0 :=
  Nat.div_eq_of_lt (by omega)

/-- The next chunk is one of those left. -/
theorem chunks_next (hroom : 8 < gs.total) (ho : o < src.length) :
    chunks gs (src.length - o) = chunks gs (src.length - (o + (chunk gs src o).length)) + 1 := by
  have hpos : 0 < gs.total - 8 := by omega
  rw [length_chunk, chunks, chunks]
  set p := gs.total - 8 with hp
  rcases le_total (src.length - o) p with hle | hle
  · have hlast : src.length - (o + min (src.length - o) p) = 0 := by omega
    rw [hlast, Nat.div_eq_of_lt (by omega : 0 + p - 1 < p)]
    exact Nat.div_eq_of_lt_le (by omega) (by omega)
  · have hrest : src.length - (o + min (src.length - o) p) + p - 1 = src.length - o - 1 := by omega
    have hmore : src.length - o + p - 1 = src.length - o - 1 + p := by omega
    rw [hrest, hmore, Nat.add_div_right _ hpos]

theorem ChunkStage.left_send (hs : Sendable gs src) (h : ChunkStage gs src m sense w s r) :
    (sendStep gs src src.length m w s).Meets (s.left gs src.length = 0) (fun t =>
      t.2.2.left gs src.length + 1 = s.left gs src.length) := by
  have hwaits : ∀ {o : ℕ} {w : Wires}, w.shmServerSemaphore = 0 → o ≤ src.length →
      (sendStep gs src src.length m w ⟨.loop, o⟩).Meets
        (Sender.left gs src.length ⟨.loop, o⟩ = 0) (fun t =>
          t.2.2.left gs src.length + 1 = Sender.left gs src.length ⟨.loop, o⟩) := by
    intro o w hw ho
    simp only [sendStep, hw]
    split_ifs with hmore hpermit
    · simp at hpermit
    · trivial
    · have hall : src.length - o = 0 := by omega
      simp only [Turn.Meets, Sender.left, hall, chunks_zero hs.room]
  cases h with
  | @free o buffer history hr hu =>
    simp only [sendStep]
    split_ifs with hmore hpermit
    · have hnext := chunks_next hs.room hmore
      simp only [Turn.Meets, Sender.left]
      omega
    · trivial
    · have hall : src.length - o = 0 := by omega
      simp only [Turn.Meets, Sender.left, hall, chunks_zero hs.room]
  | @header o buffer history hr ho hu =>
    obtain ⟨m', hw, -, -⟩ := write_header hs.wellFormed hs.room (chunk gs src o).length m
    have hnext := chunks_next hs.room ho
    simp only [sendStep, chunkSize_eq hs ho.le, ShmDataMessage.writeHeader,
      ShmDataMessage.headerSize, hw, take_chunk, Turn.Meets, Sender.left]
    omega
  | @data o buffer history hr ho hu hh =>
    obtain ⟨m', hw, -, -, -⟩ := write_data hs.wellFormed (chunk_fits (o := o) hs) hh
    have hsum : SizeT.add o (chunk gs src o).length = o + (chunk gs src o).length := by
      apply SizeT.add_of_lt
      have hle : o + (chunk gs src o).length ≤ src.length := add_length_chunk_le ho.le
      have hsmall := hs.small
      omega
    have hnext := chunks_next hs.room ho
    simp only [sendStep, take_chunk, hw, hsum, Turn.Meets, Sender.left]
    omega
  | sent hr ho hu hh hd => simp only [sendStep, Turn.Meets, Sender.left]
  | full hr ho hu hh hd => exact hwaits rfl (add_length_chunk_le ho.le)
  | parse hr ho hu hh hd => exact hwaits rfl (add_length_chunk_le ho.le)
  | copy hr ho hu hd => exact hwaits rfl (add_length_chunk_le ho.le)
  | received hr hu => exact hwaits rfl hr.le

theorem ChunkStage.left_receive (hs : Sendable gs src) (h : ChunkStage gs src m sense w s r) :
    (receiveStep gs src.length m w r).Meets (r.left gs src.length = 0) (fun t =>
      t.2.left gs src.length + 1 = r.left gs src.length) := by
  have hwaits : ∀ {o : ℕ} {buffer : List UInt8} {w : Wires}, w.shmClientSemaphore = 0 →
      o ≤ src.length → (receiveStep gs src.length m w ⟨.loop, buffer, o⟩).Meets
        (Receiver.left gs src.length ⟨.loop, buffer, o⟩ = 0) (fun t =>
          t.2.left gs src.length + 1 = Receiver.left gs src.length ⟨.loop, buffer, o⟩) := by
    intro o buffer w hw ho
    simp only [receiveStep, hw]
    split_ifs with hmore hpermit
    · simp at hpermit
    · trivial
    · have hall : src.length - o = 0 := by omega
      simp only [Turn.Meets, Receiver.left, hall, chunks_zero hs.room]
  cases h with
  | free hr hu => exact hwaits rfl hr.le
  | header hr ho hu => exact hwaits rfl hr.le
  | data hr ho hu hh => exact hwaits rfl hr.le
  | sent hr ho hu hh hd => exact hwaits rfl hr.le
  | @full o buffer history hr ho hu hh hd =>
    have hnext := chunks_next hs.room ho
    simp only [receiveStep]
    rw [if_pos ho, if_pos one_pos]
    simp only [Turn.Meets, Receiver.left]
    omega
  | @parse o buffer history hr ho hu hh hd =>
    have hsmall : (chunk gs src o).length < SizeT.modulus := by
      have hle : o + (chunk gs src o).length ≤ src.length := add_length_chunk_le ho.le
      have hsrc := hs.small
      omega
    have hp : ShmDataMessage.parse gs m = .ok (chunk gs src o).length :=
      parse_header hs.wellFormed hs.room hsmall hh
    have hnext := chunks_next hs.room ho
    simp only [receiveStep, hp, Turn.Meets, Receiver.left]
    omega
  | @copy o buffer history hr ho hu hd =>
    have hle : o + (chunk gs src o).length ≤ src.length := add_length_chunk_le ho.le
    have hsrc := hs.small
    have hc : ShmDataMessage.copyData gs (chunk gs src o).length (SizeT.sub src.length o) m =
        .ok (chunk gs src o) := by
      apply copy_data hs.wellFormed (chunk_fits hs) hd
      rw [SizeT.sub_of_le ho.le hsrc]
      omega
    have hsum : SizeT.add o (chunk gs src o).length = o + (chunk gs src o).length :=
      SizeT.add_of_lt (by omega)
    have hnext := chunks_next hs.room ho
    simp only [receiveStep, hc, hsum, Turn.Meets, Receiver.left]
    omega
  | received hr hu => simp only [receiveStep, Turn.Meets, Receiver.left]

end Chunks

namespace Transfer

variable {x : Session} {m m' : Memory} {t t' : Transfer}

/-- The steps that the service has still to take. -/
def serviceLeft (y : Job) (t : Transfer) : ℕ :=
  let download := 4 * chunks y.segment (y.compress y.src).length + 1
  match t.service.phase with
  | .receiving pc =>
      Receiver.left y.segment y.src.length ⟨pc, t.service.rawData, t.service.fileRecvSize⟩ + 5 +
        download
  | .compressing => 4 + download
  | .draining => 3 + download
  | .writingFile => 2 + download
  | .postingFile => 1 + download
  | .sending pc => Sender.left y.segment (y.compress y.src).length ⟨pc, t.service.fileSendSize⟩ + 1
  | .finished => 0
  | .threw _ => 0

/-- The steps that the client has still to take. -/
def clientLeft (y : Job) (t : Transfer) : ℕ :=
  let download := 4 * chunks y.segment (y.compress y.src).length + 1
  match t.client.phase with
  | .sending pc =>
      Sender.left y.segment y.src.length ⟨pc, t.client.fileSendSize⟩ + 4 + download
  | .waitingSense => 3 + download
  | .parsingFile => 2 + download
  | .postingParsed => 1 + download
  | .receiving pc =>
      Receiver.left y.segment (y.compress y.src).length
        ⟨pc, t.client.compressedData, t.client.fileRecvSize⟩ + 1
  | .finished => 0
  | .threw _ => 0

theorem serviceLeft_init (y : Job) : serviceLeft y (init y) =
    4 * (chunks y.segment y.src.length + chunks y.segment (y.compress y.src).length) + 6 := by
  simp only [serviceLeft, init, Receiver.left, Nat.sub_zero]
  omega

theorem clientLeft_init (y : Job) : clientLeft y (init y) =
    4 * (chunks y.segment y.src.length + chunks y.segment (y.compress y.src).length) + 5 := by
  simp only [clientLeft, init, Sender.left, Nat.sub_zero]
  omega

theorem serviceStep_left (h : Stage x m t) (hstep : serviceStep x.toJob m t = some (m', t')) :
    serviceLeft x.toJob t' + 1 = serviceLeft x.toJob t := by
  cases h with
  | @upload w s r phase hc hp =>
    obtain ⟨pc, buffer, received⟩ := r
    have hturn := hc.left_receive x.sendable_src
    simp only [serviceStep, Job.fileSize] at hstep
    generalize receiveStep x.segment x.src.length m w ⟨pc, buffer, received⟩ = turn
      at hturn hstep
    cases turn with
    | blocked => cases hstep
    | threw fault => exact hturn.elim
    | stepped q =>
      obtain ⟨w', pc', buffer', received'⟩ := q
      cases hstep
      simp only [Turn.Meets] at hturn
      simp only [serviceLeft]
      omega
    | exited =>
      cases hstep
      simp only [Turn.Meets] at hturn
      simp only [serviceLeft, hturn]
      omega
  | compressing hp hu =>
    cases hstep
    simp only [serviceLeft]
    omega
  | draining hp hu =>
    cases hstep
    simp only [serviceLeft]
    omega
  | writingFile hp hu =>
    obtain ⟨m₁, hw, -, -⟩ := write_header x.wellFormed x.room x.output.length m
    simp only [serviceStep, ShmServerFileMessage.write, hw] at hstep
    cases hstep
    simp only [serviceLeft]
    omega
  | postingFile hp hu hh =>
    cases hstep
    simp only [serviceLeft, Sender.left, Nat.sub_zero]
    omega
  | fileReady hp hu hh =>
    rw [serviceStep_waiting rfl] at hstep
    cases hstep
  | parsingFile hu hh =>
    rw [serviceStep_waiting rfl] at hstep
    cases hstep
  | postingParsed hu =>
    rw [serviceStep_waiting rfl] at hstep
    cases hstep
  | @download w s r sphase cphase hc hs hr =>
    obtain ⟨pc, sent⟩ := s
    rcases hs with rfl | ⟨rfl, -, -⟩
    · have hturn := hc.left_send x.sendable_output
      simp only [serviceStep] at hstep
      generalize sendStep x.segment x.output x.output.length m w ⟨pc, sent⟩ = turn
        at hturn hstep
      cases turn with
      | blocked => cases hstep
      | threw fault => exact hturn.elim
      | stepped q =>
        obtain ⟨m₁, w', pc', sent'⟩ := q
        cases hstep
        simp only [Turn.Meets, Session.output] at hturn
        simp only [serviceLeft]
        omega
      | exited =>
        cases hstep
        simp only [Turn.Meets, Session.output] at hturn
        simp only [serviceLeft, hturn]
    · cases hstep

theorem clientStep_left (h : Stage x m t) (hstep : clientStep x.toJob m t = some (m', t')) :
    clientLeft x.toJob t' + 1 = clientLeft x.toJob t := by
  have huploaded : ∀ {w : Wires} {h : ServiceHandler} {phase : ClientPhase}, Uploaded phase →
      w.shmSenseSemaphore = 0 →
      clientStep x.toJob m ⟨w, h, ⟨phase, x.src.length, 0, [], 0⟩⟩ = some (m', t') →
      clientLeft x.toJob t' + 1 = clientLeft x.toJob ⟨w, h, ⟨phase, x.src.length, 0, [], 0⟩⟩ := by
    intro w h phase hp hw hstep
    obtain ⟨-, rfl, rfl⟩ := clientStep_uploaded hp hw hstep
    simp only [clientLeft, Sender.left, Nat.sub_self, chunks_zero x.room]
    omega
  cases h with
  | @upload w s r phase hc hp =>
    obtain ⟨pc, sent⟩ := s
    rcases hp with rfl | ⟨rfl, hpc, hsent⟩
    · have hturn := hc.left_send x.sendable_src
      simp only [clientStep, Job.fileSize] at hstep
      generalize sendStep x.segment x.src x.src.length m w ⟨pc, sent⟩ = turn at hturn hstep
      cases turn with
      | blocked => cases hstep
      | threw fault => exact hturn.elim
      | stepped q =>
        obtain ⟨m₁, w', pc', sent'⟩ := q
        cases hstep
        simp only [Turn.Meets] at hturn
        simp only [clientLeft]
        omega
      | exited =>
        cases hstep
        simp only [Turn.Meets] at hturn
        simp only [clientLeft, hturn]
        omega
    · simp only [clientStep, hc.sense_eq] at hstep
      simp at hstep
  | compressing hp hu => exact huploaded hp rfl hstep
  | draining hp hu => exact huploaded hp rfl hstep
  | writingFile hp hu => exact huploaded hp rfl hstep
  | postingFile hp hu hh => exact huploaded hp rfl hstep
  | fileReady hp hu hh =>
    rcases hp with rfl | rfl
    · simp [clientStep, sendStep, Job.fileSize] at hstep
      obtain ⟨rfl, rfl⟩ := hstep
      simp only [clientLeft, Sender.left, Nat.sub_self, chunks_zero x.room]
      omega
    · cases hstep
      simp only [clientLeft]
      omega
  | parsingFile hu hh =>
    have hp : ShmServerFileMessage.parse x.segment m = .ok x.output.length :=
      parse_header x.wellFormed x.room x.compress_small hh
    simp only [clientStep, hp] at hstep
    cases hstep
    simp only [clientLeft]
    omega
  | postingParsed hu =>
    cases hstep
    simp only [clientLeft, Receiver.left, Nat.sub_zero]
    omega
  | @download w s r sphase cphase hc hs hr =>
    obtain ⟨pc, buffer, received⟩ := r
    rcases hr with rfl | ⟨rfl, -, -⟩
    · have hturn := hc.left_receive x.sendable_output
      simp only [clientStep] at hstep
      generalize receiveStep x.segment x.output.length m w ⟨pc, buffer, received⟩ = turn
        at hturn hstep
      cases turn with
      | blocked => cases hstep
      | threw fault => exact hturn.elim
      | stepped q =>
        obtain ⟨w', pc', buffer', received'⟩ := q
        cases hstep
        simp only [Turn.Meets, Session.output] at hturn
        simp only [clientLeft]
        omega
      | exited =>
        cases hstep
        simp only [Turn.Meets, Session.output] at hturn
        simp only [clientLeft, hturn]
    · cases hstep

theorem clientStep_service {y : Job} (h : clientStep y m t = some (m', t')) :
    t'.service = t.service := by
  simp only [clientStep] at h
  repeat' split at h
  all_goals cases h <;> rfl

theorem step_serviceLeft (h : Stage x m t) {side : Side}
    (hstep : step x.toJob m t side = some (m', t')) :
    serviceLeft x.toJob t' + (if (side == .service) = true then 1 else 0) =
      serviceLeft x.toJob t := by
  cases side with
  | service => exact serviceStep_left h hstep
  | client =>
    have hservice := clientStep_service hstep
    simp only [serviceLeft, hservice, add_zero, reduceCtorEq, beq_iff_eq, if_false]

theorem step_clientLeft (h : Stage x m t) {side : Side}
    (hstep : step x.toJob m t side = some (m', t')) :
    clientLeft x.toJob t' + (if (side == .client) = true then 1 else 0) = clientLeft x.toJob t := by
  cases side with
  | service =>
    have hclient := System.serviceStep_client hstep
    simp only [clientLeft, hclient, add_zero, reduceCtorEq, beq_iff_eq, if_false]
  | client => exact clientStep_left h hstep

/-- Every step of either handler takes one off. -/
theorem step_left (h : Stage x m t) (side : Side)
    (hstep : step x.toJob m t side = some (m', t')) :
    serviceLeft x.toJob t' + clientLeft x.toJob t' + 1 =
      serviceLeft x.toJob t + clientLeft x.toJob t := by
  have hservice := step_serviceLeft h hstep
  have hclient := step_clientLeft h hstep
  cases side with
  | service =>
    rw [if_pos (by decide)] at hservice
    rw [if_neg (by decide)] at hclient
    omega
  | client =>
    rw [if_neg (by decide)] at hservice
    rw [if_pos (by decide)] at hclient
    omega

theorem serviceLeft_eq_zero (h : Stage x m t) :
    serviceLeft x.toJob t = 0 ↔ t.service.phase = .finished := by
  cases h with
  | download hc hs hr =>
    rcases hs with rfl | ⟨rfl, -, -⟩ <;> simp [serviceLeft]
  | _ => simp [serviceLeft]

theorem clientLeft_eq_zero (h : Stage x m t) :
    clientLeft x.toJob t = 0 ↔ t.client.phase = .finished := by
  cases h with
  | upload hc hp => rcases hp with rfl | ⟨rfl, -, -⟩ <;> simp [clientLeft]
  | download hc hs hr =>
    rcases hr with rfl | ⟨rfl, -, -⟩ <;> simp [clientLeft]
  | parsingFile hu hh => simp [clientLeft]
  | postingParsed hu => simp [clientLeft]
  | _ hp => rcases hp with rfl | rfl <;> simp [clientLeft]

/-- Neither handler can move exactly when both have finished. -/
theorem stuck_iff (h : Stage x m t) :
    (∀ side, step x.toJob m t side = none) ↔ serviceLeft x.toJob t + clientLeft x.toJob t = 0 := by
  rw [Nat.add_eq_zero_iff, serviceLeft_eq_zero h, clientLeft_eq_zero h]
  constructor
  · intro hstuck
    by_contra hnot
    obtain ⟨side, hside⟩ := h.progress hnot
    simp [hstuck side] at hside
  · rintro ⟨hservice, hclient⟩ side
    cases side with
    | service => simp only [step, serviceStep, hservice]
    | client => simp only [step, clientStep, hclient]

/-- The steps of a run and those left make up the length of the transfer. -/
theorem count_add_left {s : Memory × Transfer} {es : List Side}
    (h : (machine x.toJob m).RunIf (fun _ _ => True) (machine x.toJob m).start es s) :
    es.count .service + serviceLeft x.toJob s.2 =
        4 * (chunks x.segment x.src.length + chunks x.segment x.output.length) + 6 ∧
      es.count .client + clientLeft x.toJob s.2 =
        4 * (chunks x.segment x.src.length + chunks x.segment x.output.length) + 5 := by
  have hinv : ∀ (s : Memory × Transfer) (side : Side) (u : Memory × Transfer), Stage x s.1 s.2 →
      (machine x.toJob m).next s side = some u → True → Stage x u.1 u.2 :=
    fun _ _ _ hs hnext _ => (step_stage hs hnext).stage
  have hservice := serviceLeft_init x.toJob
  have hclient := clientLeft_init x.toJob
  rw [← Session.output] at hservice hclient
  rw [← hservice, ← hclient]
  constructor
  · exact h.countdown (fun s => Stage x s.1 s.2) (fun s => serviceLeft x.toJob s.2)
      (· == .service) hinv
      (fun _ _ _ hs hnext _ => step_serviceLeft hs hnext) (stage_init x m)
  · exact h.countdown (fun s => Stage x s.1 s.2) (fun s => clientLeft x.toJob s.2)
      (· == .client) hinv
      (fun _ _ _ hs hnext _ => step_clientLeft hs hnext) (stage_init x m)

/-- Whatever the order, the service takes six steps, the client five, and both
four for each chunk of either file; the transfer cannot end before, nor go on. -/
theorem transfer_length (x : Session) (m : Memory) {s : Memory × Transfer} {es : List Side}
    (h : (machine x.toJob m).RunIf (fun _ _ => True) (machine x.toJob m).start es s) :
    let n := 4 * (chunks x.segment x.src.length + chunks x.segment x.output.length)
    es.count .service ≤ n + 6 ∧ es.count .client ≤ n + 5 ∧
    (s.2.service.phase = .finished ↔ es.count .service = n + 6) ∧
    (s.2.client.phase = .finished ↔ es.count .client = n + 5) ∧
    ((∀ side, (machine x.toJob m).next s side = none) ↔ es.length = 2 * n + 11) := by
  intro n
  obtain ⟨hservice, hclient⟩ := count_add_left h
  have hstage : Stage x s.1 s.2 := stage_of_reachable (Machine.ReachableIf.start.append h)
  have hlength : es.length = es.count .service + es.count .client := by
    rw [List.length_eq_countP_add_countP (· == Side.service)]
    congr 1
    refine List.countP_congr (fun side _ => ?_)
    cases side <;> decide
  refine ⟨by omega, by omega, ?_, ?_, ?_⟩
  · rw [← serviceLeft_eq_zero hstage]
    omega
  · rw [← clientLeft_eq_zero hstage]
    omega
  · refine (stuck_iff hstage).trans ?_
    omega

theorem transfer_length_two_chunks : ∃ s,
    (machine longSession.toJob (fun _ _ => 0)).RunIf (fun _ _ => True)
      (machine longSession.toJob (fun _ _ => 0)).start longRun s ∧
    (∀ side, (machine longSession.toJob (fun _ _ => 0)).next s side = none) ∧
    s.2.service.phase = .finished := by
  have hsome : ((machine longSession.toJob (fun _ _ => 0)).run
      (machine longSession.toJob (fun _ _ => 0)).start longRun).isSome = true :=
    by decide +kernel
  obtain ⟨s, hrun⟩ := Option.isSome_iff_exists.mp hsome
  have hs := Machine.RunIf.of_run hrun
  obtain ⟨-, -, hservice, -, hstuck⟩ := transfer_length longSession (fun _ _ => 0) hs
  exact ⟨s, hs, hstuck.mpr (by decide +kernel), hservice.mpr (by decide +kernel)⟩

end Transfer

end TinyFile
