import TinyFile.ChunkLoop

/-!
# One transfer

The stages of a whole transfer: the upload loops, the hand-over of the size of
the compressed file, and the download loops. Each step of either handler leads
to the next stage and changes no byte outside the segment.
-/
namespace TinyFile

/-- A job that a service can be asked to do. -/
structure Session extends Job where
  wellFormed : segment.WellFormed
  room : 8 < segment.total
  src_small : src.length < SizeT.modulus
  compress_pos : 0 < (compress src).length
  compress_small : (compress src).length < SizeT.modulus

namespace Session

variable (x : Session)

/-- The service's compressed string. -/
def output : List UInt8 := x.compress x.src

theorem sendable_src : Sendable x.segment x.src := ⟨x.wellFormed, x.room, x.src_small⟩

theorem sendable_output : Sendable x.segment x.output := ⟨x.wellFormed, x.room, x.compress_small⟩

end Session

namespace Transfer

variable {x : Session} {m m' : Memory} {t t' : Transfer}

/-- The client has sent everything; it may not have noticed yet. -/
def Uploaded (phase : ClientPhase) : Prop := phase = .sending .loop ∨ phase = .waitingSense

inductive Stage (x : Session) (m : Memory) : Transfer → Prop
  | upload {w : Wires} {s : Sender} {r : Receiver} {phase : ClientPhase} :
      ChunkStage x.segment x.src m 0 w s r →
      (phase = .sending s.pc ∨ phase = .waitingSense ∧ s.pc = .loop ∧ s.sent = x.src.length) →
      Stage x m ⟨w, ⟨.receiving r.pc, r.buffer, r.received, [], 0, 0⟩, ⟨phase, s.sent, 0, [], 0⟩⟩
  | compressing {history : List Traffic} {phase : ClientPhase} : Uploaded phase →
      Unread history none →
      Stage x m ⟨⟨0, 1, 0, history⟩, ⟨.compressing, x.src, x.src.length, [], 0, 0⟩,
        ⟨phase, x.src.length, 0, [], 0⟩⟩
  | draining {history : List Traffic} {phase : ClientPhase} : Uploaded phase →
      Unread history none →
      Stage x m ⟨⟨0, 1, 0, history⟩,
        ⟨.draining, x.src, x.src.length, x.output, x.output.length, 0⟩,
        ⟨phase, x.src.length, 0, [], 0⟩⟩
  | writingFile {history : List Traffic} {phase : ClientPhase} : Uploaded phase →
      Unread history none →
      Stage x m ⟨⟨0, 0, 0, history⟩,
        ⟨.writingFile, x.src, x.src.length, x.output, x.output.length, 0⟩,
        ⟨phase, x.src.length, 0, [], 0⟩⟩
  | postingFile {history : List Traffic} {phase : ClientPhase} : Uploaded phase →
      Unread history (some (.file x.output.length)) → HasHeader x.segment x.output.length m →
      Stage x m ⟨⟨0, 0, 0, history⟩,
        ⟨.postingFile, x.src, x.src.length, x.output, x.output.length, 0⟩,
        ⟨phase, x.src.length, 0, [], 0⟩⟩
  | fileReady {history : List Traffic} {phase : ClientPhase} : Uploaded phase →
      Unread history (some (.file x.output.length)) → HasHeader x.segment x.output.length m →
      Stage x m ⟨⟨0, 0, 1, history⟩,
        ⟨.sending .loop, x.src, x.src.length, x.output, x.output.length, 0⟩,
        ⟨phase, x.src.length, 0, [], 0⟩⟩
  | parsingFile {history : List Traffic} :
      Unread history (some (.file x.output.length)) → HasHeader x.segment x.output.length m →
      Stage x m ⟨⟨0, 0, 0, history⟩,
        ⟨.sending .loop, x.src, x.src.length, x.output, x.output.length, 0⟩,
        ⟨.parsingFile, x.src.length, 0, [], 0⟩⟩
  | postingParsed {history : List Traffic} : Unread history none →
      Stage x m ⟨⟨0, 0, 0, history⟩,
        ⟨.sending .loop, x.src, x.src.length, x.output, x.output.length, 0⟩,
        ⟨.postingParsed, x.src.length, x.output.length,
          List.replicate x.output.length 0, 0⟩⟩
  | download {w : Wires} {s : Sender} {r : Receiver} {sphase : ServicePhase}
      {cphase : ClientPhase} : ChunkStage x.segment x.output m 0 w s r →
      (sphase = .sending s.pc ∨ sphase = .finished ∧ s.pc = .loop ∧ s.sent = x.output.length) →
      (cphase = .receiving r.pc ∨
        cphase = .finished ∧ r.pc = .loop ∧ r.received = x.output.length) →
      Stage x m ⟨w, ⟨sphase, x.src, x.src.length, x.output, x.output.length, s.sent⟩,
        ⟨cphase, x.src.length, x.output.length, r.buffer, r.received⟩⟩

/-- What one step of a handler comes to. -/
structure Advanced (x : Session) (m : Memory) (m' : Memory) (t' : Transfer) : Prop where
  stage : Stage x m' t'
  frame : ∀ segment a, ¬ x.segment.Covers segment a → m' segment a = m segment a

theorem stage_init (x : Session) (m : Memory) : Stage x m (init x.toJob) := by
  have hr : Received x.src (List.replicate x.src.length 0) 0 :=
    ⟨by simp, Nat.zero_le _, by simp⟩
  exact .upload (.free hr .nil) (.inl rfl)

/-- Only the bytes of the segment matter. -/
theorem Stage.congr (h : Stage x m t) (hb : x.segment.bytes m' = x.segment.bytes m) :
    Stage x m' t := by
  cases h with
  | upload hc hp => exact .upload (hc.congr hb) hp
  | compressing hp hu => exact .compressing hp hu
  | draining hp hu => exact .draining hp hu
  | writingFile hp hu => exact .writingFile hp hu
  | postingFile hp hu hh => exact .postingFile hp hu (hh.congr hb)
  | fileReady hp hu hh => exact .fileReady hp hu (hh.congr hb)
  | parsingFile hu hh => exact .parsingFile hu (hh.congr hb)
  | postingParsed hu => exact .postingParsed hu
  | download hc hs hr => exact .download (hc.congr hb) hs hr

/-- While the size is handed over the service waits. -/
theorem serviceStep_waiting {w : Wires} {c : ClientHandler} (hw : w.shmServerSemaphore = 0) :
    serviceStep x.toJob m
      ⟨w, ⟨.sending .loop, x.src, x.src.length, x.output, x.output.length, 0⟩, c⟩ = none := by
  have hpos : 0 < x.output.length := x.compress_pos
  simp [serviceStep, sendStep, hw, hpos]

theorem serviceStep_stage (h : Stage x m t) (hstep : serviceStep x.toJob m t = some (m', t')) :
    Advanced x m m' t' := by
  cases h with
  | @upload w s r phase hc hp =>
    obtain ⟨pc, buffer, received⟩ := r
    have hturn := hc.receive x.sendable_src
    simp only [serviceStep, Job.fileSize] at hstep
    generalize receiveStep x.segment x.src.length m w ⟨pc, buffer, received⟩ = turn
      at hturn hstep
    cases turn with
    | blocked => cases hstep
    | threw fault => exact hturn.elim
    | stepped q =>
      cases hstep
      exact ⟨.upload hturn hp, fun _ _ _ => rfl⟩
    | exited =>
      cases hstep
      obtain ⟨hw, rfl, hr, hu⟩ := hc.done hturn.1 hturn.2
      cases hr
      rw [hw]
      refine ⟨.compressing ?_ hu, fun _ _ _ => rfl⟩
      rcases hp with hp | ⟨hp, -, -⟩
      · exact .inl hp
      · exact .inr hp
  | compressing hp hu =>
    cases hstep
    exact ⟨.draining hp hu, fun _ _ _ => rfl⟩
  | draining hp hu =>
    cases hstep
    exact ⟨.writingFile hp hu, fun _ _ _ => rfl⟩
  | writingFile hp hu =>
    obtain ⟨m₁, hw, hh, hf⟩ := write_header x.wellFormed x.room x.output.length m
    simp only [serviceStep, ShmServerFileMessage.write, hw] at hstep
    cases hstep
    exact ⟨.postingFile hp (.wrote _ hu) hh, hf⟩
  | postingFile hp hu hh =>
    cases hstep
    exact ⟨.fileReady hp hu hh, fun _ _ _ => rfl⟩
  | fileReady hp hu hh =>
    rw [serviceStep_waiting rfl] at hstep
    cases hstep
  | parsingFile hu hh =>
    rw [serviceStep_waiting rfl] at hstep
    cases hstep
  | postingParsed hu =>
    rw [serviceStep_waiting rfl] at hstep
    cases hstep
  | @download w s r sphase cphase hc hs hr =>
    obtain ⟨pc, sent⟩ := s
    rcases hs with rfl | ⟨rfl, -, -⟩
    · have hturn := hc.send x.sendable_output
      simp only [serviceStep] at hstep
      generalize sendStep x.segment x.output x.output.length m w ⟨pc, sent⟩ = turn
        at hturn hstep
      cases turn with
      | blocked => cases hstep
      | threw fault => exact hturn.elim
      | stepped q =>
        cases hstep
        exact ⟨.download hturn.1 (.inl rfl) hr, hturn.2⟩
      | exited =>
        cases hstep
        exact ⟨.download hc (.inr ⟨rfl, hturn⟩) hr, fun _ _ _ => rfl⟩
    · cases hstep

/-- While the service works alone the client can only leave its sending loop. -/
theorem clientStep_uploaded {w : Wires} {h : ServiceHandler} {phase : ClientPhase}
    (hp : Uploaded phase) (hw : w.shmSenseSemaphore = 0)
    (hstep : clientStep x.toJob m ⟨w, h, ⟨phase, x.src.length, 0, [], 0⟩⟩ = some (m', t')) :
    m' = m ∧ phase = .sending .loop ∧
      t' = ⟨w, h, ⟨.waitingSense, x.src.length, 0, [], 0⟩⟩ := by
  rcases hp with rfl | rfl
  · simp only [clientStep, sendStep, Job.fileSize, lt_irrefl, if_false, Option.some.injEq,
      Prod.mk.injEq] at hstep
    obtain ⟨rfl, rfl⟩ := hstep
    exact ⟨rfl, rfl, rfl⟩
  · simp [clientStep, hw] at hstep

theorem clientStep_stage (h : Stage x m t) (hstep : clientStep x.toJob m t = some (m', t')) :
    Advanced x m m' t' := by
  cases h with
  | @upload w s r phase hc hp =>
    obtain ⟨pc, sent⟩ := s
    rcases hp with rfl | ⟨rfl, hpc, hsent⟩
    · have hturn := hc.send x.sendable_src
      simp only [clientStep, Job.fileSize] at hstep
      generalize sendStep x.segment x.src x.src.length m w ⟨pc, sent⟩ = turn at hturn hstep
      cases turn with
      | blocked => cases hstep
      | threw fault => exact hturn.elim
      | stepped q =>
        cases hstep
        exact ⟨.upload hturn.1 (.inl rfl), hturn.2⟩
      | exited =>
        cases hstep
        exact ⟨.upload hc (.inr ⟨rfl, hturn⟩), fun _ _ _ => rfl⟩
    · simp only [clientStep, hc.sense_eq] at hstep
      simp at hstep
  | compressing hp hu =>
    obtain ⟨rfl, rfl, rfl⟩ := clientStep_uploaded hp rfl hstep
    exact ⟨.compressing (.inr rfl) hu, fun _ _ _ => rfl⟩
  | draining hp hu =>
    obtain ⟨rfl, rfl, rfl⟩ := clientStep_uploaded hp rfl hstep
    exact ⟨.draining (.inr rfl) hu, fun _ _ _ => rfl⟩
  | writingFile hp hu =>
    obtain ⟨rfl, rfl, rfl⟩ := clientStep_uploaded hp rfl hstep
    exact ⟨.writingFile (.inr rfl) hu, fun _ _ _ => rfl⟩
  | postingFile hp hu hh =>
    obtain ⟨rfl, rfl, rfl⟩ := clientStep_uploaded hp rfl hstep
    exact ⟨.postingFile (.inr rfl) hu hh, fun _ _ _ => rfl⟩
  | fileReady hp hu hh =>
    rcases hp with rfl | rfl
    · simp [clientStep, sendStep, Job.fileSize] at hstep
      obtain ⟨rfl, rfl⟩ := hstep
      exact ⟨.fileReady (.inr rfl) hu hh, fun _ _ _ => rfl⟩
    · cases hstep
      exact ⟨.parsingFile hu hh, fun _ _ _ => rfl⟩
  | parsingFile hu hh =>
    have hp : ShmServerFileMessage.parse x.segment m = .ok x.output.length :=
      parse_header x.wellFormed x.room x.compress_small hh
    simp only [clientStep, hp] at hstep
    cases hstep
    exact ⟨.postingParsed (.read hu), fun _ _ _ => rfl⟩
  | postingParsed hu =>
    cases hstep
    have hr : Received x.output (List.replicate x.output.length 0) 0 :=
      ⟨by simp, Nat.zero_le _, by simp⟩
    exact ⟨.download (.free hr hu) (.inl rfl) (.inl rfl), fun _ _ _ => rfl⟩
  | @download w s r sphase cphase hc hs hr =>
    obtain ⟨pc, buffer, received⟩ := r
    rcases hr with rfl | ⟨rfl, -, -⟩
    · have hturn := hc.receive x.sendable_output
      simp only [clientStep] at hstep
      generalize receiveStep x.segment x.output.length m w ⟨pc, buffer, received⟩ = turn
        at hturn hstep
      cases turn with
      | blocked => cases hstep
      | threw fault => exact hturn.elim
      | stepped q =>
        cases hstep
        exact ⟨.download hturn hs (.inl rfl), fun _ _ _ => rfl⟩
      | exited =>
        cases hstep
        exact ⟨.download hc hs (.inr ⟨rfl, hturn⟩), fun _ _ _ => rfl⟩
    · cases hstep

/-- A step of either handler. -/
theorem step_stage (h : Stage x m t) {side : Side} (hstep : step x.toJob m t side = some (m', t')) :
    Advanced x m m' t' := by
  cases side with
  | service => exact serviceStep_stage h hstep
  | client => exact clientStep_stage h hstep

namespace Stage

theorem exclusive (h : Stage x m t) :
    ¬ (t.service.phase.accesses = true ∧ t.client.phase.accesses = true) := by
  cases h with
  | upload hc hp =>
    rintro ⟨hs, hr⟩
    rcases hp with rfl | ⟨rfl, -⟩
    · exact hc.exclusive ⟨hr, hs⟩
    · cases hr
  | writingFile hp hu =>
    rintro ⟨-, hr⟩
    rcases hp with rfl | rfl <;> cases hr
  | download hc hs hr =>
    rintro ⟨hs', hr'⟩
    rcases hs with rfl | ⟨rfl, -⟩
    · rcases hr with rfl | ⟨rfl, -⟩
      · exact hc.exclusive ⟨hs', hr'⟩
      · cases hr'
    · cases hs'
  | _ =>
    rintro ⟨hs, -⟩
    cases hs

theorem unread (h : Stage x m t) : ∃ o, Unread t.wires.history o := by
  cases h with
  | upload hc hp => exact hc.unread
  | download hc hs hr => exact hc.unread
  | _ => exact ⟨_, by assumption⟩

theorem rawData (h : Stage x m t) (hphase : t.service.phase = .compressing) :
    t.service.rawData = x.src := by
  cases h with
  | compressing hp hu => rfl
  | download hc hs hr => rfl
  | upload hc hp => cases hphase
  | _ => rfl

/-- The client has finished: the last permit is its own, and it has the output. -/
theorem finished (h : Stage x m t) (hphase : t.client.phase = .finished) :
    t.client.compressedData = x.output ∧ t.client.compressedFileSize = x.output.length ∧
      t.service.compressedData = x.output ∧ t.service.compressedFileSize = x.output.length ∧
      Unread t.wires.history none := by
  cases h with
  | upload hc hp =>
    rcases hp with hp | ⟨hp, -⟩ <;> exact absurd (hp.symm.trans hphase) (by simp)
  | @download w s r sphase cphase hc hs hr =>
    rcases hr with hr | ⟨-, hpc, hrecv⟩
    · exact absurd (hr.symm.trans hphase) (by simp)
    · obtain ⟨-, -, rfl, hu⟩ := hc.done hpc hrecv
      exact ⟨rfl, rfl, rfl, rfl, hu⟩
  | parsingFile hu hh => cases hphase
  | postingParsed hu => cases hphase
  | _ hp =>
    rcases hp with hp | hp <;> exact absurd (hp.symm.trans hphase) (by simp)

/-- The service finishes only after the client has begun to receive. -/
theorem client_of_finished (h : Stage x m t) (hphase : t.service.phase = .finished) :
    (∃ pc, t.client.phase = .receiving pc) ∨ t.client.phase = .finished := by
  cases h with
  | download hc hs hr =>
    rcases hr with hr | ⟨hr, -⟩
    · exact .inl ⟨_, hr⟩
    · exact .inr hr
  | _ => cases hphase

theorem not_threw (h : Stage x m t) (fault : Fault) :
    t.service.phase ≠ .threw fault ∧ t.client.phase ≠ .threw fault := by
  cases h with
  | upload hc hp =>
    refine ⟨by simp, ?_⟩
    rcases hp with rfl | ⟨rfl, -⟩ <;> simp
  | download hc hs hr =>
    constructor
    · rcases hs with rfl | ⟨rfl, -⟩ <;> simp
    · rcases hr with rfl | ⟨rfl, -⟩ <;> simp
  | parsingFile hu hh => simp
  | postingParsed hu => simp
  | _ hp =>
    refine ⟨by simp, ?_⟩
    rcases hp with rfl | rfl <;> simp

/-- After the last read nothing in the segment matters. -/
theorem of_lastRead (h : Stage x m t) (hread : t.LastRead) (m' : Memory) : Stage x m' t := by
  obtain ⟨hpos, hall⟩ := hread
  cases h with
  | download hc hs hr => exact .download ((hc.after_last hall).2.2 m') hs hr
  | _ => exact absurd hpos (lt_irrefl _)

/-- After the last read neither handler is in the segment. -/
theorem no_access_of_lastRead (h : Stage x m t) (hread : t.LastRead) :
    t.service.phase.accesses = false ∧ t.client.phase.accesses = false := by
  obtain ⟨hpos, hall⟩ := hread
  cases h with
  | @download w s r sphase cphase hc hs hr =>
    obtain ⟨hrpc, hspc, -⟩ := hc.after_last hall
    constructor
    · rcases hs with rfl | ⟨rfl, -⟩
      · rw [hspc]
        rfl
      · rfl
    · rcases hr with rfl | ⟨rfl, -⟩
      · rcases hrpc with hrpc | hrpc <;> rw [hrpc] <;> rfl
      · rfl
  | _ => exact absurd hpos (lt_irrefl _)

/-- The client's steps after its last read. -/
theorem lastRead_clientStep (h : Stage x m t) (hread : t.LastRead)
    (hstep : clientStep x.toJob m t = some (m', t')) : t'.LastRead := by
  obtain ⟨hpos, hall⟩ := hread
  cases h with
  | @download w s r sphase cphase hc hs hr =>
    have hsize : r.received = x.output.length := hall
    rcases hr with rfl | ⟨rfl, -, -⟩
    · rcases (hc.after_last hall).1 with hpc | hpc
      · simp only [clientStep, receiveStep, hpc, hsize, lt_irrefl, if_false, Option.some.injEq,
          Prod.mk.injEq] at hstep
        obtain ⟨-, rfl⟩ := hstep
        exact ⟨hsize ▸ hpos, rfl⟩
      · simp only [clientStep, receiveStep, hpc, Option.some.injEq, Prod.mk.injEq] at hstep
        obtain ⟨-, rfl⟩ := hstep
        exact ⟨hpos, hall⟩
    · cases hstep
  | _ => exact absurd hpos (lt_irrefl _)

end Stage

section Progress

variable (y : Job) {pc : ReceivePc} {spc : SendPc}

theorem serviceStep_receiving (hphase : t.service.phase = .receiving pc)
    (h : receiveStep y.segment y.fileSize m t.wires
      ⟨pc, t.service.rawData, t.service.fileRecvSize⟩ ≠ .blocked) :
    (step y m t .service).isSome = true := by
  simp only [step, serviceStep, hphase]
  split
  · exact absurd (by assumption) h
  all_goals rfl

theorem serviceStep_sending (hphase : t.service.phase = .sending spc)
    (h : sendStep y.segment t.service.compressedData t.service.compressedFileSize m t.wires
      ⟨spc, t.service.fileSendSize⟩ ≠ .blocked) :
    (step y m t .service).isSome = true := by
  simp only [step, serviceStep, hphase]
  split
  · exact absurd (by assumption) h
  all_goals rfl

theorem clientStep_sending (hphase : t.client.phase = .sending spc)
    (h : sendStep y.segment y.src y.fileSize m t.wires ⟨spc, t.client.fileSendSize⟩ ≠ .blocked) :
    (step y m t .client).isSome = true := by
  simp only [step, clientStep, hphase]
  split
  · exact absurd (by assumption) h
  all_goals rfl

theorem clientStep_receiving (hphase : t.client.phase = .receiving pc)
    (h : receiveStep y.segment t.client.compressedFileSize m t.wires
      ⟨pc, t.client.compressedData, t.client.fileRecvSize⟩ ≠ .blocked) :
    (step y m t .client).isSome = true := by
  simp only [step, clientStep, hphase]
  split
  · exact absurd (by assumption) h
  all_goals rfl

/-- Unless both handlers have finished, one of them can move. -/
theorem Stage.progress (h : Stage x m t)
    (hnot : ¬ (t.service.phase = .finished ∧ t.client.phase = .finished)) :
    ∃ side, (step x.toJob m t side).isSome = true := by
  cases h with
  | @upload w s r phase hc hp =>
    rcases hc.progress with ⟨hsend, hmore⟩ | ⟨hrecv, -⟩ | ⟨-, hpc, hrecv⟩
    · rcases hp with rfl | ⟨-, hall⟩
      · exact ⟨.client, clientStep_sending x.toJob rfl hsend⟩
      · exact absurd hall hmore
    · exact ⟨.service, serviceStep_receiving x.toJob rfl hrecv⟩
    · refine ⟨.service, serviceStep_receiving x.toJob rfl ?_⟩
      simp [receiveStep, hpc, hrecv, Job.fileSize]
  | compressing hp hu => exact ⟨.service, rfl⟩
  | draining hp hu => exact ⟨.service, rfl⟩
  | writingFile hp hu =>
    refine ⟨.service, ?_⟩
    simp only [step, serviceStep]
    split <;> rfl
  | postingFile hp hu hh => exact ⟨.service, rfl⟩
  | fileReady hp hu hh =>
    refine ⟨.client, ?_⟩
    rcases hp with rfl | rfl
    · refine clientStep_sending x.toJob rfl ?_
      simp [sendStep, Job.fileSize]
    · rfl
  | parsingFile hu hh =>
    refine ⟨.client, ?_⟩
    simp only [step, clientStep]
    split <;> rfl
  | postingParsed hu => exact ⟨.client, rfl⟩
  | @download w s r sphase cphase hc hs hr =>
    rcases hc.progress with ⟨hsend, hmore⟩ | ⟨hrecv, hmore⟩ | ⟨⟨hpc, hsent⟩, hpc', hrecv⟩
    · rcases hs with rfl | ⟨-, hall⟩
      · exact ⟨.service, serviceStep_sending x.toJob rfl hsend⟩
      · exact absurd hall hmore
    · rcases hr with rfl | ⟨-, hall⟩
      · exact ⟨.client, clientStep_receiving x.toJob rfl hrecv⟩
      · exact absurd hall hmore
    · -- both loops are over, so a handler that has not finished leaves its loop
      rcases hs with rfl | ⟨rfl, -⟩
      · refine ⟨.service, serviceStep_sending x.toJob rfl ?_⟩
        simp [sendStep, hpc, hsent]
      · rcases hr with rfl | ⟨rfl, -⟩
        · refine ⟨.client, clientStep_receiving x.toJob rfl ?_⟩
          simp [receiveStep, hpc', hrecv]
        · exact absurd ⟨rfl, rfl⟩ hnot

end Progress

theorem stage_of_reachable {m : Memory} {s : Memory × Transfer}
    (h : (machine x.toJob m).Reachable s) : Stage x s.1 s.2 :=
  h.invariant (stage_init x m) (fun _ _ _ hs hstep => (step_stage hs hstep).stage)

/-- A transfer is correct under every interleaving of its two handlers. -/
theorem transfer_correct (x : Session) (m : Memory) {s : Memory × Transfer}
    (h : (machine x.toJob m).Reachable s) :
    ¬ (s.2.service.phase.accesses = true ∧ s.2.client.phase.accesses = true) ∧
    (∃ o, Unread s.2.wires.history o) ∧
    (s.2.service.phase = .compressing → s.2.service.rawData = x.src) ∧
    (s.2.client.phase = .finished →
      s.2.client.compressedData = x.compress x.src ∧
      s.2.client.compressedFileSize = (x.compress x.src).length ∧
      s.2.service.compressedData = x.compress x.src ∧
      s.2.service.compressedFileSize = (x.compress x.src).length ∧
      Unread s.2.wires.history none) ∧
    (∀ fault, s.2.service.phase ≠ .threw fault ∧ s.2.client.phase ≠ .threw fault) ∧
    (¬ (s.2.service.phase = .finished ∧ s.2.client.phase = .finished) →
      ∃ side t, (machine x.toJob m).next s side = some t) := by
  have hstage := stage_of_reachable h
  refine ⟨hstage.exclusive, hstage.unread, hstage.rawData, hstage.finished, hstage.not_threw, ?_⟩
  intro hnot
  obtain ⟨side, hside⟩ := hstage.progress hnot
  exact ⟨side, Option.isSome_iff_exists.mp hside⟩

/-- 58 bytes, of which Snappy makes the length and one literal, and a segment of two
fragments that holds 56 of them. -/
def longSession : Session where
  segment := [⟨2, 0, 64, 32⟩, ⟨0, 0, 0, 32⟩]
  src := (List.range 58).map UInt8.ofNat
  compress := fun data => 58 :: 228 :: data
  wellFormed :=
    { disjoint := by
        refine List.pairwise_pair.mpr fun segment a hcov hcov' => ?_
        have := hcov.2.1
        have := hcov'.2.2
        simp only at *
        omega
      small := by decide }
  room := by decide
  src_small := by decide
  compress_pos := by decide
  compress_small := by decide

/-- A run of the transfer to its end; each file takes two chunks. -/
def longRun : List Side := List.flatten
  [List.replicate 4 .client, List.replicate 4 .service, List.replicate 5 .client,
    List.replicate 9 .service, List.replicate 3 .client, List.replicate 4 .service,
    List.replicate 4 .client, List.replicate 5 .service, List.replicate 5 .client]

theorem transfer_correct_two_chunks : ∃ s,
    (machine longSession.toJob (fun _ _ => 0)).Reachable s ∧ s.2.client.phase = .finished ∧
      s.2.client.compressedData = 58 :: 228 :: (List.range 58).map UInt8.ofNat := by
  have hmap : ((machine longSession.toJob (fun _ _ => 0)).run
      (machine longSession.toJob (fun _ _ => 0)).start longRun).map
      (fun s => s.2.client.phase) = some .finished := by decide +kernel
  obtain ⟨s, hrun, hphase⟩ := Option.map_eq_some_iff.mp hmap
  have hs := Machine.reachable_of_run hrun
  exact ⟨s, hs, hphase, ((transfer_correct longSession _ hs).2.2.2.1 hphase).1⟩

end Transfer

end TinyFile
