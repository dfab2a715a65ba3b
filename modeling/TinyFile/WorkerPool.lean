import TinyFile.ServiceSteps
import TinyFile.Slots
import TinyFile.TransferCorrect

/-!
# What the compression workers have in hand

A worker has a size that the pool can grant, a segment that a transfer can use,
or a transfer at one of its stages. The segments that the workers hold are what
the pool has handed out.
-/
namespace TinyFile.Service

variable {κ : Type}

/-- A segment that a transfer can use. -/
structure Usable (gs : FragmentedShmSegment) : Prop where
  wellFormed : gs.WellFormed
  room : 8 < gs.total

def Worker.InOrder : Worker → Prop
  | .idle => True
  | .allocating _ requestSize =>
      requestSize % INTERNAL_REP_SIZE = 0 ∧ INTERNAL_REP_SIZE ≤ requestSize
  | .responding _ shmSegment | .sending _ shmSegment => Usable shmSegment
  | .processing _ job memory transfer =>
      ∃ x : Session, x.toJob = job ∧ Transfer.Stage x memory transfer

/-- The segments of the workers. -/
def held (s : Service κ) : List ContiguousShmSegment :=
  (s.workers.filterMap Worker.segment).flatten

structure WorkInvariant (cfg : Config) (s : Service κ) : Prop where
  same : cfg.manager.SamePool s.manager
  pool : s.manager.PoolInvariant s.held
  inOrder : ∀ pc ∈ s.workers, pc.InOrder

variable {cfg : Config} {s s' : Service κ}

theorem workInvariant_init (cfg : Config) : WorkInvariant cfg (init cfg : Service κ) where
  same := .refl _
  pool := by
    have hnone : (List.replicate cfg.serviceWorkers Worker.idle).filterMap Worker.segment = [] :=
      List.filterMap_eq_nil_iff.mpr fun pc hpc => by
        rw [List.eq_of_mem_replicate hpc]
        rfl
    have hheld : (init cfg : Service κ).held = [] := congrArg List.flatten hnone
    rw [hheld]
    exact ShmManager.poolInvariant_init (by decide) cfg.accepted
  inOrder := by
    intro pc hpc
    rw [List.eq_of_mem_replicate hpc]
    trivial

theorem WorkInvariant.rep (h : WorkInvariant cfg s) :
    s.manager.internalRepSize = INTERNAL_REP_SIZE :=
  h.same.internalRepSize.trans (ShmManager.init_fields cfg.accepted).1

theorem WorkInvariant.congr (h : WorkInvariant cfg s) (hworkers : s'.workers = s.workers)
    (hmanager : s'.manager = s.manager) : WorkInvariant cfg s' where
  same := hmanager ▸ h.same
  pool := by
    rw [held, hworkers, hmanager]
    exact h.pool
  inOrder := hworkers ▸ h.inOrder

/-- A worker goes on with the segment that it has. -/
theorem WorkInvariant.setWorker {w : ℕ} {pc pc' : Worker} (h : WorkInvariant cfg s)
    (hw : s.workers[w]? = some pc) (hpc : pc'.InOrder) (hsegment : pc'.segment = pc.segment) :
    WorkInvariant cfg (s.setWorker w pc') where
  same := h.same
  pool := by
    have hheld : (s.setWorker w pc').held = s.held :=
      congrArg List.flatten (Slots.filterMap_set Worker.segment hw hsegment)
    rw [hheld]
    exact h.pool
  inOrder := by
    intro x hx
    rcases List.mem_or_eq_of_mem_set hx with hx | rfl
    · exact h.inOrder x hx
    · exact hpc

/-- The sizes that `schedule` selects can be granted. -/
theorem WorkInvariant.inOrder_handlerShmSize (h : WorkInvariant cfg s) (request : Request)
    (requestCount fileSize : ℕ) :
    (Worker.allocating request (Scheduler.handlerShmSize s.manager requestCount
      cfg.serviceWorkers fileSize cfg.strategy)).InOrder := by
  rw [Worker.InOrder, Scheduler.handlerShmSize_eq, h.rep]
  have hpos : 0 < Scheduler.grantedBlocks s.manager requestCount cfg.serviceWorkers fileSize := by
    rw [Scheduler.grantedBlocks]
    omega
  exact ⟨Nat.mul_mod_right _ _, Nat.le_mul_of_pos_right _ hpos⟩

/-- A worker that waits for memory only gets what a transfer can use. -/
theorem WorkInvariant.grant {w requestSize : ℕ} {request : Request} (h : WorkInvariant cfg s)
    (hw : s.workers[w]? = some (.allocating request requestSize)) :
    s.manager.getShmSegment requestSize = .ok none ∨
      ∃ gs m, s.manager.getShmSegment requestSize = .ok (some (gs, m)) ∧
        WorkInvariant cfg { s.setWorker w (.responding request gs) with manager := m } := by
  obtain ⟨hdvd, hsize⟩ := h.inOrder _ (List.mem_of_getElem? hw)
  rw [← h.rep] at hdvd
  by_cases hlt : s.manager.availableSize < requestSize
  · refine Or.inl ?_
    rw [ShmManager.getShmSegment, if_neg (by omega), if_pos hlt]
  · obtain ⟨gs, m, hgrant, hlen, hpool, hsame⟩ :=
      ShmManager.getShmSegment_spec h.pool hdvd (by omega)
    have htotal : gs.total = m.internalRepSize * gs.length :=
      ShmManager.total_of_sizes fun g hg => hpool.size_of_held (List.mem_append_left _ hg)
    have hroom : 8 < gs.total := by
      rw [htotal, hsame.internalRepSize, hlen]
      exact lt_of_lt_of_le (by decide) hsize
    refine Or.inr ⟨gs, m, hgrant, h.same.trans hsame, ?_, fun x hx => ?_⟩
    · have hold := Slots.perm_get Worker.segment hw
      have hnew := Slots.perm_set Worker.segment hw (.responding request gs)
      exact hpool.perm (hnew.trans (hold.symm.cons gs)).flatten.symm
    · rcases List.mem_or_eq_of_mem_set hx with hx | rfl
      · exact h.inOrder x hx
      · exact ⟨hpool.wellFormed, hroom⟩

/-- A worker gives its segment back. -/
theorem WorkInvariant.release {w : ℕ} {request : Request} {job : Job} {memory : Memory}
    {transfer : Transfer} (h : WorkInvariant cfg s)
    (hw : s.workers[w]? = some (.processing request job memory transfer)) :
    WorkInvariant cfg { s.setWorker w .idle with
      manager := s.manager.releaseShmSegment job.segment.getSegmentIds } where
  same := h.same.trans (ShmManager.samePool_release _ _)
  pool := by
    have hold := Slots.perm_get Worker.segment hw
    have hnew := Slots.perm_set Worker.segment hw .idle
    have hheld : s.held.Perm (job.segment ++ (s.setWorker w .idle).held) :=
      (hold.trans (hnew.symm.cons job.segment)).flatten
    exact (h.pool.perm hheld).release
  inOrder := by
    intro x hx
    rcases List.mem_or_eq_of_mem_set hx with hx | rfl
    · exact h.inOrder x hx
    · trivial

/-- A response that has been sent starts a transfer. -/
theorem inOrder_init (cfg : Config) {gs : FragmentedShmSegment} (h : Usable gs) {src : List UInt8}
    (hsmall : src.length < SizeT.modulus) (request : Request) (memory : Memory) :
    (Worker.processing request ⟨gs, src, cfg.compress⟩ memory
      (Transfer.init ⟨gs, src, cfg.compress⟩)).InOrder := by
  let x : Session :=
    { segment := gs
      src := src
      compress := cfg.compress
      wellFormed := h.wellFormed
      room := h.room
      src_small := hsmall
      compress_pos := cfg.compress_pos src hsmall
      compress_small := cfg.compress_small src hsmall }
  exact ⟨x, rfl, Transfer.stage_init x memory⟩

/-- Neither handler of a worker's exchange throws. -/
theorem Worker.InOrder.serviceStep {request : Request} {job : Job} {memory m : Memory}
    {transfer t : Transfer} (h : (Worker.processing request job memory transfer).InOrder)
    (hstep : Transfer.serviceStep job memory transfer = some (m, t)) :
    (Worker.processing request job m t).InOrder ∧ t.service.phase.fault = none := by
  obtain ⟨x, rfl, hstage⟩ := h
  have hstage' := (Transfer.serviceStep_stage hstage hstep).1
  refine ⟨⟨x, rfl, hstage'⟩, ?_⟩
  unfold ServicePhase.fault
  split
  · next fault hphase => exact absurd hphase (hstage'.not_threw fault).1
  · rfl

theorem Worker.InOrder.clientStep {request : Request} {job : Job} {memory m : Memory}
    {transfer t : Transfer} (h : (Worker.processing request job memory transfer).InOrder)
    (hstep : Transfer.clientStep job memory transfer = some (m, t)) :
    (Worker.processing request job m t).InOrder := by
  obtain ⟨x, rfl, hstage⟩ := h
  exact ⟨x, rfl, (Transfer.clientStep_stage hstage hstep).1⟩

end TinyFile.Service
