import TinyFile.CircularWait
import TinyFile.ClientPool
import TinyFile.Exclusivity
import TinyFile.GrantableSize

/-!
# Processes that never throw

What can end a process of the system: a pool that cannot have the selected size, a
response that is too large for its queue, a response that the client's manager
refuses, a header that the other side has overwritten, and the `int` that numbers a
client's requests. The first two depend on the pool and on the load alone, the next
two on the order in which the two sides give a segment back, the last on the number
of calls.
-/
namespace TinyFile

/-- A service that can serve every request of its clients, which are the first
`k` ones. A client without workers never sends a request. -/
structure Config.Serviceable (cfg : Config) (k : ℕ) : Prop where
  segment : 1 ≤ cfg.manager.numInternalSegments
  size : cfg.manager.size < 2 ^ 63
  workers : 2 ≤ cfg.serviceWorkers
  response : Scheduler.blocks cfg.manager (cfg.manager.size / cfg.serviceWorkers) ≤ 1532
  only : ∀ c, k ≤ c → cfg.numWorkers c = 0
  room : ∀ c, cfg.numWorkers c ≤ CLIENT_MAX_MSG
  load : k * CLIENT_MAX_MSG + cfg.serviceWorkers < 2 ^ 64

namespace System

/-- The step is not a call that uses up the client's request ids. -/
def numbersCall (s : System) : Event → Bool
  | .submit c _ => decide ((s.clients c).nextRequestId < INT_MAX)
  | _ => true

/-- A step that neither destroys a handler before its client's last read, nor gives a
client a segment that it still holds, nor uses up a client's request ids. -/
def harmless (s : System) (ev : Event) : Bool :=
  s.awaitsLastRead ev && s.grantsReleased ev && s.numbersCall ev

variable {cfg : Config} {k : ℕ} {s s' : System}

theorem harmless_cases {ev : Event} (h : s.harmless ev = true) :
    s.awaitsLastRead ev = true ∧ s.grantsReleased ev = true ∧ s.numbersCall ev = true := by
  obtain ⟨hboth, hids⟩ := Bool.and_eq_true_iff.mp h
  exact ⟨(Bool.and_eq_true_iff.mp hboth).1, (Bool.and_eq_true_iff.mp hboth).2, hids⟩

theorem invariants_of_reachable
    (h : (machine cfg).ReachableIf (fun s ev => s.harmless ev = true) s) :
    Undisturbed cfg s ∧ ClientPools cfg s := by
  constructor
  · exact (undisturbed_of_reachable (h.mono fun s ev hok => (harmless_cases hok).1)).2
  · exact clientPools_of_reachable (h.mono fun s ev hok => (harmless_cases hok).2.1)

/-- The requests that wait are not more than the clients can have in flight. -/
theorem InFlight.pending_length_le (hcfg : cfg.Serviceable k) (h : InFlight cfg s) :
    s.pending.length ≤ k * CLIENT_MAX_MSG := by
  refine (h.pending_length_le_sum hcfg.only).trans ?_
  have hsum := Finset.sum_le_card_nsmul (Finset.range k) cfg.numWorkers CLIENT_MAX_MSG
    fun c _ => hcfg.room c
  rwa [Finset.card_range, smul_eq_mul] at hsum

/-- Whatever the load, the size that is selected for a request can be granted, and
the response that names its segments fits the queue. -/
theorem Config.Serviceable.selected (hcfg : cfg.Serviceable k)
    (hsame : cfg.manager.SamePool s.manager) {pending : ℕ} (fileSize : ℕ)
    (hpending : pending ≤ k * CLIENT_MAX_MSG) :
    cfg.manager.Grantable (Scheduler.handlerShmSize s.manager pending cfg.serviceWorkers fileSize
        cfg.strategy) ∧
      Scheduler.handlerShmSize s.manager pending cfg.serviceWorkers fileSize cfg.strategy ≤
        INTERNAL_REP_SIZE * 1532 := by
  have hrep := config_rep cfg
  have hload : pending + cfg.serviceWorkers < 2 ^ 64 :=
    lt_of_le_of_lt (Nat.add_le_add_right hpending _) hcfg.load
  have hlayout := (ShmManager.poolInvariant_init (by decide) cfg.accepted).layout
  have hsize : Scheduler.handlerShmSize s.manager pending cfg.serviceWorkers fileSize cfg.strategy =
      Scheduler.handlerShmSize cfg.manager pending cfg.serviceWorkers fileSize cfg.strategy := by
    rw [Scheduler.handlerShmSize_eq, Scheduler.handlerShmSize_eq, Scheduler.grantedBlocks,
      Scheduler.grantedBlocks, Scheduler.blocks, Scheduler.blocks, Scheduler.blocks,
      Scheduler.blocks, hsame.internalRepSize, hsame.size]
  rw [hsize]
  refine ⟨Scheduler.grantable_handlerShmSize hrep hlayout.count hcfg.segment hcfg.size
    hcfg.workers hload fileSize cfg.strategy, ?_⟩
  have hdiv : cfg.manager.size / SizeT.add pending cfg.serviceWorkers ≤
      cfg.manager.size / cfg.serviceWorkers := by
    rw [SizeT.add_of_lt hload]
    exact Nat.div_le_div_left (by omega) (by have := hcfg.workers; omega)
  have hsmall : cfg.manager.size / cfg.serviceWorkers + cfg.manager.internalRepSize <
      SizeT.modulus := by
    have hle := Nat.div_le_self cfg.manager.size cfg.serviceWorkers
    have hlt := hcfg.size
    rw [hrep, INTERNAL_REP_SIZE, SizeT.modulus]
    omega
  have hblocks := (Scheduler.blocks_le (by rw [hrep]; decide) hdiv hsmall).trans hcfg.response
  rw [Scheduler.handlerShmSize_eq, hrep]
  exact Nat.mul_le_mul_left _ (max_le (by decide) ((min_le_left _ _).trans hblocks))

/-- No process has ended, and what the workers of the service hold can go on. -/
structure Sound (cfg : Config) (s : System) : Prop where
  fault : s.fault = none
  clientFault : ∀ c, (s.clients c).fault = none
  allocating : ∀ r requestSize, .allocating r requestSize ∈ s.workers →
    cfg.manager.Grantable requestSize ∧ requestSize ≤ INTERNAL_REP_SIZE * 1532
  responding : ∀ n e, .responding n ∈ s.workers → s.exchanges[n]? = some e →
    e.segment.length ≤ 1532

theorem sound_init (cfg : Config) : Sound cfg (init cfg) where
  fault := rfl
  clientFault := fun _ => rfl
  allocating := fun _ _ h => by cases List.eq_of_mem_replicate h
  responding := fun _ _ h => by cases List.eq_of_mem_replicate h

theorem Sound.setClient {c : ℕ} {h' : Client} (h : Sound cfg s) (hfault : h'.fault = none) :
    Sound cfg (s.setClient c h') where
  fault := h.fault
  clientFault := by
    intro d
    by_cases hd : d = c
    · subst hd
      rw [clients_setClient]
      exact hfault
    · rw [clients_setClient_of_ne s h' hd]
      exact h.clientFault d
  allocating := h.allocating
  responding := h.responding

theorem Sound.setWorker {w : ℕ} {pc : ServiceWorker} (h : Sound cfg s)
    (halloc : ∀ r requestSize, pc = .allocating r requestSize →
      cfg.manager.Grantable requestSize ∧ requestSize ≤ INTERNAL_REP_SIZE * 1532)
    (hrespond : ∀ n e, pc = .responding n → s.exchanges[n]? = some e → e.segment.length ≤ 1532) :
    Sound cfg (s.setWorker w pc) where
  fault := h.fault
  clientFault := h.clientFault
  allocating := by
    intro r requestSize hr
    rcases List.mem_or_eq_of_mem_set hr with hr | hr
    · exact h.allocating r requestSize hr
    · exact halloc r requestSize hr.symm
  responding := by
    intro n e hn he
    rcases List.mem_or_eq_of_mem_set hn with hn | hn
    · exact h.responding n e hn he
    · exact hrespond n e hn.symm he

theorem Sound.setExchange {n : ℕ} {e e' : Exchange} (h : Sound cfg s)
    (he : s.exchanges[n]? = some e) (hsegment : e'.segment = e.segment) :
    Sound cfg (s.setExchange n e') where
  fault := h.fault
  clientFault := h.clientFault
  allocating := h.allocating
  responding := by
    intro m e₂ hm hget
    rcases Slots.getElem?_set_cases he hget with ⟨rfl, rfl⟩ | ⟨-, hold⟩
    · rw [hsegment]
      exact h.responding m e hm he
    · exact h.responding m e₂ hm hold

theorem sound_dispatch {c : ℕ} (hinv : Invariant cfg s) (hpools : ClientPools cfg s)
    (h : Sound cfg s) (hstep : s.step cfg (.dispatch c) = some s') : Sound cfg s' := by
  obtain ⟨h', hdispatch, rfl⟩ := dispatch_cases hstep
  refine h.setClient ?_
  have hfault := h.clientFault c
  simp only [Client.dispatch] at hdispatch
  split at hdispatch
  · cases hdispatch
    simp only [Client.sendRequests]
    split
    · exact hfault
    · split_ifs <;> exact hfault
  · simp only [Client.mqSend] at hdispatch
    split_ifs at hdispatch
    cases hdispatch
    exact hfault
  · cases hdispatch
    simp only [Client.receiveResponses]
    split <;> exact hfault
  · next n hpc =>
    obtain ⟨e, he, rfl⟩ := Option.map_eq_some_iff.mp hdispatch
    have hreceived : n ∈ (s.clients c).unseen := by
      simp [Client.unseen, hpc, Dispatcher.received]
    obtain ⟨-, e', he', hc, -⟩ := hinv.responses c n
      (List.mem_append_left _ (List.mem_append_left _ hreceived))
    rw [he] at he'
    cases he'
    obtain ⟨m', hcall, -⟩ := hpools.accepted ⟨he, .inr (hc ▸ hreceived)⟩ hc
    rw [Client.pushResponse, hcall]
    exact hfault

theorem sound_schedule {w i : ℕ} (hcfg : cfg.Serviceable k) (hinv : Invariant cfg s)
    (hflight : InFlight cfg s) (h : Sound cfg s)
    (hstep : s.step cfg (.schedule w i) = some s') : Sound cfg s' := by
  obtain ⟨request, -, -, -, rfl⟩ := schedule_cases hstep
  have hlen : (s.pending.eraseIdx i).length ≤ k * CLIENT_MAX_MSG :=
    (List.length_eraseIdx_le _ _).trans (hflight.pending_length_le hcfg)
  have hselected := Config.Serviceable.selected hcfg hinv.same request.fileSize hlen
  have h' : Sound cfg (s.setWorker w (.allocating request (Scheduler.handlerShmSize s.manager
      (s.pending.eraseIdx i).length cfg.serviceWorkers request.fileSize cfg.strategy))) := by
    refine h.setWorker (fun r requestSize hr => ?_) (fun n e hn => by cases hn)
    cases hr
    exact hselected
  exact { h' with }

theorem sound_allocate {w : ℕ} (hinv : Invariant cfg s) (h : Sound cfg s)
    (hstep : s.step cfg (.allocate w) = some s') : Sound cfg s' := by
  obtain ⟨request, requestSize, hw, hcases⟩ := allocate_cases hstep
  obtain ⟨hgrantable, hle⟩ := h.allocating request requestSize (List.mem_of_getElem? hw)
  rcases hcases with ⟨fault, herror, -⟩ | ⟨gs, m, hgrant, rfl⟩
  · have hgrantable' : s.manager.Grantable requestSize := by
      rw [hinv.same]
      exact ⟨hgrantable.pos, hgrantable.multiple, hgrantable.le⟩
    exact absurd herror (hgrantable'.ne_error fault)
  · obtain ⟨hlen, -, -⟩ := Pool.grant_spec hinv.pool hgrant
    rw [← hlen, hinv.rep] at hle
    have hshort : gs.length ≤ 1532 := Nat.le_of_mul_le_mul_left hle (by decide)
    refine { h with allocating := ?_, responding := ?_ }
    · intro r size hr
      rcases List.mem_or_eq_of_mem_set hr with hr | hr
      · exact h.allocating r size hr
      · cases hr
    · intro n e hn he
      rcases getElem?_exchanges_append he with he | ⟨rfl, rfl⟩
      · rcases List.mem_or_eq_of_mem_set hn with hn | hn
        · exact h.responding n e hn he
        · cases hn
          exact absurd (List.getElem?_eq_some_iff.mp he).1 (lt_irrefl _)
      · exact hshort

theorem sound_respond {w : ℕ} (h : Sound cfg s)
    (hstep : s.step cfg (.respond w) = some s') : Sound cfg s' := by
  obtain ⟨n, e, hw, he, hcases⟩ := respond_cases hstep
  have hfits : RegistrationVisitor.checkSize
      (MQServerRequestMessage.getContentSize e.segment.getSegmentIds) = .ok () := by
    rw [RegistrationVisitor.checkSize_iff, FragmentedShmSegment.getSegmentIds, List.length_map]
    exact h.responding n e (List.mem_of_getElem? hw) he
  rcases hcases with ⟨fault, rfl⟩ | ⟨-, -, rfl⟩
  · simp only [step, respond, hw, he, Option.bind_some, hfits] at hstep
    split_ifs at hstep
    exact Option.some.inj hstep ▸ (h.setWorker (fun r size hr => by cases hr)
      (fun m e' hm => by cases hm)).setClient (h.clientFault _)
  · exact (h.setWorker (fun r size hr => by cases hr) (fun m e' hm => by cases hm)).setClient
      (h.clientFault _)

theorem sound_step {ev : Event} (hcfg : cfg.Serviceable k) (hinv : Invariant cfg s)
    (hflight : InFlight cfg s) (hundisturbed : Undisturbed cfg s) (hpools : ClientPools cfg s)
    (hids : s.numbersCall ev = true) (h : Sound cfg s) (hstep : s.step cfg ev = some s') :
    Sound cfg s' := by
  cases ev with
  | submit c src =>
    obtain ⟨small, rfl⟩ := submit_cases hstep
    have hlt : (s.clients c).nextRequestId < INT_MAX := of_decide_eq_true hids
    exact h.setClient ((if_pos hlt).trans (h.clientFault c))
  | dispatch c => exact sound_dispatch hinv hpools h hstep
  | scheduleRequest c j =>
    obtain ⟨n, rest, -, -, rfl⟩ := scheduleRequest_cases hstep
    exact h.setClient (h.clientFault c)
  | process c j =>
    obtain ⟨n, e, m', t', -, he, hprocess, rfl⟩ := process_cases hstep
    obtain ⟨⟨x, hx, hstage⟩, -⟩ := hundisturbed n e he
    rw [← hx] at hprocess
    have hphase : t'.client.phase.fault = none := by
      have hthrew := (Transfer.clientStep_stage hstage hprocess).stage.not_threw
      cases hp : t'.client.phase with
      | threw fault => exact absurd hp (hthrew fault).2
      | _ => rfl
    have h' : Sound cfg (s.setExchange n { e with transfer := t' }) := h.setExchange he rfl
    have h'' : Sound cfg { s.setExchange n { e with transfer := t' } with memory := m' } :=
      { h' with }
    exact h''.setClient hphase
  | complete c j =>
    obtain ⟨n, e, -, he, -, rfl⟩ := complete_cases hstep
    have h' : Sound cfg (s.setClient c ((s.clients c).completeRequest j n)) :=
      h.setClient (h.clientFault c)
    exact h'.setExchange he rfl
  | destroy c j =>
    obtain ⟨n, e, -, -, rfl⟩ := destroy_cases hstep
    exact h.setClient (h.clientFault c)
  | poll c =>
    obtain ⟨call, rest, -, -, rfl⟩ := poll_cases hstep
    have h' : Sound cfg (s.setClient c { s.clients c with clientToServer := rest }) :=
      h.setClient (h.clientFault c)
    exact { h' with }
  | enqueue =>
    obtain ⟨request, -, -, rfl⟩ := enqueue_cases hstep
    exact { h with }
  | schedule w i => exact sound_schedule hcfg hinv hflight h hstep
  | allocate w => exact sound_allocate hinv h hstep
  | respond w => exact sound_respond h hstep
  | serve w =>
    obtain ⟨n, e, m', t', -, he, hserve, rfl⟩ := serve_cases hstep
    obtain ⟨⟨x, hx, hstage⟩, -⟩ := hundisturbed n e he
    rw [← hx] at hserve
    have hphase : t'.service.phase.fault = none := by
      have hthrew := (Transfer.serviceStep_stage hstage hserve).stage.not_threw
      cases hp : t'.service.phase with
      | threw fault => exact absurd hp (hthrew fault).1
      | _ => rfl
    have h' : Sound cfg (s.setExchange n { e with transfer := t' }) := h.setExchange he rfl
    exact { h' with fault := hphase }
  | destroyHandler w =>
    obtain ⟨n, e, -, -, -, rfl⟩ := destroyHandler_cases hstep
    have h' : Sound cfg (s.setWorker w .idle) :=
      h.setWorker (fun r size hr => by cases hr) (fun m e' hm => by cases hm)
    exact { h' with }

theorem sound_of_reachable (hcfg : cfg.Serviceable k)
    (h : (machine cfg).ReachableIf (fun s ev => s.harmless ev = true) s) : Sound cfg s := by
  induction h with
  | start => exact sound_init cfg
  | step hs hnext hok ih =>
    obtain ⟨hundisturbed, hpools⟩ := invariants_of_reachable hs
    exact sound_step hcfg (invariant_of_reachable hs.reachable)
      (inFlight_of_reachable hs.reachable) hundisturbed hpools (harmless_cases hok).2.2 ih
      (step_of_next hnext)

/-- In every harmless run of a service that can serve its clients no process is ended
by any of these, whatever the clients submit and however the threads are scheduled. -/
theorem no_fault (hcfg : cfg.Serviceable k)
    (h : (machine cfg).ReachableIf (fun s ev => s.harmless ev = true) s) :
    s.fault = none ∧ ∀ c, (s.clients c).fault = none :=
  ⟨(sound_of_reachable hcfg h).fault, (sound_of_reachable hcfg h).clientFault⟩

theorem serviceable_lonely {numWorkers : ℕ} (hroom : numWorkers ≤ CLIENT_MAX_MSG) :
    (lonelyService numWorkers).Serviceable 1 where
  segment := by show 1 ≤ (smallService fun _ => 0).manager.numInternalSegments; decide
  size := by show (smallService fun _ => 0).manager.size < 2 ^ 63; decide
  workers := by show 2 ≤ NUM_WORKERS; decide
  response := by
    show Scheduler.blocks (smallService fun _ => 0).manager
      ((smallService fun _ => 0).manager.size / NUM_WORKERS) ≤ 1532
    decide
  only := fun c hc => if_neg (by omega)
  room := by
    intro c
    show (if c = 0 then numWorkers else 0) ≤ CLIENT_MAX_MSG
    split_ifs
    · exact hroom
    · exact Nat.zero_le _
  load := by show 1 * CLIENT_MAX_MSG + NUM_WORKERS < 2 ^ 64; decide

/-- One request from the call to the end of both handlers. -/
def wholeRun : List Event := undisturbedRun ++ [.complete 0 0, .destroy 0 0]

theorem no_fault_whole : ∃ s,
    (machine (lonelyService 1)).RunIf (fun s ev => s.harmless ev = true)
      (init (lonelyService 1)) wholeRun s ∧ s.fault = none ∧ (s.clients 0).fault = none := by
  have hsome : ((machine (lonelyService 1)).runIf (fun s ev => s.harmless ev = true)
      (init (lonelyService 1)) wholeRun).isSome = true := by decide +kernel
  obtain ⟨s, hrun⟩ := Option.isSome_iff_exists.mp hsome
  have hs := Machine.RunIf.of_runIf hrun
  obtain ⟨hfault, hclients⟩ := no_fault (serviceable_lonely (by decide))
    (Machine.ReachableIf.start.append hs)
  exact ⟨s, hs, hfault, hclients 0⟩

end System

end TinyFile
