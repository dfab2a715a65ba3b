import TinyFile.Slots
import TinyFile.SystemSteps
import TinyFile.TransferCorrect

/-!
# What every run keeps

An exchange whose service handler is alive is at a stage of its transfer, and the
segments of these exchanges are what the service's pool has handed out. When the
service handler is gone, the client can only be in its receiving loop or behind
it. A response is in one place at a time, and before a worker takes it the
client's handler has done nothing.
-/
namespace TinyFile.System

/-- The exchanges whose `ServiceFileCompressorHandler` exists. -/
def handlers (s : System) : List ℕ := s.workers.filterMap ServiceWorker.exchange

def segmentOf (s : System) (n : ℕ) : FragmentedShmSegment :=
  (s.exchanges[n]?.map Exchange.segment).getD []

/-- The segments of the service's handlers. -/
def held (s : System) : List ContiguousShmSegment := s.handlers.flatMap s.segmentOf

def Dispatcher.received : Dispatcher → List ℕ
  | .pushing n => [n]
  | _ => []

/-- The responses that no worker of the client has taken. -/
def Client.untaken (h : Client) : List ℕ :=
  h.serverToClient ++ h.dispatcher.received ++ h.requestResponseQueue

/-- The exchanges that the client has been told of and has not completed. -/
def Client.responses (h : Client) : List ℕ :=
  h.untaken ++ h.workers.filterMap ClientWorker.processed

namespace Exchange

/-- The client's handler does not exist yet. -/
def Unstarted (e : Exchange) : Prop := e.transfer.client = ⟨.sending .loop, 0, 0, [], 0⟩

/-- Both handlers are where an undisturbed transfer can be. -/
def Live (cfg : Config) (m : Memory) (e : Exchange) : Prop :=
  ∃ x : Session, x.toJob = e.job cfg ∧ Transfer.Stage x m e.transfer

/-- The service has finished; the client is receiving or has left its loop. -/
structure Tail (e : Exchange) : Prop where
  service : e.transfer.service.phase = .finished
  client : (∃ pc, e.transfer.client.phase = .receiving pc) ∨
    e.transfer.client.phase = .finished ∨ ∃ fault, e.transfer.client.phase = .threw fault

end Exchange

structure Invariant (cfg : Config) (s : System) : Prop where
  pool : s.manager.PoolInvariant s.held
  same : cfg.manager.SamePool s.manager
  handlers_nodup : s.handlers.Nodup
  handlers_lt : ∀ n ∈ s.handlers, n < s.exchanges.length
  allocating : ∀ r requestSize, .allocating r requestSize ∈ s.workers →
    INTERNAL_REP_SIZE ≤ requestSize
  live : ∀ n e, s.exchanges[n]? = some e → n ∈ s.handlers → e.Live cfg s.memory
  tail : ∀ n e, s.exchanges[n]? = some e → n ∉ s.handlers → e.Tail
  responding : ∀ n e, .responding n ∈ s.workers → s.exchanges[n]? = some e →
    e.Unstarted ∧ e.completed = false
  responses_nodup : ∀ c, (s.clients c).responses.Nodup
  responses : ∀ c n, n ∈ (s.clients c).responses → .responding n ∉ s.workers ∧
    ∃ e, s.exchanges[n]? = some e ∧ e.request.clientId = c ∧ e.completed = false
  untaken : ∀ c n e, n ∈ (s.clients c).untaken → s.exchanges[n]? = some e → e.Unstarted

section Basics

variable {cfg : Config} {s : System}

theorem config_rep (cfg : Config) : cfg.manager.internalRepSize = INTERNAL_REP_SIZE :=
  (ShmManager.init_fields cfg.accepted).1

theorem Invariant.rep (h : Invariant cfg s) : s.manager.internalRepSize = INTERNAL_REP_SIZE := by
  rw [h.same.internalRepSize, config_rep]

/-- When the service has finished an undisturbed transfer, the client is receiving. -/
theorem Exchange.Live.tail {e : Exchange} {m : Memory} (h : e.Live cfg m)
    (hphase : e.transfer.service.phase = .finished) : e.Tail := by
  obtain ⟨x, -, hstage⟩ := h
  refine ⟨hphase, ?_⟩
  rcases hstage.client_of_finished hphase with ⟨pc, hpc⟩ | hpc
  · exact .inl ⟨pc, hpc⟩
  · exact .inr (.inl hpc)

/-- A handler that has not started cannot be left behind by the service. -/
theorem Exchange.Unstarted.not_tail {e : Exchange} (h : e.Unstarted) : ¬ e.Tail := by
  intro ht
  rw [Exchange.Unstarted] at h
  rcases ht.client with ⟨pc, hpc⟩ | hpc | ⟨fault, hpc⟩ <;> rw [h] at hpc <;> cases hpc

theorem invariant_init (cfg : Config) : Invariant cfg (init cfg) := by
  have hidle : ∀ pc, pc ∈ (init cfg).workers → pc = .idle :=
    fun pc h => List.eq_of_mem_replicate h
  have hhandlers : (init cfg).handlers = [] :=
    List.filterMap_eq_nil_iff.mpr (fun pc h => by rw [hidle pc h]; rfl)
  have hresponses : ∀ c, ((init cfg).clients c).responses = [] := by
    intro c
    have hprocessed : (List.replicate (cfg.numWorkers c) ClientWorker.idle).filterMap
        ClientWorker.processed = [] :=
      List.filterMap_eq_nil_iff.mpr (fun pc h => by rw [List.eq_of_mem_replicate h]; rfl)
    exact hprocessed
  have hpool : cfg.manager.PoolInvariant [] :=
    ShmManager.poolInvariant_init (by decide) cfg.accepted
  constructor
  · rw [held, hhandlers]
    exact hpool
  · exact .refl _
  · rw [hhandlers]
    exact List.nodup_nil
  · rw [hhandlers]
    intro n hn
    cases hn
  · intro r requestSize h
    cases hidle _ h
  · intro n e he
    cases he
  · intro n e he
    cases he
  · intro n e h
    cases hidle _ h
  · intro c
    rw [hresponses c]
    exact List.nodup_nil
  · intro c n h
    rw [hresponses c] at h
    cases h
  · intro c n e h he
    cases he

/-- A step of one client that makes no new response. -/
theorem Invariant.setClient {c : ℕ} {h' : Client} (h : Invariant cfg s)
    (hr : h'.responses.Subperm (s.clients c).responses)
    (hu : ∀ n ∈ h'.untaken, n ∈ (s.clients c).untaken) : Invariant cfg (s.setClient c h') where
  pool := h.pool
  same := h.same
  handlers_nodup := h.handlers_nodup
  handlers_lt := h.handlers_lt
  allocating := h.allocating
  live := h.live
  tail := h.tail
  responding := h.responding
  responses_nodup := by
    intro d
    simp only [System.setClient]
    split_ifs with hd
    · obtain ⟨l, hperm, hsub⟩ := hr
      exact hperm.nodup_iff.mp ((h.responses_nodup c).sublist hsub)
    · exact h.responses_nodup d
  responses := by
    intro d n hn
    simp only [System.setClient] at hn
    split_ifs at hn with hd
    · subst hd
      exact h.responses d n (hr.subset hn)
    · exact h.responses d n hn
  untaken := by
    intro d n e hn
    simp only [System.setClient] at hn
    split_ifs at hn with hd
    · subst hd
      exact h.untaken d n e (hu n hn)
    · exact h.untaken d n e hn

end Basics

section ClientSteps

variable {cfg : Config} {s s' : System}

theorem invariant_submit {c : ℕ} {src : List UInt8} (h : Invariant cfg s)
    (hstep : s.step cfg (.submit c src) = some s') : Invariant cfg s' := by
  obtain ⟨small, rfl⟩ := submit_cases hstep
  exact h.setClient (List.Subperm.refl _) (fun _ hn => hn)

theorem Client.untaken_sendRequests {h : Client} (hpc : h.dispatcher = .sendLoop) :
    h.sendRequests.untaken = h.untaken ∧ h.sendRequests.workers = h.workers := by
  simp only [Client.sendRequests]
  split
  · exact ⟨by simp [Client.untaken, hpc, Dispatcher.received], rfl⟩
  · split_ifs
    · exact ⟨by simp [Client.untaken, hpc, Dispatcher.received], rfl⟩
    · exact ⟨by simp [Client.untaken, hpc, Dispatcher.received], rfl⟩

/-- The dispatcher only moves responses. -/
theorem Client.dispatch_perm {h h' : Client} {exchanges : List Exchange}
    (hstep : h.dispatch exchanges = some h') :
    h'.untaken.Perm h.untaken ∧ h'.workers = h.workers := by
  simp only [Client.dispatch] at hstep
  split at hstep
  · next hpc =>
    cases hstep
    obtain ⟨hu, hw⟩ := Client.untaken_sendRequests hpc
    exact ⟨hu ▸ List.Perm.refl _, hw⟩
  · next call hpc =>
    simp only [Client.mqSend] at hstep
    split_ifs at hstep
    cases hstep
    exact ⟨by simp [Client.untaken, hpc, Dispatcher.received], rfl⟩
  · next hpc =>
    cases hstep
    simp only [Client.receiveResponses]
    split
    · exact ⟨by simp [Client.untaken, hpc, Dispatcher.received], rfl⟩
    · next n rest hq =>
      refine ⟨?_, rfl⟩
      simp only [Client.untaken, hpc, hq, Dispatcher.received, List.append_nil]
      exact (List.perm_append_comm : (rest ++ [n]).Perm ([n] ++ rest)).append_right _
  · next n hpc =>
    obtain ⟨e, -, rfl⟩ := Option.map_eq_some_iff.mp hstep
    simp only [Client.pushResponse]
    split
    · refine ⟨?_, rfl⟩
      simp only [Client.untaken, hpc, Dispatcher.received, List.append_nil, List.append_assoc]
      exact (List.perm_append_comm : (h.requestResponseQueue ++ [n]).Perm _).append_left _
    · exact ⟨List.Perm.refl _, rfl⟩

theorem invariant_dispatch {c : ℕ} (h : Invariant cfg s)
    (hstep : s.step cfg (.dispatch c) = some s') : Invariant cfg s' := by
  obtain ⟨h', hdispatch, rfl⟩ := dispatch_cases hstep
  obtain ⟨hu, hw⟩ := Client.dispatch_perm hdispatch
  refine h.setClient ?_ (fun n hn => hu.mem_iff.mp hn)
  rw [Client.responses, Client.responses, hw]
  exact (hu.append_right _).subperm

theorem invariant_scheduleRequest {c j : ℕ} (h : Invariant cfg s)
    (hstep : s.step cfg (.scheduleRequest c j) = some s') : Invariant cfg s' := by
  obtain ⟨n, rest, hw, hq, rfl⟩ := scheduleRequest_cases hstep
  have hold := Slots.perm_get ClientWorker.processed hw
  have hnew := Slots.perm_set ClientWorker.processed hw (.processing n)
  refine h.setClient ?_ ?_
  · -- the response moves from the head of the queue to the worker
    refine List.Perm.subperm (List.perm_iff_count.mpr fun m => ?_)
    have hcount := hold.count_eq m
    have hcount' := hnew.count_eq m
    simp only [ClientWorker.processed, Option.toList, List.count_append, List.count_cons,
      List.count_nil] at hcount hcount'
    simp only [Client.responses, Client.untaken, hq, List.count_append, List.count_cons]
    omega
  · intro m hm
    simp only [Client.untaken, hq, List.mem_append, List.mem_cons] at hm ⊢
    tauto

theorem invariant_destroy {c j : ℕ} (h : Invariant cfg s)
    (hstep : s.step cfg (.destroy c j) = some s') : Invariant cfg s' := by
  obtain ⟨n, e, hw, -, rfl⟩ := destroy_cases hstep
  refine h.setClient ?_ (fun _ hn => hn)
  have hsame := Slots.filterMap_set ClientWorker.processed hw
    (show ClientWorker.processed .idle = ClientWorker.processed (.destroying n) from rfl)
  rw [Client.responses, Client.responses]
  simp only [Client.destroy, hsame]
  exact List.Subperm.refl _

theorem invariant_poll {c : ℕ} (h : Invariant cfg s)
    (hstep : s.step cfg (.poll c) = some s') : Invariant cfg s' := by
  obtain ⟨call, rest, -, -, rfl⟩ := poll_cases hstep
  have h' : Invariant cfg (s.setClient c { s.clients c with clientToServer := rest }) :=
    h.setClient (List.Subperm.refl _) (fun _ hn => hn)
  exact { h' with }

theorem invariant_enqueue (h : Invariant cfg s)
    (hstep : s.step cfg .enqueue = some s') : Invariant cfg s' := by
  obtain ⟨request, -, -, rfl⟩ := enqueue_cases hstep
  exact { h with }

end ClientSteps

section WorkerSteps

variable {cfg : Config} {s s' : System}

/-- A service worker moves on without making or destroying a handler. -/
theorem Invariant.setWorker {w : ℕ} {pc pc' : ServiceWorker} (h : Invariant cfg s)
    (hw : s.workers[w]? = some pc) (hsame : pc'.exchange = pc.exchange)
    (halloc : ∀ r requestSize, pc' = .allocating r requestSize → INTERNAL_REP_SIZE ≤ requestSize)
    (hresp : ∀ n, pc' ≠ .responding n) : Invariant cfg (s.setWorker w pc') := by
  have hhandlers : (s.setWorker w pc').handlers = s.handlers :=
    Slots.filterMap_set ServiceWorker.exchange hw hsame
  have hresponding : ∀ n, .responding n ∈ (s.setWorker w pc').workers →
      .responding n ∈ s.workers := by
    intro n hn
    rcases List.mem_or_eq_of_mem_set hn with hn | hn
    · exact hn
    · exact absurd hn.symm (hresp n)
  refine
    { pool := ?_
      same := h.same
      handlers_nodup := hhandlers ▸ h.handlers_nodup
      handlers_lt := hhandlers ▸ h.handlers_lt
      allocating := ?_
      live := ?_
      tail := ?_
      responding := fun n e hn => h.responding n e (hresponding n hn)
      responses_nodup := h.responses_nodup
      responses := fun c n hn => ⟨fun hr => (h.responses c n hn).1 (hresponding n hr),
        (h.responses c n hn).2⟩
      untaken := h.untaken }
  · rw [held, hhandlers]
    exact h.pool
  · intro r requestSize hr
    rcases List.mem_or_eq_of_mem_set hr with hr | hr
    · exact h.allocating r requestSize hr
    · exact halloc r requestSize hr.symm
  · intro n e he hn
    rw [hhandlers] at hn
    exact h.live n e he hn
  · intro n e he hn
    rw [hhandlers] at hn
    exact h.tail n e he hn

theorem invariant_schedule {w i : ℕ} (h : Invariant cfg s)
    (hstep : s.step cfg (.schedule w i) = some s') : Invariant cfg s' := by
  obtain ⟨request, hw, -, -, rfl⟩ := schedule_cases hstep
  have hsize : INTERNAL_REP_SIZE ≤ Scheduler.handlerShmSize s.manager
      (s.pending.eraseIdx i).length cfg.serviceWorkers request.fileSize cfg.strategy := by
    rw [Scheduler.handlerShmSize_eq, h.rep]
    exact Nat.le_mul_of_pos_right _ (by rw [Scheduler.grantedBlocks]; omega)
  have h' : Invariant cfg (s.setWorker w (.allocating request _)) :=
    h.setWorker hw rfl (fun r requestSize hr => by
      cases hr
      exact hsize) (fun n hn => by cases hn)
  exact { h' with }

theorem getElem?_exchanges_append {e e' : Exchange} {n : ℕ}
    (h : (s.exchanges ++ [e'])[n]? = some e) :
    s.exchanges[n]? = some e ∨ n = s.exchanges.length ∧ e = e' := by
  rw [List.getElem?_append] at h
  split_ifs at h with hlt
  · exact .inl h
  · have hz : n - s.exchanges.length = 0 := by
      by_contra hne
      rw [List.getElem?_eq_none (by simp; omega)] at h
      cases h
    rw [hz] at h
    exact .inr ⟨by omega, (Option.some.inj h).symm⟩

/-- A granted segment is one that a transfer can use. -/
theorem live_init (cfg : Config) {m : ShmManager} {held : List ContiguousShmSegment}
    {request : Request} {gs : FragmentedShmSegment} (hpool : m.PoolInvariant (gs ++ held))
    (hsize : 8 < m.internalRepSize * gs.length) (memory : Memory) :
    Exchange.Live cfg memory
      ⟨request, gs, Transfer.init ⟨gs, request.src, cfg.compress⟩, false⟩ := by
  have htotal : gs.total = m.internalRepSize * gs.length :=
    ShmManager.total_of_sizes (fun g hg => hpool.size_of_held (List.mem_append_left _ hg))
  let x : Session :=
    { segment := gs
      src := request.src
      compress := cfg.compress
      wellFormed := hpool.wellFormed
      room := htotal ▸ hsize
      src_small := request.small
      compress_pos := cfg.compress_pos _ request.small
      compress_small := cfg.compress_small _ request.small }
  exact ⟨x, rfl, Transfer.stage_init x memory⟩

theorem segmentOf_granted {w n : ℕ} {m : ShmManager} {e : Exchange}
    (hn : n < s.exchanges.length) : (s.granted w m e).segmentOf n = s.segmentOf n := by
  simp only [segmentOf, granted]
  rw [List.getElem?_append_left hn]

theorem segmentOf_granted_new {w : ℕ} {m : ShmManager} {e : Exchange} :
    (s.granted w m e).segmentOf s.exchanges.length = e.segment := by
  simp [segmentOf, granted]

theorem handlers_granted {w requestSize : ℕ} {request : Request} {m : ShmManager} {e : Exchange}
    (hw : s.workers[w]? = some (.allocating request requestSize)) :
    (s.granted w m e).handlers.Perm (s.exchanges.length :: s.handlers) := by
  have hold := Slots.perm_get ServiceWorker.exchange hw
  have hnew := Slots.perm_set ServiceWorker.exchange hw (.responding s.exchanges.length)
  exact hnew.trans (hold.symm.cons _)

/-- A handler is created for a request with a granted segment. -/
theorem Invariant.granted {w requestSize : ℕ} {request : Request} {m : ShmManager} {e : Exchange}
    (h : Invariant cfg s) (hw : s.workers[w]? = some (.allocating request requestSize))
    (hpool : m.PoolInvariant (e.segment ++ s.held)) (hsame : s.manager.SamePool m)
    (hlive : e.Live cfg s.memory) (hunstarted : e.Unstarted) (hcompleted : e.completed = false) :
    Invariant cfg (s.granted w m e) := by
  have hhandlers := handlers_granted (m := m) (e := e) hw
  have hfresh : s.exchanges.length ∉ s.handlers :=
    fun hn => lt_irrefl _ (h.handlers_lt _ hn)
  have hresponding : ∀ n, .responding n ∈ (s.granted w m e).workers →
      n = s.exchanges.length ∨ .responding n ∈ s.workers := by
    intro n hn
    rcases List.mem_or_eq_of_mem_set hn with hn | hn
    · exact .inr hn
    · cases hn
      exact .inl rfl
  have hmem : ∀ n, .responding n ∈ s.workers → n < s.exchanges.length := by
    intro n hn
    exact h.handlers_lt n (List.mem_filterMap.mpr ⟨_, hn, rfl⟩)
  have hknown : ∀ c n, n ∈ (s.clients c).responses → n < s.exchanges.length := by
    intro c n hn
    obtain ⟨-, e', he', -⟩ := h.responses c n hn
    exact (List.getElem?_eq_some_iff.mp he').1
  refine
    { pool := ?_
      same := h.same.trans hsame
      handlers_nodup := hhandlers.nodup_iff.mpr (List.nodup_cons.mpr ⟨hfresh, h.handlers_nodup⟩)
      handlers_lt := ?_
      allocating := ?_
      live := ?_
      tail := ?_
      responding := ?_
      responses_nodup := h.responses_nodup
      responses := ?_
      untaken := ?_ }
  · have hheld : (s.granted w m e).held.Perm (e.segment ++ s.held) := by
      have hperm : (s.granted w m e).held.Perm
          ((s.exchanges.length :: s.handlers).flatMap (s.granted w m e).segmentOf) :=
        hhandlers.flatMap_right _
      rw [List.flatMap_cons, segmentOf_granted_new] at hperm
      have heq : s.handlers.flatMap (s.granted w m e).segmentOf = s.held :=
        List.flatMap_congr fun n hn => segmentOf_granted (h.handlers_lt n hn)
      rwa [heq] at hperm
    exact hpool.perm hheld.symm
  · intro n hn
    have hlen : (s.granted w m e).exchanges.length = s.exchanges.length + 1 := by
      simp [System.granted]
    rcases List.mem_cons.mp (hhandlers.mem_iff.mp hn) with rfl | hn
    · omega
    · have := h.handlers_lt n hn
      omega
  · intro r size hr
    rcases List.mem_or_eq_of_mem_set hr with hr | hr
    · exact h.allocating r size hr
    · cases hr
  · intro n e' he' hn
    rcases getElem?_exchanges_append he' with he' | ⟨-, rfl⟩
    · rcases List.mem_cons.mp (hhandlers.mem_iff.mp hn) with rfl | hn
      · exact absurd (List.getElem?_eq_some_iff.mp he').1 (lt_irrefl _)
      · exact h.live n e' he' hn
    · exact hlive
  · intro n e' he' hn
    rw [hhandlers.mem_iff, List.mem_cons, not_or] at hn
    rcases getElem?_exchanges_append he' with he' | ⟨hlast, -⟩
    · exact h.tail n e' he' hn.2
    · exact absurd hlast hn.1
  · intro n e' hn he'
    rcases getElem?_exchanges_append he' with he' | ⟨-, rfl⟩
    · rcases hresponding n hn with rfl | hn
      · exact absurd (List.getElem?_eq_some_iff.mp he').1 (lt_irrefl _)
      · exact h.responding n e' hn he'
    · exact ⟨hunstarted, hcompleted⟩
  · intro c n hn
    obtain ⟨hnot, e', he', hrest⟩ := h.responses c n hn
    have hlt := hknown c n hn
    refine ⟨fun hr => ?_, e', ?_, hrest⟩
    · rcases hresponding n hr with rfl | hr
      · exact lt_irrefl _ hlt
      · exact hnot hr
    · exact (List.getElem?_append_left hlt).trans he'
  · intro c n e' hn he'
    have hlt := hknown c n (List.mem_append_left _ hn)
    rcases getElem?_exchanges_append he' with he' | ⟨rfl, -⟩
    · exact h.untaken c n e' hn he'
    · exact absurd hlt (lt_irrefl _)

theorem invariant_allocate {w : ℕ} (h : Invariant cfg s)
    (hstep : s.step cfg (.allocate w) = some s') : Invariant cfg s' := by
  obtain ⟨request, requestSize, hw, hcases⟩ := allocate_cases hstep
  rcases hcases with ⟨fault, -, rfl⟩ | ⟨gs, m, hgrant, rfl⟩
  · exact { h with }
  · obtain ⟨hlen, hpool, hsame⟩ := Pool.grant_spec h.pool hgrant
    have halloc := h.allocating request requestSize (List.mem_of_getElem? hw)
    have hroom : 8 < m.internalRepSize * gs.length := by
      rw [hsame.internalRepSize, hlen]
      exact lt_of_lt_of_le (by decide) halloc
    exact h.granted hw hpool hsame (live_init cfg hpool hroom s.memory) rfl rfl

theorem mem_set_cases {α : Type*} {l : List α} {i : ℕ} {a b x : α} (h : l[i]? = some a)
    (hx : x ∈ l.set i b) : x = b ∨ x ∈ l.eraseIdx i := by
  obtain ⟨hlt, -⟩ := List.getElem?_eq_some_iff.mp h
  exact List.mem_cons.mp ((List.set_perm_cons_eraseIdx hlt b).mem_iff.mp hx)

/-- The worker that responds to a request is the only one with its handler. -/
theorem Invariant.responding_unique {w n : ℕ} (h : Invariant cfg s)
    (hw : s.workers[w]? = some (.responding n)) {pc : ServiceWorker} (hpc : pc ≠ .responding n) :
    .responding n ∉ (s.setWorker w pc).workers := by
  intro hn
  rcases mem_set_cases hw hn with hn | hn
  · exact hpc hn.symm
  · have hnd := (Slots.perm_get ServiceWorker.exchange hw).nodup_iff.mp h.handlers_nodup
    exact (List.nodup_cons.mp hnd).1 (List.mem_filterMap.mpr ⟨_, hn, rfl⟩)

theorem Client.responses_push {h : Client} (n : ℕ) :
    ({ h with serverToClient := h.serverToClient ++ [n] } : Client).responses.Perm
      (n :: h.responses) := by
  refine List.perm_iff_count.mpr fun m => ?_
  simp only [Client.responses, Client.untaken, List.count_append, List.count_cons, List.count_nil]
  omega

theorem Client.untaken_push {h : Client} (n : ℕ) :
    ({ h with serverToClient := h.serverToClient ++ [n] } : Client).untaken.Perm
      (n :: h.untaken) := by
  refine List.perm_iff_count.mpr fun m => ?_
  simp only [Client.untaken, List.count_append, List.count_cons, List.count_nil]
  omega

/-- A response is put into its client's queue. -/
theorem Invariant.addResponse {n : ℕ} {e : Exchange} {h' : Client} (h : Invariant cfg s)
    (he : s.exchanges[n]? = some e) (hnot : .responding n ∉ s.workers)
    (hnew : n ∉ (s.clients e.request.clientId).responses) (hunstarted : e.Unstarted)
    (hcompleted : e.completed = false)
    (hr : h'.responses.Perm (n :: (s.clients e.request.clientId).responses))
    (hu : h'.untaken.Perm (n :: (s.clients e.request.clientId).untaken)) :
    Invariant cfg (s.setClient e.request.clientId h') := by
  refine { h with responses_nodup := ?_, responses := ?_, untaken := ?_ }
  · intro c
    simp only [System.setClient]
    split_ifs with hc
    · exact hr.nodup_iff.mpr (List.nodup_cons.mpr ⟨hnew, h.responses_nodup _⟩)
    · exact h.responses_nodup c
  · intro c m hm
    simp only [System.setClient] at hm
    split_ifs at hm with hc
    · subst hc
      rcases List.mem_cons.mp (hr.mem_iff.mp hm) with rfl | hm
      · exact ⟨hnot, e, he, rfl, hcompleted⟩
      · exact h.responses _ m hm
    · exact h.responses c m hm
  · intro c m e' hm hget
    have he' : s.exchanges[m]? = some e' := hget
    simp only [System.setClient] at hm
    split_ifs at hm with hc
    · rcases List.mem_cons.mp (hu.mem_iff.mp hm) with rfl | hm
      · rw [he] at he'
        cases he'
        exact hunstarted
      · exact h.untaken _ m e' hm he'
    · exact h.untaken c m e' hm he'

theorem invariant_respond {w : ℕ} (h : Invariant cfg s)
    (hstep : s.step cfg (.respond w) = some s') : Invariant cfg s' := by
  obtain ⟨n, e, hw, he, hcases⟩ := respond_cases hstep
  rcases hcases with ⟨fault, rfl⟩ | ⟨-, -, rfl⟩
  · exact { h with }
  · have hmem : .responding n ∈ s.workers := List.mem_of_getElem? hw
    have hserving : Invariant cfg (s.setWorker w (.serving n)) :=
      h.setWorker hw rfl (fun r requestSize hr => by cases hr) (fun m hm => by cases hm)
    have hunique : .responding n ∉ (s.setWorker w (.serving n)).workers :=
      h.responding_unique hw (by simp)
    obtain ⟨hunstarted, hcompleted⟩ := h.responding n e hmem he
    exact hserving.addResponse he hunique (fun hn => (h.responses _ n hn).1 hmem) hunstarted
      hcompleted (Client.responses_push n) (Client.untaken_push n)

theorem handlers_destroyed {w n : ℕ} (hw : s.workers[w]? = some (.serving n)) :
    s.handlers.Perm (n :: (s.setWorker w .idle).handlers) := by
  have hold := Slots.perm_get ServiceWorker.exchange hw
  have hnew := Slots.perm_set ServiceWorker.exchange hw .idle
  exact hold.trans (hnew.symm.cons n)

/-- The worker destroys its handler after `process`. -/
theorem invariant_destroyHandler {w : ℕ} (h : Invariant cfg s)
    (hstep : s.step cfg (.destroyHandler w) = some s') : Invariant cfg s' := by
  obtain ⟨n, e, hw, he, hphase, rfl⟩ := destroyHandler_cases hstep
  have hhandlers := handlers_destroyed hw
  have hnd := hhandlers.nodup_iff.mp h.handlers_nodup
  have hmem : ∀ m, m ∈ (s.setWorker w .idle).handlers → m ∈ s.handlers :=
    fun m hm => hhandlers.mem_iff.mpr (List.mem_cons_of_mem n hm)
  have hworkers : ∀ pc, pc ∈ (s.setWorker w .idle).workers → pc = .idle ∨ pc ∈ s.workers :=
    fun pc hpc => (List.mem_or_eq_of_mem_set hpc).symm
  have hresponding : ∀ m, .responding m ∈ (s.setWorker w .idle).workers →
      .responding m ∈ s.workers := by
    intro m hm
    rcases hworkers _ hm with hm | hm
    · cases hm
    · exact hm
  refine
    { pool := ?_
      same := h.same.trans (ShmManager.samePool_release _ _)
      handlers_nodup := (List.nodup_cons.mp hnd).2
      handlers_lt := fun m hm => h.handlers_lt m (hmem m hm)
      allocating := ?_
      live := fun m e' he' hm => h.live m e' he' (hmem m hm)
      tail := ?_
      responding := fun m e' hm => h.responding m e' (hresponding m hm)
      responses_nodup := h.responses_nodup
      responses := fun c m hm => ⟨fun hr => (h.responses c m hm).1 (hresponding m hr),
        (h.responses c m hm).2⟩
      untaken := h.untaken }
  · have hheld : s.held.Perm (e.segment ++ (s.setWorker w .idle).held) := by
      have hperm : s.held.Perm ((n :: (s.setWorker w .idle).handlers).flatMap s.segmentOf) :=
        hhandlers.flatMap_right _
      have hseg : s.segmentOf n = e.segment := by simp [segmentOf, he]
      rwa [List.flatMap_cons, hseg] at hperm
    exact (h.pool.perm hheld).release
  · intro r size hr
    rcases hworkers _ hr with hr | hr
    · cases hr
    · exact h.allocating r size hr
  · intro m e' hget hm
    have he' : s.exchanges[m]? = some e' := hget
    by_cases hmn : m = n
    · subst hmn
      rw [he] at he'
      cases he'
      have hn : m ∈ s.handlers := hhandlers.mem_iff.mpr List.mem_cons_self
      exact (h.live m e he hn).tail hphase
    · refine h.tail m e' he' (fun hm' => ?_)
      rcases List.mem_cons.mp (hhandlers.mem_iff.mp hm') with hm' | hm'
      · exact hmn hm'
      · exact hm hm'

end WorkerSteps

section HandlerSteps

variable {cfg : Config} {s s' : System}

theorem segmentOf_eq {n : ℕ} {e : Exchange} (he : s.exchanges[n]? = some e) :
    s.segmentOf n = e.segment := by simp [segmentOf, he]

/-- The segments of two of the service's handlers do not overlap. -/
theorem Invariant.disjoint {n n' : ℕ} {e e' : Exchange} (h : Invariant cfg s)
    (hn : n ∈ s.handlers) (hn' : n' ∈ s.handlers) (hne : n ≠ n')
    (he : s.exchanges[n]? = some e) (he' : s.exchanges[n']? = some e') (segment a : ℕ) :
    e.segment.Covers segment a → ¬ e'.segment.Covers segment a := by
  have hpair := (List.pairwise_flatMap.mp h.pool.held_disjoint).2
  have hsymm : Std.Symm fun n n' => ∀ g ∈ s.segmentOf n, ∀ g' ∈ s.segmentOf n',
      g.Disjoint g' :=
    ⟨fun i j hij g hg g' hg' segment a hc hc' => hij g' hg' g hg segment a hc' hc⟩
  have hdisjoint := hpair.forall hn hn' hne
  rw [segmentOf_eq he, segmentOf_eq he'] at hdisjoint
  rintro ⟨g, hg, hc⟩ ⟨g', hg', hc'⟩
  exact hdisjoint g hg g' hg' segment a hc hc'

/-- Only the bytes of its segment matter to a transfer. -/
theorem Exchange.Live.congr {e : Exchange} {m m' : Memory} (h : e.Live cfg m)
    (hm : ∀ segment a, e.segment.Covers segment a → m' segment a = m segment a) :
    e.Live cfg m' := by
  obtain ⟨x, hx, hstage⟩ := h
  have hseg : x.segment = e.segment := congrArg Job.segment hx
  exact ⟨x, hx, hstage.congr (FragmentedShmSegment.bytes_congr (hseg ▸ hm))⟩

/-- A handler moves its exchange on. -/
theorem Invariant.setExchange {n : ℕ} {e e' : Exchange} {m' : Memory} (h : Invariant cfg s)
    (he : s.exchanges[n]? = some e) (hrequest : e'.request = e.request)
    (hsegment : e'.segment = e.segment)
    (hlive : n ∈ s.handlers → e'.Live cfg m' ∧
      ∀ segment a, ¬ e.segment.Covers segment a → m' segment a = s.memory segment a)
    (htail : n ∉ s.handlers → e'.Tail ∧ m' = s.memory)
    (hresponding : .responding n ∈ s.workers → e'.Unstarted ∧ e'.completed = false)
    (hresponses : ∀ c, n ∈ (s.clients c).responses → e'.completed = false)
    (huntaken : ∀ c, n ∈ (s.clients c).untaken → e'.Unstarted) :
    Invariant cfg { s.setExchange n e' with memory := m' } := by
  obtain ⟨hlt, -⟩ := List.getElem?_eq_some_iff.mp he
  have hget : ∀ m e₂, (s.exchanges.set n e')[m]? = some e₂ →
      m = n ∧ e₂ = e' ∨ m ≠ n ∧ s.exchanges[m]? = some e₂ := by
    intro m e₂ hm
    by_cases hmn : m = n
    · subst hmn
      rw [List.getElem?_set_self hlt] at hm
      exact .inl ⟨rfl, (Option.some.inj hm).symm⟩
    · rw [List.getElem?_set_ne (Ne.symm hmn)] at hm
      exact .inr ⟨hmn, hm⟩
  have hseg : ∀ m, (s.setExchange n e').segmentOf m = s.segmentOf m := by
    intro m
    simp only [segmentOf, System.setExchange]
    by_cases hmn : m = n
    · subst hmn
      rw [List.getElem?_set_self hlt, he, Option.map_some, Option.map_some, hsegment]
    · rw [List.getElem?_set_ne (Ne.symm hmn)]
  refine
    { pool := ?_
      same := h.same
      handlers_nodup := h.handlers_nodup
      handlers_lt := ?_
      allocating := h.allocating
      live := ?_
      tail := ?_
      responding := ?_
      responses_nodup := h.responses_nodup
      responses := ?_
      untaken := ?_ }
  · have hheld : s.handlers.flatMap (s.setExchange n e').segmentOf = s.held :=
      List.flatMap_congr fun m _ => hseg m
    show s.manager.PoolInvariant (s.handlers.flatMap (s.setExchange n e').segmentOf)
    rw [hheld]
    exact h.pool
  · intro m hm
    simp only [System.setExchange, List.length_set]
    exact h.handlers_lt m hm
  · intro m e₂ hm hmem
    rcases hget m e₂ hm with ⟨rfl, rfl⟩ | ⟨hmn, hold⟩
    · exact (hlive hmem).1
    · refine (h.live m e₂ hold hmem).congr (fun segment a hc => ?_)
      by_cases hn : n ∈ s.handlers
      · exact (hlive hn).2 segment a (h.disjoint hmem hn hmn hold he segment a hc)
      · rw [(htail hn).2]
  · intro m e₂ hm hmem
    rcases hget m e₂ hm with ⟨rfl, rfl⟩ | ⟨-, hold⟩
    · exact (htail hmem).1
    · exact h.tail m e₂ hold hmem
  · intro m e₂ hmem hm
    rcases hget m e₂ hm with ⟨rfl, rfl⟩ | ⟨-, hold⟩
    · exact hresponding hmem
    · exact h.responding m e₂ hmem hold
  · intro c m hmem
    obtain ⟨hnot, e₂, hold, hclient, hcompleted⟩ := h.responses c m hmem
    refine ⟨hnot, ?_⟩
    by_cases hmn : m = n
    · subst hmn
      rw [he] at hold
      cases hold
      exact ⟨e', List.getElem?_set_self hlt, by rw [hrequest, hclient], hresponses c hmem⟩
    · exact ⟨e₂, (List.getElem?_set_ne (Ne.symm hmn)).trans hold, hclient, hcompleted⟩
  · intro c m e₂ hmem hm
    rcases hget m e₂ hm with ⟨rfl, rfl⟩ | ⟨-, hold⟩
    · exact huntaken c hmem
    · exact h.untaken c m e₂ hmem hold

theorem serviceStep_client {y : Job} {m m' : Memory} {t t' : Transfer}
    (h : Transfer.serviceStep y m t = some (m', t')) : t'.client = t.client := by
  simp only [Transfer.serviceStep] at h
  repeat' split at h
  all_goals cases h <;> rfl

theorem invariant_serve {w : ℕ} (h : Invariant cfg s)
    (hstep : s.step cfg (.serve w) = some s') : Invariant cfg s' := by
  obtain ⟨n, e, m', t', hw, he, hserve, rfl⟩ := serve_cases hstep
  have hn : n ∈ s.handlers := List.mem_filterMap.mpr ⟨_, List.mem_of_getElem? hw, rfl⟩
  have hclient := serviceStep_client hserve
  have hunstarted : e.Unstarted → Exchange.Unstarted { e with transfer := t' } := by
    intro hu
    rw [Exchange.Unstarted] at hu ⊢
    rw [← hu, ← hclient]
  obtain ⟨x, hx, hstage⟩ := h.live n e he hn
  rw [← hx] at hserve
  obtain ⟨hstage', hframe⟩ := Transfer.serviceStep_stage hstage hserve
  have hseg : x.segment = e.segment := congrArg Job.segment hx
  rw [hseg] at hframe
  have h' : Invariant cfg { s.setExchange n { e with transfer := t' } with memory := m' } := by
    refine h.setExchange he rfl rfl (fun _ => ⟨⟨x, hx, hstage'⟩, hframe⟩)
      (fun hnot => absurd hn hnot) ?_ ?_ ?_
    · intro hr
      obtain ⟨hu, hc⟩ := h.responding n e hr he
      exact ⟨hunstarted hu, hc⟩
    · intro c hc
      obtain ⟨-, e₂, he₂, -, hcompleted⟩ := h.responses c n hc
      rw [he] at he₂
      cases he₂
      exact hcompleted
    · exact fun c hc => hunstarted (h.untaken c n e hc he)
  exact { h' with }

/-- A client's handler that the service has left only receives, and writes nothing. -/
theorem Exchange.Tail.clientStep {e : Exchange} {y : Job} {m m' : Memory} {t' : Transfer}
    (h : e.Tail) (hstep : Transfer.clientStep y m e.transfer = some (m', t')) :
    Exchange.Tail { e with transfer := t' } ∧ m' = m := by
  obtain ⟨hs, hc⟩ := h
  rcases hc with ⟨pc, hpc⟩ | hpc | ⟨fault, hpc⟩
  · simp only [Transfer.clientStep, hpc] at hstep
    split at hstep
    · cases hstep
    · cases hstep
      exact ⟨⟨hs, .inr (.inl rfl)⟩, rfl⟩
    · cases hstep
      exact ⟨⟨hs, .inr (.inr ⟨_, rfl⟩)⟩, rfl⟩
    · cases hstep
      exact ⟨⟨hs, .inl ⟨_, rfl⟩⟩, rfl⟩
  · simp only [Transfer.clientStep, hpc] at hstep
    cases hstep
  · simp only [Transfer.clientStep, hpc] at hstep
    cases hstep

/-- A response that a worker processes is in no queue. -/
theorem Invariant.not_untaken {c j n : ℕ} (h : Invariant cfg s)
    (hw : (s.clients c).workers[j]? = some (.processing n)) (d : ℕ) :
    n ∉ (s.clients d).untaken := by
  intro hn
  have hprocessed : n ∈ (s.clients c).workers.filterMap ClientWorker.processed :=
    List.mem_filterMap.mpr ⟨_, List.mem_of_getElem? hw, rfl⟩
  obtain ⟨-, e, he, hc, -⟩ := h.responses c n (List.mem_append_right _ hprocessed)
  obtain ⟨-, e', he', hd, -⟩ := h.responses d n (List.mem_append_left _ hn)
  rw [he] at he'
  cases he'
  obtain rfl : c = d := hc.symm.trans hd
  exact (List.nodup_append.mp (h.responses_nodup c)).2.2 n hn n hprocessed rfl

theorem mem_responses_of_processing {c j n : ℕ}
    (hw : (s.clients c).workers[j]? = some (.processing n)) : n ∈ (s.clients c).responses :=
  List.mem_append_right _ (List.mem_filterMap.mpr ⟨_, List.mem_of_getElem? hw, rfl⟩)

theorem invariant_process {c j : ℕ} (h : Invariant cfg s)
    (hstep : s.step cfg (.process c j) = some s') : Invariant cfg s' := by
  obtain ⟨n, e, m', t', hw, he, hprocess, rfl⟩ := process_cases hstep
  have hmem := mem_responses_of_processing hw
  have h' : Invariant cfg { s.setExchange n { e with transfer := t' } with memory := m' } := by
    refine h.setExchange he rfl rfl ?_ ?_ (fun hr => absurd hr (h.responses c n hmem).1) ?_
      (fun d hd => absurd hd (h.not_untaken hw d))
    · intro hn
      obtain ⟨x, hx, hstage⟩ := h.live n e he hn
      rw [← hx] at hprocess
      obtain ⟨hstage', hframe⟩ := Transfer.clientStep_stage hstage hprocess
      have hseg : x.segment = e.segment := congrArg Job.segment hx
      rw [hseg] at hframe
      exact ⟨⟨x, hx, hstage'⟩, hframe⟩
    · exact fun hn => (h.tail n e he hn).clientStep hprocess
    · intro d hd
      obtain ⟨-, e₂, he₂, -, hcompleted⟩ := h.responses d n hd
      rw [he] at he₂
      cases he₂
      exact hcompleted
  exact h'.setClient (List.Subperm.refl _) (fun _ hn => hn)

theorem invariant_complete {c j : ℕ} (h : Invariant cfg s)
    (hstep : s.step cfg (.complete c j) = some s') : Invariant cfg s' := by
  obtain ⟨n, e, hw, he, hphase, rfl⟩ := complete_cases hstep
  have hmem := mem_responses_of_processing hw
  have hold := Slots.perm_get ClientWorker.processed hw
  have hnew := Slots.perm_set ClientWorker.processed hw (.destroying n)
  have hperm : (s.clients c).responses.Perm
      (n :: ((s.clients c).completeRequest j n).responses) := by
    refine List.perm_iff_count.mpr fun m => ?_
    have hcount := hold.count_eq m
    have hcount' := hnew.count_eq m
    simp only [ClientWorker.processed, Option.toList, List.count_append, List.count_cons,
      List.count_nil] at hcount hcount'
    simp only [Client.responses, Client.untaken, Client.completeRequest, List.count_append,
      List.count_cons]
    omega
  have h₁ : Invariant cfg (s.setClient c ((s.clients c).completeRequest j n)) :=
    h.setClient (List.subperm_of_subset (List.nodup_cons.mp
      (hperm.nodup_iff.mp (h.responses_nodup c))).2 (fun m hm =>
        hperm.mem_iff.mpr (List.mem_cons_of_mem n hm))) (fun _ hn => hn)
  -- the completed exchange is nowhere among the client's responses any more
  have hgone : ∀ d, n ∉ ((s.setClient c ((s.clients c).completeRequest j n)).clients d).responses := by
    intro d hd
    obtain ⟨-, e₂, he₂, hclient, -⟩ := h₁.responses d n hd
    obtain ⟨-, e₃, he₃, hclient', -⟩ := h.responses c n hmem
    have hget : s.exchanges[n]? = some e₂ := he₂
    rw [he₃] at hget
    cases hget
    obtain rfl : c = d := hclient'.symm.trans hclient
    simp only [System.setClient, if_true] at hd
    exact (List.nodup_cons.mp (hperm.nodup_iff.mp (h.responses_nodup c))).1 hd
  have hnot := (h.responses c n hmem).1
  refine h₁.setExchange he rfl rfl (fun hn => ⟨h.live n e he hn, fun _ _ _ => rfl⟩)
    (fun hn => ⟨⟨(h.tail n e he hn).service, (h.tail n e he hn).client⟩, rfl⟩)
    (fun hr => absurd hr hnot) (fun d hd => absurd hd (hgone d)) ?_
  exact fun d hd => absurd (List.mem_append_left _ hd) (hgone d)

end HandlerSteps

theorem invariant_step {cfg : Config} {s s' : System} {ev : Event} (h : Invariant cfg s)
    (hstep : s.step cfg ev = some s') : Invariant cfg s' := by
  cases ev with
  | submit c src => exact invariant_submit h hstep
  | dispatch c => exact invariant_dispatch h hstep
  | scheduleRequest c j => exact invariant_scheduleRequest h hstep
  | process c j => exact invariant_process h hstep
  | complete c j => exact invariant_complete h hstep
  | destroy c j => exact invariant_destroy h hstep
  | poll c => exact invariant_poll h hstep
  | enqueue => exact invariant_enqueue h hstep
  | schedule w i => exact invariant_schedule h hstep
  | allocate w => exact invariant_allocate h hstep
  | respond w => exact invariant_respond h hstep
  | serve w => exact invariant_serve h hstep
  | destroyHandler w => exact invariant_destroyHandler h hstep

theorem invariant_of_reachable {cfg : Config} {s : System}
    (h : (machine cfg).Reachable s) : Invariant cfg s :=
  h.invariant (invariant_init cfg) (fun _ _ _ hs hnext => invariant_step hs (step_of_next hnext))

end TinyFile.System
