import TinyFile.InFlight
import TinyFile.WaitGraph

/-!
# Circular waits between the clients and the service

Who waits for whom. The dispatcher waits in `mq_send` for the registration
thread, which waits for `requestMapMutex`; a worker that holds it waits for the
memory that other workers hold; and these wait for the dispatcher, which has yet
to receive their responses. The circle needs a client with more requests in
flight than its queue holds and a pool that the workers' segments exhaust.
-/
namespace TinyFile

/-- The internal segments of the largest share that a request can get. -/
def Config.share (cfg : Config) : ℕ :=
  max 1 (Scheduler.blocks cfg.manager (cfg.manager.size / cfg.serviceWorkers))

/-- What a circular wait takes. `owners` are the clients of the requests whose segments
leave too little for a further share; each of these clients has ten more requests in its
queue and one on its way there. The registration thread and the worker that waits for
memory have a request each, of the clients `a` and `b`. A share that does not fit a
response is never held for long. -/
structure Config.Exhausts (cfg : Config) (owners : List ℕ) (a b : ℕ) : Prop where
  held : owners ≠ []
  workers : owners.length < cfg.serviceWorkers
  pool : cfg.manager.size <
    INTERNAL_REP_SIZE * (cfg.share + owners.length * min cfg.share 1532)
  requests : ∀ c, (if c ∈ owners then 11 else 0) + (a :: b :: owners).count c ≤ cfg.numWorkers c

/-- The clients have too few workers for it, or the pool is too large. -/
def Config.Uncircular (cfg : Config) : Prop := ∀ owners a b, ¬ cfg.Exhausts owners a b

/-- The service that `main` starts, and `k` clients whose requests can be counted. -/
structure Config.Started (cfg : Config) (k : ℕ) : Prop where
  workers : cfg.serviceWorkers = NUM_WORKERS
  only : ∀ c, k ≤ c → cfg.numWorkers c = 0
  small : ∑ c ∈ Finset.range k, cfg.numWorkers c + NUM_WORKERS < SizeT.modulus

/-- Clients that have too few workers all together, such as a single one. -/
theorem Config.uncircular_of_sum {cfg : Config} {k : ℕ}
    (honly : ∀ c, k ≤ c → cfg.numWorkers c = 0)
    (hfew : ∀ h < cfg.serviceWorkers,
      cfg.manager.size < INTERNAL_REP_SIZE * (cfg.share + h * min cfg.share 1532) →
        ∑ c ∈ Finset.range k, cfg.numWorkers c < 13 + h) : cfg.Uncircular := by
  intro owners a b h
  obtain ⟨c₀, hc₀⟩ := List.exists_mem_of_ne_nil owners h.held
  have hcount : ∀ c, (List.replicate 11 c₀ ++ a :: b :: owners).countP (fun d => decide (d = c)) ≤
      cfg.numWorkers c := by
    intro c
    refine le_trans ?_ (h.requests c)
    rw [List.countP_append, List.countP_replicate, List.count_eq_countP]
    refine Nat.add_le_add ?_ (List.countP_mono_left fun d _ hd => by simpa using hd)
    by_cases hc : c₀ = c
    · rw [if_pos (decide_eq_true hc), if_pos (hc ▸ hc₀)]
    · rw [if_neg (by simpa using hc)]
      exact Nat.zero_le _
  have hlength := Slots.length_le_sum (k := k) id (fun d hd => ?_) hcount
  · have hsum := hfew owners.length h.workers h.pool
    simp only [List.length_append, List.length_replicate, List.length_cons] at hlength
    omega
  · by_contra hge
    have hzero := hcount d
    rw [honly d (Nat.le_of_not_lt hge), Nat.le_zero, List.countP_eq_zero] at hzero
    exact hzero d hd (decide_eq_true rfl)

namespace System

inductive Thread where
  | dispatcher (c : ℕ)
  | clientWorker (c j : ℕ)
  | registration
  | serviceWorker (w : ℕ)
  deriving DecidableEq

/-- The handler waits on a semaphore that is zero. -/
def Exchange.waits (cfg : Config) (m : Memory) (e : Exchange) : Side → Bool
  | .service => (Transfer.serviceStep (e.job cfg) m e.transfer).isNone &&
      e.transfer.service.phase != .finished
  | .client => (Transfer.clientStep (e.job cfg) m e.transfer).isNone &&
      e.transfer.client.phase != .finished

/-- The workers whose state satisfies `p`. -/
def serviceWorkers (s : System) (p : ServiceWorker → Prop) : Set Thread :=
  {t | ∃ w pc, s.workers[w]? = some pc ∧ p pc ∧ t = .serviceWorker w}

/-- Who holds `requestMapMutex`. -/
def holders (s : System) : Set Thread := s.serviceWorkers (fun pc => pc.holdsMutex = true)

/-- Who can release memory. -/
def owners (s : System) : Set Thread := s.serviceWorkers (fun pc => pc.exchange.isSome = true)

/-- The client's threads that have the response or can take it. -/
def clientSide (s : System) (c n : ℕ) : Set Thread :=
  {t | (n ∈ (s.clients c).serverToClient ∨ (s.clients c).dispatcher = .pushing n) ∧
      t = .dispatcher c ∨
    ∃ j pc, (s.clients c).workers[j]? = some pc ∧
      (n ∈ (s.clients c).requestResponseQueue ∨ pc = .processing n) ∧ t = .clientWorker c j}

/-- A thread that is blocked, and the threads that can wake it; a wait for new
work is not counted, and a process that has ended has no threads. -/
def waitsOn (cfg : Config) (s : System) : Thread → Option (Set Thread)
  | .dispatcher c =>
      match (s.clients c).fault, (s.clients c).dispatcher with
      | none, .posting call =>
          if ((s.clients c).mqSend call).isNone then some {.registration} else none
      | _, _ => none
  | .clientWorker c j =>
      match (s.clients c).fault, (s.clients c).workers[j]? with
      | none, some (.processing n) => s.exchanges[n]?.bind fun e =>
          if e.waits cfg s.memory .client then
            some (s.serviceWorkers (fun pc => pc.exchange = some n))
          else none
      | _, _ => none
  | .registration =>
      match s.fault, s.registration with
      | none, .enqueueing _ => if s.mutexHeld then some s.holders else none
      | _, _ => none
  | .serviceWorker w =>
      match s.fault, s.workers[w]? with
      | none, some .idle => if s.mutexHeld then some s.holders else none
      | none, some (.allocating _ requestSize) =>
          if s.manager.getShmSegment requestSize matches .ok none then some s.owners else none
      | none, some (.responding n) => s.exchanges[n]?.bind fun e =>
          if (s.respond w).isNone then some {.dispatcher e.request.clientId} else none
      | none, some (.serving n) => s.exchanges[n]?.bind fun e =>
          if e.waits cfg s.memory .service then some (s.clientSide e.request.clientId n) else none
      | _, _ => none

/-- How large requests and segments are. -/
structure Shares (cfg : Config) (s : System) : Prop where
  workers : s.workers.length = cfg.serviceWorkers
  allocating : ∀ r requestSize, .allocating r requestSize ∈ s.workers →
    requestSize ≤ INTERNAL_REP_SIZE * cfg.share
  segment : ∀ e ∈ s.exchanges, e.segment.length ≤ cfg.share
  serving : ∀ n e, .serving n ∈ s.workers → s.exchanges[n]? = some e → e.segment.length ≤ 1532

variable {cfg : Config} {s s' : System}

section Shares

theorem shares_init (cfg : Config) : Shares cfg (init cfg) where
  workers := List.length_replicate
  allocating := fun r requestSize h => by cases List.eq_of_mem_replicate h
  segment := fun e h => by cases h
  serving := fun n e h => by cases List.eq_of_mem_replicate h

/-- No request asks for more than the share of an empty queue. -/
theorem handlerShmSize_le {k pending fileSize : ℕ} (hcfg : cfg.Started k)
    (hsame : cfg.manager.SamePool s.manager) (hrep : s.manager.internalRepSize = INTERNAL_REP_SIZE)
    (hsize : cfg.manager.size < SizeT.modulus)
    (hpending : pending ≤ ∑ c ∈ Finset.range k, cfg.numWorkers c) :
    Scheduler.handlerShmSize s.manager pending cfg.serviceWorkers fileSize cfg.strategy ≤
      INTERNAL_REP_SIZE * cfg.share := by
  have hsmall := hcfg.small
  have hrep' : cfg.manager.internalRepSize = INTERNAL_REP_SIZE := config_rep cfg
  have hblocks : ∀ size, Scheduler.blocks s.manager size = Scheduler.blocks cfg.manager size := by
    intro size
    rw [Scheduler.blocks, Scheduler.blocks, hrep, hrep']
  rw [Scheduler.handlerShmSize_eq, hrep, hcfg.workers, Scheduler.grantedBlocks, hsame.size,
    hblocks, Config.share, hcfg.workers, SizeT.add_of_lt (by omega)]
  have hdiv : cfg.manager.size / (pending + NUM_WORKERS) ≤ cfg.manager.size / NUM_WORKERS :=
    Nat.div_le_div_left (by omega) (by decide)
  have hpos : 0 < cfg.manager.internalRepSize := by
    rw [hrep']
    decide
  have hquarter : cfg.manager.size / NUM_WORKERS + cfg.manager.internalRepSize <
      SizeT.modulus := by
    have hfour : cfg.manager.size / NUM_WORKERS * NUM_WORKERS ≤ cfg.manager.size :=
      Nat.div_mul_le_self _ _
    rw [hrep']
    simp only [NUM_WORKERS, INTERNAL_REP_SIZE, SizeT.modulus] at hsize hfour ⊢
    omega
  have hle := Scheduler.blocks_le hpos hdiv hquarter
  refine Nat.mul_le_mul_left _ (max_le (le_max_left _ _) ?_)
  exact (min_le_left _ _).trans (hle.trans (le_max_right _ _))

theorem Shares.setWorker {w : ℕ} {pc : ServiceWorker} (h : Shares cfg s)
    (halloc : ∀ r requestSize, pc = .allocating r requestSize →
      requestSize ≤ INTERNAL_REP_SIZE * cfg.share)
    (hserving : ∀ n e, pc = .serving n → s.exchanges[n]? = some e → e.segment.length ≤ 1532) :
    Shares cfg (s.setWorker w pc) where
  workers := by
    simp only [System.setWorker, List.length_set]
    exact h.workers
  allocating := by
    intro r requestSize hr
    rcases List.mem_or_eq_of_mem_set hr with hr | hr
    · exact h.allocating r requestSize hr
    · exact halloc r requestSize hr.symm
  segment := h.segment
  serving := by
    intro n e hn he
    rcases List.mem_or_eq_of_mem_set hn with hn | hn
    · exact h.serving n e hn he
    · exact hserving n e hn.symm he

theorem Shares.setExchange {n : ℕ} {e e' : Exchange} (h : Shares cfg s)
    (he : s.exchanges[n]? = some e) (hsegment : e'.segment = e.segment) :
    Shares cfg (s.setExchange n e') where
  workers := h.workers
  allocating := h.allocating
  segment := by
    intro e₂ he₂
    rcases List.mem_or_eq_of_mem_set he₂ with he₂ | rfl
    · exact h.segment e₂ he₂
    · rw [hsegment]
      exact h.segment e (List.mem_of_getElem? he)
  serving := by
    intro m e₂ hm he₂
    have hget : (s.exchanges.set n e')[m]? = some e₂ := he₂
    by_cases hmn : m = n
    · subst hmn
      rw [List.getElem?_set_self (List.getElem?_eq_some_iff.mp he).1] at hget
      cases hget
      rw [hsegment]
      exact h.serving m e hm he
    · rw [List.getElem?_set_ne (Ne.symm hmn)] at hget
      exact h.serving m e₂ hm hget

theorem shares_allocate {w : ℕ} (hinv : Invariant cfg s) (h : Shares cfg s)
    (hstep : s.step cfg (.allocate w) = some s') : Shares cfg s' := by
  obtain ⟨request, requestSize, hw, hcases⟩ := allocate_cases hstep
  rcases hcases with ⟨fault, -, rfl⟩ | ⟨gs, m, hgrant, rfl⟩
  · exact { h with }
  · obtain ⟨hlen, -, -⟩ := Pool.grant_spec hinv.pool hgrant
    have hle := h.allocating request requestSize (List.mem_of_getElem? hw)
    rw [← hlen, hinv.rep] at hle
    have hshare : gs.length ≤ cfg.share := Nat.le_of_mul_le_mul_left hle (by decide)
    have h' : Shares cfg (s.setWorker w (.responding s.exchanges.length)) :=
      h.setWorker (fun r size hr => by cases hr) (fun n e hn => by cases hn)
    refine { h' with segment := ?_, serving := ?_ }
    · intro e he
      rcases List.mem_append.mp he with he | he
      · exact h.segment e he
      · obtain rfl := List.mem_singleton.mp he
        exact hshare
    · intro n e hn he
      rcases List.mem_or_eq_of_mem_set hn with hn | hn
      · rcases getElem?_exchanges_append he with he | ⟨rfl, rfl⟩
        · exact h.serving n e hn he
        · exact absurd (hinv.handlers_lt _ (List.mem_filterMap.mpr ⟨_, hn, rfl⟩)) (lt_irrefl _)
      · cases hn

theorem shares_respond {w : ℕ} (h : Shares cfg s)
    (hstep : s.step cfg (.respond w) = some s') : Shares cfg s' := by
  obtain ⟨n, e, hw, he, hcases⟩ := respond_cases hstep
  rcases hcases with ⟨fault, rfl⟩ | ⟨hsize, -, rfl⟩
  · exact { h with }
  · have hlen := (RegistrationVisitor.checkSize_iff _).mp hsize
    rw [FragmentedShmSegment.getSegmentIds, List.length_map] at hlen
    have h' : Shares cfg (s.setWorker w (.serving n)) := by
      refine h.setWorker (fun r size hr => by cases hr) fun m e' hm he' => ?_
      cases hm
      rw [he] at he'
      cases he'
      exact hlen
    exact { h' with }

theorem shares_step {k : ℕ} {ev : Event} (hcfg : cfg.Started k) (hinv : Invariant cfg s)
    (hflight : InFlight cfg s) (h : Shares cfg s) (hstep : s.step cfg ev = some s') :
    Shares cfg s' := by
  cases ev with
  | submit c src =>
    obtain ⟨small, rfl⟩ := submit_cases hstep
    exact { h with }
  | dispatch c =>
    obtain ⟨h', -, rfl⟩ := dispatch_cases hstep
    exact { h with }
  | scheduleRequest c j =>
    obtain ⟨n, rest, -, -, rfl⟩ := scheduleRequest_cases hstep
    exact { h with }
  | process c j =>
    obtain ⟨n, e, m', t', -, he, -, rfl⟩ := process_cases hstep
    have hset : Shares cfg (s.setExchange n { e with transfer := t' }) := h.setExchange he rfl
    exact { hset with }
  | complete c j =>
    obtain ⟨n, e, -, he, -, rfl⟩ := complete_cases hstep
    have hset : Shares cfg (s.setExchange n { e with completed := true }) := h.setExchange he rfl
    exact { hset with }
  | destroy c j =>
    obtain ⟨n, e, -, -, rfl⟩ := destroy_cases hstep
    exact { h with }
  | poll c =>
    obtain ⟨call, rest, -, -, rfl⟩ := poll_cases hstep
    exact { h with }
  | enqueue =>
    obtain ⟨request, -, -, rfl⟩ := enqueue_cases hstep
    exact { h with }
  | schedule w i =>
    obtain ⟨request, -, -, -, rfl⟩ := schedule_cases hstep
    have hlen : (s.pending.eraseIdx i).length ≤ ∑ c ∈ Finset.range k, cfg.numWorkers c :=
      le_trans (List.length_eraseIdx_le _ _) (hflight.pending_length_le_sum hcfg.only)
    have hsmall : cfg.manager.size < SizeT.modulus := hinv.same.size ▸ hinv.pool.layout.size_lt
    have hsize : Scheduler.handlerShmSize s.manager (s.pending.eraseIdx i).length
        cfg.serviceWorkers request.fileSize cfg.strategy ≤ INTERNAL_REP_SIZE * cfg.share :=
      handlerShmSize_le hcfg hinv.same hinv.rep hsmall hlen
    have h' : ∀ requestSize ≤ INTERNAL_REP_SIZE * cfg.share,
        Shares cfg (s.setWorker w (.allocating request requestSize)) := by
      intro requestSize hle
      refine h.setWorker (fun r size hr => ?_) (fun n e hn => by cases hn)
      cases hr
      exact hle
    exact { h' _ hsize with }
  | allocate w => exact shares_allocate hinv h hstep
  | respond w => exact shares_respond h hstep
  | serve w =>
    obtain ⟨n, e, m', t', -, he, -, rfl⟩ := serve_cases hstep
    have hset : Shares cfg (s.setExchange n { e with transfer := t' }) := h.setExchange he rfl
    exact { hset with }
  | destroyHandler w =>
    obtain ⟨n, e, -, -, -, rfl⟩ := destroyHandler_cases hstep
    have h' : Shares cfg (s.setWorker w .idle) :=
      h.setWorker (fun r size hr => by cases hr) (fun n e hn => by cases hn)
    exact { h' with }

theorem shares_of_reachable {k : ℕ} (hcfg : cfg.Started k) (h : (machine cfg).Reachable s) :
    Shares cfg s := by
  induction h with
  | start => exact shares_init cfg
  | step hs hnext _ ih =>
    exact shares_step hcfg (invariant_of_reachable hs.reachable)
      (inFlight_of_reachable hs.reachable) ih (step_of_next hnext)

end Shares

section Blocked

variable {S P : Set Thread}

theorem waitsOn_dispatcher {c : ℕ} (h : s.waitsOn cfg (.dispatcher c) = some P) :
    ∃ call, (s.clients c).dispatcher = .posting call ∧
      CLIENT_MAX_MSG ≤ (s.clients c).clientToServer.length ∧ P = {.registration} := by
  simp only [waitsOn] at h
  split at h
  · next call _ hpc =>
    split_ifs at h with hfull
    cases h
    simp only [Client.mqSend, Option.isNone_iff_eq_none] at hfull
    split_ifs at hfull with hroom
    exact ⟨call, hpc, by omega, rfl⟩
  · cases h

theorem waitsOn_clientWorker {c j : ℕ} (h : s.waitsOn cfg (.clientWorker c j) = some P) :
    ∃ n e, (s.clients c).workers[j]? = some (.processing n) ∧ s.exchanges[n]? = some e ∧
      e.waits cfg s.memory .client = true ∧
      P = s.serviceWorkers (fun pc => pc.exchange = some n) := by
  simp only [waitsOn] at h
  split at h
  · next n _ hw =>
    obtain ⟨e, he, h⟩ := Option.bind_eq_some_iff.mp h
    split_ifs at h with hwaits
    cases h
    exact ⟨n, e, hw, he, hwaits, rfl⟩
  · cases h

theorem waitsOn_registration (h : s.waitsOn cfg .registration = some P) :
    ∃ r, s.registration = .enqueueing r ∧ P = s.holders := by
  simp only [waitsOn] at h
  split at h
  · next r _ hr =>
    split_ifs at h
    cases h
    exact ⟨r, hr, rfl⟩
  · cases h

theorem waitsOn_serviceWorker {w : ℕ} (h : s.waitsOn cfg (.serviceWorker w) = some P) :
    ∃ pc, s.workers[w]? = some pc ∧
      ((pc = .idle ∧ P = s.holders) ∨
      (∃ r requestSize, pc = .allocating r requestSize ∧
        s.manager.getShmSegment requestSize = .ok none ∧ P = s.owners) ∨
      (∃ n e, pc = .responding n ∧ s.exchanges[n]? = some e ∧ s.respond w = none ∧
        P = {.dispatcher e.request.clientId}) ∨
      ∃ n e, pc = .serving n ∧ s.exchanges[n]? = some e ∧ e.waits cfg s.memory .service = true ∧
        P = s.clientSide e.request.clientId n) := by
  simp only [waitsOn] at h
  split at h
  · next _ hw =>
    split_ifs at h
    cases h
    exact ⟨_, hw, .inl ⟨rfl, rfl⟩⟩
  · next r requestSize _ hw =>
    refine ⟨_, hw, .inr (.inl ⟨r, requestSize, rfl, ?_⟩)⟩
    split_ifs at h with hgrant
    cases h
    refine ⟨?_, rfl⟩
    split at hgrant
    · assumption
    · cases hgrant
  · next n _ hw =>
    obtain ⟨e, he, h⟩ := Option.bind_eq_some_iff.mp h
    split_ifs at h with hfull
    cases h
    exact ⟨_, hw, .inr (.inr (.inl ⟨n, e, rfl, he, Option.isNone_iff_eq_none.mp hfull, rfl⟩))⟩
  · next n _ hw =>
    obtain ⟨e, he, h⟩ := Option.bind_eq_some_iff.mp h
    split_ifs at h with hwaits
    cases h
    exact ⟨_, hw, .inr (.inr (.inr ⟨n, e, rfl, he, hwaits, rfl⟩))⟩
  · cases h

theorem exchange_of_holdsMutex {pc : ServiceWorker} (h : pc.holdsMutex = true) :
    ∃ r requestSize, pc = .allocating r requestSize := by
  cases pc with
  | allocating r requestSize => exact ⟨r, requestSize, rfl⟩
  | idle => cases h
  | responding n => cases h
  | serving n => cases h

/-- The two handlers of an undisturbed transfer never wait for each other. -/
theorem Exchange.Live.not_waiting {e : Exchange} {m : Memory} (h : e.Live cfg m) :
    ¬ (e.waits cfg m .service = true ∧ e.waits cfg m .client = true) := by
  rintro ⟨hs, hc⟩
  obtain ⟨x, hx, hstage⟩ := h
  simp only [Exchange.waits, Bool.and_eq_true, Option.isNone_iff_eq_none, bne_iff_ne, ne_eq,
    ← hx] at hs hc
  obtain ⟨side, hside⟩ := hstage.progress (fun hboth => hs.2 hboth.1)
  cases side with
  | service => simp [Transfer.step, hs.1] at hside
  | client => simp [Transfer.step, hc.1] at hside

/-- A client's worker waits for a handler that can move, or for nobody. -/
theorem CircularWait.not_clientWorker (hinv : Invariant cfg s)
    (h : CircularWait (s.waitsOn cfg) S) (c j : ℕ) : .clientWorker c j ∉ S := by
  intro hS
  obtain ⟨P, hP, -⟩ := h.closed _ hS
  obtain ⟨n, e, hw, he, hwaits, rfl⟩ := waitsOn_clientWorker hP
  obtain ⟨-, ⟨w, pc, hpc, hn, rfl⟩, hservice⟩ := h.exists_mem hS hP
  have hmem : n ∈ s.handlers := List.mem_filterMap.mpr ⟨pc, List.mem_of_getElem? hpc, hn⟩
  obtain ⟨Q, hQ, -⟩ := h.closed _ hservice
  obtain ⟨pc', hpc', hcases⟩ := waitsOn_serviceWorker hQ
  rw [hpc] at hpc'
  cases hpc'
  rcases hcases with ⟨rfl, -⟩ | ⟨r, size, rfl, -⟩ | ⟨m, -, rfl, -⟩ | ⟨m, e', rfl, he', hwaits', -⟩
  · cases hn
  · cases hn
  · cases hn
    exact (hinv.responses c n (mem_responses_of_processing hw)).1 (List.mem_of_getElem? hpc)
  · cases hn
    rw [he] at he'
    cases he'
    exact (hinv.live n e he hmem).not_waiting ⟨hwaits', hwaits⟩

/-- A worker with a handler waits for the dispatcher that has yet to receive its
response. -/
theorem CircularWait.dispatcher_of_owner (hinv : Invariant cfg s) (hshares : Shares cfg s)
    (h : CircularWait (s.waitsOn cfg) S) {w n : ℕ} {pc : ServiceWorker}
    (hw : s.workers[w]? = some pc) (hn : pc.exchange = some n) (hS : .serviceWorker w ∈ S) :
    ∃ e, s.exchanges[n]? = some e ∧ .dispatcher e.request.clientId ∈ S ∧ e.completed = false ∧
      e.segment.length ≤ 1532 := by
  obtain ⟨P, hP, -⟩ := h.closed _ hS
  obtain ⟨pc', hpc', hcases⟩ := waitsOn_serviceWorker hP
  rw [hw] at hpc'
  cases hpc'
  rcases hcases with ⟨rfl, -⟩ | ⟨r, size, rfl, -⟩ | ⟨m, e, rfl, he, hfull, rfl⟩ |
    ⟨m, e, rfl, he, hwaits, rfl⟩
  · cases hn
  · cases hn
  · cases hn
    refine ⟨e, he, h.mem_of_singleton hS hP,
      (hinv.responding n e (List.mem_of_getElem? hw) he).2, ?_⟩
    -- a response that is too large is not waited with
    have hlen : e.segment.getSegmentIds.length ≤ 1532 := by
      simp only [respond, hw, he, Option.bind_some] at hfull
      split at hfull
      · cases hfull
      · next hsize => exact (RegistrationVisitor.checkSize_iff _).mp hsize
    rwa [FragmentedShmSegment.getSegmentIds, List.length_map] at hlen
  · cases hn
    obtain ⟨t, ht, htS⟩ := h.exists_mem hS hP
    rcases ht with ⟨hwhere, rfl⟩ | ⟨j, pc, -, -, rfl⟩
    · have hresponse : n ∈ (s.clients e.request.clientId).responses := by
        refine List.mem_append_left _ (List.mem_append_left _ ?_)
        rcases hwhere with hwhere | hwhere
        · exact List.mem_append_left _ hwhere
        · exact List.mem_append_right _ (by simp [hwhere, Dispatcher.received])
      obtain ⟨-, e', he', -, hopen⟩ := hinv.responses _ n hresponse
      rw [he] at he'
      cases he'
      exact ⟨e, he, htS, hopen, hshares.serving n e (List.mem_of_getElem? hw) he⟩
    · exact absurd htS (CircularWait.not_clientWorker hinv h _ j)

theorem CircularWait.of_holders {t : Thread} (h : CircularWait (s.waitsOn cfg) S) (ht : t ∈ S)
    (hP : s.waitsOn cfg t = some s.holders) :
    ∃ w r requestSize, s.workers[w]? = some (.allocating r requestSize) ∧
      .serviceWorker w ∈ S := by
  obtain ⟨u, ⟨w, pc, hw, hmutex, rfl⟩, huS⟩ := h.exists_mem ht hP
  obtain ⟨r, requestSize, rfl⟩ := exchange_of_holdsMutex hmutex
  exact ⟨w, r, requestSize, hw, huS⟩

theorem CircularWait.of_dispatcher {c : ℕ} (h : CircularWait (s.waitsOn cfg) S)
    (hc : .dispatcher c ∈ S) :
    (s.clients c).dispatcher.posted = 1 ∧ CLIENT_MAX_MSG ≤ (s.clients c).clientToServer.length ∧
      ∃ r, s.registration = .enqueueing r ∧ s.waitsOn cfg .registration = some s.holders ∧
        .registration ∈ S := by
  obtain ⟨P, hP, -⟩ := h.closed _ hc
  obtain ⟨call, hpc, hfull, rfl⟩ := waitsOn_dispatcher hP
  have hregistration := h.mem_of_singleton hc hP
  obtain ⟨Q, hQ, -⟩ := h.closed _ hregistration
  obtain ⟨r, hr, rfl⟩ := waitsOn_registration hQ
  exact ⟨by rw [hpc]; rfl, hfull, r, hr, hQ, hregistration⟩

/-- Every circular wait goes through a worker that holds the mutex. -/
theorem CircularWait.allocating (hinv : Invariant cfg s) (hshares : Shares cfg s)
    (h : CircularWait (s.waitsOn cfg) S) :
    ∃ w r requestSize, s.workers[w]? = some (.allocating r requestSize) ∧
      .serviceWorker w ∈ S := by
  have hdispatcher : ∀ c, .dispatcher c ∈ S → ∃ w r requestSize,
      s.workers[w]? = some (.allocating r requestSize) ∧ .serviceWorker w ∈ S := by
    intro c hc
    obtain ⟨-, -, r, -, hP, hregistration⟩ := CircularWait.of_dispatcher h hc
    exact CircularWait.of_holders h hregistration hP
  obtain ⟨t, ht⟩ := h.nonempty
  obtain ⟨P, hP, -⟩ := h.closed t ht
  cases t with
  | dispatcher c => exact hdispatcher c ht
  | clientWorker c j => exact absurd ht (CircularWait.not_clientWorker hinv h c j)
  | registration =>
    obtain ⟨r, -, rfl⟩ := waitsOn_registration hP
    exact CircularWait.of_holders h ht hP
  | serviceWorker w =>
    obtain ⟨pc, hw, hcases⟩ := waitsOn_serviceWorker hP
    rcases hcases with ⟨-, rfl⟩ | ⟨r, requestSize, rfl, -⟩ | ⟨n, -, rfl, -⟩ | ⟨n, -, rfl, -⟩
    · exact CircularWait.of_holders h ht hP
    · exact ⟨w, r, requestSize, hw, ht⟩
    · obtain ⟨e, -, hc, -⟩ := CircularWait.dispatcher_of_owner hinv hshares h hw rfl ht
      exact hdispatcher _ hc
    · obtain ⟨e, -, hc, -⟩ := CircularWait.dispatcher_of_owner hinv hshares h hw rfl ht
      exact hdispatcher _ hc

end Blocked

/-- Who waits for memory waits for the handlers' workers. -/
theorem waitsOn_allocating {w requestSize : ℕ} {r : Request} {P : Set Thread}
    (hw : s.workers[w]? = some (.allocating r requestSize))
    (hP : s.waitsOn cfg (.serviceWorker w) = some P) :
    s.manager.getShmSegment requestSize = .ok none ∧ P = s.owners := by
  obtain ⟨pc, hpc, hcases⟩ := waitsOn_serviceWorker hP
  rw [hw] at hpc
  cases hpc
  rcases hcases with ⟨hpc, -⟩ | ⟨r', size, hpc, hgrant⟩ | ⟨n, e, hpc, -⟩ | ⟨n, e, hpc, -⟩ <;>
    cases hpc
  exact hgrant

theorem held_length_le {k : ℕ} (h : ∀ n ∈ s.handlers, (s.segmentOf n).length ≤ k) :
    s.held.length ≤ s.handlers.length * k := by
  rw [held, List.length_flatMap]
  have hsum := List.sum_le_card_nsmul (s.handlers.map (fun n => (s.segmentOf n).length)) k (by
    intro l hl
    obtain ⟨n, hn, rfl⟩ := List.mem_map.mp hl
    exact h n hn)
  rwa [List.length_map, smul_eq_mul] at hsum

/-- The client of the request of an exchange. -/
def clientOf (s : System) (n : ℕ) : ℕ := (s.exchanges[n]?.map fun e => e.request.clientId).getD 0

theorem clientOf_eq {n : ℕ} {e : Exchange} (he : s.exchanges[n]? = some e) :
    s.clientOf n = e.request.clientId := by
  rw [clientOf, he, Option.map_some, Option.getD_some]

/-- Open exchanges of one client. -/
theorem count_clientOf_le {handlers : List ℕ} (hnd : handlers.Nodup)
    (h : ∀ n ∈ handlers, ∃ e, s.exchanges[n]? = some e ∧ e.completed = false) (c : ℕ) :
    (handlers.map s.clientOf).count c ≤ s.exchanges.countP (Exchange.isOpen c) := by
  rw [List.count_eq_countP, List.countP_map, List.countP_eq_length_filter]
  refine Slots.length_le_countP (hnd.sublist List.filter_sublist) fun n hn => ?_
  obtain ⟨hn, hc⟩ := List.mem_filter.mp hn
  obtain ⟨e, he, hopen⟩ := h n hn
  have hclient : e.request.clientId = c := by
    rw [← clientOf_eq he]
    simpa using hc
  exact ⟨e, he, by simp [Exchange.isOpen, Request.isOf, hclient, hopen]⟩

/-- Every handler is part of a circular wait, and beside them one request waits for
memory, one for the mutex and more than a queue of them in each client. -/
theorem CircularWait.exhausts {S : Set Thread} (hinv : Invariant cfg s)
    (hflight : InFlight cfg s) (hshares : Shares cfg s) (h : CircularWait (s.waitsOn cfg) S) :
    ∃ a b, cfg.Exhausts (s.handlers.map s.clientOf) a b := by
  obtain ⟨w, r, requestSize, hw, hS⟩ := CircularWait.allocating hinv hshares h
  obtain ⟨P, hP, -⟩ := h.closed _ hS
  obtain ⟨hgrant, rfl⟩ := waitsOn_allocating hw hP
  -- each handler is owned by a worker of the circle, and its request is open
  have howner : ∀ n ∈ s.handlers, ∃ e, s.exchanges[n]? = some e ∧
      .dispatcher e.request.clientId ∈ S ∧ e.completed = false ∧ e.segment.length ≤ 1532 := by
    intro n hn
    obtain ⟨pc, hmem, hpc⟩ := List.mem_filterMap.mp hn
    obtain ⟨v, hv⟩ := List.mem_iff_getElem?.mp hmem
    exact CircularWait.dispatcher_of_owner hinv hshares h hv hpc (h.subset hS hP
      ⟨v, pc, hv, Option.isSome_iff_exists.mpr ⟨n, hpc⟩, rfl⟩)
  obtain ⟨-, ⟨v, pc, hv, hsome, rfl⟩, hvS⟩ := h.exists_mem hS hP
  obtain ⟨n, hn⟩ := Option.isSome_iff_exists.mp hsome
  have hmem : n ∈ s.handlers := List.mem_filterMap.mpr ⟨pc, List.mem_of_getElem? hv, hn⟩
  obtain ⟨e, -, hc, -⟩ := howner n hmem
  obtain ⟨-, -, r', hr', -⟩ := CircularWait.of_dispatcher h hc
  refine ⟨r'.clientId, r.clientId, ?_, ?_, ?_, fun c => ?_⟩
  · exact List.ne_nil_of_mem (List.mem_map_of_mem hmem)
  · rw [List.length_map, ← hshares.workers]
    exact List.length_filterMap_lt_length_iff_exists.mpr ⟨_, List.mem_of_getElem? hw, rfl⟩
  · have havailable : s.manager.availableSize < requestSize := by
      rw [ShmManager.getShmSegment] at hgrant
      split_ifs at hgrant with _ hlt
      · exact hlt
      · cases hgrant
    have hsize := hshares.allocating r requestSize (List.mem_of_getElem? hw)
    have hheld : s.held.length ≤ s.handlers.length * min cfg.share 1532 := by
      refine held_length_le fun n hn => ?_
      obtain ⟨e, he, -, -, hlen⟩ := howner n hn
      rw [segmentOf_eq he]
      exact le_min (hshares.segment e (List.mem_of_getElem? he)) hlen
    have hpool := hinv.pool.availableSize_add
    rw [hinv.rep, hinv.same.size] at hpool
    have hmul := Nat.mul_le_mul_left INTERNAL_REP_SIZE hheld
    rw [List.length_map, Nat.mul_add]
    omega
  · have hsending : (if c ∈ s.handlers.map s.clientOf then 11 else 0) ≤
        (s.clients c).sending := by
      split_ifs with hmem
      · obtain ⟨n, hn, rfl⟩ := List.mem_map.mp hmem
        obtain ⟨e, he, hc, -⟩ := howner n hn
        rw [clientOf_eq he, Client.sending]
        obtain ⟨hposted, hfull, -⟩ := CircularWait.of_dispatcher h hc
        rw [hposted]
        exact Nat.add_le_add_left hfull 1
      · exact Nat.zero_le _
    have henqueues : s.registration.enqueues c = if r'.clientId = c then 1 else 0 := by
      simp [hr', Registration.enqueues, Request.isOf]
    have hallocates : (if r.clientId = c then 1 else 0) ≤
        s.workers.countP (ServiceWorker.allocatesFor c) := by
      split_ifs with hrc
      · exact List.countP_pos_iff.mpr ⟨_, List.mem_of_getElem? hw, by
          simp [ServiceWorker.allocatesFor, Request.isOf, hrc]⟩
      · exact Nat.zero_le _
    have hopen := count_clientOf_le hinv.handlers_nodup (fun n hn => by
      obtain ⟨e, he, -, hopen, -⟩ := howner n hn
      exact ⟨e, he, hopen⟩) c
    have hactive := hflight.active c
    have hbound := hflight.bound c
    rw [active, henqueues] at hactive
    simp only [List.count_cons, beq_iff_eq]
    omega

/-- Clients with too few workers for the pool's segments never wait in a circle. -/
theorem no_circular_wait {k : ℕ} (hcfg : cfg.Started k) (hfree : cfg.Uncircular)
    (h : (machine cfg).Reachable s) (S : Set Thread) : ¬ CircularWait (s.waitsOn cfg) S := by
  intro hS
  obtain ⟨a, b, hexhausts⟩ := CircularWait.exhausts (invariant_of_reachable h)
    (inFlight_of_reachable h) (shares_of_reachable hcfg h) hS
  exact hfree _ a b hexhausts

/-- The service with one internal segment, and one client. -/
def lonelyService (numWorkers : ℕ) : Config :=
  smallService (fun c => if c = 0 then numWorkers else 0)

/-- Two clients with a worker less than a circular wait takes. -/
def busyService : Config := smallService (fun c => if c = 0 then 12 else if c = 1 then 1 else 0)

theorem started_busy : busyService.Started 2 where
  workers := rfl
  only := fun c hc => by
    show (if c = 0 then 12 else if c = 1 then 1 else 0) = 0
    rw [if_neg (by omega), if_neg (by omega)]
  small := by decide

/-- The first request has the only segment, its response is in its client's queue, and
a worker that holds the mutex waits to give another request one. -/
def starvedRun (c d submitted : ℕ) : List Event := List.flatten
  [List.replicate submitted (.submit c [1, 2, 3]), [.submit d [1, 2, 3]], requestRun c,
    responseRun 0, requestRun d, [.schedule 1 0]]

theorem no_circular_wait_busy : ∃ s, (machine busyService).Reachable s ∧
    s.mutexHeld = true ∧ s.manager.availableSize = 0 ∧
    ∀ S, ¬ CircularWait (s.waitsOn busyService) S := by
  have hmap : ((machine busyService).run (machine busyService).start
      (starvedRun 0 1 12)).map (fun s => (s.mutexHeld, s.manager.availableSize)) =
      some (true, 0) := by decide +kernel
  obtain ⟨s, hrun, hs⟩ := Option.map_eq_some_iff.mp hmap
  obtain ⟨hmutex, havailable⟩ := Prod.mk.inj hs
  have hfree : busyService.Uncircular := by
    refine Config.uncircular_of_sum started_busy.only ?_
    show ∀ h < 4, 32 < 32 * (busyService.share + h * min busyService.share 1532) → 13 < 13 + h
    decide +kernel
  have hreach := Machine.reachable_of_run hrun
  exact ⟨s, hreach, hmutex, havailable, no_circular_wait started_busy hfree hreach⟩

/-- Meanwhile the dispatcher goes on sending: the registration thread takes one
more request, ten fill the queue, and it waits with the next. -/
def circularRun : List Event :=
  List.flatten [starvedRun 0 0 13, [.dispatch 0, .dispatch 0, .poll 0],
    List.replicate 21 (.dispatch 0)]

/-- Where a circular wait of four threads is. -/
structure Circle (cfg : Config) (s : System) : Prop where
  alive : s.fault = none ∧ (s.clients 0).fault = none
  dispatcher : ∃ call, (s.clients 0).dispatcher = .posting call
  full : (s.clients 0).clientToServer.length = CLIENT_MAX_MSG
  unreceived : (s.clients 0).serverToClient = [0] ∧ (s.clients 0).requestResponseQueue = []
  idle : ∀ pc ∈ (s.clients 0).workers, pc = .idle
  registration : ∃ r, s.registration = .enqueueing r
  workers : ∃ r requestSize, s.workers = [.serving 0, .allocating r requestSize, .idle, .idle] ∧
    s.manager.getShmSegment requestSize = .ok none
  waits : ∃ e, s.exchanges[0]? = some e ∧ e.request.clientId = 0 ∧
    e.waits cfg s.memory .service = true

theorem Circle.circularWait (h : Circle cfg s) : CircularWait (s.waitsOn cfg)
    {.dispatcher 0, .registration, .serviceWorker 0, .serviceWorker 1} := by
  obtain ⟨r, requestSize, hworkers, hgrant⟩ := h.workers
  have hget : ∀ w pc, s.workers[w]? = some pc → w = 0 ∧ pc = .serving 0 ∨
      w = 1 ∧ pc = .allocating r requestSize ∨ pc = .idle := by
    intro w pc hw
    rw [hworkers] at hw
    rcases w with _ | _ | _ | _ | w <;> simp_all
  have hheld : s.mutexHeld = true := by simp [mutexHeld, hworkers, ServiceWorker.holdsMutex]
  refine ⟨⟨_, Set.mem_insert _ _⟩, ?_⟩
  rintro t (rfl | rfl | rfl | rfl)
  · obtain ⟨call, hpc⟩ := h.dispatcher
    refine ⟨{.registration}, ?_, Set.singleton_nonempty _, by simp⟩
    simp [waitsOn, h.alive.2, hpc, Client.mqSend, h.full]
  · obtain ⟨r', hr'⟩ := h.registration
    refine ⟨s.holders, by simp [waitsOn, h.alive.1, hr', hheld],
      ⟨.serviceWorker 1, 1, .allocating r requestSize, by simp [hworkers], rfl, rfl⟩, ?_⟩
    rintro t ⟨w, pc, hw, hmutex, rfl⟩
    rcases hget w pc hw with ⟨rfl, rfl⟩ | ⟨rfl, rfl⟩ | rfl
    · cases hmutex
    · simp
    · cases hmutex
  · obtain ⟨e, he, hc, hwaits⟩ := h.waits
    refine ⟨s.clientSide 0 0, by simp [waitsOn, h.alive.1, hworkers, he, hc, hwaits],
      ⟨.dispatcher 0, .inl ⟨.inl (by simp [h.unreceived.1]), rfl⟩⟩, ?_⟩
    rintro t (⟨-, rfl⟩ | ⟨j, pc, hj, hwhere, rfl⟩)
    · simp
    · rw [h.unreceived.2, h.idle pc (List.mem_of_getElem? hj)] at hwhere
      simp at hwhere
  · refine ⟨s.owners, by simp [waitsOn, h.alive.1, hworkers, hgrant],
      ⟨.serviceWorker 0, 0, .serving 0, by simp [hworkers], rfl, rfl⟩, ?_⟩
    rintro t ⟨w, pc, hw, howns, rfl⟩
    rcases hget w pc hw with ⟨rfl, rfl⟩ | ⟨rfl, rfl⟩ | rfl
    · simp
    · cases howns
    · cases howns

set_option synthInstance.maxSize 400 in
theorem circular_wait : ∃ s S, (machine (lonelyService 14)).Reachable s ∧
    CircularWait (s.waitsOn (lonelyService 14)) S := by
  have hservice : ((machine (lonelyService 14)).run (machine (lonelyService 14)).start
      circularRun).map (fun s => (s.fault, s.registration, s.workers, s.manager.availableSize,
        s.manager.internalRepSize, s.exchanges.map (fun e =>
          (e.request.clientId, e.waits (lonelyService 14) s.memory .service)))) =
      some (none, .enqueueing ⟨⟨2, [1, 2, 3], by decide⟩, 0⟩,
        [.serving 0, .allocating ⟨⟨1, [1, 2, 3], by decide⟩, 0⟩ 32, .idle, .idle], 0, 32,
        [(0, true)]) := by decide +kernel
  have hclient : ((machine (lonelyService 14)).run (machine (lonelyService 14)).start
      circularRun).map (fun s => ((s.clients 0).fault, (s.clients 0).dispatcher,
        (s.clients 0).clientToServer.length, (s.clients 0).serverToClient,
        (s.clients 0).requestResponseQueue, (s.clients 0).workers)) =
      some (none, .posting ⟨13, [1, 2, 3], by decide⟩, 10, [0], [],
        List.replicate 14 .idle) := by decide +kernel
  obtain ⟨s, hrun, hs⟩ := Option.map_eq_some_iff.mp hservice
  rw [hrun, Option.map_some] at hclient
  simp only [Prod.mk.injEq, Option.some.injEq] at hs hclient
  obtain ⟨hfault, hr, hw, havail, hrep, he⟩ := hs
  obtain ⟨hfault', hpc, hfull, hs2c, hq, hidle⟩ := hclient
  have hcircle : Circle (lonelyService 14) s := by
    refine ⟨⟨hfault, hfault'⟩, ⟨_, hpc⟩, hfull, ⟨hs2c, hq⟩, ?_, ⟨_, hr⟩, ⟨_, _, hw, ?_⟩, ?_⟩
    · rw [hidle]
      exact fun pc hpc => List.eq_of_mem_replicate hpc
    · rw [ShmManager.getShmSegment, hrep, havail]
      rfl
    · cases hx : s.exchanges with
      | nil =>
        rw [hx] at he
        cases he
      | cons e es =>
        rw [hx] at he
        simp only [List.map_cons, List.cons.injEq, Prod.mk.injEq] at he
        exact ⟨e, rfl, he.1⟩
  exact ⟨s, _, Machine.reachable_of_run hrun, hcircle.circularWait⟩

end System

end TinyFile
