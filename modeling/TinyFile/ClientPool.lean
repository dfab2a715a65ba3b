import TinyFile.SystemInvariant

/-!
# The client's pool

Service and clients keep a bitmap each. A client marks the segments of a response
as allocated when it receives the response and as available when its worker
destroys the handler, which may be after the service gave the same segments to
another request. In runs in which the service only gives a client's request
segments that this client has given back, no response is refused.
-/
namespace TinyFile.System

/-- A request is only given segments that its client has not marked allocated. -/
def grantsReleased (s : System) : Event → Bool
  | .allocate w =>
      match s.workers[w]? with
      | some (.allocating request requestSize) =>
          match s.manager.getShmSegment requestSize with
          | .ok (some (gs, _)) => gs.all fun g =>
              (s.clients request.clientId).manager.availableSegments[g.id]? != some false
          | _ => true
      | _ => true
  | _ => true

/-- The responses that the client's manager has not seen. -/
def Client.unseen (h : Client) : List ℕ := h.serverToClient ++ h.dispatcher.received

/-- The segment of the exchange is available in the client's pool. -/
def Exchange.Grantable (h : Client) (e : Exchange) : Prop :=
  ∀ id ∈ e.segment.getSegmentIds, h.manager.availableSegments[id]? = some true

/-- The exchange is that of a response which its client's manager has not seen. -/
def Unseen (s : System) (n : ℕ) (e : Exchange) : Prop :=
  s.exchanges[n]? = some e ∧
    (.responding n ∈ s.workers ∨ n ∈ (s.clients e.request.clientId).unseen)

structure ClientPools (cfg : Config) (s : System) : Prop where
  same : ∀ c, cfg.manager.SamePool (s.clients c).manager
  length : ∀ c, (s.clients c).manager.availableSegments.length = cfg.manager.numInternalSegments
  segments : ∀ e ∈ s.exchanges, (∀ g ∈ e.segment, g.id < cfg.manager.numInternalSegments ∧
    cfg.manager.shmSegments[g.id]? = some g) ∧ e.segment.getSegmentIds.Nodup
  grantable : ∀ n e, s.Unseen n e → e.Grantable (s.clients e.request.clientId)

section Steps

variable {cfg : Config} {s s' : System}

theorem clientPools_init (cfg : Config) : ClientPools cfg (init cfg) where
  same := fun _ => .refl _
  length := fun _ => (ShmManager.poolInvariant_init (by decide) cfg.accepted).length
  segments := by
    intro e he
    cases he
  grantable := by
    rintro n e ⟨he, -⟩
    cases he

/-- A response that the client has not seen belongs to a live handler. -/
theorem Invariant.mem_of_unseen {n : ℕ} {e : Exchange} (h : Invariant cfg s)
    (hu : s.Unseen n e) : n ∈ s.handlers := by
  obtain ⟨he, hr | hr⟩ := hu
  · exact List.mem_filterMap.mpr ⟨_, hr, rfl⟩
  · by_contra hn
    have hmem : n ∈ (s.clients e.request.clientId).untaken :=
      List.mem_append_left _ hr
    exact (h.untaken _ n e hmem he).not_tail (h.tail n e he hn)

/-- Two live handlers share no id. -/
theorem Invariant.ids_disjoint {n n' : ℕ} {e e' : Exchange} (h : Invariant cfg s)
    (hn : n ∈ s.handlers) (hn' : n' ∈ s.handlers) (hne : n ≠ n')
    (he : s.exchanges[n]? = some e) (he' : s.exchanges[n']? = some e') {id : ℕ}
    (hid : id ∈ e.segment.getSegmentIds) : id ∉ e'.segment.getSegmentIds := by
  have hpair := List.pairwise_map.mp h.pool.held_nodup
  have hflat := (List.pairwise_flatMap.mp hpair).2
  have hsymm : Std.Symm fun n n' => ∀ g ∈ s.segmentOf n, ∀ g' ∈ s.segmentOf n', g.id ≠ g'.id :=
    ⟨fun i j hij g hg g' hg' => (hij g' hg' g hg).symm⟩
  have hdisjoint := hflat.forall hn hn' hne
  rw [segmentOf_eq he, segmentOf_eq he'] at hdisjoint
  intro hid'
  obtain ⟨g, hg, rfl⟩ := List.mem_map.mp hid
  obtain ⟨g', hg', heq⟩ := List.mem_map.mp hid'
  exact hdisjoint g hg g' hg' heq.symm

/-- A step that changes no client's pool and makes no new exchange or response. -/
theorem ClientPools.congr (h : ClientPools cfg s)
    (hmanager : ∀ c, (s'.clients c).manager = (s.clients c).manager)
    (hexchanges : ∀ (n : ℕ) (e : Exchange), s'.exchanges[n]? = some e →
      ∃ e₀, s.exchanges[n]? = some e₀ ∧ e₀.segment = e.segment ∧ e₀.request = e.request)
    (hworkers : ∀ n, .responding n ∈ s'.workers → .responding n ∈ s.workers)
    (hunseen : ∀ c n, n ∈ (s'.clients c).unseen → n ∈ (s.clients c).unseen ∨
      .responding n ∈ s.workers) : ClientPools cfg s' where
  same := fun c => hmanager c ▸ h.same c
  length := fun c => hmanager c ▸ h.length c
  segments := by
    intro e he
    obtain ⟨n, hn⟩ := List.mem_iff_getElem?.mp he
    obtain ⟨e₀, he₀, hseg, -⟩ := hexchanges n e hn
    exact hseg ▸ h.segments e₀ (List.mem_of_getElem? he₀)
  grantable := by
    rintro n e ⟨he, hr⟩
    obtain ⟨e₀, he₀, hseg, hreq⟩ := hexchanges n e he
    have hunseen₀ : s.Unseen n e₀ := by
      refine ⟨he₀, ?_⟩
      rw [hreq]
      rcases hr with hr | hr
      · exact .inl (hworkers n hr)
      · exact (hunseen _ n hr).symm
    have hgrant := h.grantable n e₀ hunseen₀
    rw [Exchange.Grantable, hseg, hreq] at hgrant
    rw [Exchange.Grantable, hmanager]
    exact hgrant

theorem exchanges_setExchange {n : ℕ} {e e' : Exchange} (he : s.exchanges[n]? = some e)
    (hseg : e.segment = e'.segment) (hreq : e.request = e'.request) (m : ℕ) (e₂ : Exchange)
    (hm : (s.exchanges.set n e')[m]? = some e₂) :
    ∃ e₀, s.exchanges[m]? = some e₀ ∧ e₀.segment = e₂.segment ∧ e₀.request = e₂.request := by
  obtain ⟨hlt, -⟩ := List.getElem?_eq_some_iff.mp he
  by_cases hmn : m = n
  · subst hmn
    rw [List.getElem?_set_self hlt] at hm
    cases hm
    exact ⟨e, he, hseg, hreq⟩
  · rw [List.getElem?_set_ne (Ne.symm hmn)] at hm
    exact ⟨e₂, hm, rfl, rfl⟩

/-- A step of one client that leaves its pool alone. -/
theorem ClientPools.setClient {c : ℕ} {h' : Client} (h : ClientPools cfg s)
    (hmanager : h'.manager = (s.clients c).manager)
    (hunseen : ∀ n ∈ h'.unseen, n ∈ (s.clients c).unseen) :
    ClientPools cfg (s.setClient c h') := by
  refine h.congr ?_ (fun n e he => ⟨e, he, rfl, rfl⟩) (fun n hn => hn) ?_
  · intro d
    simp only [System.setClient]
    split_ifs with hd
    · rw [hmanager, hd]
    · rfl
  · intro d n hn
    simp only [System.setClient] at hn
    split_ifs at hn with hd
    · subst hd
      exact .inl (hunseen n hn)
    · exact .inl hn

/-- A step of one client that changes its pool. -/
theorem ClientPools.setPool {c : ℕ} {h' : Client} (h : ClientPools cfg s)
    (hsame : (s.clients c).manager.SamePool h'.manager)
    (hlen : h'.manager.availableSegments.length =
      (s.clients c).manager.availableSegments.length)
    (hgrant : ∀ (n : ℕ) (e : Exchange), s.exchanges[n]? = some e → e.request.clientId = c →
      (.responding n ∈ s.workers ∨ n ∈ h'.unseen) → e.Grantable h') :
    ClientPools cfg (s.setClient c h') where
  same := by
    intro d
    by_cases hd : d = c
    · subst hd
      rw [clients_setClient]
      exact (h.same d).trans hsame
    · rw [clients_setClient_of_ne s h' hd]
      exact h.same d
  length := by
    intro d
    by_cases hd : d = c
    · subst hd
      rw [clients_setClient, hlen, h.length]
    · rw [clients_setClient_of_ne s h' hd]
      exact h.length d
  segments := h.segments
  grantable := by
    rintro n e ⟨hget, hr⟩
    by_cases hd : e.request.clientId = c
    · rw [hd, clients_setClient] at hr ⊢
      exact hgrant n e hget hd hr
    · rw [clients_setClient_of_ne s h' hd] at hr ⊢
      exact h.grantable n e ⟨hget, hr⟩

/-- A step of one service worker that creates no handler. -/
theorem ClientPools.setWorker {w : ℕ} {pc : ServiceWorker} (h : ClientPools cfg s)
    (hpc : ∀ n, pc ≠ .responding n) : ClientPools cfg (s.setWorker w pc) := by
  refine h.congr (fun _ => rfl) (fun n e he => ⟨e, he, rfl, rfl⟩) ?_ (fun c n hn => .inl hn)
  intro n hn
  rcases List.mem_or_eq_of_mem_set hn with hn | hn
  · exact hn
  · exact absurd hn.symm (hpc n)

theorem ClientPools.granted {w : ℕ} {m : ShmManager} {e : Exchange} (hinv : Invariant cfg s)
    (h : ClientPools cfg s) (hpool : m.PoolInvariant (e.segment ++ s.held))
    (hsame : s.manager.SamePool m) (hgrant : e.Grantable (s.clients e.request.clientId)) :
    ClientPools cfg (s.granted w m e) where
  same := h.same
  length := h.length
  segments := by
    intro e' he'
    rcases List.mem_append.mp he' with he' | he'
    · exact h.segments e' he'
    · obtain rfl := List.mem_singleton.mp he'
      refine ⟨fun g hg => ?_, ?_⟩
      · have hseg := hpool.held_segment g (List.mem_append_left _ hg)
        rw [hinv.same.trans hsame] at hseg
        exact hseg
      · exact hpool.held_nodup.sublist ((List.sublist_append_left _ _).map _)
  grantable := by
    rintro n e' ⟨he', hr⟩
    rcases getElem?_exchanges_append he' with he | ⟨rfl, rfl⟩
    · refine h.grantable n e' ⟨he, hr.imp_left fun hr => ?_⟩
      rcases List.mem_or_eq_of_mem_set hr with hr | hr
      · exact hr
      · cases hr
        exact absurd (List.getElem?_eq_some_iff.mp he).1 (lt_irrefl _)
    · exact hgrant

theorem clientPools_allocate {w : ℕ} (hinv : Invariant cfg s) (h : ClientPools cfg s)
    (hok : s.grantsReleased (.allocate w) = true)
    (hstep : s.step cfg (.allocate w) = some s') : ClientPools cfg s' := by
  obtain ⟨request, requestSize, hw, hcases⟩ := allocate_cases hstep
  rcases hcases with ⟨fault, -, rfl⟩ | ⟨gs, m, hgrant, rfl⟩
  · exact { h with }
  · obtain ⟨-, hpool, hsame⟩ := Pool.grant_spec hinv.pool hgrant
    refine h.granted hinv hpool hsame ?_
    simp only [grantsReleased, hw, hgrant, List.all_eq_true, bne_iff_ne] at hok
    intro id hid
    obtain ⟨g, hg, rfl⟩ := List.mem_map.mp hid
    -- an id of the pool whose flag is not cleared has its flag set
    have hid : g.id < (s.clients request.clientId).manager.availableSegments.length := by
      rw [h.length]
      have hlt := (hpool.held_segment g (List.mem_append_left _ hg)).1
      rw [hinv.same.trans hsame] at hlt
      exact hlt
    have hflag := hok g hg
    show (s.clients request.clientId).manager.availableSegments[g.id]? = some true
    rw [List.getElem?_eq_getElem hid] at hflag ⊢
    simpa using hflag

theorem ClientPools.dispatch_other {h h' : Client} {exchanges : List Exchange}
    (hstep : h.dispatch exchanges = some h') (hpc : ∀ n, h.dispatcher ≠ .pushing n) :
    h'.manager = h.manager ∧ ∀ n ∈ h'.unseen, n ∈ h.unseen := by
  simp only [Client.dispatch] at hstep
  split at hstep
  · next hd =>
    cases hstep
    simp only [Client.sendRequests]
    split
    · exact ⟨rfl, fun n hn => by simpa [Client.unseen, hd, Dispatcher.received] using hn⟩
    · split_ifs
      · exact ⟨rfl, fun n hn => by simpa [Client.unseen, hd, Dispatcher.received] using hn⟩
      · exact ⟨rfl, fun n hn => by simpa [Client.unseen, hd, Dispatcher.received] using hn⟩
  · next call hd =>
    simp only [Client.mqSend] at hstep
    split_ifs at hstep
    cases hstep
    exact ⟨rfl, fun n hn => by simpa [Client.unseen, hd, Dispatcher.received] using hn⟩
  · next hd =>
    cases hstep
    simp only [Client.receiveResponses]
    split
    · exact ⟨rfl, fun n hn => by simpa [Client.unseen, hd, Dispatcher.received] using hn⟩
    · next m rest hq =>
      refine ⟨rfl, fun n hn => ?_⟩
      simp only [Client.unseen, hd, hq, Dispatcher.received, List.mem_append, List.mem_cons,
        List.not_mem_nil, or_false] at hn ⊢
      exact hn.symm
  · next n hd => exact absurd hd (hpc n)

/-- A response in hand is accepted. -/
theorem ClientPools.accepted {c n : ℕ} {e : Exchange} (h : ClientPools cfg s)
    (hu : s.Unseen n e) (hc : e.request.clientId = c) :
    ∃ m', (s.clients c).manager.getShmSegmentByIds e.segment.getSegmentIds =
        (.ok e.segment, m') ∧ (s.clients c).manager.SamePool m' ∧
      m'.availableSegments.length = (s.clients c).manager.availableSegments.length ∧
      ∀ i, i ∉ e.segment.getSegmentIds →
        m'.availableSegments[i]? = (s.clients c).manager.availableSegments[i]? := by
  subst hc
  obtain ⟨hsegs, hnd⟩ := h.segments e (List.mem_of_getElem? hu.1)
  refine ShmManager.getShmSegmentByIds_spec (fun g hg => ⟨?_, ?_⟩) hnd
  · rw [h.same]
    exact (hsegs g hg).2
  · exact h.grantable n e hu g.id (List.mem_map_of_mem hg)

theorem clientPools_dispatch {c : ℕ} (hinv : Invariant cfg s) (h : ClientPools cfg s)
    (hstep : s.step cfg (.dispatch c) = some s') : ClientPools cfg s' := by
  obtain ⟨h', hdispatch, rfl⟩ := dispatch_cases hstep
  by_cases hpc : ∃ n, (s.clients c).dispatcher = .pushing n
  · obtain ⟨n, hpc⟩ := hpc
    simp only [Client.dispatch, hpc] at hdispatch
    obtain ⟨e, he, rfl⟩ := Option.map_eq_some_iff.mp hdispatch
    have hreceived : n ∈ (s.clients c).unseen := by
      simp [Client.unseen, hpc, Dispatcher.received]
    have hresponse : n ∈ (s.clients c).responses :=
      List.mem_append_left _ (List.mem_append_left _ hreceived)
    obtain ⟨hnot, e', he', hc, -⟩ := hinv.responses c n hresponse
    rw [he] at he'
    cases he'
    have hu : s.Unseen n e := ⟨he, .inr (hc ▸ hreceived)⟩
    obtain ⟨m', hcall, hsame, hlen, hother⟩ := h.accepted hu hc
    have hpush : (s.clients c).pushResponse n e.segment.getSegmentIds =
        { s.clients c with
          manager := m'
          requestResponseQueue := (s.clients c).requestResponseQueue ++ [n]
          dispatcher := .receiveLoop } := by
      rw [Client.pushResponse, hcall]
    rw [hpush]
    refine h.setPool hsame hlen fun m e₂ he₂ hd hr => ?_
    -- another response of this client names other ids
    have hunseen : m ≠ n ∧ s.Unseen m e₂ := by
      rcases hr with hr | hr
      · refine ⟨?_, he₂, .inl hr⟩
        rintro rfl
        exact hnot hr
      · simp only [Client.unseen, Dispatcher.received, List.append_nil] at hr
        refine ⟨?_, he₂, .inr (hd ▸ List.mem_append_left _ hr)⟩
        rintro rfl
        have hnd := hinv.responses_nodup c
        simp only [Client.responses, Client.untaken, hpc, Dispatcher.received] at hnd
        exact (List.nodup_append.mp (List.nodup_append.mp
          (List.nodup_append.mp hnd).1).1).2.2 m hr m List.mem_cons_self rfl
    intro id hid
    have hid' := hinv.ids_disjoint (hinv.mem_of_unseen hunseen.2) (hinv.mem_of_unseen hu)
      hunseen.1 he₂ he hid
    rw [hother id hid', ← hd]
    exact h.grantable m e₂ hunseen.2 id hid
  · obtain ⟨hmanager, hunseen⟩ :=
      ClientPools.dispatch_other hdispatch (fun n hn => hpc ⟨n, hn⟩)
    exact h.setClient hmanager hunseen

theorem clientPools_destroy {c j : ℕ} (h : ClientPools cfg s)
    (hstep : s.step cfg (.destroy c j) = some s') : ClientPools cfg s' := by
  obtain ⟨n, e, -, -, rfl⟩ := destroy_cases hstep
  refine h.setPool (ShmManager.samePool_release _ _) (ShmManager.length_release _ _)
    fun m e₂ he₂ hd hr => ?_
  subst hd
  intro id hid
  exact ShmManager.release_available (h.grantable m e₂ ⟨he₂, hr⟩ id hid) _

theorem clientPools_step {ev : Event} (hinv : Invariant cfg s) (h : ClientPools cfg s)
    (hok : s.grantsReleased ev = true) (hstep : s.step cfg ev = some s') :
    ClientPools cfg s' := by
  cases ev with
  | submit c src =>
    obtain ⟨small, rfl⟩ := submit_cases hstep
    exact h.setClient rfl (fun _ hn => hn)
  | dispatch c => exact clientPools_dispatch hinv h hstep
  | scheduleRequest c j =>
    obtain ⟨n, rest, -, -, rfl⟩ := scheduleRequest_cases hstep
    exact h.setClient rfl (fun _ hn => hn)
  | process c j =>
    obtain ⟨n, e, m', t', hw, he, -, rfl⟩ := process_cases hstep
    have h' : ClientPools cfg { s.setExchange n { e with transfer := t' } with memory := m' } :=
      h.congr (fun _ => rfl) (exchanges_setExchange he rfl rfl) (fun _ hn => hn)
        (fun _ _ hn => .inl hn)
    exact h'.setClient rfl (fun _ hn => hn)
  | complete c j =>
    obtain ⟨n, e, hw, he, -, rfl⟩ := complete_cases hstep
    have h' : ClientPools cfg (s.setClient c ((s.clients c).completeRequest j n)) :=
      h.setClient rfl (fun _ hn => hn)
    exact h'.congr (fun _ => rfl) (exchanges_setExchange he rfl rfl) (fun _ hn => hn)
      (fun _ _ hn => .inl hn)
  | destroy c j => exact clientPools_destroy h hstep
  | poll c =>
    obtain ⟨call, rest, -, -, rfl⟩ := poll_cases hstep
    have h' : ClientPools cfg (s.setClient c { s.clients c with clientToServer := rest }) :=
      h.setClient rfl (fun _ hn => hn)
    exact { h' with }
  | enqueue =>
    obtain ⟨request, -, -, rfl⟩ := enqueue_cases hstep
    exact { h with }
  | schedule w i =>
    obtain ⟨request, hw, -, -, rfl⟩ := schedule_cases hstep
    have h' : ∀ size, ClientPools cfg (s.setWorker w (.allocating request size)) :=
      fun size => h.setWorker (fun n hn => by cases hn)
    exact { h' _ with }
  | allocate w => exact clientPools_allocate hinv h hok hstep
  | respond w =>
    obtain ⟨n, e, hw, he, hcases⟩ := respond_cases hstep
    rcases hcases with ⟨fault, rfl⟩ | ⟨-, -, rfl⟩
    · exact { h with }
    · refine h.congr ?_ (fun n e he => ⟨e, he, rfl, rfl⟩) ?_ ?_
      · intro c
        by_cases hc : c = e.request.clientId
        · rw [hc, clients_setClient]
        · rw [clients_setClient_of_ne _ _ hc]
          rfl
      · intro m hm
        rcases List.mem_or_eq_of_mem_set hm with hm | hm
        · exact hm
        · cases hm
      · intro c m hm
        by_cases hc : c = e.request.clientId
        · rw [hc, clients_setClient] at hm
          simp only [Client.unseen, List.mem_append, List.mem_singleton] at hm
          rcases hm with (hm | rfl) | hm
          · exact .inl (hc ▸ List.mem_append_left _ hm)
          · exact .inr (List.mem_of_getElem? hw)
          · exact .inl (hc ▸ List.mem_append_right _ hm)
        · rw [clients_setClient_of_ne _ _ hc] at hm
          exact .inl hm
  | serve w =>
    obtain ⟨n, e, m', t', hw, he, -, rfl⟩ := serve_cases hstep
    exact h.congr (fun _ => rfl) (exchanges_setExchange he rfl rfl) (fun _ hn => hn)
      (fun _ _ hn => .inl hn)
  | destroyHandler w =>
    obtain ⟨n, e, hw, -, -, rfl⟩ := destroyHandler_cases hstep
    have h' : ClientPools cfg (s.setWorker w .idle) := h.setWorker (fun n hn => by cases hn)
    exact { h' with }

theorem clientPools_of_reachable
    (h : (machine cfg).ReachableIf (fun s ev => s.grantsReleased ev = true) s) :
    ClientPools cfg s := by
  induction h with
  | start => exact clientPools_init cfg
  | step hs hnext hok ih =>
    exact clientPools_step (invariant_of_reachable hs.reachable) ih hok (step_of_next hnext)

end Steps

/-- The client has destroyed its handler of the first request when the second one is given
the same segment, and its dispatcher has the response to that one in hand. -/
def answeredTwice : List Event := List.flatten
  [[.submit 0 [1, 2, 3], .submit 0 [4, 5, 6]], requestRun 0, responseRun 0, requestRun 0,
    receiveRun 0 0, transferRun 0 0 0, List.replicate 5 (.process 0 0),
    [.serve 0, .destroyHandler 0, .complete 0 0, .destroy 0 0], responseRun 1, [.dispatch 0]]

/-- The service has destroyed the handler of the first request, its client has
not, and the second request is given the same segment. -/
def refusedRun : List Event := List.flatten
  [[.submit 0 [1, 2, 3], .submit 0 [4, 5, 6]], requestRun 0, responseRun 0, requestRun 0,
    receiveRun 0 0, transferRun 0 0 0, List.replicate 5 (.process 0 0),
    [.serve 0, .destroyHandler 0], responseRun 1, [.dispatch 0, .dispatch 0]]

end TinyFile.System
