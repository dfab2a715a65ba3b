import TinyFile.Departure
import TinyFile.ServiceFlow

/-!
# Every request is accounted for

When the scheduler has forgotten a client, nothing brings it back, so what is dropped
then is the end of what the scheduler has received from it. Together with the flow of
each step this settles, for whole runs, what has become of every request.
-/
namespace TinyFile.Service

variable {κ : Type} {s s' : Service κ} {c : ℤ}

/-- The scheduler has forgotten the client, and nothing brings it back. -/
structure Dismissed (s : Service κ) (c : ℤ) : Prop where
  left : (s.clients c).phase.left = true
  notices : s.notices c = []
  visit : ∀ v, s.registrationWorker.visit c = some v → v = .erasingQueues
  unregistered : c ∉ s.scheduler.registered
  pending : s.scheduler.pending c = []

theorem Dismissed.congr (h : s.Dismissed c) (hphase : (s'.clients c).phase = (s.clients c).phase)
    (hnotices : s'.notices c = s.notices c)
    (hvisit : s'.registrationWorker.visit c = s.registrationWorker.visit c)
    (hregistered : c ∈ s'.scheduler.registered ↔ c ∈ s.scheduler.registered)
    (hpending : s'.scheduler.pending c = s.scheduler.pending c) : s'.Dismissed c where
  left := hphase ▸ h.left
  notices := hnotices.trans h.notices
  visit := hvisit ▸ h.visit
  unregistered := fun hc => h.unregistered (hregistered.mp hc)
  pending := hpending.trans h.pending

/-- A client on its way; one that has left sends no message. -/
theorem Dismissed.move (h : s.Dismissed c) {d : ℤ} {phase : Phase}
    {messages : List RegistrationMessage} {ids : List ℤ} (hm : ClientMove d phase messages ids s s')
    (hphase : d = c → phase.left = true)
    (hmessages : messages.filterMap (RegistrationMessage.notice c) = []) : s'.Dismissed c where
  left := by
    by_cases hd : d = c
    · rw [← hd, hm.phase]
      exact hphase hd
    · rw [hm.other c (Ne.symm hd)]
      exact h.left
  notices := by rw [notices_append hm.messages, hmessages, h.notices, List.append_nil]
  visit := hm.registrationWorker ▸ h.visit
  unregistered := hm.scheduler ▸ h.unregistered
  pending := hm.scheduler ▸ h.pending

/-- The registration thread visits another client. -/
theorem Dismissed.visitFrame (h : s.Dismissed c) {d : ℤ} (hframe : VisitFrame d s s') (hd : c ≠ d)
    (hpending : s'.scheduler.pending c = s.scheduler.pending c) : s'.Dismissed c :=
  h.congr (hframe.phase c) (hframe.notices c hd) (hframe.visit c hd) (hframe.scheduled c hd)
    hpending

/-- A message that starts a visit is not about the client. -/
theorem Dismissed.reg (h : s.Dismissed c) (hturn : s.registrationWorker = .reg) :
    s.reg.Dismissed c := by
  have hnone : s.registrationWorker.visit c = none := by rw [hturn]; rfl
  have hother : ∀ {m : RegistrationMessage} {rest : List RegistrationMessage},
      s.clientToServerRegistrationQueue = m :: rest → m.notice c = none := by
    intro m rest hq
    have hn := h.notices
    rw [Service.notices, hq, List.filterMap_cons] at hn
    cases hm : m.notice c with
    | none => rfl
    | some x => simp [hm] at hn
  unfold Service.reg
  split
  · exact h.congr rfl rfl hnone.symm Iff.rfl rfl
  · next rest hq =>
    refine h.congr rfl ?_ hnone.symm Iff.rfl rfl
    rw [Service.notices, Service.notices, hq]
    rfl
  · next d priority rest hq =>
    have hd : c ≠ d := by
      rintro rfl
      simpa [RegistrationMessage.notice] using hother hq
    split_ifs
    · exact h.congr rfl rfl rfl Iff.rfl rfl
    · exact h.visitFrame (visitFrame_of_message hturn hq (fun j hj => if_neg (Ne.symm hj))
        fun j hj => by rw [Finset.mem_insert, or_iff_right hj]) hd rfl
  · next d rest hq =>
    have hd : c ≠ d := by
      rintro rfl
      simpa [RegistrationMessage.notice] using hother hq
    split_ifs
    · exact h.visitFrame (visitFrame_of_message hturn hq (fun j hj => if_neg (Ne.symm hj))
        fun _ _ => Iff.rfl) hd rfl
    · exact h.congr rfl rfl rfl Iff.rfl rfl

/-- A step of the registration thread that does not throw. -/
theorem Dismissed.register [IntCast κ] [Zero κ] [LT κ] [DecidableLT κ] (h : s.Dismissed c)
    {p : Placement ℤ} (hfiled : s.scheduler.Filed) (hstep : s.register p = some s')
    (hfault : s'.fault = none) : s'.Dismissed c := by
  cases hturn : s.registrationWorker with
  | reg =>
    rw [Service.register, hturn] at hstep
    cases hstep
    exact h.reg hturn
  | identifying =>
    have hnone : s.registrationWorker.visit c = none := by rw [hturn]; rfl
    rw [Service.register, hturn] at hstep
    simp only [visitRegistration] at hstep
    split_ifs at hstep <;> cases hstep
    · exact h.congr rfl rfl hnone.symm Iff.rfl rfl
    · exact h.congr rfl rfl rfl Iff.rfl rfl
  | visiting v d =>
    rw [Service.register, hturn] at hstep
    have hframe := visitFrame_of_visit hturn hstep
    rcases visit_cases hstep with ⟨fault, rfl⟩ | hadvance
    · exact h.congr rfl rfl rfl Iff.rfl rfl
    by_cases hd : c = d
    · subst hd
      have hv := h.visit v (by rw [hturn]; exact if_pos rfl)
      subst hv
      cases hadvance
      exact ⟨h.left, h.notices, fun _ hv => (by cases hv), h.unregistered, h.pending⟩
    · refine h.visitFrame hframe hd ?_
      cases hadvance with
      | deregistering _ hrun => rw [Scheduler.pending_deregisterClient hrun, if_neg hd]
      | _ => rfl
  | dispatching clientIds =>
    have hnone : s.registrationWorker.visit c = none := by rw [hturn]; rfl
    rw [Service.register, hturn] at hstep
    cases hstep
    cases clientIds with
    | nil => exact h.congr rfl rfl hnone.symm Iff.rfl rfl
    | cons d clientIds =>
      simp only [dispatch]
      split
      · exact h.congr rfl rfl hnone.symm Iff.rfl rfl
      · next request rest _ =>
        have hphase := read_setClient Client.phase s
          { s.clients d with clientToServer := rest } rfl c
        exact h.congr hphase rfl hnone.symm Iff.rfl rfl
  | enqueueing d request clientIds =>
    have hnone : s.registrationWorker.visit c = none := by rw [hturn]; rfl
    rw [Service.register, hturn] at hstep
    simp only [enqueue] at hstep
    split_ifs at hstep
    split at hstep
    · next u scheduler hrun =>
      cases hstep
      obtain ⟨credit, hcredit⟩ := Scheduler.registered_of_enqueue_ok hrun
      have hregistered := UnorderedMap.mem_keys_of_find? hcredit
      have hd : c ≠ d := fun hd => h.unregistered (hd ▸ hregistered)
      obtain ⟨t, ht, hsame⟩ := Scheduler.enqueue_of_registered hregistered request.requestId
        request.fileSize p
      obtain rfl : t = scheduler := (Prod.mk.inj (ht.symm.trans hrun)).2
      refine h.congr rfl rfl hnone.symm (by rw [hsame]) ?_
      rw [(hfiled.enqueue hrun).2, if_neg hd]
    · cases hstep
      cases hfault

/-- What the requests rely on: ids that are not given out twice, requests that are
filed under their clients, and request ids that are values of an `int`. -/
structure Orderly (s : Service κ) : Prop where
  ids : IdInvariant s
  filed : s.scheduler.Filed
  numbered : ∀ c, 0 ≤ (s.clients c).nextRequestId
  int : ∀ c, (s.clients c).nextRequestId ≤ INT_MAX

theorem orderly_init (cfg : Config) : Orderly (init cfg : Service κ) :=
  ⟨idInvariant_init cfg, Scheduler.filed_init _, fun _ => le_rfl, fun _ => Int.natCast_nonneg _⟩

section Steps

variable [Add κ] [Sub κ] [Mul κ] [Div κ] [NatCast κ] [IntCast κ] [Zero κ] [LT κ] [DecidableLT κ]
variable {cfg : Config}

/-- Nothing brings a client back, and no worker is given a request of it. -/
theorem Dismissed.step (h : s.Dismissed c) {e : Event} (hids : IdInvariant s)
    (hfiled : s.scheduler.Filed) (hstep : s.step cfg e = some s') (hfault : s'.fault = none) :
    scheduled cfg c s e = [] ∧ s'.Dismissed c := by
  have hleft := h.left
  cases e with
  | register p => exact ⟨rfl, h.register hfiled hstep hfault⟩
  | schedule w =>
    simp only [Service.step, schedule] at hstep
    split at hstep
    · split_ifs at hstep
      split at hstep
      · cases hstep
        cases hfault
      · next request scheduler hrun =>
        cases hstep
        obtain ⟨-, rest, hp, hpending⟩ := hfiled.schedule hrun
        have hd : c ≠ request.clientId := fun hd => by
          rw [← hd, h.pending] at hp
          cases hp
        refine ⟨by simp [scheduled, hrun, requestOf, Ne.symm hd], h.congr rfl rfl rfl ?_ ?_⟩
        · rw [Registry.registered_schedule hrun]
        · rw [hpending, if_neg hd]
    · cases hstep
  | registration =>
    have hs := send_cases hstep
    subst hs
    refine ⟨rfl, h.congr rfl ?_ rfl Iff.rfl rfl⟩
    rw [Service.notices, Service.notices, List.filterMap_append]
    simp [RegistrationMessage.notice]
  | identify =>
    obtain ⟨d, rest, hq, hm⟩ := identify_cases hstep
    refine ⟨rfl, h.move hm (fun hd => ?_) rfl⟩
    rw [← hd, (hids.ids d (hq ▸ List.mem_cons_self)).2] at hleft
    cases hleft
  | createQueue d =>
    obtain ⟨phase, -, hearly, -, hm⟩ := createQueue_cases hstep
    refine ⟨rfl, h.move hm (fun hd => ?_) rfl⟩
    rw [← hd, Phase.left_of_early hearly] at hleft
    cases hleft
  | announce d priority =>
    obtain ⟨hphase, hm⟩ := announce_cases hstep
    have hd : d ≠ c := fun hd => by
      rw [← hd, hphase] at hleft
      cases hleft
    exact ⟨rfl, h.move hm (fun hc => absurd hc hd) (by simp [RegistrationMessage.notice, hd])⟩
  | leave d =>
    obtain ⟨hphase, hm⟩ := leave_cases hstep
    have hd : d ≠ c := fun hd => by
      rw [← hd, hphase] at hleft
      cases hleft
    exact ⟨rfl, h.move hm (fun hc => absurd hc hd) (by simp [RegistrationMessage.notice, hd])⟩
  | unlink d =>
    obtain ⟨phase, -, -, hl, hm⟩ := unlink_cases hstep
    exact ⟨rfl, h.move hm (fun _ => hl) rfl⟩
  | _ =>
    refine ⟨rfl, ?_⟩
    have hsame := sameTables_of_step rfl hstep
    have haside := Registry.aside_of_step (by simp) (by simp) hstep
    have hscheduler : s'.scheduler = s.scheduler := congrArg Registry.scheduler haside.tables
    refine h.congr (hsame.phase c) ?_ (by rw [hsame.registrationWorker]) (by rw [hscheduler])
      (by rw [hscheduler])
    rw [Service.notices, hsame.messages, Service.notices]

/-- The visit that drops requests of a client dismisses it. -/
theorem dismissed_of_forgotten {e : Event} (hids : IdInvariant s) (hstep : s.step cfg e = some s')
    (hfault : s'.fault = none) (hne : forgotten c s e ≠ []) :
    scheduled cfg c s e = [] ∧ s'.Dismissed c := by
  cases e with
  | register p =>
    refine ⟨rfl, ?_⟩
    have hturn : s.registrationWorker = .visiting .deregistering c := by
      by_contra hturn
      exact hne (if_neg hturn)
    rw [Service.step, Service.register, hturn] at hstep
    have hframe := visitFrame_of_visit hturn hstep
    have hplace := hids.place c
    rw [HasPlace, hturn, Turn.visit, if_pos rfl] at hplace
    obtain ⟨hnotices, hleft, -⟩ := hplace.of_drops rfl
    rcases visit_cases hstep with ⟨fault, rfl⟩ | hadvance
    · cases hfault
    · cases hadvance with
      | deregistering _ hrun =>
        refine ⟨hleft, hnotices, fun v hv => ?_, fun hc => ?_, ?_⟩
        · exact (Option.some.inj ((if_pos rfl).symm.trans hv)).symm
        · exact ((mem_registered_deregisterClient hrun c).mp hc).2 rfl
        · exact (Scheduler.pending_deregisterClient hrun c).trans (if_pos rfl)
  | _ => exact absurd rfl hne

theorem Orderly.step {e : Event} (h : Orderly s) (hstep : s.step cfg e = some s')
    (hfault : s'.fault = none) : Orderly s' := by
  refine ⟨h.ids.step hstep, filed_step h.filed hstep hfault, fun c => ?_, fun c => ?_⟩
  · rw [(flows_step h.filed (h.numbered c) hstep hfault).next]
    exact Int.add_nonneg (h.numbered c) (Int.natCast_nonneg _)
  · rw [(flows_step h.filed (h.numbered c) hstep hfault).next]
    exact length_sent_le (h.int c) e

/-- The steps of a run in which nothing throws. -/
theorem silent_run {es : List Event} {ok : Service κ → Event → Prop}
    (h : (machine cfg).RunIf ok (init cfg) es s) (hfault : s.fault = none) :
    (machine cfg).RunIf (fun s e => ∀ t, s.next cfg e = some t → t.fault = none)
      (init cfg) es s := by
  obtain ⟨-, hrun⟩ := h.all_along (fun _ _ _ => fault_of_next) hfault
  exact hrun.mono fun _ _ hok => hok.2

end Steps

/-- A client sends two requests and leaves after the answer to the first one. -/
def leavesTooEarly : List Event := List.flatten
  [arrival, registerSteps 4, [.request 0 3, .request 0 5], registerSteps 9,
    [.schedule 0, .allocate 0, .writeBlocking 0, .mqSend 0 [1, 2, 3] (fun _ _ => 0), .leave 0],
    registerSteps 7]

end TinyFile.Service
