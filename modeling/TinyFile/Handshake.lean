import TinyFile.ServiceSteps

/-!
# The registration handshake

Clients register through two shared queues. A reply is not addressed: any client
that waits takes the next one, also the one meant for a client that died while
waiting. A client is a process with one `Servicer`; everything it does after it
has read a reply it does under the id it read. The steps of the service are
those of `TinyFile.Service`.
-/
namespace TinyFile

/-- What a process has of its `Servicer`. -/
inductive Process where
  | outside
  | waiting
  | dead
  | holding (clientId : ℤ)
  deriving DecidableEq

structure Handshake (κ : Type) where
  service : Service κ
  processes : ℕ → Process

namespace Handshake

variable {κ : Type}

/-- What a client does under its id, in its constructor, at work and in its
destructor. -/
inductive Action where
  | createQueue
  | announce (priority : ℤ)
  | request (fileSize : ℕ)
  | receive
  | leave
  | unlink
  deriving DecidableEq

def Action.event (c : ℤ) : Action → Service.Event
  | .createQueue => .createQueue c
  | .announce priority => .announce c priority
  | .request fileSize => .request c fileSize
  | .receive => .receive c
  | .leave => .leave c
  | .unlink => .unlink c

inductive Event where
  | register (p : ℕ)
  | die (p : ℕ)
  | identify (p : ℕ)
  | act (p : ℕ) (action : Action)
  | serve (e : Service.Event)

/-- The steps of the service's threads and of the handlers of an exchange. -/
def ofService : Service.Event → Bool
  | .clientProcess _ => true
  | e => e.isService

def setProcess (h : Handshake κ) (p : ℕ) (process : Process) (service : Service κ) :
    Handshake κ where
  service := service
  processes := fun q => if q = p then process else h.processes q

section Machine

variable [Add κ] [Sub κ] [Mul κ] [Div κ] [NatCast κ] [IntCast κ] [Zero κ] [LT κ] [DecidableLT κ]

def next (cfg : Config) (h : Handshake κ) : Event → Option (Handshake κ)
  | .register p =>
      if h.processes p = .outside then
        (h.service.next cfg .registration).map (h.setProcess p .waiting)
      else none
  | .die p => if h.processes p = .waiting then some (h.setProcess p .dead h.service) else none
  | .identify p =>
      match h.processes p, h.service.serverToClientRegistrationQueue with
      | .waiting, c :: _ => (h.service.next cfg .identify).map (h.setProcess p (.holding c))
      | _, _ => none
  | .act p action =>
      match h.processes p with
      | .holding c => (h.service.next cfg (action.event c)).map
          (fun service => { h with service := service })
      | _ => none
  | .serve e =>
      if ofService e then
        (h.service.next cfg e).map (fun service => { h with service := service })
      else none

def machine (cfg : Config) : Machine (Handshake κ) Event where
  start := ⟨Service.init cfg, fun _ => .outside⟩
  next := next cfg

end Machine

end Handshake

namespace Service

variable {κ : Type} {s s' : Service κ}

/-- Where a client is on its way through `registeredClients`: its phase, its
messages, the visit to it, and whether it is registered. -/
inductive Place : Phase → List Notice → Option Visit → Bool → Prop
  | unknown {phase : Phase} : phase.early = true → Place phase [] none false
  | announced {phase : Phase} {sent : List Notice} : Sent phase sent →
      Place phase (.creation :: sent) none false
  | present {phase : Phase} {sent : List Notice} {v : Option Visit} : Sent phase sent →
      (∀ x, v = some x → x.opens = true) → Place phase sent v true
  | closing {phase : Phase} {x : Visit} : phase.left = true → x.opens = false →
      x.drops = false → Place phase [] (some x) true
  | dropped {phase : Phase} {v : Option Visit} : phase.left = true →
      (∀ x, v = some x → x.drops = true) → Place phase [] v false

def HasPlace (s : Service κ) (c : ℤ) : Prop :=
  Place (s.clients c).phase (s.notices c) (s.registrationWorker.visit c)
    (decide (c ∈ s.registeredClients))

/-- The ids that are still in the reply queue are new, and every client has its
place. -/
structure IdInvariant (s : Service κ) : Prop where
  fresh : ∀ c, s.nextClientId ≤ c → (s.clients c).phase = .absent
  ids_nodup : s.serverToClientRegistrationQueue.Nodup
  ids : ∀ c ∈ s.serverToClientRegistrationQueue,
    c < s.nextClientId ∧ (s.clients c).phase = .absent
  place : ∀ c, s.HasPlace c

section Place

variable {phase phase' : Phase} {n rest : List Notice} {v : Option Visit} {r : Bool}

theorem Place.of_early (h : Place phase n v r) (hp : phase.early = true) :
    n = [] ∧ v = none ∧ r = false := by
  cases h with
  | unknown _ => exact ⟨rfl, rfl, rfl⟩
  | announced hs => simp [hs.not_early] at hp
  | present hs _ => simp [hs.not_early] at hp
  | closing hl => simp [Phase.left_of_early hp] at hl
  | dropped hl => simp [Phase.left_of_early hp] at hl

/-- A creation message comes first and finds the client unregistered. -/
theorem Place.of_creation (h : Place phase (.creation :: rest) v r) :
    Sent phase rest ∧ v = none ∧ r = false := by
  generalize hn : Notice.creation :: rest = n at h
  cases h with
  | announced hs =>
    cases hn
    exact ⟨hs, rfl, rfl⟩
  | present hs _ => cases hs <;> cases hn
  | _ => cases hn

/-- A deletion message is the last one, and finds the client registered. -/
theorem Place.of_deletion (h : Place phase (.deletion :: rest) v r) :
    rest = [] ∧ phase.left = true ∧ r = true := by
  generalize hn : Notice.deletion :: rest = n at h
  cases h with
  | present hs _ =>
    cases hs with
    | nothing => cases hn
    | deletion hl =>
      cases hn
      exact ⟨rfl, hl, rfl⟩
  | announced hs => cases hn
  | _ => cases hn

/-- While the service opens the queues of a client, the client is registered. -/
theorem Place.of_opens {x : Visit} (h : Place phase n (some x) r) (hx : x.opens = true) :
    Sent phase n ∧ r = true := by
  cases h with
  | present hs _ => exact ⟨hs, rfl⟩
  | closing _ ho _ => simp [hx] at ho
  | dropped _ hd =>
    have hdrop := hd x rfl
    cases x <;> simp_all [Visit.opens, Visit.drops]

theorem Place.of_closes {x : Visit} (h : Place phase n (some x) r) (ho : x.opens = false)
    (hd : x.drops = false) : n = [] ∧ phase.left = true ∧ r = true := by
  cases h with
  | present _ hv => simp [hv x rfl] at ho
  | closing hl _ _ => exact ⟨rfl, hl, rfl⟩
  | dropped _ hv => simp [hv x rfl] at hd

theorem Place.of_drops {x : Visit} (h : Place phase n (some x) r) (hd : x.drops = true) :
    n = [] ∧ phase.left = true ∧ r = false := by
  cases h with
  | present _ hv =>
    have hopen := hv x rfl
    cases x <;> simp_all [Visit.opens, Visit.drops]
  | closing _ _ hno => simp [hd] at hno
  | dropped hl _ => exact ⟨rfl, hl, rfl⟩

theorem Place.leave (h : Place .running n v r) : Place .deleting (n ++ [.deletion]) v r := by
  cases h with
  | unknown hp => cases hp
  | announced hs => exact .announced hs.leave
  | present hs hv => exact .present hs.leave hv
  | closing hl => cases hl
  | dropped hl => cases hl

/-- The destructor's `mq_unlink` leaves the registration queue alone. -/
theorem Place.unlink (h : Place phase n v r) (hp : phase.left = true) (hp' : phase'.left = true) :
    Place phase' n v r := by
  cases h with
  | unknown he => simp [Phase.left_of_early he] at hp
  | announced hs => exact .announced (hs.unlink hp hp')
  | present hs hv => exact .present (hs.unlink hp hp') hv
  | closing hl ho hd => exact .closing hp' ho hd
  | dropped hl hv => exact .dropped hp' hv

end Place

theorem idInvariant_init (cfg : Config) : IdInvariant (init cfg : Service κ) where
  fresh := fun _ _ => rfl
  ids_nodup := List.nodup_nil
  ids := fun c hc => by cases hc
  place := fun _ => .unknown rfl

section Frame

/-- One client goes on. -/
theorem IdInvariant.move (h : IdInvariant s) {c : ℤ} {phase : Phase}
    {messages : List RegistrationMessage} {ids : List ℤ} (hm : ClientMove c phase messages ids s s')
    (hknown : c < s.nextClientId) (hids : ids.Sublist s.serverToClientRegistrationQueue)
    (htaken : c ∉ ids) (hother : ∀ m ∈ messages, ∀ d, d ≠ c → m.notice d = none)
    (hplace : Place phase (s.notices c ++ messages.filterMap (RegistrationMessage.notice c))
      (s.registrationWorker.visit c) (decide (c ∈ s.registeredClients))) : IdInvariant s' where
  fresh := by
    intro d hd
    rw [hm.nextClientId] at hd
    rw [hm.other d (by omega), h.fresh d hd]
  ids_nodup := hm.ids ▸ h.ids_nodup.sublist hids
  ids := by
    intro d hd
    rw [hm.ids] at hd
    have hne : d ≠ c := fun he => htaken (he ▸ hd)
    rw [hm.nextClientId, hm.other d hne]
    exact h.ids d (hids.subset hd)
  place := by
    intro d
    rw [HasPlace, hm.registrationWorker, hm.registeredClients, notices_append hm.messages]
    by_cases hd : d = c
    · rw [hd, hm.phase]
      exact hplace
    · have hnone : messages.filterMap (RegistrationMessage.notice d) = [] :=
        List.filterMap_eq_nil_iff.mpr fun m hmem => hother m hmem d hd
      rw [hm.other d hd, hnone, List.append_nil]
      exact h.place d

/-- A client that has an id was given it by the service. -/
theorem IdInvariant.known (h : IdInvariant s) {c : ℤ} (hc : (s.clients c).phase ≠ .absent) :
    c < s.nextClientId ∧ c ∉ s.serverToClientRegistrationQueue := by
  constructor
  · by_contra hlt
    exact hc (h.fresh c (by omega))
  · exact fun hm => hc (h.ids c hm).2

/-- Nothing happens to the handshake. -/
theorem IdInvariant.congr (h : IdInvariant s) (hnext : s'.nextClientId = s.nextClientId)
    (hids : s'.serverToClientRegistrationQueue = s.serverToClientRegistrationQueue)
    (hregistered : s'.registeredClients = s.registeredClients)
    (hnotices : ∀ c, s'.notices c = s.notices c)
    (hvisit : ∀ c, s'.registrationWorker.visit c = s.registrationWorker.visit c)
    (hphase : ∀ c, (s'.clients c).phase = (s.clients c).phase) : IdInvariant s' where
  fresh := fun c hc => (hphase c).trans (h.fresh c (hnext ▸ hc))
  ids_nodup := hids ▸ h.ids_nodup
  ids := by
    intro c hc
    rw [hids] at hc
    rw [hnext, hphase]
    exact h.ids c hc
  place := by
    intro c
    rw [HasPlace, hphase, hnotices, hvisit, hregistered]
    exact h.place c

/-- The registration thread goes on with one client. -/
theorem IdInvariant.visit (h : IdInvariant s) {c : ℤ} (hframe : VisitFrame c s s')
    (hc : s'.HasPlace c) : IdInvariant s' where
  fresh := fun d hd => (hframe.phase d).trans (h.fresh d (hframe.nextClientId ▸ hd))
  ids_nodup := hframe.ids ▸ h.ids_nodup
  ids := by
    intro d hd
    rw [hframe.ids] at hd
    rw [hframe.nextClientId, hframe.phase]
    exact h.ids d hd
  place := by
    intro d
    by_cases hd : d = c
    · exact hd ▸ hc
    · rw [HasPlace, hframe.phase, hframe.notices d hd, hframe.visit d hd,
        decide_eq_decide.mpr (hframe.registered d hd)]
      exact h.place d

end Frame

section ClientSteps

theorem ids_identify (h : IdInvariant s) (hstep : s.identify = some s') : IdInvariant s' := by
  obtain ⟨c, rest, hq, hm⟩ := identify_cases hstep
  obtain ⟨hlt, habsent⟩ := h.ids c (hq ▸ List.mem_cons_self)
  have hnd := h.ids_nodup
  rw [hq] at hnd
  have hplace := h.place c
  rw [HasPlace, habsent] at hplace
  obtain ⟨hn, hv, hr⟩ := hplace.of_early rfl
  refine h.move hm hlt (hq ▸ List.sublist_cons_self c rest) (List.nodup_cons.mp hnd).1 (by simp) ?_
  rw [hn, hv, hr]
  exact .unknown rfl

theorem ids_createQueue {c : ℤ} (h : IdInvariant s) (hstep : s.createQueue c = some s') :
    IdInvariant s' := by
  obtain ⟨phase, hc, hp, hp', hm⟩ := createQueue_cases hstep
  obtain ⟨hlt, hnot⟩ := h.known hc
  obtain ⟨hn, hv, hr⟩ := (h.place c).of_early hp
  refine h.move hm hlt (List.Sublist.refl _) hnot (by simp) ?_
  rw [hn, hv, hr]
  exact .unknown hp'

theorem ids_announce {c priority : ℤ} (h : IdInvariant s)
    (hstep : s.announce c priority = some s') : IdInvariant s' := by
  obtain ⟨hp, hm⟩ := announce_cases hstep
  obtain ⟨hlt, hnot⟩ := h.known (c := c) (by simp [hp])
  have hplace := h.place c
  rw [HasPlace, hp] at hplace
  obtain ⟨hn, hv, hr⟩ := hplace.of_early rfl
  refine h.move hm hlt (List.Sublist.refl _) hnot (fun m hmem d hd => ?_) ?_
  · rw [List.mem_singleton.mp hmem, RegistrationMessage.notice, if_neg (Ne.symm hd)]
  · rw [hn, hv, hr]
    simp only [List.filterMap_cons, RegistrationMessage.notice, if_true, List.filterMap_nil,
      List.nil_append]
    exact .announced .nothing

theorem ids_leave {c : ℤ} (h : IdInvariant s) (hstep : s.leave c = some s') : IdInvariant s' := by
  obtain ⟨hp, hm⟩ := leave_cases hstep
  obtain ⟨hlt, hnot⟩ := h.known (c := c) (by simp [hp])
  have hplace := h.place c
  rw [HasPlace, hp] at hplace
  refine h.move hm hlt (List.Sublist.refl _) hnot (fun m hmem d hd => ?_) ?_
  · rw [List.mem_singleton.mp hmem, RegistrationMessage.notice, if_neg (Ne.symm hd)]
  · simp only [List.filterMap_cons, RegistrationMessage.notice, if_true, List.filterMap_nil]
    exact hplace.leave

theorem ids_unlink {c : ℤ} (h : IdInvariant s) (hstep : s.unlink c = some s') :
    IdInvariant s' := by
  obtain ⟨phase, hc, hp, hp', hm⟩ := unlink_cases hstep
  obtain ⟨hlt, hnot⟩ := h.known hc
  refine h.move hm hlt (List.Sublist.refl _) hnot (by simp) ?_
  rw [List.filterMap_nil, List.append_nil]
  exact (h.place c).unlink hp hp'

theorem ids_registration (h : IdInvariant s) (hstep : s.send .registration = some s') :
    IdInvariant s' := by
  rw [send_cases hstep]
  refine h.congr rfl rfl rfl (fun c => ?_) (fun _ => rfl) (fun _ => rfl)
  rw [notices_append rfl]
  simp [RegistrationMessage.notice]

end ClientSteps

section RegistrationSteps

/-- The message at the head of the queue is about a client without a visit. -/
theorem IdInvariant.place_of_message (h : IdInvariant s) (hturn : s.registrationWorker = .reg)
    {m : RegistrationMessage} {rest : List RegistrationMessage} {c : ℤ} {notice : Notice}
    (hq : s.clientToServerRegistrationQueue = m :: rest) (hm : m.notice c = some notice) :
    Place (s.clients c).phase (notice :: rest.filterMap (RegistrationMessage.notice c)) none
      (decide (c ∈ s.registeredClients)) := by
  have hplace := h.place c
  rw [HasPlace, notices, hq, hturn, List.filterMap_cons_some hm] at hplace
  exact hplace

/-- A QUEUE_CREATION finds its client unregistered. -/
theorem IdInvariant.creation (h : IdInvariant s) (hturn : s.registrationWorker = .reg)
    {c priority : ℤ} {rest : List RegistrationMessage}
    (hq : s.clientToServerRegistrationQueue = .queueCreation c priority :: rest) :
    c ∉ s.registeredClients ∧
      Sent (s.clients c).phase (rest.filterMap (RegistrationMessage.notice c)) := by
  obtain ⟨hs, -, hr⟩ := (h.place_of_message hturn (c := c) hq
    (if_pos rfl)).of_creation
  exact ⟨of_decide_eq_false hr, hs⟩

/-- A QUEUE_DELETION finds its client registered. -/
theorem IdInvariant.deletion (h : IdInvariant s) (hturn : s.registrationWorker = .reg) {c : ℤ}
    {rest : List RegistrationMessage}
    (hq : s.clientToServerRegistrationQueue = .queueDeletion c :: rest) :
    c ∈ s.registeredClients ∧ (s.clients c).phase.left = true ∧
      rest.filterMap (RegistrationMessage.notice c) = [] := by
  obtain ⟨hn, hl, hr⟩ := (h.place_of_message hturn (c := c) hq
    (if_pos rfl)).of_deletion
  exact ⟨of_decide_eq_true hr, hl, hn⟩

theorem ids_reg (h : IdInvariant s) (hturn : s.registrationWorker = .reg) :
    IdInvariant s.reg := by
  have hnone : ∀ c, s.registrationWorker.visit c = none := fun c => by
    rw [hturn]
    rfl
  unfold reg
  split
  · exact h.congr rfl rfl rfl (fun _ => rfl) (fun c => (hnone c).symm) (fun _ => rfl)
  · next rest hq =>
    refine h.congr rfl rfl rfl (fun c => ?_) (fun c => (hnone c).symm) (fun _ => rfl)
    rw [notices, notices, hq]
    rfl
  · next c priority rest hq =>
    obtain ⟨hc, hs⟩ := h.creation hturn hq
    rw [if_neg hc]
    refine h.visit (visitFrame_of_message hturn hq (fun d hd => if_neg (Ne.symm hd))
      fun d hd => by rw [Finset.mem_insert, or_iff_right hd]) ?_
    show Place _ _ (Turn.visit c (.visiting (.registering priority) c)) _
    rw [Turn.visit, if_pos rfl, decide_eq_true (Finset.mem_insert_self c _)]
    exact .present hs fun x hx => by
      cases hx
      rfl
  · next c rest hq =>
    obtain ⟨hc, hl, hn⟩ := h.deletion hturn hq
    rw [if_pos hc]
    refine h.visit (visitFrame_of_message hturn hq
      (fun d hd => if_neg (Ne.symm hd)) fun _ _ => Iff.rfl) ?_
    show Place _ (rest.filterMap (RegistrationMessage.notice c))
      (Turn.visit c (.visiting .closingServerToClient c)) (decide (c ∈ s.registeredClients))
    rw [Turn.visit, if_pos rfl, decide_eq_true hc, hn]
    exact .closing hl rfl rfl

theorem ids_visitRegistration (h : IdInvariant s) (hturn : s.registrationWorker = .identifying)
    (hstep : s.visitRegistration = some s') : IdInvariant s' := by
  have hnone : ∀ c, s.registrationWorker.visit c = none := fun c => by
    rw [hturn]
    rfl
  simp only [visitRegistration] at hstep
  split_ifs at hstep
  · cases hstep
    have hnew : s.nextClientId ∉ s.serverToClientRegistrationQueue := fun hm =>
      absurd (h.ids _ hm).1 (by omega)
    constructor
    · intro c hc
      have hc' : s.nextClientId + 1 ≤ c := hc
      exact h.fresh c (by omega)
    · exact List.nodup_append.mpr ⟨h.ids_nodup, List.nodup_singleton _, fun a ha b hb => by
        rw [List.mem_singleton.mp hb]
        exact fun he => hnew (he ▸ ha)⟩
    · intro c hc
      show c < s.nextClientId + 1 ∧ _
      rcases List.mem_append.mp hc with hc | hc
      · have hold := h.ids c hc
        exact ⟨by omega, hold.2⟩
      · rw [List.mem_singleton.mp hc]
        exact ⟨by omega, h.fresh _ le_rfl⟩
    · intro c
      have hplace := h.place c
      rw [HasPlace, hnone] at hplace
      exact hplace
  · cases hstep
    exact h.congr rfl rfl rfl (fun _ => rfl) (fun _ => rfl) (fun _ => rfl)

/-- A visit goes on. The entries in `registeredClients` change when the visit
comes to `erasing`, which ends its middle part. -/
theorem ids_visit [IntCast κ] {c : ℤ} {p : Placement ℤ} {v : Visit} (h : IdInvariant s)
    (hturn : s.registrationWorker = .visiting v c) (hstep : s.visit c p v = some s') :
    IdInvariant s' := by
  refine h.visit (visitFrame_of_visit hturn hstep) ?_
  have hself : ∀ x, Turn.visit c (.visiting x c) = some x := fun x => if_pos rfl
  rcases visit_cases hstep with ⟨fault, rfl⟩ | hadvance
  · -- a throw leaves the visit where it is
    exact h.place c
  have hplace := h.place c
  rw [HasPlace, hturn, hself] at hplace
  have hopened : v.opens = true → ∀ s₁ : Service κ, s₁.clients = s.clients →
      s₁.clientToServerRegistrationQueue = s.clientToServerRegistrationQueue →
      s₁.registeredClients = s.registeredClients →
      (∀ x, s₁.registrationWorker.visit c = some x → x.opens = true) → s₁.HasPlace c := by
    intro ho s₁ h₁ h₂ h₃ h₄
    obtain ⟨hs, hr⟩ := hplace.of_opens ho
    rw [HasPlace, notices, h₁, h₂, h₃, hr]
    exact .present hs h₄
  cases hadvance with
  | registering priority _ =>
    refine hopened rfl _ rfl rfl rfl fun x hx => ?_
    rw [hself] at hx
    cases hx
    rfl
  | openingServerToClient _ =>
    refine hopened rfl _ rfl rfl rfl fun x hx => ?_
    rw [hself] at hx
    cases hx
    rfl
  | openingClientToServer _ => exact hopened rfl _ rfl rfl rfl fun x hx => by cases hx
  | closingServerToClient _ =>
    obtain ⟨hn, hl, hr⟩ := hplace.of_closes rfl rfl
    show Place _ (s.notices c) (Turn.visit c (.visiting .closingClientToServer c)) _
    rw [hself, hn]
    exact hr ▸ .closing hl rfl rfl
  | closingClientToServer _ =>
    obtain ⟨hn, hl, hr⟩ := hplace.of_closes rfl rfl
    show Place _ (s.notices c) (Turn.visit c (.visiting .erasing c)) _
    rw [hself, hn]
    exact hr ▸ .closing hl rfl rfl
  | erasing =>
    obtain ⟨hn, hl, -⟩ := hplace.of_closes rfl rfl
    show Place _ (s.notices c) (Turn.visit c (.visiting .deregistering c))
      (decide (c ∈ s.registeredClients.erase c))
    rw [hself, hn, decide_eq_false (Finset.notMem_erase c _)]
    exact .dropped hl fun x hx => by
      cases hx
      rfl
  | deregistering _ _ =>
    obtain ⟨hn, hl, hr⟩ := hplace.of_drops rfl
    show Place _ (s.notices c) (Turn.visit c (.visiting .erasingQueues c)) _
    rw [hself, hn]
    refine hr ▸ .dropped hl fun x hx => ?_
    cases hx
    rfl
  | erasingQueues =>
    obtain ⟨hn, hl, hr⟩ := hplace.of_drops rfl
    show Place _ (s.notices c) none _
    rw [hn]
    exact hr ▸ .dropped hl fun x hx => by cases hx

theorem ids_dispatch {clientIds : List ℤ} (h : IdInvariant s)
    (hturn : s.registrationWorker = .dispatching clientIds) :
    IdInvariant (s.dispatch clientIds) := by
  have hnone : ∀ c, s.registrationWorker.visit c = none := fun c => by
    rw [hturn]
    rfl
  cases clientIds with
  | nil => exact h.congr rfl rfl rfl (fun _ => rfl) (fun c => (hnone c).symm) (fun _ => rfl)
  | cons c clientIds =>
    simp only [dispatch]
    split
    · exact h.congr rfl rfl rfl (fun _ => rfl) (fun c => (hnone c).symm) (fun _ => rfl)
    · refine h.congr rfl rfl rfl (fun _ => rfl) (fun c => (hnone c).symm) ?_
      exact read_setClient Client.phase s { s.clients c with clientToServer := _ } rfl

theorem ids_enqueue [Zero κ] [LT κ] [DecidableLT κ] {c : ℤ} {request : ClientRequest}
    {clientIds : List ℤ} {p : Placement ℤ} (h : IdInvariant s)
    (hturn : s.registrationWorker = .enqueueing c request clientIds)
    (hstep : s.enqueue c request clientIds p = some s') : IdInvariant s' := by
  have hnone : ∀ c, s.registrationWorker.visit c = none := fun c => by
    rw [hturn]
    rfl
  simp only [enqueue] at hstep
  split_ifs at hstep
  split at hstep <;> cases hstep
  · exact h.congr rfl rfl rfl (fun _ => rfl) (fun c => (hnone c).symm) (fun _ => rfl)
  · exact h.congr rfl rfl rfl (fun _ => rfl) (fun _ => rfl) (fun _ => rfl)

theorem ids_register [IntCast κ] [Zero κ] [LT κ] [DecidableLT κ] {p : Placement ℤ}
    (h : IdInvariant s) (hstep : s.register p = some s') :
    IdInvariant s' := by
  cases hturn : s.registrationWorker with
  | reg =>
    rw [register, hturn] at hstep
    cases hstep
    exact ids_reg h hturn
  | identifying =>
    rw [register, hturn] at hstep
    exact ids_visitRegistration h hturn hstep
  | visiting v c =>
    rw [register, hturn] at hstep
    exact ids_visit h hturn hstep
  | dispatching clientIds =>
    rw [register, hturn] at hstep
    cases hstep
    exact ids_dispatch h hturn
  | enqueueing c request clientIds =>
    rw [register, hturn] at hstep
    exact ids_enqueue h hturn hstep

end RegistrationSteps

section Steps

variable [Add κ] [Sub κ] [Mul κ] [Div κ] [NatCast κ] [IntCast κ] [Zero κ] [LT κ] [DecidableLT κ]

/-- Every step of the service and of the clients. -/
theorem IdInvariant.step {cfg : Config} {e : Event} (h : IdInvariant s)
    (hstep : s.step cfg e = some s') : IdInvariant s' := by
  by_cases he : e.keepsTables = true
  · have hsame := sameTables_of_step he hstep
    refine h.congr hsame.nextClientId hsame.ids hsame.registeredClients (fun c => ?_) (fun c => ?_)
      hsame.phase
    · rw [notices, hsame.messages]
      rfl
    · rw [hsame.registrationWorker]
  · cases e with
    | registration => exact ids_registration h hstep
    | identify => exact ids_identify h hstep
    | createQueue c => exact ids_createQueue h hstep
    | announce c priority => exact ids_announce h hstep
    | leave c => exact ids_leave h hstep
    | unlink c => exact ids_unlink h hstep
    | register p => exact ids_register h hstep
    | _ => exact absurd rfl he

/-- The ids on their way to the clients: one leaves only by `identify`, and a
new one is the next in number. -/
theorem ids_of_step {cfg : Config} {e : Event} (he : e ≠ .identify)
    (hstep : s.step cfg e = some s') :
    s.nextClientId ≤ s'.nextClientId ∧ ∀ c ∈ s'.serverToClientRegistrationQueue,
      c ∈ s.serverToClientRegistrationQueue ∨ s.nextClientId ≤ c := by
  have hframe : s'.nextClientId = s.nextClientId →
      s'.serverToClientRegistrationQueue = s.serverToClientRegistrationQueue →
      s.nextClientId ≤ s'.nextClientId ∧ ∀ c ∈ s'.serverToClientRegistrationQueue,
        c ∈ s.serverToClientRegistrationQueue ∨ s.nextClientId ≤ c := by
    intro hnext hids
    rw [hnext, hids]
    exact ⟨le_rfl, fun c hc => Or.inl hc⟩
  by_cases hkeep : e.keepsTables = true
  · have hsame := sameTables_of_step hkeep hstep
    exact hframe hsame.nextClientId hsame.ids
  · cases e with
    | registration =>
      have hs := send_cases hstep
      subst hs
      exact hframe rfl rfl
    | identify => exact absurd rfl he
    | createQueue c =>
      obtain ⟨_, -, -, -, hm⟩ := createQueue_cases hstep
      exact hframe hm.nextClientId hm.ids
    | announce c priority =>
      obtain ⟨-, hm⟩ := announce_cases hstep
      exact hframe hm.nextClientId hm.ids
    | leave c =>
      obtain ⟨-, hm⟩ := leave_cases hstep
      exact hframe hm.nextClientId hm.ids
    | unlink c =>
      obtain ⟨_, -, -, -, hm⟩ := unlink_cases hstep
      exact hframe hm.nextClientId hm.ids
    | register p =>
      simp only [step, register] at hstep
      split at hstep
      · cases hstep
        exact hframe (reg_frame s).2.2.1 (reg_frame s).2.2.2
      · simp only [visitRegistration] at hstep
        split_ifs at hstep <;> cases hstep
        · refine ⟨by show s.nextClientId ≤ s.nextClientId + 1; omega, fun c hc => ?_⟩
          rcases List.mem_append.mp hc with hc | hc
          · exact Or.inl hc
          · exact Or.inr (List.mem_singleton.mp hc).ge
        · exact hframe rfl rfl
      · next v c hturn =>
        have hv := visitFrame_of_visit hturn hstep
        exact hframe hv.nextClientId hv.ids
      · cases hstep
        exact hframe (dispatch_frame s _).2.2.1 (dispatch_frame s _).2.2.2
      · simp only [enqueue] at hstep
        split_ifs at hstep
        split at hstep <;> cases hstep <;> exact hframe rfl rfl
    | _ => exact absurd rfl hkeep

end Steps

end Service

namespace Handshake

variable {κ : Type} {h h' : Handshake κ}

/-- The ids that clients have obtained are not on their way to others. -/
structure Invariant (h : Handshake κ) : Prop where
  ids : h.service.IdInvariant
  obtained : ∀ p c, h.processes p = .holding c →
    c < h.service.nextClientId ∧ c ∉ h.service.serverToClientRegistrationQueue
  distinct : ∀ p q c, h.processes p = .holding c → h.processes q = .holding c → p = q

/-- A process that obtains no id. -/
theorem holding_of_set {p q : ℕ} {process : Process} {c : ℤ} (hno : ∀ d, process ≠ .holding d)
    (hq : (if q = p then process else h.processes q) = .holding c) :
    h.processes q = .holding c := by
  split_ifs at hq
  · exact absurd hq (hno c)
  · exact hq

section Steps

variable [Add κ] [Sub κ] [Mul κ] [Div κ] [NatCast κ] [IntCast κ] [Zero κ] [LT κ] [DecidableLT κ]

/-- A step of the service during which no client obtains an id. -/
theorem Invariant.serve {cfg : Config} {e : Service.Event} {service : Service κ}
    (hinv : Invariant h) (he : e ≠ .identify) (hstep : h.service.step cfg e = some service)
    {processes : ℕ → Process}
    (hp : ∀ p c, processes p = .holding c → h.processes p = .holding c) :
    Invariant ⟨service, processes⟩ where
  ids := hinv.ids.step hstep
  obtained := by
    intro p c hc
    obtain ⟨hlt, hnot⟩ := hinv.obtained p c (hp p c hc)
    obtain ⟨hle, hids⟩ := Service.ids_of_step he hstep
    refine ⟨lt_of_lt_of_le hlt hle, fun hm => ?_⟩
    rcases hids c hm with hm | hge
    · exact hnot hm
    · omega
  distinct := fun p q c hpc hqc => hinv.distinct p q c (hp p c hpc) (hp q c hqc)

theorem invariant_next {cfg : Config} {e : Event} (hinv : Invariant h)
    (hnext : next cfg h e = some h') : Invariant h' := by
  cases e with
  | register p =>
    simp only [next] at hnext
    split_ifs at hnext
    obtain ⟨service, hstep, rfl⟩ := Option.map_eq_some_iff.mp hnext
    exact hinv.serve (by simp) (Service.next_cases hstep).1 fun q c hq =>
      holding_of_set (by simp) hq
  | die p =>
    simp only [next] at hnext
    split_ifs at hnext
    cases hnext
    have hsame : ∀ q c, (h.setProcess p .dead h.service).processes q = .holding c →
        h.processes q = .holding c := fun q c hq => holding_of_set (by simp) hq
    exact ⟨hinv.ids, fun q c hq => hinv.obtained q c (hsame q c hq), fun q r c hq hr =>
      hinv.distinct q r c (hsame q c hq) (hsame r c hr)⟩
  | identify p =>
    simp only [next] at hnext
    split at hnext
    · next c rest hwait hq =>
      obtain ⟨service, hstep, rfl⟩ := Option.map_eq_some_iff.mp hnext
      obtain ⟨hstep, -⟩ := Service.next_cases hstep
      obtain ⟨d, rest', hq', hm⟩ := Service.identify_cases hstep
      obtain ⟨rfl, rfl⟩ : c = d ∧ rest = rest' := by simpa using hq.symm.trans hq'
      have hnd := hinv.ids.ids_nodup
      rw [hq] at hnd
      have hheld : ∀ q d, (h.setProcess p (.holding c) service).processes q = .holding d →
          q = p ∧ d = c ∨ q ≠ p ∧ h.processes q = .holding d := by
        intro q d hd
        simp only [setProcess] at hd
        split_ifs at hd with hqp
        · cases hd
          exact Or.inl ⟨hqp, rfl⟩
        · exact Or.inr ⟨hqp, hd⟩
      -- nobody has the id that is at the head of the queue
      have hfree : ∀ q, h.processes q ≠ .holding c := fun q hqc =>
        (hinv.obtained q c hqc).2 (hq ▸ List.mem_cons_self)
      refine ⟨hinv.ids.step hstep, fun q d hd => ?_, fun q r d hqd hrd => ?_⟩
      · show d < service.nextClientId ∧ d ∉ service.serverToClientRegistrationQueue
        rw [hm.nextClientId, hm.ids]
        rcases hheld q d hd with ⟨-, rfl⟩ | ⟨-, hold⟩
        · exact ⟨(hinv.ids.ids d (hq ▸ List.mem_cons_self)).1, (List.nodup_cons.mp hnd).1⟩
        · obtain ⟨hlt, hnot⟩ := hinv.obtained q d hold
          exact ⟨hlt, fun hmem => hnot (hq ▸ List.mem_cons_of_mem c hmem)⟩
      · rcases hheld q d hqd with ⟨rfl, rfl⟩ | ⟨-, hqold⟩
        · rcases hheld r d hrd with ⟨rfl, -⟩ | ⟨-, hrold⟩
          · rfl
          · exact absurd hrold (hfree r)
        · rcases hheld r d hrd with ⟨-, rfl⟩ | ⟨-, hrold⟩
          · exact absurd hqold (hfree q)
          · exact hinv.distinct q r d hqold hrold
    · cases hnext
  | act p action =>
    simp only [next] at hnext
    split at hnext
    · obtain ⟨service, hstep, rfl⟩ := Option.map_eq_some_iff.mp hnext
      refine hinv.serve ?_ (Service.next_cases hstep).1 fun _ _ hq => hq
      cases action <;> simp [Action.event]
    · cases hnext
  | serve e =>
    simp only [next] at hnext
    split_ifs at hnext with he
    obtain ⟨service, hstep, rfl⟩ := Option.map_eq_some_iff.mp hnext
    refine hinv.serve ?_ (Service.next_cases hstep).1 fun _ _ hq => hq
    rintro rfl
    cases he

theorem invariant_of_reachable {cfg : Config} (hr : (machine cfg).Reachable h) : Invariant h := by
  refine hr.invariant ⟨Service.idInvariant_init cfg, ?_, ?_⟩ fun s e t hs ht =>
    invariant_next hs ht
  · intro p c hc
    cases hc
  · intro p q c hc
    cases hc

/-- The registration handshake: no two clients obtain one id, a QUEUE_CREATION
finds its client unregistered and a QUEUE_DELETION finds it registered, so
`reg` does not throw. -/
theorem handshake {cfg : Config} (hr : (machine cfg).Reachable h) :
    (∀ p q c, h.processes p = .holding c → h.processes q = .holding c → p = q) ∧
    (h.service.registrationWorker = .reg →
      (∀ c priority rest,
        h.service.clientToServerRegistrationQueue = .queueCreation c priority :: rest →
        c ∉ h.service.registeredClients) ∧
      (∀ c rest, h.service.clientToServerRegistrationQueue = .queueDeletion c :: rest →
        c ∈ h.service.registeredClients) ∧
      h.service.reg.fault = h.service.fault) := by
  have hinv := invariant_of_reachable hr
  refine ⟨hinv.distinct, fun hturn => ⟨fun c priority rest hq => ?_, fun c rest hq => ?_, ?_⟩⟩
  · exact (hinv.ids.creation hturn hq).1
  · exact (hinv.ids.deletion hturn hq).1
  · unfold Service.reg
    split
    · rfl
    · rfl
    · next c priority rest hq => rw [if_neg (hinv.ids.creation hturn hq).1]
    · next c rest hq => rw [if_pos (hinv.ids.deletion hturn hq).1]

end Steps

/-- A client dies while it waits, and the next one obtains the id meant for it. -/
def inherited : List Event :=
  [.register 0, .register 1, .die 0, .serve (.register (.splice 0)),
    .serve (.register (.splice 0)), .serve (.register (.splice 0)),
    .serve (.register (.splice 0)), .identify 1, .act 1 .createQueue, .act 1 .createQueue,
    .act 1 (.announce 64)]

theorem handshake_inherited :
    ∃ h : Handshake ℚ,
      (machine (System.smallService fun _ => 1)).run (machine (System.smallService fun _ => 1)).start
        inherited = some h ∧
      h.processes 1 = .holding 0 ∧ h.service.registrationWorker = .reg ∧
      h.service.clientToServerRegistrationQueue = [.queueCreation 0 64] ∧
      0 ∉ h.service.registeredClients ∧ h.service.reg.fault = h.service.fault := by
  have hrun : ((machine (System.smallService fun _ => 1) : Machine (Handshake ℚ) Event).run
      (machine (System.smallService fun _ => 1)).start inherited).map
      (fun h => (h.processes 1, h.service.registrationWorker,
        h.service.clientToServerRegistrationQueue)) =
      some (.holding 0, .reg, [.queueCreation 0 64]) := by decide +kernel
  obtain ⟨h, hh, hview⟩ := Option.map_eq_some_iff.mp hrun
  obtain ⟨hholds, hturn, hqueue⟩ : h.processes 1 = .holding 0 ∧
      h.service.registrationWorker = .reg ∧
      h.service.clientToServerRegistrationQueue = [.queueCreation 0 64] := by simpa using hview
  obtain ⟨-, hreg⟩ := handshake (Machine.reachable_of_run hh)
  obtain ⟨hcreation, -, hfault⟩ := hreg hturn
  exact ⟨h, hh, hholds, hturn, hqueue, hcreation 0 64 [] hqueue, hfault⟩

end Handshake

end TinyFile
