import TinyFile.Handshake
import TinyFile.SoundScheduler

/-!
# The life of a client

Each client goes through one life on both sides: it announces its queues, the
registration thread registers it and opens them, it is served, and after its
deletion message the registration thread closes them and forgets it. `Standing`
lists what is true of a client at each stage: its phase, its messages in the
registration queue, the visit under way and the service's four tables.
-/
namespace TinyFile.Service

variable {κ : Type}

/-- Both queues exist while the client's threads run. -/
theorem Phase.queues_of_atWork {phase : Phase} (h : phase.atWork = true) :
    phase.serverToClientExists = true ∧ phase.clientToServerExists = true := by
  cases phase <;> simp_all [Phase.atWork, Phase.serverToClientExists, Phase.clientToServerExists]

/-- What the service's tables say of one client: `registeredClients`, the
scheduler, and the descriptors of its two queues, which are open or closed. -/
structure Entries where
  registered : Bool
  scheduled : Bool
  blocking : Option Bool
  nonBlocking : Option Bool

def Entries.unknown : Entries := ⟨false, false, none, none⟩

def Entries.served : Entries := ⟨true, true, some true, some true⟩

/-- The tables before a step of a visit. -/
def Visit.entries : Visit → Entries
  | .registering _ => ⟨true, false, none, none⟩
  | .openingServerToClient => ⟨true, true, none, none⟩
  | .openingClientToServer => ⟨true, true, some true, none⟩
  | .closingServerToClient => ⟨true, true, some true, some true⟩
  | .closingClientToServer => ⟨true, true, some false, some true⟩
  | .erasing => ⟨true, true, some false, some false⟩
  | .deregistering => ⟨false, true, some false, some false⟩
  | .erasingQueues => ⟨false, false, some false, some false⟩

/-- The stages of a client's life. -/
inductive Standing : Phase → List Notice → Option Visit → Entries → Prop
  | unknown {phase : Phase} : phase.early = true → Standing phase [] none .unknown
  | announced {phase : Phase} {sent : List Notice} : Sent phase sent → phase.atWork = true →
      Standing phase (.creation :: sent) none .unknown
  | opening {phase : Phase} {sent : List Notice} {v : Visit} : Sent phase sent →
      phase.atWork = true → v.opens = true → Standing phase sent (some v) v.entries
  | served {phase : Phase} {sent : List Notice} : Sent phase sent →
      Standing phase sent none .served
  | closing {phase : Phase} {v : Visit} : phase.left = true → v.opens = false →
      Standing phase [] (some v) v.entries
  | forgotten {phase : Phase} : phase.left = true → Standing phase [] none .unknown

def entries (s : Service κ) (c : ℤ) : Entries where
  registered := decide (c ∈ s.registeredClients)
  scheduled := decide (c ∈ s.scheduler.registered)
  blocking := s.blockingServerToClientQueues.find? c
  nonBlocking := s.nonBlockingClientToServerQueues.find? c

/-- How the client and the service stand to each other. -/
def Stands (s : Service κ) (c : ℤ) : Prop :=
  Standing (s.clients c).phase (s.notices c) (s.registrationWorker.visit c) (s.entries c)

/-- The service can enqueue requests of the client and answer them. -/
structure Attended (s : Service κ) (c : ℤ) : Prop where
  registered : c ∈ s.registeredClients
  scheduled : c ∈ s.scheduler.registered
  opened : s.blockingServerToClientQueues.find? c = some true

structure LifeInvariant (st : Strategy) (s : Service κ) : Prop where
  stands : ∀ c, s.Stands c
  sound : Scheduler.Sound st s.scheduler
  pending : ∀ c, s.scheduler.pending c ≠ [] → s.Attended c
  unanswered : ∀ pc ∈ s.workers, ∀ c, pc.unanswered = some c → s.Attended c
  dispatching : ∀ c ∈ s.registrationWorker.toServe, s.Attended c

section Standing

variable {phase phase' : Phase} {n rest : List Notice} {v : Option Visit} {t : Entries}

theorem Standing.of_early (h : Standing phase n v t) (hp : phase.early = true) :
    n = [] ∧ v = none ∧ t = .unknown := by
  cases h with
  | unknown _ => exact ⟨rfl, rfl, rfl⟩
  | announced hs _ => simp [hs.not_early] at hp
  | opening hs _ _ => simp [hs.not_early] at hp
  | served hs => simp [hs.not_early] at hp
  | closing hl _ => simp [Phase.left_of_early hp] at hl
  | forgotten hl => simp [Phase.left_of_early hp] at hl

/-- A creation message comes first and finds the client unknown. -/
theorem Standing.of_creation (h : Standing phase (.creation :: rest) v t) :
    Sent phase rest ∧ phase.atWork = true ∧ v = none ∧ t = .unknown := by
  generalize hn : Notice.creation :: rest = n at h
  cases h with
  | announced hs hl =>
    cases hn
    exact ⟨hs, hl, rfl, rfl⟩
  | opening hs _ _ => cases hs <;> cases hn
  | served hs => cases hs <;> cases hn
  | _ => cases hn

/-- A deletion message is the last one, and finds the client served unless it is
behind a visit that opens its queues. -/
theorem Standing.of_deletion (h : Standing phase (.deletion :: rest) none t) :
    rest = [] ∧ phase.left = true ∧ t = .served := by
  generalize hn : Notice.deletion :: rest = n at h
  cases h with
  | served hs =>
    cases hs with
    | nothing => cases hn
    | deletion hl =>
      cases hn
      exact ⟨rfl, hl, rfl⟩
  | announced hs hl => cases hn
  | _ => cases hn

theorem Standing.of_opens {x : Visit} (h : Standing phase n (some x) t) (hx : x.opens = true) :
    Sent phase n ∧ phase.atWork = true ∧ t = x.entries := by
  cases h with
  | opening hs hl _ => exact ⟨hs, hl, rfl⟩
  | closing _ ho => simp [hx] at ho

theorem Standing.of_closes {x : Visit} (h : Standing phase n (some x) t) (hx : x.opens = false) :
    n = [] ∧ phase.left = true ∧ t = x.entries := by
  cases h with
  | opening _ _ ho => simp [hx] at ho
  | closing hl _ => exact ⟨rfl, hl, rfl⟩

/-- Between visits a client with a descriptor is served. -/
theorem Standing.of_open {x : Bool} (h : Standing phase n none t) (ht : t.nonBlocking = some x) :
    t = .served := by
  cases h with
  | served hs => rfl
  | _ => cases ht

/-- The destructor sends its message at every stage of a running client. -/
theorem Standing.leave (h : Standing .running n v t) :
    Standing .deleting (n ++ [.deletion]) v t := by
  cases h with
  | unknown hp => cases hp
  | announced hs hl => exact .announced hs.leave rfl
  | opening hs hl ho => exact .opening hs.leave rfl ho
  | served hs => exact .served hs.leave
  | closing hl _ => cases hl
  | forgotten hl => cases hl

/-- Unlinking is harmless once both queues have been opened. -/
theorem Standing.unlink (h : Standing phase n v t) (hp : phase.left = true)
    (hp' : phase'.left = true) (hn : Notice.creation ∉ n) (hv : ∀ x, v = some x → x.opens = false) :
    Standing phase' n v t := by
  cases h with
  | unknown he => simp [Phase.left_of_early he] at hp
  | announced hs hl => exact absurd List.mem_cons_self hn
  | opening hs hl ho => simp [hv _ rfl] at ho
  | served hs => exact .served (hs.unlink hp hp')
  | closing hl ho => exact .closing hp' ho
  | forgotten hl => exact .forgotten hp'

end Standing

variable {st : Strategy} {s s' : Service κ}

theorem entries_eq {c : ℤ} {t : Entries} (h : s.entries c = t) :
    decide (c ∈ s.registeredClients) = t.registered ∧
      decide (c ∈ s.scheduler.registered) = t.scheduled ∧
      s.blockingServerToClientQueues.find? c = t.blocking ∧
      s.nonBlockingClientToServerQueues.find? c = t.nonBlocking := by
  subst h
  exact ⟨rfl, rfl, rfl, rfl⟩

theorem attended_of_served {c : ℤ} (h : s.entries c = .served) : s.Attended c := by
  obtain ⟨hr, hk, ha, -⟩ := entries_eq h
  exact ⟨of_decide_eq_true hr, of_decide_eq_true hk, ha⟩

theorem Attended.congr {c : ℤ} (h : s.Attended c)
    (hregistered : s'.registeredClients = s.registeredClients)
    (hscheduled : s'.scheduler.registered = s.scheduler.registered)
    (hblocking : s'.blockingServerToClientQueues = s.blockingServerToClientQueues) :
    s'.Attended c where
  registered := hregistered ▸ h.registered
  scheduled := hscheduled ▸ h.scheduled
  opened := hblocking ▸ h.opened

/-- The service still has to open the queues of the client. -/
def opening (s : Service κ) (c : ℤ) : Bool :=
  decide (Notice.creation ∈ s.notices c) ||
    (s.registrationWorker.visit c).any Visit.opens

/-- The client has requests that have not been answered. -/
def busy (s : Service κ) (c : ℤ) : Bool :=
  !(s.scheduler.pending c).isEmpty || s.workers.any (fun pc => pc.unanswered = some c)

theorem lifeInvariant_init (st : Strategy) (cfg : Config) :
    LifeInvariant st (init cfg : Service κ) where
  stands := fun _ => .unknown rfl
  sound := Scheduler.sound_init st _
  pending := fun c hc => absurd rfl hc
  unanswered := by
    intro pc hpc c hc
    rw [List.eq_of_mem_replicate hpc] at hc
    cases hc
  dispatching := fun c hc => by cases hc

section Frame

/-- What the standing of the clients is read from stays the same. -/
structure SameStanding (s s' : Service κ) : Prop where
  registeredClients : s'.registeredClients = s.registeredClients
  blocking : s'.blockingServerToClientQueues = s.blockingServerToClientQueues
  nonBlocking : s'.nonBlockingClientToServerQueues = s.nonBlockingClientToServerQueues
  notices : ∀ c, s'.notices c = s.notices c
  visit : ∀ c, s'.registrationWorker.visit c = s.registrationWorker.visit c
  phase : ∀ c, (s'.clients c).phase = (s.clients c).phase

theorem SameTables.standing (h : SameTables s s') : SameStanding s s' where
  registeredClients := h.registeredClients
  blocking := h.blocking
  nonBlocking := h.nonBlocking
  notices := fun c => by rw [notices, h.messages, notices]
  visit := fun c => by rw [h.registrationWorker]
  phase := h.phase

/-- A step that leaves the standing of the clients alone. -/
theorem LifeInvariant.congr (h : LifeInvariant st s) (hsame : SameStanding s s')
    (hsound : Scheduler.Sound st s'.scheduler)
    (hregistered : s'.scheduler.registered = s.scheduler.registered)
    (hpending : ∀ c, s'.scheduler.pending c ≠ [] → s.Attended c)
    (hunanswered : ∀ pc ∈ s'.workers, ∀ c, pc.unanswered = some c → s.Attended c)
    (hserves : ∀ c ∈ s'.registrationWorker.toServe, s.Attended c) : LifeInvariant st s' := by
  have hattended : ∀ c, s.Attended c → s'.Attended c := fun c hc =>
    hc.congr hsame.registeredClients hregistered hsame.blocking
  constructor
  · intro c
    rw [Stands, hsame.phase, hsame.notices, hsame.visit, entries, hsame.registeredClients,
      hregistered, hsame.blocking, hsame.nonBlocking]
    exact h.stands c
  · exact hsound
  · exact fun c hc => hattended c (hpending c hc)
  · exact fun pc hpc c hc => hattended c (hunanswered pc hpc c hc)
  · exact fun c hc => hattended c (hserves c hc)

/-- One client goes on, and may send a message. -/
theorem LifeInvariant.move (h : LifeInvariant st s) {c : ℤ} {phase : Phase}
    {messages : List RegistrationMessage} {ids : List ℤ} (hm : ClientMove c phase messages ids s s')
    (hother : ∀ m ∈ messages, ∀ d, d ≠ c → m.notice d = none)
    (hstands : Standing phase (s.notices c ++ messages.filterMap (RegistrationMessage.notice c))
      (s.registrationWorker.visit c) (s.entries c)) : LifeInvariant st s' := by
  have hattended : ∀ d, s.Attended d → s'.Attended d := fun d hd =>
    hd.congr hm.registeredClients (by rw [hm.scheduler]) hm.blocking
  have hentries : ∀ d, s'.entries d = s.entries d := fun d => by
    rw [entries, entries, hm.registeredClients, hm.scheduler, hm.blocking, hm.nonBlocking]
  constructor
  · intro d
    rw [Stands, hm.registrationWorker, hentries, notices_append hm.messages]
    by_cases hd : d = c
    · rw [hd, hm.phase]
      exact hstands
    · have hnone : messages.filterMap (RegistrationMessage.notice d) = [] :=
        List.filterMap_eq_nil_iff.mpr fun m hmem => hother m hmem d hd
      rw [hm.other d hd, hnone, List.append_nil]
      exact h.stands d
  · exact hm.scheduler ▸ h.sound
  · intro d hd
    rw [hm.scheduler] at hd
    exact hattended d (h.pending d hd)
  · intro pc hpc d hd
    rw [hm.workers] at hpc
    exact hattended d (h.unanswered pc hpc d hd)
  · intro d hd
    rw [hm.registrationWorker] at hd
    exact hattended d (h.dispatching d hd)

end Frame

section ClientSteps

theorem life_registration (h : LifeInvariant st s) (hstep : s.send .registration = some s') :
    LifeInvariant st s' := by
  have hs := send_cases hstep
  have hnotices : ∀ c, s'.notices c = s.notices c := by
    intro c
    rw [@notices_append κ s s' [.registration] (by rw [hs])]
    simp [RegistrationMessage.notice]
  subst hs
  exact h.congr ⟨rfl, rfl, rfl, hnotices, fun _ => rfl, fun _ => rfl⟩ h.sound rfl
    h.pending h.unanswered h.dispatching

theorem life_identify (h : LifeInvariant st s) (hids : IdInvariant s)
    (hstep : s.identify = some s') : LifeInvariant st s' := by
  obtain ⟨c, rest, hq, hm⟩ := identify_cases hstep
  have habsent := (hids.ids c (hq ▸ List.mem_cons_self)).2
  have hstands := h.stands c
  rw [Stands, habsent] at hstands
  obtain ⟨hn, hv, ht⟩ := hstands.of_early rfl
  refine h.move hm (by simp) ?_
  rw [hn, hv, ht]
  exact .unknown rfl

theorem life_createQueue {c : ℤ} (h : LifeInvariant st s) (hstep : s.createQueue c = some s') :
    LifeInvariant st s' := by
  obtain ⟨phase, -, hp, hp', hm⟩ := createQueue_cases hstep
  obtain ⟨hn, hv, ht⟩ := (h.stands c).of_early hp
  refine h.move hm (by simp) ?_
  rw [hn, hv, ht]
  exact .unknown hp'

theorem life_announce {c priority : ℤ} (h : LifeInvariant st s)
    (hstep : s.announce c priority = some s') : LifeInvariant st s' := by
  obtain ⟨hp, hm⟩ := announce_cases hstep
  have hstands := h.stands c
  rw [Stands, hp] at hstands
  obtain ⟨hn, hv, ht⟩ := hstands.of_early rfl
  refine h.move hm (fun m hmem d hd => ?_) ?_
  · rw [List.mem_singleton.mp hmem, RegistrationMessage.notice, if_neg (Ne.symm hd)]
  · rw [hn, hv, ht]
    simp only [List.filterMap_cons, RegistrationMessage.notice, if_true, List.filterMap_nil,
      List.nil_append]
    exact .announced .nothing rfl

theorem life_leave {c : ℤ} (h : LifeInvariant st s) (hstep : s.leave c = some s') :
    LifeInvariant st s' := by
  obtain ⟨hp, hm⟩ := leave_cases hstep
  have hstands := h.stands c
  rw [Stands, hp] at hstands
  refine h.move hm (fun m hmem d hd => ?_) ?_
  · rw [List.mem_singleton.mp hmem, RegistrationMessage.notice, if_neg (Ne.symm hd)]
  · simp only [List.filterMap_cons, RegistrationMessage.notice, if_true, List.filterMap_nil]
    exact hstands.leave

theorem life_unlink {c : ℤ} (h : LifeInvariant st s) (hok : s.opening c = false)
    (hstep : s.unlink c = some s') : LifeInvariant st s' := by
  simp only [opening, Bool.or_eq_false_iff, decide_eq_false_iff_not] at hok
  obtain ⟨phase, -, hp, hp', hm⟩ := unlink_cases hstep
  refine h.move hm (by simp) ?_
  rw [List.filterMap_nil, List.append_nil]
  refine (h.stands c).unlink hp hp' hok.1 fun x hx => ?_
  have hv := hok.2
  rwa [hx] at hv

end ClientSteps

section Messages

theorem visit_none {t : Turn} (ht : ∀ v c, t ≠ .visiting v c) (c : ℤ) : t.visit c = none := by
  cases t with
  | visiting v d => exact absurd rfl (ht v d)
  | _ => rfl

theorem LifeInvariant.visit (h : LifeInvariant st s) {c : ℤ} (hframe : VisitFrame c s s')
    (hc : s'.Stands c) (hsound : Scheduler.Sound st s'.scheduler)
    (hpending : ∀ d, s'.scheduler.pending d ≠ [] → s.scheduler.pending d ≠ [])
    (hkeep : s.Attended c → s.busy c = true → s'.Attended c) : LifeInvariant st s' := by
  have hattended : ∀ d, s.Attended d → s.busy d = true → s'.Attended d := by
    intro d hd hbusy
    by_cases hdc : d = c
    · subst hdc
      exact hkeep hd hbusy
    · exact ⟨(hframe.registered d hdc).mpr hd.registered,
        (hframe.scheduled d hdc).mpr hd.scheduled, (hframe.blocking d hdc).trans hd.opened⟩
  constructor
  · intro d
    by_cases hdc : d = c
    · subst hdc
      exact hc
    · rw [Stands, hframe.phase, hframe.notices d hdc, hframe.visit d hdc, entries,
        hframe.blocking d hdc, hframe.nonBlocking d hdc,
        decide_eq_decide.mpr (hframe.registered d hdc),
        decide_eq_decide.mpr (hframe.scheduled d hdc)]
      exact h.stands d
  · exact hsound
  · intro d hd
    refine hattended d (h.pending d (hpending d hd)) ?_
    simp [busy, hpending d hd]
  · intro pc hpc d hd
    rw [hframe.workers] at hpc
    refine hattended d (h.unanswered pc hpc d hd) ?_
    simp only [busy, Bool.or_eq_true, List.any_eq_true, decide_eq_true_eq]
    exact Or.inr ⟨pc, hpc, hd⟩
  · intro d hd
    rw [hframe.serves] at hd
    cases hd

/-- The message at the head of the queue is about a client without a visit. -/
theorem LifeInvariant.stands_of_message (h : LifeInvariant st s)
    (hturn : s.registrationWorker = .reg) {m : RegistrationMessage}
    {rest : List RegistrationMessage} {c : ℤ} {notice : Notice}
    (hq : s.clientToServerRegistrationQueue = m :: rest) (hm : m.notice c = some notice) :
    Standing (s.clients c).phase (notice :: rest.filterMap (RegistrationMessage.notice c)) none
      (s.entries c) := by
  have hstands := h.stands c
  rw [Stands, notices, hq, hturn, List.filterMap_cons_some hm] at hstands
  exact hstands

theorem LifeInvariant.stands_of_visit (h : LifeInvariant st s) {v : Visit} {c : ℤ}
    (hturn : s.registrationWorker = .visiting v c) :
    Standing (s.clients c).phase (s.notices c) (some v) (s.entries c) := by
  have hstands := h.stands c
  rw [Stands, hturn, Turn.visit, if_pos rfl] at hstands
  exact hstands

/-- `reg` does not throw, and what it starts has its place in the client's life. -/
theorem life_reg (h : LifeInvariant st s) (hturn : s.registrationWorker = .reg) :
    LifeInvariant st s.reg ∧ s.reg.fault = s.fault := by
  have hnone := fun c => visit_none (t := s.registrationWorker) (by simp [hturn]) c
  unfold reg
  split
  · refine ⟨h.congr ⟨rfl, rfl, rfl, fun _ => rfl, fun c => (hnone c).symm, fun _ => rfl⟩
      h.sound rfl h.pending h.unanswered fun c hc => ?_, rfl⟩
    obtain ⟨x, hx⟩ := UnorderedMap.mem_keys_iff.mp hc
    have hstands := h.stands c
    rw [Stands, hnone] at hstands
    exact attended_of_served (hstands.of_open (x := x) hx)
  · next rest hq =>
    refine ⟨h.congr ⟨rfl, rfl, rfl, fun c => ?_, fun c => (hnone c).symm, fun _ => rfl⟩
      h.sound rfl h.pending h.unanswered (fun c hc => by cases hc), rfl⟩
    rw [notices, notices, hq]
    rfl
  · next c priority rest hq =>
    obtain ⟨hs, hl, -, ht⟩ := (h.stands_of_message hturn (c := c) hq (if_pos rfl)).of_creation
    obtain ⟨hr, hk, ha, hb⟩ := entries_eq ht
    have hc : c ∉ s.registeredClients := of_decide_eq_false hr
    rw [if_neg hc]
    refine ⟨h.visit (visitFrame_of_message hturn hq (fun d hd => if_neg (Ne.symm hd))
      fun d hd => by rw [Finset.mem_insert, or_iff_right hd]) ?_ h.sound (fun _ hd => hd)
      fun hatt _ => absurd hatt.registered hc, rfl⟩
    show Standing _ _ (Turn.visit c (.visiting (.registering priority) c)) ⟨_, _, _, _⟩
    rw [Turn.visit, if_pos rfl, decide_eq_true (Finset.mem_insert_self c _), hk, ha, hb]
    exact .opening (v := .registering priority) hs hl rfl
  · next c rest hq =>
    obtain ⟨hn, hl, ht⟩ := (h.stands_of_message hturn (c := c) hq (if_pos rfl)).of_deletion
    have hatt := attended_of_served ht
    rw [if_pos hatt.registered]
    refine ⟨h.visit (visitFrame_of_message hturn hq (fun d hd => if_neg (Ne.symm hd))
      fun _ _ => Iff.rfl) ?_ h.sound (fun _ hd => hd)
      fun _ _ => ⟨hatt.registered, hatt.scheduled, hatt.opened⟩, rfl⟩
    show Standing _ (rest.filterMap (RegistrationMessage.notice c))
      (Turn.visit c (.visiting .closingServerToClient c)) (s.entries c)
    rw [Turn.visit, if_pos rfl, hn, ht]
    exact .closing (v := .closingServerToClient) hl rfl

end Messages

section Visits

variable [IntCast κ] {c : ℤ} {v : Visit} {p : Placement ℤ}

theorem find?_assign (m : UnorderedMap ℤ Bool) (c : ℤ) (value : Bool) (p : Placement ℤ) :
    (assign m c value p).find? c = some value := by
  have hkey : c ∈ (m.emplace c value p).keys := UnorderedMap.mem_keys_emplace.mpr (Or.inl rfl)
  obtain ⟨old, hold⟩ := UnorderedMap.mem_keys_iff.mp hkey
  rw [assign, UnorderedMap.find?_modify_self hold]

/-- Before the unlink, `visitQueueCreation` finds both queues. -/
theorem life_opening (h : LifeInvariant st s) (hturn : s.registrationWorker = .visiting v c)
    (hv : v.opens = true) (hstep : s.visit c p v = some s') :
    LifeInvariant st s' ∧ s'.fault = s.fault := by
  obtain ⟨hs, hl, ht⟩ := (h.stands_of_visit hturn).of_opens hv
  have hframe := visitFrame_of_visit hturn hstep
  obtain ⟨hr, hk, ha, hb⟩ := entries_eq ht
  cases v with
  | registering priority =>
    have hnot : c ∉ s.scheduler.registered := of_decide_eq_false hk
    simp only [Service.visit] at hstep
    split_ifs at hstep
    cases hstep
    refine ⟨h.visit hframe ?_ (h.sound.registerClient hnot priority p) (fun _ hd => hd)
      fun hatt _ => absurd hatt.scheduled hnot, rfl⟩
    have hmem : c ∈ (s.scheduler.registerClient c priority p).registered :=
      Scheduler.mem_registered_registerClient.mpr (Or.inl rfl)
    show Standing _ _ (Turn.visit c (.visiting .openingServerToClient c)) ⟨_, _, _, _⟩
    rw [Turn.visit, if_pos rfl, hr, decide_eq_true hmem, ha, hb]
    exact .opening (v := .openingServerToClient) hs hl rfl
  | openingServerToClient =>
    rw [Service.visit, if_pos (Phase.queues_of_atWork hl).1] at hstep
    cases hstep
    refine ⟨h.visit hframe ?_ h.sound (fun _ hd => hd) fun hatt _ => ?_, rfl⟩
    · show Standing _ _ (Turn.visit c (.visiting .openingClientToServer c)) ⟨_, _, _, _⟩
      rw [Turn.visit, if_pos rfl, hr, hk, find?_assign, hb]
      exact .opening (v := .openingClientToServer) hs hl rfl
    · have hopened := hatt.opened
      rw [ha] at hopened
      cases hopened
  | openingClientToServer =>
    rw [Service.visit, if_pos (Phase.queues_of_atWork hl).2] at hstep
    cases hstep
    refine ⟨h.visit hframe ?_ h.sound (fun _ hd => hd)
      fun hatt _ => ⟨hatt.registered, hatt.scheduled, hatt.opened⟩, rfl⟩
    show Standing _ _ none ⟨_, _, _, _⟩
    rw [hr, hk, ha, find?_assign]
    exact .served hs
  | _ => cases hv

/-- A visit to a client that the service no longer works for does not fail. -/
theorem life_closing (h : LifeInvariant st s) (hturn : s.registrationWorker = .visiting v c)
    (hv : v.opens = false) (hbusy : v = .closingServerToClient → s.busy c = false)
    (hit : v = .deregistering → s.scheduler.requestMapIterator ≠ .atKey c)
    (hstep : s.visit c p v = some s') : LifeInvariant st s' ∧ s'.fault = s.fault := by
  obtain ⟨hn, hl, ht⟩ := (h.stands_of_visit hturn).of_closes hv
  have hframe := visitFrame_of_visit hturn hstep
  obtain ⟨hr, hk, ha, hb⟩ := entries_eq ht
  have hgone : v ≠ .closingServerToClient → ¬ s.Attended c := by
    intro hne hatt
    have hopened := hatt.opened
    rw [ha] at hopened
    cases v <;> simp_all [Visit.entries, Visit.opens]
  cases v with
  | closingServerToClient =>
    have hopened : s.blockingServerToClientQueues.find? c = some true := ha
    rw [Service.visit, if_pos hopened] at hstep
    cases hstep
    refine ⟨h.visit hframe ?_ h.sound (fun _ hd => hd)
      fun _ hon => absurd hon (by simp [hbusy rfl]), rfl⟩
    show Standing _ (s.notices c) (Turn.visit c (.visiting .closingClientToServer c)) ⟨_, _, _, _⟩
    rw [Turn.visit, if_pos rfl, hn, hr, hk, UnorderedMap.find?_modify_self ha, hb]
    exact .closing (v := .closingClientToServer) hl rfl
  | closingClientToServer =>
    have hopened : s.nonBlockingClientToServerQueues.find? c = some true := hb
    rw [Service.visit, if_pos hopened] at hstep
    cases hstep
    refine ⟨h.visit hframe ?_ h.sound (fun _ hd => hd)
      fun hatt _ => absurd hatt (hgone (by simp)), rfl⟩
    show Standing _ (s.notices c) (Turn.visit c (.visiting .erasing c)) ⟨_, _, _, _⟩
    rw [Turn.visit, if_pos rfl, hn, hr, hk, ha, UnorderedMap.find?_modify_self hb]
    exact .closing (v := .erasing) hl rfl
  | erasing =>
    cases hstep
    refine ⟨h.visit hframe ?_ h.sound (fun _ hd => hd)
      fun hatt _ => absurd hatt (hgone (by simp)), rfl⟩
    show Standing _ (s.notices c) (Turn.visit c (.visiting .deregistering c)) ⟨_, _, _, _⟩
    rw [Turn.visit, if_pos rfl, hn, decide_eq_false (Finset.notMem_erase c _), hk, ha, hb]
    exact .closing (v := .deregistering) hl rfl
  | deregistering =>
    have hidle : s.scheduler.pending c = [] := by
      by_contra hp
      exact hgone (by simp) (h.pending c hp)
    obtain ⟨hrun, hsound, hmem, hpending⟩ :=
      h.sound.deregisterClient (of_decide_eq_true hk) hidle (hit rfl)
    simp only [Service.visit, hrun] at hstep
    split_ifs at hstep
    cases hstep
    refine ⟨h.visit hframe ?_ hsound (fun d hd => by rwa [hpending d] at hd)
      fun hatt _ => absurd hatt (hgone (by simp)), rfl⟩
    have hnot : c ∉ (s.scheduler.without c).registered := fun hm => ((hmem c).mp hm).2 rfl
    show Standing _ (s.notices c) (Turn.visit c (.visiting .erasingQueues c)) ⟨_, _, _, _⟩
    rw [Turn.visit, if_pos rfl, hn, hr, decide_eq_false hnot, ha, hb]
    exact .closing (v := .erasingQueues) hl rfl
  | erasingQueues =>
    cases hstep
    refine ⟨h.visit hframe ?_ h.sound (fun _ hd => hd)
      fun hatt _ => absurd hatt (hgone (by simp)), rfl⟩
    show Standing _ (s.notices c) none ⟨_, _, _, _⟩
    rw [hn, hr, hk, UnorderedMap.find?_erase, UnorderedMap.find?_erase, if_pos rfl, if_pos rfl]
    exact .forgotten hl
  | _ => cases hv

end Visits

section Rounds

/-- A registration is answered with a new id. -/
theorem life_visitRegistration (h : LifeInvariant st s)
    (hturn : s.registrationWorker = .identifying) (hlt : s.nextClientId < INT_MAX)
    (hstep : s.visitRegistration = some s') :
    LifeInvariant st s' ∧ s'.fault = s.fault := by
  have hnone := fun c => visit_none (t := s.registrationWorker) (by simp [hturn]) c
  rw [visitRegistration, if_pos hlt] at hstep
  split_ifs at hstep
  cases hstep
  exact ⟨h.congr ⟨rfl, rfl, rfl, fun _ => rfl, fun c => (hnone c).symm, fun _ => rfl⟩
    h.sound rfl h.pending h.unanswered (fun c hc => by cases hc), rfl⟩

/-- `dispatch` polls the clients that were open when it started. -/
theorem life_dispatch {clientIds : List ℤ} (h : LifeInvariant st s)
    (hturn : s.registrationWorker = .dispatching clientIds) :
    LifeInvariant st (s.dispatch clientIds) ∧ (s.dispatch clientIds).fault = s.fault := by
  have hnone := fun c => visit_none (t := s.registrationWorker) (by simp [hturn]) c
  have hserves : ∀ c ∈ clientIds, s.Attended c := fun c hc =>
    h.dispatching c (by rw [hturn]; exact hc)
  unfold dispatch
  split
  · exact ⟨h.congr ⟨rfl, rfl, rfl, fun _ => rfl, fun c => (hnone c).symm, fun _ => rfl⟩
      h.sound rfl h.pending h.unanswered (fun c hc => by cases hc), rfl⟩
  · next c clientIds =>
    split
    · exact ⟨h.congr ⟨rfl, rfl, rfl, fun _ => rfl, fun c => (hnone c).symm, fun _ => rfl⟩
        h.sound rfl h.pending h.unanswered fun d hd => hserves d (List.mem_cons_of_mem c hd), rfl⟩
    · next request rest hq =>
      refine ⟨h.congr ⟨rfl, rfl, rfl, fun _ => rfl, fun c => (hnone c).symm,
        read_setClient Client.phase s { s.clients c with clientToServer := rest } rfl⟩
        h.sound rfl h.pending h.unanswered fun d hd => hserves d ?_, rfl⟩
      rcases List.mem_cons.mp hd with rfl | hd
      · exact List.mem_cons_self
      · exact hd

theorem life_enqueue [Zero κ] [LT κ] [DecidableLT κ] {c : ℤ} {request : ClientRequest}
    {clientIds : List ℤ} {p : Placement ℤ} (h : LifeInvariant st s)
    (hturn : s.registrationWorker = .enqueueing c request clientIds)
    (hok : ∀ order, p = .rehash order →
      c ∈ s.scheduler.requestMap.keys ∨ s.scheduler.requestMapIterator = .atEnd)
    (hstep : s.enqueue c request clientIds p = some s') :
    LifeInvariant st s' ∧ s'.fault = s.fault := by
  have hnone := fun c => visit_none (t := s.registrationWorker) (by simp [hturn]) c
  have hserves : ∀ d ∈ c :: clientIds, s.Attended d := fun d hd =>
    h.dispatching d (by rw [hturn]; exact hd)
  have hc := hserves c List.mem_cons_self
  obtain ⟨t, hrun, hsound, hregistered, hpending⟩ :=
    h.sound.enqueue hc.scheduled request.requestId request.fileSize hok
  simp only [Service.enqueue, hrun] at hstep
  split_ifs at hstep
  cases hstep
  refine ⟨h.congr ⟨rfl, rfl, rfl, fun _ => rfl, fun c => (hnone c).symm, fun _ => rfl⟩
    hsound hregistered (fun d hd => ?_) h.unanswered
    fun d hd => hserves d (List.mem_cons_of_mem c hd), rfl⟩
  by_cases hdc : d = c
  · exact hdc ▸ hc
  · rw [hpending d hdc] at hd
    exact h.pending d hd

end Rounds

end TinyFile.Service
