import TinyFile.Filing
import TinyFile.Flow
import TinyFile.RegistryRefinement
import TinyFile.Slots

/-!
# The requests of clients that come and go

A client's requests wait in its queue, in the hand of the registration thread and
with the scheduler, in the order in which they were sent. A worker takes them from
the scheduler and answers each of them to the client that sent it. Only the visit
that forgets a client drops what is still with the scheduler.
-/
namespace TinyFile

namespace Service

variable {κ : Type}

/-- A request of the client, as the client knows it. -/
def requestOf (c : ℤ) (r : Request) : Option ClientRequest :=
  if r.clientId = c then some ⟨r.requestId, r.fileSize⟩ else none

def Turn.requestOf (c : ℤ) : Turn → Option ClientRequest
  | .enqueueing d request _ => if d = c then some request else none
  | _ => none

def Worker.requestOf (c : ℤ) : Worker → Option ClientRequest
  | .allocating r _ | .responding r _ | .sending r _ => Service.requestOf c r
  | _ => none

/-- The requests of a client that no worker has taken, oldest first. -/
def waiting (s : Service κ) (c : ℤ) : List ClientRequest :=
  (s.scheduler.pending c).filterMap (requestOf c) ++
    (s.registrationWorker.requestOf c).toList ++ (s.clients c).clientToServer

/-- The requests of a client that workers have taken and not answered. -/
def unanswered (s : Service κ) (c : ℤ) : List ClientRequest :=
  s.workers.filterMap (Worker.requestOf c)

/-- The ids of the responses that a client has been sent, oldest first. -/
def responses (s : Service κ) (c : ℤ) : List ℤ :=
  (s.clients c).received.reverse ++ (s.clients c).serverToClient.map Prod.fst

/-- The ids that a client has used. -/
def numbers (s : Service κ) (c : ℤ) : List ℤ :=
  (List.range (s.clients c).nextRequestId.toNat).map (fun n => (n : ℤ))

/-- A client's queues and its requests, whatever becomes of its process. -/
def Client.traffic (h : Client) : Client := { h with phase := .absent, fault := none }

/-! What a step does with a request of a client. -/

def sent (c : ℤ) (s : Service κ) : Event → List ClientRequest
  | .request d fileSize =>
      if d = c ∧ (s.clients c).nextRequestId < INT_MAX then
        [⟨(s.clients c).nextRequestId, fileSize⟩]
      else []
  | _ => []

def forgotten (c : ℤ) (s : Service κ) : Event → List ClientRequest
  | .register _ =>
      if s.registrationWorker = .visiting .deregistering c then
        (s.scheduler.pending c).filterMap (requestOf c)
      else []
  | _ => []

def answered (c : ℤ) (s : Service κ) : Event → List ClientRequest
  | .mqSend w _ _ => (s.workers[w]?.bind (Worker.requestOf c)).toList
  | _ => []

/-- A step that moves no request of the client. -/
structure Quiet (c : ℤ) (s s' : Service κ) : Prop where
  pending : s'.scheduler.pending c = s.scheduler.pending c
  turn : s'.registrationWorker.requestOf c = s.registrationWorker.requestOf c
  traffic : (s'.clients c).traffic = (s.clients c).traffic
  workers : s'.unanswered c = s.unanswered c

variable {s s' : Service κ} {c : ℤ}

/-- A step of another client. -/
theorem Quiet.other {d : ℤ} (hd : d ≠ c) (h : Client) : Quiet c s (s.setClient d h) :=
  ⟨rfl, rfl, by rw [clients_setClient_of_ne s h (Ne.symm hd)], rfl⟩

theorem Quiet.throwing (c : ℤ) (s : Service κ) (fault : Option Fault) :
    Quiet c s { s with fault := fault } := ⟨rfl, rfl, rfl, rfl⟩

/-- A client whose process ends. -/
theorem Quiet.ended (c d : ℤ) (s : Service κ) (fault : Option Fault) :
    Quiet c s (s.setClient d { s.clients d with fault := fault }) :=
  ⟨rfl, rfl, read_setClient Client.traffic s { s.clients d with fault := fault } rfl c, rfl⟩

/-- The last id of an `int` is not sent. -/
theorem length_sent_le (h : (s.clients c).nextRequestId ≤ INT_MAX) (e : Event) :
    (s.clients c).nextRequestId + (sent c s e).length ≤ INT_MAX := by
  cases e with
  | request d fileSize =>
    simp only [sent]
    split_ifs with hsent
    · exact Int.add_one_le_iff.mpr hsent.2
    · simpa using h
  | _ => simpa [sent] using h

/-- A worker that goes on with what it holds. -/
theorem Quiet.worker {w : ℕ} {pc pc' : Worker} (hw : s.workers[w]? = some pc)
    (hworkers : s'.workers = s.workers.set w pc') (hsame : pc'.requestOf c = pc.requestOf c)
    (hscheduler : s'.scheduler = s.scheduler)
    (hturn : s'.registrationWorker = s.registrationWorker) (hclients : s'.clients = s.clients) :
    Quiet c s s' where
  pending := by rw [hscheduler]
  turn := by rw [hturn]
  traffic := by rw [hclients]
  workers := by
    rw [unanswered, hworkers]
    exact Slots.filterMap_set (Worker.requestOf c) hw hsame

section Steps

variable [Add κ] [Sub κ] [Mul κ] [Div κ] [NatCast κ] [IntCast κ] [Zero κ] [LT κ] [DecidableLT κ]

def scheduled (cfg : Config) (c : ℤ) (s : Service κ) : Event → List ClientRequest
  | .schedule _ =>
      match s.scheduler.schedule cfg.strategy with
      | .ok (request, _) => (requestOf c request).toList
      | .error _ => []
  | _ => []

/-- What a step does with the requests of a client. -/
structure Flows (cfg : Config) (c : ℤ) (s : Service κ) (e : Event) (s' : Service κ) : Prop where
  numbers : s'.numbers c = s.numbers c ++ (sent c s e).map ClientRequest.requestId
  waiting : scheduled cfg c s e ++ forgotten c s e ++ s'.waiting c = s.waiting c ++ sent c s e
  unanswered : (answered c s e ++ s'.unanswered c).Perm (s.unanswered c ++ scheduled cfg c s e)
  responses : s'.responses c = s.responses c ++ (answered c s e).map ClientRequest.requestId
  next : (s'.clients c).nextRequestId = (s.clients c).nextRequestId + (sent c s e).length

variable {cfg : Config}

theorem Quiet.flows {e : Event} (h : Quiet c s s') (hsent : sent c s e = [])
    (hscheduled : scheduled cfg c s e = []) (hforgotten : forgotten c s e = [])
    (hanswered : answered c s e = []) : Flows cfg c s e s' := by
  have htraffic := h.traffic
  simp only [Client.traffic, Client.mk.injEq, true_and, and_true] at htraffic
  obtain ⟨hnext, hqueue, hresponses, hreceived⟩ := htraffic
  constructor
  · simp only [Service.numbers, hnext, hsent, List.map_nil, List.append_nil]
  · simp only [Service.waiting, hscheduled, hforgotten, hsent, h.pending, h.turn, hqueue,
      List.nil_append, List.append_nil]
  · rw [hanswered, hscheduled, h.workers, List.nil_append, List.append_nil]
  · simp only [Service.responses, hresponses, hreceived, hanswered, List.map_nil, List.append_nil]
  · simp [hnext, hsent]

/-- A client makes a request. -/
theorem flows_request {d : ℤ} {fileSize : ℕ} (hnum : 0 ≤ (s.clients c).nextRequestId)
    (hstep : s.step cfg (.request d fileSize) = some s') :
    Flows cfg c s (.request d fileSize) s' := by
  simp only [Service.step, request] at hstep
  split_ifs at hstep with hwork hint hroom <;> cases hstep
  · by_cases hd : d = c
    · subst hd
      have hsent : sent d s (.request d fileSize) = [⟨(s.clients d).nextRequestId, fileSize⟩] :=
        if_pos ⟨rfl, hint⟩
      constructor
      · obtain ⟨n, hn⟩ := Int.eq_ofNat_of_zero_le hnum
        have hsucc : (n + 1 : ℤ).toNat = n + 1 := by omega
        simp [numbers, hsent, hn, hsucc, List.range_succ]
      · simp [waiting, hsent, scheduled, forgotten, setClient]
      · simp [answered, scheduled, unanswered, setClient]
      · simp [responses, answered]
      · simp [hsent]
    · exact (Quiet.other hd _).flows (if_neg fun h => hd h.1) rfl rfl rfl
  · refine (Quiet.ended c d s _).flows (if_neg fun h => ?_) rfl rfl rfl
    exact hint (h.1 ▸ h.2)

/-- A client reads a response. -/
theorem flows_receive {d : ℤ} (hstep : s.step cfg (.receive d) = some s') :
    Flows cfg c s (.receive d) s' := by
  simp only [Service.step, receive] at hstep
  split at hstep
  · cases hstep
  · next response rest hq =>
    split_ifs at hstep
    cases hstep
    by_cases hd : d = c
    · subst hd
      constructor
      · simp [numbers, sent]
      · simp [waiting, sent, scheduled, forgotten, setClient]
      · simp [answered, scheduled, unanswered, setClient]
      · simp [responses, answered, hq]
      · simp [sent]
    · exact (Quiet.other hd _).flows rfl rfl rfl rfl

/-- A worker takes a request of the scheduler. -/
theorem flows_schedule {w : ℕ} (hfiled : s.scheduler.Filed)
    (hstep : s.step cfg (.schedule w) = some s') (hfault : s'.fault = none) :
    Flows cfg c s (.schedule w) s' := by
  simp only [Service.step, schedule] at hstep
  split at hstep
  · next hw =>
    split_ifs at hstep
    split at hstep
    · cases hstep
      cases hfault
    · next request scheduler hrun =>
      cases hstep
      obtain ⟨-, rest, hp, hpending⟩ := hfiled.schedule hrun
      constructor
      · simp [numbers, sent, setWorker]
      · simp only [scheduled, hrun, forgotten, List.append_nil, sent, waiting, setWorker, hpending]
        split_ifs with hc
        · simp [hc, hp, requestOf]
        · simp [requestOf, Ne.symm hc]
      · simp only [answered, List.nil_append, scheduled, hrun]
        refine (Slots.perm_set (Worker.requestOf c) hw _).trans ?_
        refine List.perm_append_comm.trans (List.Perm.append_right _ ?_)
        exact (Slots.perm_get (Worker.requestOf c) hw).symm
      · simp [responses, answered, setWorker]
      · simp [sent, setWorker]
  · cases hstep

/-- A worker answers its request. -/
theorem flows_mqSend {w : ℕ} {src : List UInt8} {memory : Memory}
    (hstep : s.step cfg (.mqSend w src memory) = some s') (hfault : s'.fault = none) :
    Flows cfg c s (.mqSend w src memory) s' := by
  simp only [Service.step, mqSend] at hstep
  split at hstep
  · next request shmSegment hw =>
    split_ifs at hstep
    · cases hstep
      cases hfault
    · cases hstep
      have hanswered : answered c s (.mqSend w src memory) = (requestOf c request).toList := by
        simp only [answered, hw, Option.bind_some, Worker.requestOf]
      have hscheduled : scheduled cfg c s (.mqSend w src memory) = [] := rfl
      have hold := Slots.perm_get (Worker.requestOf c) hw
      have hnew := fun pc => Slots.perm_set (Worker.requestOf c) hw pc
      refine ⟨?_, ?_, ?_, ?_, ?_⟩
      · by_cases hc : request.clientId = c
        · simp [numbers, sent, setWorker, ← hc]
        · simp [numbers, sent, setWorker, clients_setClient_of_ne _ _ (Ne.symm hc)]
      · by_cases hc : request.clientId = c
        · simp [scheduled, forgotten, sent, waiting, setWorker, setClient, ← hc]
        · simp [scheduled, forgotten, sent, waiting, setWorker, setClient, Ne.symm hc]
      · rw [hanswered, hscheduled, List.append_nil]
        exact (List.Perm.append_left _ (hnew _)).trans hold.symm
      · by_cases hc : request.clientId = c
        · subst hc
          simp [responses, hanswered, requestOf]
        · simp [responses, hanswered, requestOf, hc, clients_setClient_of_ne _ _ (Ne.symm hc),
            setWorker]
      · by_cases hc : request.clientId = c
        · simp [sent, setWorker, ← hc]
        · simp [sent, setWorker, clients_setClient_of_ne _ _ (Ne.symm hc)]
  · cases hstep

/-- What a visit does with the requests of a client. -/
theorem flows_visit {d : ℤ} {v : Visit} {p : Placement ℤ}
    (hturn : s.registrationWorker = .visiting v d) (hadvance : s.Advance d p v s') :
    Flows cfg c s (.register p) s' := by
  have hquiet : v ≠ .deregistering → Quiet c s s' := by
    intro hv
    have hnone : ∀ x : Visit, Turn.requestOf c (.visiting x d) = s.registrationWorker.requestOf c :=
      fun x => by rw [hturn]; rfl
    have hdone : Turn.requestOf c .reg = s.registrationWorker.requestOf c := by rw [hturn]; rfl
    cases hadvance with
    | openingClientToServer _ | erasingQueues => exact ⟨rfl, hdone, rfl, rfl⟩
    | deregistering _ _ => exact absurd rfl hv
    | _ => exact ⟨rfl, hnone _, rfl, rfl⟩
  by_cases hv : v = .deregistering ∧ d = c
  · obtain ⟨rfl, rfl⟩ := hv
    cases hadvance with
    | deregistering _ hrun =>
      have hpending := Scheduler.pending_deregisterClient hrun
      constructor
      · simp [numbers, sent]
      · simp [scheduled, forgotten, sent, waiting, hturn, hpending, Turn.requestOf]
      · simp [answered, scheduled, unanswered]
      · simp [responses, answered]
      · simp [sent]
  · have hforgotten : forgotten c s (.register p) = [] := by
      simp [forgotten, hturn, hv]
    by_cases hvisit : v = .deregistering
    · subst hvisit
      cases hadvance with
      | deregistering _ hrun =>
        have hpending := Scheduler.pending_deregisterClient hrun c
        rw [if_neg (fun hc => hv ⟨rfl, hc.symm⟩)] at hpending
        refine Quiet.flows ⟨hpending, ?_, rfl, rfl⟩ rfl rfl hforgotten rfl
        rw [hturn]
        rfl
    · exact (hquiet hvisit).flows rfl rfl hforgotten rfl

/-- A step of the registration thread. -/
theorem flows_register {p : Placement ℤ} (hfiled : s.scheduler.Filed)
    (hstep : s.step cfg (.register p) = some s') (hfault : s'.fault = none) :
    Flows cfg c s (.register p) s' := by
  have hforgotten : (∀ v d, s.registrationWorker ≠ .visiting v d) →
      forgotten c s (.register p) = [] := fun h => if_neg (h _ _)
  cases hturn : s.registrationWorker with
  | reg =>
    rw [Service.step, register, hturn] at hstep
    cases hstep
    refine Quiet.flows ?_ rfl rfl (hforgotten (by simp [hturn])) rfl
    unfold Service.reg
    split
    · exact ⟨rfl, by rw [hturn]; rfl, rfl, rfl⟩
    · exact ⟨rfl, by rw [hturn]; rfl, rfl, rfl⟩
    · split_ifs
      · exact .throwing c s _
      · exact ⟨rfl, by rw [hturn]; rfl, rfl, rfl⟩
    · split_ifs
      · exact ⟨rfl, by rw [hturn]; rfl, rfl, rfl⟩
      · exact .throwing c s _
  | identifying =>
    rw [Service.step, register, hturn] at hstep
    refine Quiet.flows ?_ rfl rfl (hforgotten (by simp [hturn])) rfl
    simp only [visitRegistration] at hstep
    split_ifs at hstep <;> cases hstep
    · exact ⟨rfl, by rw [hturn]; rfl, rfl, rfl⟩
    · exact .throwing c s _
  | visiting v d =>
    rw [Service.step, register, hturn] at hstep
    rcases visit_cases hstep with ⟨fault, rfl⟩ | hadvance
    · cases hfault
    · exact flows_visit hturn hadvance
  | dispatching clientIds =>
    rw [Service.step, register, hturn] at hstep
    cases hstep
    cases clientIds with
    | nil =>
      refine Quiet.flows ⟨rfl, ?_, rfl, rfl⟩ rfl rfl (hforgotten (by simp [hturn])) rfl
      rw [hturn]
      rfl
    | cons d clientIds =>
      simp only [dispatch]
      split
      · refine Quiet.flows ⟨rfl, ?_, rfl, rfl⟩ rfl rfl (hforgotten (by simp [hturn])) rfl
        rw [hturn]
        rfl
      · next request rest hq =>
        by_cases hd : d = c
        · subst hd
          constructor
          · simp [numbers, sent, setClient]
          · simp [scheduled, forgotten, sent, waiting, hturn, Turn.requestOf, setClient, hq]
          · simp [answered, scheduled, unanswered, setClient]
          · simp [responses, answered, setClient]
          · simp [sent, setClient]
        · have hclient := clients_setClient_of_ne s { s.clients d with clientToServer := rest }
            (Ne.symm hd)
          refine Quiet.flows ⟨rfl, ?_, ?_, rfl⟩ rfl rfl (hforgotten (by simp [hturn])) rfl
          · simp [hturn, Turn.requestOf, hd]
          · exact congrArg Client.traffic hclient
  | enqueueing d request clientIds =>
    rw [Service.step, register, hturn] at hstep
    simp only [enqueue] at hstep
    split_ifs at hstep
    split at hstep
    · next u scheduler hrun =>
      cases hstep
      obtain ⟨-, hpending⟩ := hfiled.enqueue hrun
      constructor
      · simp [numbers, sent]
      · simp only [scheduled, forgotten, hturn, sent, waiting, hpending]
        by_cases hd : d = c
        · simp [hd, Turn.requestOf, requestOf]
        · simp [hd, Ne.symm hd, Turn.requestOf]
      · simp [answered, scheduled, unanswered]
      · simp [responses, answered]
      · simp [sent]
    · cases hstep
      cases hfault

/-- A client on its way through its constructor or destructor. -/
theorem flows_move {e : Event} (hstep : s.step cfg e = some s')
    (hregister : ∀ p, e ≠ .register p) (hschedule : ∀ w, e ≠ .schedule w)
    (htraffic : (s'.clients c).traffic = (s.clients c).traffic) (hworkers : s'.workers = s.workers)
    (hsent : sent c s e = []) (hanswered : answered c s e = []) : Flows cfg c s e s' := by
  have haside := Registry.aside_of_step hregister hschedule hstep
  have hscheduler : s'.scheduler = s.scheduler := congrArg Registry.scheduler haside.tables
  refine Quiet.flows ⟨by rw [hscheduler], by rw [haside.registrationWorker], htraffic,
    by rw [unanswered, hworkers]; rfl⟩ hsent ?_ ?_ hanswered
  · cases e <;> first | rfl | exact absurd rfl (hschedule _)
  · cases e <;> first | rfl | exact absurd rfl (hregister _)

/-- What each step does with the requests of a client. -/
theorem flows_step {e : Event} (hfiled : s.scheduler.Filed)
    (hnum : 0 ≤ (s.clients c).nextRequestId) (hstep : s.step cfg e = some s')
    (hfault : s'.fault = none) : Flows cfg c s e s' := by
  have hphase : ∀ (d : ℤ) (phase : Phase),
      ((s.setClient d { s.clients d with phase := phase }).clients c).traffic =
        (s.clients c).traffic :=
    fun d phase => read_setClient Client.traffic s { s.clients d with phase := phase } rfl c
  cases e with
  | registration =>
    have hsend : s.send .registration = some s' := hstep
    rw [send_cases hsend] at hstep ⊢
    exact flows_move hstep (by simp) (by simp) rfl rfl rfl rfl
  | identify =>
    have hidentify : s.identify = some s' := hstep
    simp only [identify] at hidentify
    split at hidentify <;> cases hidentify
    exact flows_move hstep (by simp) (by simp) (hphase _ _) rfl rfl rfl
  | createQueue d =>
    have hcreate : s.createQueue d = some s' := hstep
    simp only [createQueue] at hcreate
    split at hcreate <;> cases hcreate <;>
      exact flows_move hstep (by simp) (by simp) (hphase _ _) rfl rfl rfl
  | announce d priority =>
    have hannounce : s.announce d priority = some s' := hstep
    simp only [announce] at hannounce
    split_ifs at hannounce
    obtain ⟨t, hsend, rfl⟩ := Option.map_eq_some_iff.mp hannounce
    rw [send_cases hsend] at hstep ⊢
    exact flows_move hstep (by simp) (by simp) (hphase _ _) rfl rfl rfl
  | leave d =>
    have hleave : s.leave d = some s' := hstep
    simp only [leave] at hleave
    split_ifs at hleave
    obtain ⟨t, hsend, rfl⟩ := Option.map_eq_some_iff.mp hleave
    rw [send_cases hsend] at hstep ⊢
    exact flows_move hstep (by simp) (by simp) (hphase _ _) rfl rfl rfl
  | unlink d =>
    have hunlink : s.unlink d = some s' := hstep
    simp only [unlink] at hunlink
    split at hunlink <;> cases hunlink <;>
      exact flows_move hstep (by simp) (by simp) (hphase _ _) rfl rfl rfl
  | request d fileSize => exact flows_request hnum hstep
  | receive d => exact flows_receive hstep
  | register p => exact flows_register hfiled hstep hfault
  | schedule w => exact flows_schedule hfiled hstep hfault
  | mqSend w src memory => exact flows_mqSend hstep hfault
  | clientProcess w =>
    simp only [Service.step, clientProcess] at hstep
    split at hstep
    · next request job memory transfer hw =>
      split_ifs at hstep
      obtain ⟨r, -, rfl⟩ := Option.map_eq_some_iff.mp hstep
      have hquiet := Quiet.ended c request.clientId
        (s.setWorker w (.processing request job r.1 r.2)) r.2.client.phase.fault
      refine Quiet.flows ⟨hquiet.pending, hquiet.turn, hquiet.traffic, ?_⟩ rfl rfl rfl rfl
      exact Slots.filterMap_set (Worker.requestOf c) hw rfl
    · cases hstep
  | allocate w =>
    simp only [Service.step, allocate] at hstep
    split at hstep
    · next hw =>
      split at hstep <;> cases hstep
      · exact (Quiet.throwing c s _).flows rfl rfl rfl rfl
      · refine Quiet.flows ?_ rfl rfl rfl rfl
        exact .worker hw rfl rfl rfl rfl rfl
    · cases hstep
  | writeBlocking w =>
    simp only [Service.step, writeBlocking] at hstep
    split at hstep
    · next hw =>
      split at hstep
      · cases hstep
        exact (Quiet.throwing c s _).flows rfl rfl rfl rfl
      · split_ifs at hstep <;> cases hstep
        · refine Quiet.flows ?_ rfl rfl rfl rfl
          exact .worker hw rfl rfl rfl rfl rfl
        · exact (Quiet.throwing c s _).flows rfl rfl rfl rfl
    · cases hstep
  | process w =>
    simp only [Service.step, process] at hstep
    split at hstep
    · next hw =>
      obtain ⟨r, -, rfl⟩ := Option.map_eq_some_iff.mp hstep
      refine Quiet.flows ?_ rfl rfl rfl rfl
      exact .worker hw rfl rfl rfl rfl rfl
    · cases hstep
  | destroyHandler w =>
    simp only [Service.step, destroyHandler] at hstep
    split at hstep
    · next hw =>
      split_ifs at hstep
      cases hstep
      refine Quiet.flows ?_ rfl rfl rfl rfl
      exact .worker hw rfl rfl rfl rfl rfl
    · cases hstep

/-- A fault is for ever. -/
theorem fault_of_next {e : Event} (hnext : s.next cfg e = some s') (hfault : s'.fault = none) :
    s.fault = none := by
  obtain ⟨hstep, halive⟩ := next_cases hnext
  cases he : e.isService with
  | true => exact halive he
  | false =>
    have hregister : ∀ p, e ≠ .register p := by rintro p rfl; cases he
    have hschedule : ∀ w, e ≠ .schedule w := by rintro w rfl; cases he
    rw [← (Registry.aside_of_step hregister hschedule hstep).fault he, hfault]

theorem filed_step {e : Event} (h : s.scheduler.Filed) (hstep : s.step cfg e = some s')
    (hfault : s'.fault = none) : s'.scheduler.Filed := by
  by_cases hregister : ∃ p, e = .register p
  · obtain ⟨p, rfl⟩ := hregister
    simp only [Service.step, register] at hstep
    split at hstep
    · cases hstep
      unfold Service.reg
      split
      · exact h
      · exact h
      · split_ifs <;> exact h
      · split_ifs <;> exact h
    · simp only [visitRegistration] at hstep
      split_ifs at hstep <;> cases hstep <;> exact h
    · rcases visit_cases hstep with ⟨fault, rfl⟩ | hadvance
      · exact h
      · cases hadvance with
        | registering priority _ => exact h.registerClient _ priority _
        | deregistering _ hrun => exact h.deregisterClient hrun
        | _ => exact h
    · cases hstep
      simp only [dispatch]
      split
      · exact h
      · split <;> exact h
    · simp only [enqueue] at hstep
      split_ifs at hstep
      split at hstep
      · next hrun =>
        cases hstep
        exact (h.enqueue hrun).1
      · cases hstep
        cases hfault
  by_cases hschedule : ∃ w, e = .schedule w
  · obtain ⟨w, rfl⟩ := hschedule
    simp only [Service.step, schedule] at hstep
    split at hstep
    · split_ifs at hstep
      split at hstep
      · cases hstep
        cases hfault
      · next hrun =>
        cases hstep
        exact (h.schedule hrun).1
    · cases hstep
  have haside := Registry.aside_of_step (not_exists.mp hregister) (not_exists.mp hschedule) hstep
  have hscheduler : s'.scheduler = s.scheduler := congrArg Registry.scheduler haside.tables
  exact hscheduler ▸ h

end Steps

end Service

end TinyFile
