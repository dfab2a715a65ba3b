import TinyFile.ClientCode
import TinyFile.InFlight
import TinyFile.Whereabouts

/-!
# A client in the system is a client

Each client of the system is a run of the client's own code, against a service that
takes every message once and answers it once, and `completeRequest` is called with the
same results in the same order.
-/
namespace TinyFile.System

section ServiceSide

variable {cfg : Config} {s s' : System} {c : ℕ}

theorem requests_setExchange {n : ℕ} {e : Exchange} (he : s.exchanges[n]? = some e)
    (e' : Exchange) (hsame : e'.request = e.request) :
    (s.setExchange n e').requests = s.requests := by
  obtain ⟨hlt, rfl⟩ := List.getElem?_eq_some_iff.mp he
  rw [requests, requests, setExchange, List.map_set, hsame]
  refine List.ext_getElem? fun m => ?_
  by_cases hm : n = m
  · subst hm
    rw [List.getElem?_set_self (by rwa [List.length_map]), List.getElem?_map,
      List.getElem?_eq_getElem hlt, Option.map_some]
  · rw [List.getElem?_set_ne hm]

theorem withService_congr (hregistration : s'.registration.callOf c = s.registration.callOf c)
    (hpending : s'.pending = s.pending)
    (hworkers : s'.workers.filterMap (ServiceWorker.unanswered c s'.requests) =
      s.workers.filterMap (ServiceWorker.unanswered c s.requests)) :
    s'.withService c = s.withService c := by
  rw [withService, withService, hregistration, hpending, hworkers]

theorem withService_setWorker {w : ℕ} {pc pc' : ServiceWorker} (hw : s.workers[w]? = some pc)
    (hpc : pc'.unanswered c s.requests = pc.unanswered c s.requests) :
    (s.setWorker w pc').withService c = s.withService c :=
  withService_congr rfl rfl (Slots.filterMap_set _ hw hpc)

theorem withService_setExchange {n : ℕ} {e : Exchange} (he : s.exchanges[n]? = some e)
    (e' : Exchange) (hsame : e'.request = e.request) :
    (s.setExchange n e').withService c = s.withService c :=
  withService_congr rfl rfl (by rw [requests_setExchange he e' hsame]; rfl)

theorem withService_enqueue (hstep : s.step cfg .enqueue = some s') :
    (s'.withService c).Perm (s.withService c) := by
  obtain ⟨request, hr, -, rfl⟩ := enqueue_cases hstep
  have hone : [request].filterMap (Request.callOf c) = (request.callOf c).toList := by
    cases h : request.callOf c <;> simp [h]
  refine List.perm_iff_count.mpr fun call => ?_
  simp only [withService, requests, hr, Registration.callOf, Option.toList_none, List.nil_append,
    List.filterMap_append, hone, List.count_append]
  omega

theorem withService_schedule {w i : ℕ} (hstep : s.step cfg (.schedule w i) = some s') :
    (s'.withService c).Perm (s.withService c) := by
  obtain ⟨request, hw, hi, -, rfl⟩ := schedule_cases hstep
  have hpending := Slots.perm_get (Request.callOf c) hi
  have hold := Slots.perm_get (ServiceWorker.unanswered c s.requests) hw
  have hnew := fun requestSize => Slots.perm_set (ServiceWorker.unanswered c s.requests) hw
    (.allocating request requestSize)
  refine List.perm_iff_count.mpr fun call => ?_
  have hcount := hpending.count_eq call
  have hcount' := hold.count_eq call
  have hcount'' := fun requestSize => (hnew requestSize).count_eq call
  simp only [ServiceWorker.unanswered, Option.toList_none, List.count_append, List.count_nil,
    Slots.others, requests] at hcount hcount' hcount''
  simp only [withService, setWorker, requests, List.count_append, hcount'']
  omega

theorem withService_allocate {w : ℕ} (hinv : Invariant cfg s)
    (hstep : s.step cfg (.allocate w) = some s') :
    s.requests <+: s'.requests ∧ (s'.withService c) = (s.withService c) := by
  obtain ⟨request, requestSize, hw, ⟨fault, -, rfl⟩ | ⟨gs, m, -, rfl⟩⟩ := allocate_cases hstep
  · exact ⟨List.prefix_rfl, rfl⟩
  have hrequests : ∀ e : Exchange, (s.granted w m e).requests = s.requests ++ [e.request] :=
    fun e => List.map_append
  have hlength : s.requests.length = s.exchanges.length := List.length_map _
  refine ⟨by rw [hrequests]; exact List.prefix_append _ _, withService_congr rfl rfl ?_⟩
  rw [hrequests]
  have hset := Slots.filterMap_set (ServiceWorker.unanswered c (s.requests ++ [request])) hw
    (b := .responding s.exchanges.length) (by
      simp only [ServiceWorker.unanswered]
      rw [← hlength, List.getElem?_append_right le_rfl, Nat.sub_self]
      rfl)
  refine hset.trans (List.filterMap_congr fun pc hpc => ?_)
  cases pc with
  | responding n =>
    have hn : n < s.requests.length := hlength ▸ hinv.handlers_lt n
      (List.mem_filterMap.mpr ⟨_, hpc, rfl⟩)
    simp only [ServiceWorker.unanswered, List.getElem?_append_left hn]
  | idle => rfl
  | allocating r size => rfl
  | serving n => rfl

/-- A worker responds to a request of the client. -/
theorem withService_respond {w n : ℕ} {e : Exchange} {h : Client}
    (hw : s.workers[w]? = some (.responding n)) (he : s.exchanges[n]? = some e)
    (hclient : e.request.clientId = c) :
    (s.withService c).Perm
      (e.request.toCall :: (((s.setWorker w (.serving n)).setClient c h).withService c)) := by
  have hold := Slots.perm_get (ServiceWorker.unanswered c s.requests) hw
  have hnew := Slots.perm_set (ServiceWorker.unanswered c s.requests) hw (.serving n)
  have hrequest : s.requests[n]? = some e.request := by
    rw [requests, List.getElem?_map, he, Option.map_some]
  have hcall : e.request.callOf c = some e.request.toCall := if_pos hclient
  refine List.perm_iff_count.mpr fun call => ?_
  have hcount := hold.count_eq call
  have hcount' := hnew.count_eq call
  simp only [ServiceWorker.unanswered, hrequest, Option.bind_some, hcall, Option.toList_some,
    Option.toList_none, List.count_append, List.count_cons, List.count_nil] at hcount hcount'
  simp only [requests] at hcount hcount'
  simp only [withService, setWorker, setClient, requests, List.count_append, List.count_cons]
  omega

end ServiceSide

section Runs

variable {cfg : Config} {s s' : System} {c : ℕ} {v : Servicer}
  {right : List UInt8 → List UInt8 → Prop}

/-- The client's own code is where the client of the system is. -/
def Follows (s : System) (c : ℕ) (v : Servicer) : Prop :=
  Matches (s.clients c) s.requests (s.withService c) (s.underWay c) v

theorem alike_setClient {d : ℕ} {h : Client} (halike : (s.clients d).Alike h) (c : ℕ) :
    (s.clients c).Alike ((s.setClient d h).clients c) := by
  by_cases hc : c = d
  · subst hc
    rwa [clients_setClient]
  · rw [clients_setClient_of_ne s h hc]
    exact .refl _

theorem alike_of_ne {d : ℕ} (h : Client) (hd : d ≠ c) :
    (s.clients c).Alike ((s.setClient d h).clients c) := by
  rw [clients_setClient_of_ne s h (Ne.symm hd)]
  exact .refl _

theorem lt_of_response (hinv : Invariant cfg s) {n : ℕ} (hn : n ∈ (s.clients c).responses) :
    n < s.requests.length := by
  obtain ⟨r, hr, -⟩ := hinv.request_of_response hn
  exact (List.getElem?_eq_some_iff.mp hr).1

/-- A step that the client's own code does not see. -/
theorem Follows.quiet {ev : Event} (hinv : Invariant cfg s) (hm : s.Follows c v)
    (hstep : s.step cfg ev = some s') (hsubmitted : submitted c s ev = [])
    (hcompletes : ev.completes c s = none) (halike : (s.clients c).Alike (s'.clients c))
    (hmore : s.requests <+: s'.requests) (hservice : (s'.withService c).Perm (s.withService c)) :
    ∃ ds v', (Servicer.machine (cfg.numWorkers c)).RunIf (fun u e => u.answers right e) v ds v' ∧
      s'.Follows c v' ∧ v'.completed = v.completed ++ answered c s ev := by
  have hcalls := underWay_step (c := c) hinv hstep
  rw [hsubmitted, completed, hcompletes, Option.map_none, Option.toList_none, List.nil_append,
    List.append_nil] at hcalls
  refine ⟨[], v, .nil v, Matches.quiet hm halike hmore (fun n hn => lt_of_response hinv hn)
    hservice fun call hcall => hcalls.mem_iff.mp hcall, ?_⟩
  rw [answered, hcompletes, Option.map_none, Option.toList_none, List.append_nil]

theorem follows_submit {d : ℕ} {src : List UInt8} (hinv : Invariant cfg s) (hnum : Numbered s)
    (hbooks : Servicer.Bookkeeping v) (halive : v.fault = none) (hm : s.Follows c v)
    (hstep : s.step cfg (.submit d src) = some s') :
    ∃ ds v', (Servicer.machine (cfg.numWorkers c)).RunIf (fun u e => u.answers right e) v ds v' ∧
      s'.Follows c v' ∧ v'.completed = v.completed ++ answered c s (.submit d src) := by
  have hcalls := underWay_step (c := c) hinv hstep
  by_cases hd : d = c
  · subst hd
    obtain ⟨small, rfl⟩ := submit_cases hstep
    have hnext := Matches.submit hm hbooks src small fun call hcall => hnum.lt_of_underWay hcall
    refine ⟨[.callServiceAsync src], v.callServiceAsync src, .cons ?_ trivial (.nil _), ?_,
      (List.append_nil _).symm⟩
    · simp [Servicer.machine, Servicer.next, halive]
    · rw [Follows, clients_setClient]
      have hsubmitted : submitted d s (.submit d src) =
          [⟨(s.clients d).nextRequestId, src, small⟩] := by simp [submitted, small]
      rw [hsubmitted] at hcalls
      exact Matches.quiet hnext (.refl _) List.prefix_rfl (fun n hn => lt_of_response hinv hn)
        (List.Perm.refl _) fun call hcall => hcalls.mem_iff.mp hcall
  · obtain ⟨small, rfl⟩ := submit_cases hstep
    exact hm.quiet hinv hstep (if_neg hd) rfl (alike_of_ne _ hd) List.prefix_rfl (List.Perm.refl _)

theorem follows_dispatch {d : ℕ} (hinv : Invariant cfg s) (hflight : InFlight cfg s)
    (halive : v.fault = none) (hm : s.Follows c v)
    (hstep : s.step cfg (.dispatch d) = some s') :
    ∃ ds v', (Servicer.machine (cfg.numWorkers c)).RunIf (fun u e => u.answers right e) v ds v' ∧
      s'.Follows c v' ∧ v'.completed = v.completed ++ answered c s (.dispatch d) := by
  have hcalls := underWay_step (c := c) hinv hstep
  obtain ⟨h', hdispatch, rfl⟩ := dispatch_cases hstep
  by_cases hd : d = c
  · subst hd
    have hqueue : ∀ call ∈ (s.clients d).requestQueue, call ∈ s.underWay d := fun call hcall =>
      List.mem_append_right _ (List.mem_append_right _ hcall)
    obtain ⟨ds, v', hrun, hnext, hsame⟩ := Matches.dispatch hm halive hqueue hdispatch
    rw [hflight.numWorkers] at hrun
    refine ⟨ds, v', hrun, ?_, hsame.trans (List.append_nil _).symm⟩
    simp only [completed, Event.completes, submitted, Option.map_none, Option.toList_none,
      List.nil_append, List.append_nil] at hcalls
    rw [Follows, clients_setClient]
    exact { hnext with entries := fun call hcall => hnext.entries call (hcalls.mem_iff.mp hcall) }
  · exact hm.quiet hinv hstep rfl rfl (alike_of_ne h' hd) List.prefix_rfl (List.Perm.refl _)

theorem follows_scheduleRequest {d j : ℕ} (hinv : Invariant cfg s) (hplaced : Placed cfg s)
    (hflight : InFlight cfg s) (halive : v.fault = none) (hm : s.Follows c v)
    (hstep : s.step cfg (.scheduleRequest d j) = some s') :
    ∃ ds v', (Servicer.machine (cfg.numWorkers c)).RunIf (fun u e => u.answers right e) v ds v' ∧
      s'.Follows c v' ∧ v'.completed = v.completed ++ answered c s (.scheduleRequest d j) := by
  have hcalls := underWay_step (c := c) hinv hstep
  obtain ⟨n, rest, hw, hq, rfl⟩ := scheduleRequest_cases hstep
  by_cases hd : d = c
  · subst hd
    have hresponse : n ∈ (s.clients d).responses := by
      simp [Client.responses, Client.untaken, hq]
    obtain ⟨r, hr, -, hcall⟩ := hinv.request_of_response hresponse
    have hlength : (s.clients d).workers.length = (s.clients d).numWorkers := by
      rw [hplaced.clientWorkers, hflight.numWorkers]
    obtain ⟨v', hnext, hm', hsame⟩ :=
      Matches.scheduleRequest hm halive hlength hw hq hr hcall
    refine ⟨[.scheduleRequest], v', .cons hnext trivial (.nil _), ?_,
      hsame.trans (List.append_nil _).symm⟩
    simp only [completed, Event.completes, submitted, Option.map_none, Option.toList_none,
      List.nil_append, List.append_nil] at hcalls
    rw [Follows, clients_setClient]
    exact { hm' with entries := fun call hcall => hm'.entries call (hcalls.mem_iff.mp hcall) }
  · exact hm.quiet hinv hstep rfl rfl (alike_of_ne _ hd) List.prefix_rfl (List.Perm.refl _)

theorem follows_complete {d j : ℕ} (hinv : Invariant cfg s) (hnum : Numbered s)
    (halive : v.fault = none) (hm : s.Follows c v)
    (hright : ∀ e ∈ Event.completes c s (.complete d j),
      right e.request.src e.transfer.client.compressedData)
    (hstep : s.step cfg (.complete d j) = some s') :
    ∃ ds v', (Servicer.machine (cfg.numWorkers c)).RunIf (fun u e => u.answers right e) v ds v' ∧
      s'.Follows c v' ∧ v'.completed = v.completed ++ answered c s (.complete d j) := by
  have hcalls := underWay_step (c := c) hinv hstep
  obtain ⟨n, e, hw, he, -, rfl⟩ := complete_cases hstep
  have hsame : ({ e with completed := true } : Exchange).request = e.request := rfl
  have hrequests := requests_setExchange
    (s := s.setClient d ((s.clients d).completeRequest j n)) he _ hsame
  have hservice := withService_setExchange
    (s := s.setClient d ((s.clients d).completeRequest j n)) (c := c) he _ hsame
  by_cases hd : d = c
  · subst hd
    have hcompletes : Event.completes d s (.complete d j) = some e := by
      simp [Event.completes, hw, ClientWorker.processed, he]
    obtain ⟨r, hr, -, hcall⟩ := hinv.request_of_response (mem_responses_of_processing hw)
    obtain rfl : e.request = r := by
      rw [System.requests, List.getElem?_map, he] at hr
      exact Option.some.inj hr
    have hnodup := hnum.underWay_nodup d
    simp only [completed, hcompletes, submitted, Option.map_some, Option.toList_some,
      List.append_nil, List.cons_append, List.nil_append] at hcalls
    rw [← (hcalls.map Call.requestId).nodup_iff, List.map_cons, List.nodup_cons] at hnodup
    obtain ⟨i, v', hnext, hsrc, hm', hcompleted⟩ := Matches.complete hm
      e.transfer.client.compressedData halive hw hr hcall
      fun call hc => ⟨hcalls.mem_iff.mp (List.mem_cons_of_mem _ hc), fun hid =>
        hnodup.1 (hid ▸ List.mem_map_of_mem hc)⟩
    refine ⟨[.completeRequest i e.transfer.client.compressedData], v',
      .cons hnext (fun handler hh => ?_) (.nil _), ?_, ?_⟩
    · rw [hsrc handler hh]
      exact hright e hcompletes
    · have hclient : ((s.setClient d ((s.clients d).completeRequest j n)).setExchange n
          { e with completed := true }).clients d = (s.clients d).completeRequest j n :=
        clients_setClient ..
      rw [Follows, hrequests, hservice, hclient]
      exact hm'
    · rw [hcompleted, answered, hcompletes, Option.map_some, Option.toList_some]
  · refine hm.quiet hinv hstep rfl ?_ (alike_of_ne _ hd) (hrequests ▸ List.prefix_rfl)
      (List.Perm.of_eq hservice)
    exact if_neg hd

theorem follows_poll {d : ℕ} (hinv : Invariant cfg s) (halive : v.fault = none)
    (hm : s.Follows c v) (hstep : s.step cfg (.poll d) = some s') :
    ∃ ds v', (Servicer.machine (cfg.numWorkers c)).RunIf (fun u e => u.answers right e) v ds v' ∧
      s'.Follows c v' ∧ v'.completed = v.completed ++ answered c s (.poll d) := by
  have hcalls := underWay_step (c := c) hinv hstep
  obtain ⟨call, rest, hr, hq, rfl⟩ := poll_cases hstep
  by_cases hd : d = c
  · subst hd
    obtain ⟨v', hnext, hm', hsame⟩ := Matches.poll hm halive hq
      (List.Perm.refl (call :: s.withService d))
    refine ⟨[.serve], v', .cons hnext trivial (.nil _), ?_, hsame.trans (List.append_nil _).symm⟩
    simp only [completed, Event.completes, submitted, Option.map_none, Option.toList_none,
      List.nil_append, List.append_nil] at hcalls
    have hservice : withService { s.setClient d { s.clients d with clientToServer := rest } with
        registration := .enqueueing { call with clientId := d } } d = call :: s.withService d := by
      simp [withService, hr, Registration.callOf, Request.callOf, setClient, System.requests]
    rw [Follows, hservice]
    have hclient := clients_setClient s d { s.clients d with clientToServer := rest }
    refine { (hclient.symm ▸ hm' : Matches _ _ _ _ _) with
      entries := fun call hcall => hm'.entries call (hcalls.mem_iff.mp hcall) }
  · refine hm.quiet hinv hstep rfl rfl (alike_of_ne _ hd) List.prefix_rfl (List.Perm.of_eq ?_)
    refine withService_congr ?_ rfl rfl
    simp [hr, Registration.callOf, Request.callOf, hd]

theorem follows_respond {w : ℕ} (hinv : Invariant cfg s) (halive : v.fault = none)
    (hm : s.Follows c v) (hstep : s.step cfg (.respond w) = some s') :
    ∃ ds v', (Servicer.machine (cfg.numWorkers c)).RunIf (fun u e => u.answers right e) v ds v' ∧
      s'.Follows c v' ∧ v'.completed = v.completed ++ answered c s (.respond w) := by
  have hcalls := underWay_step (c := c) hinv hstep
  obtain ⟨n, e, hw, he, ⟨fault, rfl⟩ | ⟨-, hroom, rfl⟩⟩ := respond_cases hstep
  · exact hm.quiet hinv hstep rfl rfl (.refl _) List.prefix_rfl (List.Perm.refl _)
  by_cases hd : e.request.clientId = c
  · subst hd
    have hrequest : s.requests[n]? = some e.request := by
      rw [System.requests, List.getElem?_map, he, Option.map_some]
    have hservice := withService_respond (h := { s.clients e.request.clientId with
      serverToClient := (s.clients e.request.clientId).serverToClient ++ [n] }) hw he rfl
    obtain ⟨v', hnext, hm', hsame⟩ := Matches.respond hm halive hrequest hroom hservice
    refine ⟨[.answer e.request.requestId], v', .cons hnext trivial (.nil _), ?_,
      hsame.trans (List.append_nil _).symm⟩
    simp only [completed, Event.completes, submitted, Option.map_none, Option.toList_none,
      List.nil_append, List.append_nil] at hcalls
    rw [Follows, clients_setClient]
    exact { hm' with entries := fun call hcall => hm'.entries call (hcalls.mem_iff.mp hcall) }
  · refine hm.quiet hinv hstep rfl rfl (alike_of_ne (s := s.setWorker w _) _ hd) List.prefix_rfl
      (List.Perm.of_eq ?_)
    have hnone : e.request.callOf c = none := if_neg hd
    have hrequest : s.requests[n]? = some e.request := by
      rw [System.requests, List.getElem?_map, he, Option.map_some]
    exact withService_setWorker hw (by
      simp only [ServiceWorker.unanswered, hrequest, Option.bind_some, hnone])

/-- Every step of the system is a few steps of the client's own code. -/
theorem follows_step {ev : Event} (right : List UInt8 → List UInt8 → Prop)
    (hinv : Invariant cfg s) (hnum : Numbered s) (hplaced : Placed cfg s)
    (hflight : InFlight cfg s) (hids : (s.clients c).nextRequestId ≤ INT_MAX)
    (hbooks : Servicer.Bookkeeping v) (hm : s.Follows c v)
    (hright : ∀ e ∈ ev.completes c s,
      right e.request.src e.transfer.client.compressedData)
    (hstep : s.step cfg ev = some s') :
    ∃ ds v', (Servicer.machine (cfg.numWorkers c)).RunIf (fun u e => u.answers right e) v ds v' ∧
      s'.Follows c v' ∧ v'.completed = v.completed ++ answered c s ev := by
  have halive : v.fault = none := hbooks.alive_iff.mpr (hm.nextRequestId ▸ hids)
  cases ev with
  | submit d src => exact follows_submit hinv hnum hbooks halive hm hstep
  | dispatch d => exact follows_dispatch hinv hflight halive hm hstep
  | scheduleRequest d j => exact follows_scheduleRequest hinv hplaced hflight halive hm hstep
  | process d j =>
    obtain ⟨n, e, m', t', hw, he, -, rfl⟩ := process_cases hstep
    have hrequests := requests_setExchange he { e with transfer := t' } rfl
    have halike : (s.clients d).Alike { s.clients d with fault := t'.client.phase.fault } :=
      ⟨rfl, rfl, rfl, rfl, rfl, rfl, rfl, rfl, rfl⟩
    exact hm.quiet hinv hstep rfl rfl
      (alike_setClient (s := { s.setExchange n { e with transfer := t' } with memory := m' })
        halike c)
      (show s.requests <+: (s.setExchange n { e with transfer := t' }).requests from
        hrequests ▸ List.prefix_rfl)
      (List.Perm.of_eq (withService_setExchange he { e with transfer := t' } rfl))
  | complete d j => exact follows_complete hinv hnum halive hm hright hstep
  | destroy d j =>
    obtain ⟨n, e, hw, he, rfl⟩ := destroy_cases hstep
    have halike : (s.clients d).Alike ((s.clients d).destroy j e.segment.getSegmentIds) :=
      ⟨rfl, rfl, rfl, rfl, rfl, rfl, rfl, rfl, Slots.filterMap_set _ hw rfl⟩
    exact hm.quiet hinv hstep rfl rfl (alike_setClient halike c) List.prefix_rfl (List.Perm.refl _)
  | poll d => exact follows_poll hinv halive hm hstep
  | enqueue =>
    have hservice := withService_enqueue (c := c) hstep
    obtain ⟨request, -, -, rfl⟩ := enqueue_cases hstep
    exact hm.quiet hinv hstep rfl rfl (.refl _) List.prefix_rfl hservice
  | schedule w i =>
    have hservice := withService_schedule (c := c) hstep
    obtain ⟨request, -, -, -, rfl⟩ := schedule_cases hstep
    exact hm.quiet hinv hstep rfl rfl (.refl _) List.prefix_rfl hservice
  | allocate w =>
    obtain ⟨hmore, hservice⟩ := withService_allocate (c := c) hinv hstep
    refine hm.quiet hinv hstep rfl rfl ?_ hmore (List.Perm.of_eq hservice)
    obtain ⟨request, requestSize, -, ⟨fault, -, rfl⟩ | ⟨gs, m, -, rfl⟩⟩ := allocate_cases hstep
    · exact .refl _
    · exact .refl _
  | respond w => exact follows_respond hinv halive hm hstep
  | serve w =>
    obtain ⟨n, e, m', t', -, he, -, rfl⟩ := serve_cases hstep
    have hrequests := requests_setExchange he { e with transfer := t' } rfl
    exact hm.quiet hinv hstep rfl rfl (.refl _)
      (show s.requests <+: (s.setExchange n { e with transfer := t' }).requests from
        hrequests ▸ List.prefix_rfl)
      (List.Perm.of_eq (withService_setExchange he { e with transfer := t' } rfl))
  | destroyHandler w =>
    obtain ⟨n, e, hw, -, -, rfl⟩ := destroyHandler_cases hstep
    exact hm.quiet hinv hstep rfl rfl (.refl _) List.prefix_rfl
      (List.Perm.of_eq (withService_setWorker hw rfl))

theorem follows_init (cfg : Config) (c : ℕ) :
    (init cfg).Follows c (Servicer.init (cfg.numWorkers c)) := by
  have hservice : (List.replicate cfg.serviceWorkers ServiceWorker.idle).filterMap
      (ServiceWorker.unanswered c []) = [] :=
    List.filterMap_eq_nil_iff.mpr fun pc hpc => by rw [List.eq_of_mem_replicate hpc]; rfl
  have hcalls : (List.replicate cfg.serviceWorkers ServiceWorker.idle).filterMap
      (ServiceWorker.callOf c) = [] :=
    List.filterMap_eq_nil_iff.mpr fun pc hpc => by rw [List.eq_of_mem_replicate hpc]; rfl
  have hclient : (List.replicate (cfg.numWorkers c) ClientWorker.idle).filterMap
      ClientWorker.processed = [] :=
    List.filterMap_eq_nil_iff.mpr fun pc hpc => by rw [List.eq_of_mem_replicate hpc]; rfl
  constructor <;>
    simp [init, Client.init, Servicer.init, withService, underWay, downstream, upstream, requests,
      Registration.callOf, Dispatcher.call, Dispatcher.toServicer, hservice, hcalls, hclient]

/-- What an undisturbed worker is about to complete is right. -/
theorem completes_right {ev : Event} (hinv : Undisturbed cfg s) (hstep : s.step cfg ev = some s') :
    ∀ e ∈ ev.completes c s, e.transfer.client.compressedData = cfg.compress e.request.src := by
  intro e he
  have hanswer := answered_eq c hinv hstep
  have hcompletes : ev.completes c s = some e := he
  rw [answered, completed, hcompletes] at hanswer
  exact congrArg Prod.snd (List.singleton_inj.mp hanswer)

end Runs

/-- Each client of the system runs the client's own code, as long as its ids are values
of an `int`: some run of that code ends with the client's queues, and has completed the
same requests with the same results. Where the service awaits the client's last read,
each is its own file's result. -/
theorem client_refines_servicer {cfg : Config} {s : System} {es : List Event}
    {ok : System → Event → Prop} (h : (machine cfg).RunIf ok (init cfg) es s) (c : ℕ)
    (hfew : (s.clients c).nextRequestId ≤ INT_MAX) :
    ∃ ds v, (Servicer.machine (cfg.numWorkers c)).RunIf (fun u e =>
        (∀ s ev, ok s ev → s.awaitsLastRead ev = true) →
          u.answers (fun src data => data = cfg.compress src) e)
        (Servicer.init (cfg.numWorkers c)) ds v ∧ s.Follows c v ∧
      v.completed = (machine cfg).emitted (answered c) (init cfg) es := by
  let waits := ∀ s ev, ok s ev → s.awaitsLastRead ev = true
  let right : List UInt8 → List UInt8 → Prop := fun src data => waits → data = cfg.compress src
  have hback : ∀ s e t, (machine cfg).next s e = some t →
      (t.clients c).nextRequestId ≤ INT_MAX → (s.clients c).nextRequestId ≤ INT_MAX :=
    fun _ _ _ hnext hle => (nextRequestId_mono c (step_of_next hnext)).trans hle
  have hrun := (h.all_along hback hfew).2.simulate (N := Servicer.machine (cfg.numWorkers c))
    (r := fun u e => u.answers right e)
    (fun s v => ((Invariant cfg s ∧ (waits → Undisturbed cfg s)) ∧ Numbered s ∧ Placed cfg s ∧
      InFlight cfg s) ∧ (Servicer.machine (cfg.numWorkers c)).Reachable v ∧ s.Follows c v)
    Servicer.completed (answered c) ?_
    ⟨⟨⟨invariant_init cfg, fun _ => undisturbed_init cfg⟩, numbered_init cfg, placed_init cfg,
      inFlight_init cfg⟩, .start, follows_init cfg c⟩
  · obtain ⟨ds, v, hrun, ⟨-, -, hfollows⟩, hcompleted⟩ := hrun
    refine ⟨ds, v, hrun.mono fun u e hok hwaits => ?_, hfollows,
      hcompleted.trans (List.nil_append _)⟩
    cases e with
    | completeRequest i data => exact fun handler hh => hok handler hh hwaits
    | _ => trivial
  · rintro s ev s' v ⟨⟨⟨hinv, hundisturbed⟩, hnum, hplaced, hflight⟩, hreach, hm⟩ hnext ⟨hok, hids⟩
    have hstep := step_of_next hnext
    have hbooks := Servicer.bookkeeping_of_reachable hreach
    obtain ⟨ds, v', hrun, hm', hcompleted⟩ := follows_step right hinv hnum hplaced
      hflight (hback _ _ _ hnext (hids s' hnext)) hbooks hm
      (fun e he hwaits => completes_right (hundisturbed hwaits) hstep e he) hstep
    exact ⟨ds, v', hrun, ⟨⟨⟨invariant_step hinv hstep, fun hwaits =>
      undisturbed_step hinv (hundisturbed hwaits) (hwaits s ev hok) hstep⟩, hnum.step hstep,
      placed_step hinv hplaced hstep, inFlight_step hinv hflight hstep⟩,
      hreach.append (hrun.mono fun _ _ _ => trivial), hm'⟩, hcompleted⟩

/-- A client that has been given its one result. -/
theorem client_refines_servicer_one_request : ∃ s ds v,
    (machine (smallService (fun _ => 1))).run (init (smallService (fun _ => 1)))
      (undisturbedRun ++ [.complete 0 0]) = some s ∧
    (Servicer.machine 1).RunIf (fun u e =>
      u.answers (fun src data => data = Transfer.snappyLiteral src) e) (Servicer.init 1) ds v ∧
    s.Follows 0 v ∧ v.completed = [(0, [3, 8, 1, 2, 3])] := by
  have hids : ((machine (smallService (fun _ => 1))).runIf
      (fun s ev => s.awaitsLastRead ev = true) (init (smallService (fun _ => 1)))
      (undisturbedRun ++ [.complete 0 0])).map (fun s => (s.clients 0).nextRequestId) =
        some 1 := by decide +kernel
  obtain ⟨s, hrun, hone⟩ := Option.map_eq_some_iff.mp hids
  have hs := Machine.RunIf.of_runIf hrun
  obtain ⟨ds, v, hds, hfollows, hcompleted⟩ :=
    client_refines_servicer hs 0 (by rw [hone]; decide)
  have hresults : (machine (smallService (fun _ => 1))).emitted (answered 0)
      (init (smallService (fun _ => 1))) (undisturbedRun ++ [.complete 0 0]) =
        [(0, [3, 8, 1, 2, 3])] := by decide +kernel
  exact ⟨s, ds, v, hs.run_eq, hds.mono fun _ _ hright => hright fun _ _ hok => hok, hfollows,
    hcompleted.trans hresults⟩

end TinyFile.System
