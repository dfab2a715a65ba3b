import Mathlib.Algebra.BigOperators.Fin
import TinyFile.NoFault
import TinyFile.TransferLength
import TinyFile.Whereabouts

/-!
# The work that is left

Every request has a number of steps before it until both of its handlers are
destroyed: one for each place on its way, and the steps of its transfer, which
are not more than four for each byte in either direction before its segment is
known. Every step of any thread takes one off, except a new call and a turn of a
dispatcher's loop that finds nothing to do.
-/
namespace TinyFile

theorem chunks_le {gs : FragmentedShmSegment} (hroom : 8 < gs.total) (size : ℕ) :
    chunks gs size ≤ size := by
  rcases size with _ | size
  · exact (chunks_zero hroom).le
  · obtain ⟨p, hp⟩ : ∃ p, gs.total - 8 = p + 1 := ⟨gs.total - 9, by omega⟩
    rw [chunks, hp]
    refine Nat.div_le_of_le_mul ?_
    rw [Nat.add_mul, Nat.mul_add]
    omega

namespace System

variable {cfg : Config} {k : ℕ} {s s' : System}

/-- A bound for the steps of a transfer. -/
def Call.weight (cfg : Config) (call : Call) : ℕ :=
  8 * (call.src.length + (cfg.compress call.src).length) + 11

def Dispatcher.work (cfg : Config) : Dispatcher → ℕ
  | .posting call => call.weight cfg + 12
  | .pushing _ => 4
  | .sendLoop | .receiveLoop => 0

def ClientWorker.work : ClientWorker → ℕ
  | .idle => 0
  | .destroying _ => 1
  | .processing _ => 2

def Client.work (cfg : Config) (h : Client) : ℕ :=
  (h.requestQueue.map (fun call => call.weight cfg + 13)).sum + h.dispatcher.work cfg +
    (h.clientToServer.map (fun call => call.weight cfg + 11)).sum +
    5 * h.serverToClient.length + 3 * h.requestResponseQueue.length +
    (h.workers.map ClientWorker.work).sum

def Registration.work (cfg : Config) : Registration → ℕ
  | .polling => 0
  | .enqueueing request => request.weight cfg + 10

def ServiceWorker.work (cfg : Config) : ServiceWorker → ℕ
  | .idle => 0
  | .allocating request _ => request.weight cfg + 8
  | .responding _ => 7
  | .serving _ => 1

def Exchange.left (cfg : Config) (e : Exchange) : ℕ :=
  Transfer.serviceLeft (e.job cfg) e.transfer + Transfer.clientLeft (e.job cfg) e.transfer

/-- The work of the first `k` clients. -/
def clientsWork (cfg : Config) (k : ℕ) (clients : ℕ → Client) : ℕ :=
  ∑ c ∈ Finset.range k, (clients c).work cfg

def work (cfg : Config) (k : ℕ) (s : System) : ℕ :=
  clientsWork cfg k s.clients + s.registration.work cfg +
    (s.pending.map (fun request => request.weight cfg + 9)).sum +
    (s.workers.map (ServiceWorker.work cfg)).sum + (s.exchanges.map (Exchange.left cfg)).sum

/-- A turn of a dispatcher's loop that finds nothing to do. -/
inductive IdleStep (s : System) : Event → System → Prop
  | sendRequests {c : ℕ} : (s.clients c).dispatcher = .sendLoop →
      ((s.clients c).requestQueue = [] ∨
        (s.clients c).numWorkers ≤ (s.clients c).requestsInFlight) →
      IdleStep s (.dispatch c) (s.setClient c { s.clients c with dispatcher := .receiveLoop })
  | receiveResponses {c : ℕ} : (s.clients c).dispatcher = .receiveLoop →
      (s.clients c).serverToClient = [] →
      IdleStep s (.dispatch c) (s.setClient c { s.clients c with dispatcher := .sendLoop })

section Sums

/-- A step of one client that takes off `a` and adds `b`. -/
theorem clientsWork_setClient {c a b : ℕ} {h : Client} (hc : c < k)
    (hwork : h.work cfg + a = (s.clients c).work cfg + b) :
    clientsWork cfg k (s.setClient c h).clients + a = clientsWork cfg k s.clients + b := by
  have hmem : c ∈ Finset.range k := Finset.mem_range.mpr hc
  have hrest : ∑ d ∈ (Finset.range k).erase c, ((s.setClient c h).clients d).work cfg =
      ∑ d ∈ (Finset.range k).erase c, (s.clients d).work cfg :=
    Finset.sum_congr rfl fun d hd => by
      rw [clients_setClient_of_ne s h (Finset.ne_of_mem_erase hd)]
  rw [clientsWork, clientsWork, ← Finset.add_sum_erase _ _ hmem, ← Finset.add_sum_erase _ _ hmem,
    hrest, clients_setClient]
  omega

/-- A step of one client that takes work off. -/
theorem work_setClient {c : ℕ} {h : Client} (hc : c < k)
    (hless : h.work cfg < (s.clients c).work cfg) :
    (s.setClient c h).work cfg k < s.work cfg k := by
  have hsum := clientsWork_setClient (s := s) hc
    (show h.work cfg + ((s.clients c).work cfg - h.work cfg) = (s.clients c).work cfg + 0 by omega)
  simp only [work, System.setClient] at hsum ⊢
  omega

theorem sum_setWorker (cfg : Config) {w : ℕ} {pc : ServiceWorker} (hw : s.workers[w]? = some pc)
    (pc' : ServiceWorker) :
    ((s.workers.set w pc').map (ServiceWorker.work cfg)).sum + pc.work cfg =
      (s.workers.map (ServiceWorker.work cfg)).sum + pc'.work cfg :=
  Slots.sum_set _ hw pc'

theorem sum_setExchange (cfg : Config) {n : ℕ} {e : Exchange}
    (he : s.exchanges[n]? = some e) (e' : Exchange) :
    ((s.exchanges.set n e').map (Exchange.left cfg)).sum + e.left cfg =
      (s.exchanges.map (Exchange.left cfg)).sum + e'.left cfg :=
  Slots.sum_set _ he e'

end Sums

section Clients

/-- The dispatcher has or can take a message. -/
def Client.Engaged (h : Client) : Prop :=
  h.requestsInFlight < h.numWorkers ∨ 0 < h.sending ∨ h.untaken ≠ []

theorem Client.work_dispatch {h h' : Client} {exchanges : List Exchange}
    (hstep : h.dispatch exchanges = some h') (hfault : h'.fault = none) :
    h'.work cfg < h.work cfg ∧ h.Engaged ∨
      (h.dispatcher = .sendLoop ∧ (h.requestQueue = [] ∨ h.numWorkers ≤ h.requestsInFlight) ∧
        h' = { h with dispatcher := .receiveLoop }) ∨
      (h.dispatcher = .receiveLoop ∧ h.serverToClient = [] ∧
        h' = { h with dispatcher := .sendLoop }) := by
  simp only [Client.dispatch] at hstep
  split at hstep
  · next hpc =>
    cases hstep
    simp only [Client.sendRequests]
    split
    · next hq => exact .inr (.inl ⟨hpc, .inl hq, rfl⟩)
    · next call rest hq =>
      split_ifs with hroom
      · refine .inl ⟨?_, .inl hroom⟩
        simp only [Client.work, hpc, hq, Dispatcher.work, List.map_cons, List.sum_cons]
        omega
      · exact .inr (.inl ⟨hpc, .inr (Nat.le_of_not_lt hroom), rfl⟩)
  · next call hpc =>
    simp only [Client.mqSend] at hstep
    split_ifs at hstep
    cases hstep
    refine .inl ⟨?_, .inr (.inl (by simp [Client.sending, hpc, Dispatcher.posted]))⟩
    simp only [Client.work, hpc, Dispatcher.work, List.map_append, List.sum_append, List.map_cons,
      List.map_nil, List.sum_cons, List.sum_nil]
    omega
  · next hpc =>
    cases hstep
    simp only [Client.receiveResponses]
    split
    · next hq => exact .inr (.inr ⟨hpc, hq, rfl⟩)
    · next n rest hq =>
      refine .inl ⟨?_, .inr (.inr (by simp [Client.untaken, hq]))⟩
      simp only [Client.work, hpc, hq, Dispatcher.work, List.length_cons]
      omega
  · next n hpc =>
    obtain ⟨e, -, rfl⟩ := Option.map_eq_some_iff.mp hstep
    simp only [Client.pushResponse] at hfault ⊢
    split
    · refine .inl ⟨?_, .inr (.inr (by simp [Client.untaken, hpc, Dispatcher.received]))⟩
      simp only [Client.work, hpc, Dispatcher.work, List.length_append, List.length_singleton]
      omega
    · next herror =>
      rw [herror] at hfault
      cases hfault

theorem lt_of_active {c : ℕ} (hcfg : cfg.Serviceable k) (h : InFlight cfg s)
    (hpos : 0 < s.active c) : c < k := by
  by_contra hge
  have hactive := h.active c
  have hbound := h.bound c
  have hnone := hcfg.only c (Nat.le_of_not_lt hge)
  omega

/-- A response of a client is one of its open exchanges. -/
theorem active_of_response {c n : ℕ} (hinv : Invariant cfg s) (hn : n ∈ (s.clients c).responses) :
    0 < s.active c := by
  obtain ⟨-, e, he, hclient, hopen⟩ := hinv.responses c n hn
  have hcount : 0 < s.exchanges.countP (Exchange.isOpen c) :=
    List.countP_pos_iff.mpr ⟨e, List.mem_of_getElem? he, by
      simp [Exchange.isOpen, Request.isOf, hclient, hopen]⟩
  rw [active]
  omega

theorem lt_of_engaged {c : ℕ} (hcfg : cfg.Serviceable k) (hinv : Invariant cfg s)
    (hflight : InFlight cfg s) (h : (s.clients c).Engaged) : c < k := by
  rcases h with h | h | h
  · by_contra hge
    have hnum := hflight.numWorkers c
    have hnone := hcfg.only c (Nat.le_of_not_lt hge)
    omega
  · refine lt_of_active hcfg hflight ?_
    rw [active]
    omega
  · obtain ⟨n, hn⟩ := List.exists_mem_of_ne_nil _ h
    exact lt_of_active hcfg hflight (active_of_response hinv (List.mem_append_left _ hn))

theorem lt_of_worker {c j : ℕ} {pc : ClientWorker} (hcfg : cfg.Serviceable k)
    (h : Placed cfg s) (hw : (s.clients c).workers[j]? = some pc) : c < k := by
  by_contra hge
  obtain ⟨hlt, -⟩ := List.getElem?_eq_some_iff.mp hw
  have hlength := h.clientWorkers c
  have hnone := hcfg.only c (Nat.le_of_not_lt hge)
  omega

end Clients

section Steps

theorem work_dispatch {c : ℕ} (hcfg : cfg.Serviceable k) (hinv : Invariant cfg s)
    (hflight : InFlight cfg s) (hstep : s.step cfg (.dispatch c) = some s')
    (hfault : (s'.clients c).fault = none) :
    s'.work cfg k < s.work cfg k ∨ IdleStep s (.dispatch c) s' := by
  obtain ⟨h', hdispatch, rfl⟩ := dispatch_cases hstep
  rw [clients_setClient] at hfault
  rcases Client.work_dispatch hdispatch hfault with
    ⟨hless, hengaged⟩ | ⟨hpc, hq, rfl⟩ | ⟨hpc, hq, rfl⟩
  · exact .inl (work_setClient (lt_of_engaged hcfg hinv hflight hengaged) hless)
  · exact .inr (.sendRequests hpc hq)
  · exact .inr (.receiveResponses hpc hq)

theorem work_scheduleRequest {c j : ℕ} (hcfg : cfg.Serviceable k) (hplaced : Placed cfg s)
    (hstep : s.step cfg (.scheduleRequest c j) = some s') : s'.work cfg k < s.work cfg k := by
  obtain ⟨n, rest, hw, hq, rfl⟩ := scheduleRequest_cases hstep
  refine work_setClient (lt_of_worker hcfg hplaced hw) ?_
  have hsum := Slots.sum_set ClientWorker.work hw (.processing n)
  simp only [ClientWorker.work] at hsum
  simp only [Client.work, hq, List.length_cons]
  omega

theorem work_complete {c j : ℕ} (hcfg : cfg.Serviceable k) (hplaced : Placed cfg s)
    (hstep : s.step cfg (.complete c j) = some s') : s'.work cfg k < s.work cfg k := by
  obtain ⟨n, e, hw, he, -, rfl⟩ := complete_cases hstep
  have hless : (s.setClient c ((s.clients c).completeRequest j n)).work cfg k < s.work cfg k := by
    refine work_setClient (lt_of_worker hcfg hplaced hw) ?_
    have hsum := Slots.sum_set ClientWorker.work hw (.destroying n)
    simp only [ClientWorker.work] at hsum
    simp only [Client.work, Client.completeRequest]
    omega
  have hsame := sum_setExchange cfg he { e with completed := true }
  have hleft : Exchange.left cfg { e with completed := true } = e.left cfg := rfl
  simp only [work, System.setExchange, System.setClient] at hless hsame ⊢
  omega

theorem work_destroy {c j : ℕ} (hcfg : cfg.Serviceable k) (hplaced : Placed cfg s)
    (hstep : s.step cfg (.destroy c j) = some s') : s'.work cfg k < s.work cfg k := by
  obtain ⟨n, e, hw, -, rfl⟩ := destroy_cases hstep
  refine work_setClient (lt_of_worker hcfg hplaced hw) ?_
  have hsum := Slots.sum_set ClientWorker.work hw .idle
  simp only [ClientWorker.work] at hsum
  simp only [Client.work, Client.destroy]
  omega

theorem work_poll {c : ℕ} (hcfg : cfg.Serviceable k) (hflight : InFlight cfg s)
    (hstep : s.step cfg (.poll c) = some s') : s'.work cfg k < s.work cfg k := by
  obtain ⟨call, rest, hr, hq, rfl⟩ := poll_cases hstep
  have hc : c < k := lt_of_active hcfg hflight (by
    simp only [active, Client.sending, hq, List.length_cons]
    omega)
  have hsum := clientsWork_setClient (s := s) hc
    (show Client.work cfg { s.clients c with clientToServer := rest } + (call.weight cfg + 11) =
      (s.clients c).work cfg + 0 by
        simp only [Client.work, hq, List.map_cons, List.sum_cons]
        omega)
  have hrequest : Registration.work cfg (.enqueueing { call with clientId := c }) =
      call.weight cfg + 10 := rfl
  have hpolling : s.registration.work cfg = 0 := by rw [hr, Registration.work]
  simp only [work, System.setClient] at hsum ⊢
  omega

theorem work_enqueue (hstep : s.step cfg .enqueue = some s') :
    s'.work cfg k < s.work cfg k := by
  obtain ⟨request, hr, -, rfl⟩ := enqueue_cases hstep
  simp only [work, hr, Registration.work, List.map_append, List.sum_append, List.map_cons,
    List.map_nil, List.sum_cons, List.sum_nil]
  omega

theorem work_schedule {w i : ℕ} (hstep : s.step cfg (.schedule w i) = some s') :
    s'.work cfg k < s.work cfg k := by
  obtain ⟨request, hw, hi, -, rfl⟩ := schedule_cases hstep
  obtain ⟨hlt, hget⟩ := List.getElem?_eq_some_iff.mp hi
  have hpending := ((List.getElem_cons_eraseIdx_perm hlt).map
    (fun request => request.weight cfg + 9)).sum_nat
  rw [hget, List.map_cons, List.sum_cons] at hpending
  have hsum := sum_setWorker cfg hw (.allocating request
    (Scheduler.handlerShmSize s.manager (s.pending.eraseIdx i).length cfg.serviceWorkers
      request.fileSize cfg.strategy))
  simp only [ServiceWorker.work] at hsum
  simp only [work, System.setWorker]
  omega

theorem weight_init (cfg : Config) {gs : FragmentedShmSegment} (hroom : 8 < gs.total)
    (request : Request) :
    Exchange.left cfg ⟨request, gs, Transfer.init ⟨gs, request.src, cfg.compress⟩, false⟩ ≤
      request.weight cfg := by
  have hsrc := chunks_le hroom request.src.length
  have hout := chunks_le hroom (cfg.compress request.src).length
  simp only [Exchange.left, Exchange.job, Transfer.serviceLeft_init, Transfer.clientLeft_init,
    Call.weight]
  omega

theorem work_allocate {w : ℕ} (hinv : Invariant cfg s)
    (hstep : s.step cfg (.allocate w) = some s') (hfault : s'.fault = none) :
    s'.work cfg k < s.work cfg k := by
  obtain ⟨request, requestSize, hw, hcases⟩ := allocate_cases hstep
  rcases hcases with ⟨fault, -, rfl⟩ | ⟨gs, m, hgrant, rfl⟩
  · cases hfault
  · obtain ⟨hlen, hpool, hsame⟩ := Pool.grant_spec hinv.pool hgrant
    have hsize := hinv.allocating request requestSize (List.mem_of_getElem? hw)
    have htotal : gs.total = requestSize := by
      rw [← hlen, ← hsame.internalRepSize]
      exact ShmManager.total_of_sizes fun g hg => hpool.size_of_held (List.mem_append_left _ hg)
    have hroom : 8 < gs.total := by
      rw [htotal]
      exact lt_of_lt_of_le (by decide) hsize
    have hleft := weight_init cfg hroom request
    have hsum := sum_setWorker cfg hw (.responding s.exchanges.length)
    simp only [ServiceWorker.work] at hsum
    simp only [work, granted, System.setWorker, List.map_append, List.sum_append, List.map_cons,
      List.map_nil, List.sum_cons, List.sum_nil]
    omega

theorem work_respond {w : ℕ} (hcfg : cfg.Serviceable k) (hinv : Invariant cfg s)
    (hflight : InFlight cfg s) (hstep : s.step cfg (.respond w) = some s')
    (hfault : s'.fault = none) : s'.work cfg k < s.work cfg k := by
  obtain ⟨n, e, hw, he, hcases⟩ := respond_cases hstep
  rcases hcases with ⟨fault, rfl⟩ | ⟨-, -, rfl⟩
  · cases hfault
  · have hopen := (hinv.responding n e (List.mem_of_getElem? hw) he).2
    have hc : e.request.clientId < k := lt_of_active hcfg hflight (by
      have hcount : 0 < s.exchanges.countP (Exchange.isOpen e.request.clientId) :=
        List.countP_pos_iff.mpr ⟨e, List.mem_of_getElem? he, by
          simp [Exchange.isOpen, Request.isOf, hopen]⟩
      rw [active]
      omega)
    have hclients := clientsWork_setClient (s := s) hc
      (show Client.work cfg { s.clients e.request.clientId with
          serverToClient := (s.clients e.request.clientId).serverToClient ++ [n] } + 0 =
          (s.clients e.request.clientId).work cfg + 5 by
        simp only [Client.work, List.length_append, List.length_singleton]
        omega)
    have hsum := sum_setWorker cfg hw (.serving n)
    simp only [ServiceWorker.work] at hsum
    simp only [work, System.setClient, System.setWorker] at hclients ⊢
    omega

theorem work_serve {w : ℕ} (hundisturbed : Undisturbed cfg s)
    (hstep : s.step cfg (.serve w) = some s') : s'.work cfg k < s.work cfg k := by
  obtain ⟨n, e, m', t', hw, he, hserve, rfl⟩ := serve_cases hstep
  obtain ⟨⟨x, hx, hstage⟩, -⟩ := hundisturbed n e he
  rw [← hx] at hserve
  have hless : Exchange.left cfg { e with transfer := t' } + 1 = e.left cfg := by
    have hleft := Transfer.step_left hstage .service hserve
    rw [hx] at hleft
    exact hleft
  have hsum := sum_setExchange cfg he { e with transfer := t' }
  simp only [work, System.setExchange]
  omega

theorem work_process {c j : ℕ} (hcfg : cfg.Serviceable k) (hplaced : Placed cfg s)
    (hundisturbed : Undisturbed cfg s)
    (hstep : s.step cfg (.process c j) = some s') : s'.work cfg k < s.work cfg k := by
  obtain ⟨n, e, m', t', hw, he, hprocess, rfl⟩ := process_cases hstep
  obtain ⟨⟨x, hx, hstage⟩, -⟩ := hundisturbed n e he
  rw [← hx] at hprocess
  have hless : Exchange.left cfg { e with transfer := t' } + 1 = e.left cfg := by
    have hleft := Transfer.step_left hstage .client hprocess
    rw [hx] at hleft
    exact hleft
  have hsum := sum_setExchange cfg he { e with transfer := t' }
  have hclients := clientsWork_setClient (s := s) (lt_of_worker hcfg hplaced hw)
    (show Client.work cfg { s.clients c with fault := t'.client.phase.fault } + 0 =
      (s.clients c).work cfg + 0 from rfl)
  simp only [work, System.setClient, System.setExchange] at hclients ⊢
  omega

theorem work_destroyHandler {w : ℕ} (hstep : s.step cfg (.destroyHandler w) = some s') :
    s'.work cfg k < s.work cfg k := by
  obtain ⟨n, e, hw, -, -, rfl⟩ := destroyHandler_cases hstep
  have hsum := sum_setWorker cfg hw .idle
  simp only [ServiceWorker.work] at hsum
  simp only [work, System.setWorker]
  omega

/-- A step takes work off, is a new call or finds nothing to do. -/
theorem work_step {ev : Event} (hcfg : cfg.Serviceable k) (hinv : Invariant cfg s)
    (hflight : InFlight cfg s) (hplaced : Placed cfg s) (hundisturbed : Undisturbed cfg s)
    (hsubmit : ∀ c src, ev ≠ .submit c src) (hstep : s.step cfg ev = some s')
    (hsound : Sound cfg s') : s'.work cfg k < s.work cfg k ∨ IdleStep s ev s' := by
  cases ev with
  | submit c src => exact absurd rfl (hsubmit c src)
  | dispatch c => exact work_dispatch hcfg hinv hflight hstep (hsound.clientFault c)
  | scheduleRequest c j => exact .inl (work_scheduleRequest hcfg hplaced hstep)
  | process c j => exact .inl (work_process hcfg hplaced hundisturbed hstep)
  | complete c j => exact .inl (work_complete hcfg hplaced hstep)
  | destroy c j => exact .inl (work_destroy hcfg hplaced hstep)
  | poll c => exact .inl (work_poll hcfg hflight hstep)
  | enqueue => exact .inl (work_enqueue hstep)
  | schedule w i => exact .inl (work_schedule hstep)
  | allocate w => exact .inl (work_allocate hinv hstep hsound.fault)
  | respond w => exact .inl (work_respond hcfg hinv hflight hstep hsound.fault)
  | serve w => exact .inl (work_serve hundisturbed hstep)
  | destroyHandler w => exact .inl (work_destroyHandler hstep)

/-- An idle step leaves the work as it is. -/
theorem IdleStep.work_eq {ev : Event} (h : IdleStep s ev s') : s'.work cfg k = s.work cfg k := by
  have hclients : ∀ {c : ℕ} {pc : Dispatcher}, pc.work cfg = (s.clients c).dispatcher.work cfg →
      clientsWork cfg k (s.setClient c { s.clients c with dispatcher := pc }).clients =
        clientsWork cfg k s.clients := by
    intro c pc hpc
    refine Finset.sum_congr rfl fun d _ => ?_
    by_cases hd : d = c
    · subst hd
      rw [clients_setClient]
      simp only [Client.work, hpc]
    · rw [clients_setClient_of_ne s _ hd]
  cases h with
  | sendRequests hpc hq =>
    rw [work, hclients (by rw [hpc]; rfl)]
    rfl
  | receiveResponses hpc hq =>
    rw [work, hclients (by rw [hpc]; rfl)]
    rfl

end Steps

end System

end TinyFile
