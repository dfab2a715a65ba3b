import TinyFile.InFlight

/-!
# Room in the request queues

A request queue holds `CLIENT_MAX_MSG` messages, and `mq_send` blocks when it is
full. A client has no more requests under way than it has workers. So with at
most `CLIENT_MAX_MSG` workers neither its dispatcher nor a worker of the service
ever waits for room; with more workers the dispatcher can.
-/
namespace TinyFile.System

variable {cfg : Config} {s : System} {c k : ℕ}

/-- The call in the dispatcher's hand and those in the queue are in flight. -/
theorem InFlight.sending_le (h : InFlight cfg s) (c : ℕ) :
    (s.clients c).sending ≤ cfg.numWorkers c := by
  have hactive := h.active c
  have hbound := h.bound c
  rw [System.active] at hactive
  omega

/-- A response that waits in the queue is one of an open exchange. -/
theorem InFlight.responses_lt (hinv : Invariant cfg s) (h : InFlight cfg s) {w n : ℕ}
    {e : Exchange} (hw : s.workers[w]? = some (.responding n)) (he : s.exchanges[n]? = some e) :
    (s.clients e.request.clientId).serverToClient.length < cfg.numWorkers e.request.clientId := by
  set c := e.request.clientId with hc
  have hmem : ServiceWorker.responding n ∈ s.workers := List.mem_of_getElem? hw
  have hsub : ∀ m ∈ (s.clients c).serverToClient, m ∈ (s.clients c).responses := by
    intro m hm
    exact List.mem_append_left _ (List.mem_append_left _ (List.mem_append_left _ hm))
  have hnodup : (n :: (s.clients c).serverToClient).Nodup := by
    refine List.nodup_cons.mpr ⟨fun hn => (hinv.responses c n (hsub n hn)).1 hmem, ?_⟩
    have hall := hinv.responses_nodup c
    simp only [Client.responses, Client.untaken, List.append_assoc] at hall
    exact (List.nodup_append.mp hall).1
  have hopen : ∀ m ∈ n :: (s.clients c).serverToClient,
      ∃ e', s.exchanges[m]? = some e' ∧ e'.isOpen c = true := by
    intro m hm
    rcases List.mem_cons.mp hm with rfl | hm
    · have hfresh := (hinv.responding m e hmem he).2
      exact ⟨e, he, by simp [Exchange.isOpen, Request.isOf, hfresh, hc]⟩
    · obtain ⟨-, e', he', hclient, hfresh⟩ := hinv.responses c m (hsub m hm)
      exact ⟨e', he', by simp [Exchange.isOpen, Request.isOf, hfresh, hclient]⟩
  have hcount := Slots.length_le_countP hnodup hopen
  have hactive := h.active c
  have hbound := h.bound c
  rw [System.active] at hactive
  rw [List.length_cons] at hcount
  omega

/-- A client that has sent `k` requests, none of which the service has received. -/
structure Filled (cfg : Config) (c k : ℕ) (s : System) : Prop where
  reachable : (machine cfg).Reachable s
  nextRequestId : (s.clients c).nextRequestId = k
  requestQueue : (s.clients c).requestQueue = []
  dispatcher : (s.clients c).dispatcher = .sendLoop
  requestsInFlight : (s.clients c).requestsInFlight = k
  clientToServer : (s.clients c).clientToServer.length = k
  fault : (s.clients c).fault = none

/-- The dispatcher takes the next call while there are workers left. -/
theorem Filled.post (h : Filled cfg c k s) (hk : k < cfg.numWorkers c)
    (hfew : k ≤ CLIENT_MAX_MSG) :
    ∃ s' call, (machine cfg).Reachable s' ∧
      (s'.clients c).dispatcher = .posting call ∧ (s'.clients c).nextRequestId = k + 1 ∧
      (s'.clients c).requestQueue = [] ∧
      (s'.clients c).requestsInFlight = k + 1 ∧
      (s'.clients c).clientToServer = (s.clients c).clientToServer ∧
        (s'.clients c).fault = none := by
  have small : ([] : List UInt8).length < SizeT.modulus := by decide
  have hnum := (inFlight_of_reachable h.reachable).numWorkers c
  have hid : (s.clients c).nextRequestId < INT_MAX := by
    rw [h.nextRequestId]
    exact lt_of_le_of_lt hfew (by decide)
  set call : Call := ⟨(s.clients c).nextRequestId, [], small⟩ with hcall
  set h₁ : Client := (s.clients c).submit [] small with hh₁
  set s₁ := s.setClient c h₁ with hs₁
  have hnext₁ : (machine cfg).next s (.submit c []) = some s₁ := by
    simp only [machine, next, alive, h.fault, Option.isNone_none, if_true, step, small, dif_pos]
    rfl
  have hclient₁ : s₁.clients c = h₁ := clients_setClient s c h₁
  have hfault : h₁.fault = none := by
    rw [hh₁, Client.submit, if_pos hid]
    exact h.fault
  have hnext₂ : (machine cfg).next s₁ (.dispatch c) = some (s₁.setClient c
      { h₁ with requestQueue := [], requestsInFlight := k + 1, dispatcher := .posting call }) := by
    simp only [machine, next, alive, step, hclient₁]
    simp [hh₁, Client.submit, Client.dispatch, Client.sendRequests, h.dispatcher, h.requestQueue,
      h.requestsInFlight, h.fault, hnum, hk, hcall, hid]
  refine ⟨_, call, (h.reachable.step hnext₁ trivial).step hnext₂ trivial, ?_⟩
  rw [clients_setClient]
  exact ⟨rfl, congrArg (· + 1) h.nextRequestId, rfl, rfl, rfl, hfault⟩

theorem filled (hk : ∀ j, j < k → j < cfg.numWorkers c ∧ j < CLIENT_MAX_MSG) :
    ∃ s, Filled cfg c k s := by
  induction k with
  | zero => exact ⟨init cfg, ⟨.start, rfl, rfl, rfl, rfl, rfl, rfl⟩⟩
  | succ k ih =>
    obtain ⟨s, hs⟩ := ih fun j hj => hk j (Nat.lt_succ_of_lt hj)
    obtain ⟨hworkers, hroom⟩ := hk k (Nat.lt_succ_self k)
    obtain ⟨s', call, hreach, hpost, hid, hqueue, hflight, hsent, hfault⟩ :=
      hs.post hworkers hroom.le
    have hlength : (s'.clients c).clientToServer.length = k := by rw [hsent, hs.clientToServer]
    have hnext : (machine cfg).next s' (.dispatch c) = some (s'.setClient c
        { s'.clients c with
          clientToServer := (s'.clients c).clientToServer ++ [call]
          dispatcher := .sendLoop }) := by
      simp [machine, next, alive, hfault, step, Client.dispatch, hpost, Client.mqSend, hlength,
        hroom]
    refine ⟨_, ⟨hreach.step hnext trivial, ?_, ?_, ?_, ?_, ?_, ?_⟩⟩ <;> rw [clients_setClient]
    · exact hid
    · exact hqueue
    · exact hflight
    · rw [List.length_append, hlength, List.length_singleton]
    · exact hfault

/-- The dispatcher of a client can find its queue full exactly if the client has
more workers than the queue has room; if it has not, there is also room for every
response of the service. -/
theorem queue_room (cfg : Config) (c : ℕ) :
    ((∃ s call, (machine cfg).Reachable s ∧ (s.clients c).dispatcher = .posting call ∧
        (s.clients c).mqSend call = none) ↔ CLIENT_MAX_MSG < cfg.numWorkers c) ∧
      (cfg.numWorkers c ≤ CLIENT_MAX_MSG → ∀ s, (machine cfg).Reachable s →
        ∀ (w n : ℕ) (e : Exchange), s.workers[w]? = some (.responding n) →
        s.exchanges[n]? = some e → e.request.clientId = c →
        (s.clients c).serverToClient.length < CLIENT_MAX_MSG) := by
  refine ⟨⟨?_, fun hmore => ?_⟩, ?_⟩
  · rintro ⟨s, call, hs, hpost, hfull⟩
    have hle := (inFlight_of_reachable hs).sending_le c
    simp only [Client.sending, hpost, Dispatcher.posted] at hle
    simp only [Client.mqSend] at hfull
    split_ifs at hfull with hroom
    omega
  · obtain ⟨s, hs⟩ : ∃ s, Filled cfg c CLIENT_MAX_MSG s :=
      filled fun j hj => ⟨hj.trans hmore, hj⟩
    obtain ⟨s', call, hreach, hpost, -, -, -, hsent, -⟩ := hs.post hmore le_rfl
    refine ⟨s', call, hreach, hpost, ?_⟩
    simp only [Client.mqSend, hsent, hs.clientToServer, lt_irrefl, if_false]
  · rintro hfew s hs w n e hw he rfl
    have hlt := (inFlight_of_reachable hs).responses_lt (invariant_of_reachable hs) hw he
    exact lt_of_lt_of_le hlt hfew

end TinyFile.System
