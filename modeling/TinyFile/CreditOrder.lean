import TinyFile.Delivery

/-!
# In-credit clients first

`Credit::enqueue` classifies a client by the sign of its credit, and every call
of `scheduleCredit` moves all credits. The requeue loop classifies the other
waiting clients again, the end of `Credit::schedule` the served one, and an idle
client is classified when its next request arrives. So no classification is ever
stale, and a client without credit is served only when nobody has any.
-/
namespace TinyFile.Scheduler

variable {κ : Type}

/-- Registering a client again changes nothing: the precondition of the machine
leaves no state out. -/
theorem registerClient_of_mem [IntCast κ] {s : Scheduler κ} {k : ℤ} (hk : k ∈ s.registered)
    (priority : ℤ) (p : Placement ℤ) : s.registerClient k priority p = s := by
  rw [Scheduler.registerClient, UnorderedMap.emplace_of_mem hk]

section Sign

variable [Zero κ] [LT κ] [DecidableLT κ]

theorem queueType_eq_under {credit : κ} : queueType credit = .UNDER ↔ 0 < credit := by
  unfold queueType
  split_ifs with hpos
  · simp [hpos]
  · simp [hpos]

/-- A waiting client has the type that `Credit::enqueue` would give it now. -/
def Classified (s : Scheduler κ) : Prop :=
  ∀ k c, s.clientCredits.find? k = some c → c.type ≠ .IDLE → c.type = queueType c.credit

theorem classified_init (numWorkers : ℕ) : Classified (init numWorkers : Scheduler κ) := by
  intro k c hk
  simp [init] at hk

theorem Classified.registerClient [IntCast κ] {s : Scheduler κ} (h : Classified s) {k : ℤ}
    (hk : k ∉ s.registered) (priority : ℤ) (p : Placement ℤ) :
    Classified (s.registerClient k priority p) := by
  intro j c hj hbusy
  rw [find?_registerClient hk] at hj
  split_ifs at hj with he
  · cases hj
    exact absurd rfl hbusy
  · exact h j c hj hbusy

/-- A new request leaves the credits alone; a client that was idle is classified. -/
theorem Classified.enqueue {s s' : Scheduler κ} (h : Classified s) (hq : QueueInvariant ∅ s)
    {k requestId : ℤ} {fileSize : ℕ} {p : Placement ℤ}
    (hrun : s.enqueue k requestId fileSize p = (.ok (), s')) : Classified s' := by
  obtain ⟨c, hc⟩ := registered_of_enqueue_ok hrun
  obtain ⟨s₁, hrun₁, -, -, -, -, -, -, -, -, -, -, c', hc', hfind⟩ :=
    enqueue_spec hq hc requestId fileSize p
  obtain rfl : s₁ = s' := (Prod.mk.inj (hrun₁.symm.trans hrun)).2
  obtain ⟨-, -, hcredit, htype⟩ := hc'
  intro j cj hj hbusy
  rw [hfind] at hj
  split_ifs at hj with he
  · cases hj
    rw [htype, hcredit]
    split_ifs with hidle
    · rfl
    · exact h k c hc hidle
  · exact h j cj hj hbusy

/-- The waiting clients with credit are those in `underQueue`. -/
theorem mem_underQueue_iff {s : Scheduler κ} (hq : QueueInvariant ∅ s) (h : Classified s) {k : ℤ}
    {c : Credit κ} (hk : s.clientCredits.find? k = some c) :
    k ∈ s.underQueue.values ↔ c.type ≠ .IDLE ∧ 0 < c.credit := by
  have hp := hq.placed k c hk (Set.notMem_empty k)
  rw [← hq.key k c hk]
  constructor
  · intro hmem
    have hunder : c.type = .UNDER := by
      cases ht : c.type with
      | UNDER => rfl
      | OVER => exact absurd hmem (hp.ofOver ht).2
      | IDLE => exact absurd hmem (hp.ofIdle ht).1
    have hbusy : c.type ≠ .IDLE := by simp [hunder]
    exact ⟨hbusy, queueType_eq_under.mp ((h k c hk hbusy).symm.trans hunder)⟩
  · rintro ⟨hbusy, hpos⟩
    obtain ⟨⟨it, -, hdes⟩, -⟩ :=
      hp.ofUnder ((h k c hk hbusy).trans (queueType_eq_under.mpr hpos))
    exact hdes.mem_values

/-- While a waiting client has credit, the client that is served has some. -/
theorem credit_pos_of_front {s : Scheduler κ} (hq : QueueInvariant ∅ s) (h : Classified s)
    {k j : ℤ} {q : List ℤ} {c d : Credit κ}
    (hfront : s.underQueue.values ++ s.overQueue.values = k :: q)
    (hk : s.clientCredits.find? k = some c) (hj : s.clientCredits.find? j = some d)
    (hbusy : d.type ≠ .IDLE) (hpos : 0 < d.credit) : 0 < c.credit := by
  have hmem : j ∈ s.underQueue.values := (mem_underQueue_iff hq h hj).mpr ⟨hbusy, hpos⟩
  have hkmem : k ∈ s.underQueue.values := by
    cases hu : s.underQueue.values with
    | nil => simp [hu] at hmem
    | cons k' q' =>
      rw [hu, List.cons_append] at hfront
      obtain ⟨rfl, -⟩ := List.cons.inj hfront
      exact List.mem_cons_self
  exact ((mem_underQueue_iff hq h hk).mp hkmem).2

end Sign

section Arithmetic

variable [Add κ] [Sub κ] [Mul κ] [Div κ] [NatCast κ] [Zero κ] [LT κ] [DecidableLT κ]

/-- Serving a client changes every credit and classifies every waiting client. -/
theorem Served.classified {s s' : Scheduler κ} {k : ℤ} {r : Request} {rest : List Request}
    (h : Served s k r rest s') : Classified s' := by
  intro j c' hj hbusy
  have hreg : j ∈ s.clientCredits.keys := h.keys ▸ UnorderedMap.mem_keys_of_find? hj
  obtain ⟨c, hc⟩ := UnorderedMap.mem_keys_iff.mp hreg
  by_cases hjk : j = k
  · subst hjk
    obtain ⟨c₁, hc₁, hcharged⟩ := h.self c hc
    obtain rfl : c₁ = c' := Option.some.inj (hc₁.symm.trans hj)
    have htype := hcharged.type
    split_ifs at htype with hrest
    · exact absurd htype hbusy
    · rw [htype, hcharged.credit]
  · obtain ⟨c₁, hc₁, hreq⟩ := h.others j c hjk hc
    obtain rfl : c₁ = c' := Option.some.inj (hc₁.symm.trans hj)
    have htype := hreq.type
    split_ifs at htype with hidle
    · exact absurd htype hbusy
    · rw [htype, hreq.credit]

/-- Without requests both queues are empty. -/
theorem CreditInvariant.count_pos {s t : Scheduler κ} {r : Request} (h : CreditInvariant s)
    (hrun : s.scheduleCredit = .ok (r, t)) : 0 < s.requestCount := by
  by_contra hzero
  have hempty : s.underQueue.values ++ s.overQueue.values = [] := by
    apply List.eq_nil_iff_forall_not_mem.mpr
    intro k hk
    obtain ⟨c, hc⟩ := UnorderedMap.mem_keys_iff.mp (h.queues.mem_registered hk)
    have hnone := pending_eq_nil_of_count h.map (by omega) k
    exact (h.queues.mem_iff hc).mp hk ((h.idle_iff k c hc).mpr hnone)
  simp [Scheduler.scheduleCredit, hempty] at hrun

/-- While a client with a request has credit, `scheduleCredit` serves one that has. -/
theorem credit_pos_of_served {s t : Scheduler κ} (hinv : CreditInvariant s) (h : Classified s)
    {r : Request} (hrun : s.scheduleCredit = .ok (r, t)) {j : ℤ} {c d : Credit κ}
    (hc : s.clientCredits.find? r.clientId = some c) (hj : s.clientCredits.find? j = some d)
    (hp : s.pending j ≠ []) (hpos : 0 < d.credit) : 0 < c.credit := by
  obtain ⟨k, q, r', rest, t', hfront, -, hpk, hrun', -⟩ :=
    scheduleCredit_spec hinv (hinv.count_pos hrun)
  obtain ⟨rfl, -⟩ : r' = r ∧ t' = t := Prod.mk.inj (Except.ok.inj (hrun'.symm.trans hrun))
  have howner : r'.clientId = k := hinv.map.owner k r' (hpk ▸ List.mem_cons_self)
  have hbusy : d.type ≠ .IDLE := fun hidle => hp ((hinv.idle_iff j d hj).mp hidle)
  exact credit_pos_of_front hinv.queues h hfront (howner ▸ hc) hj hbusy hpos

/-- The client of a request that is served is registered. -/
theorem CreditInvariant.registered_of_served {s t : Scheduler κ} {r : Request}
    (h : CreditInvariant s) (hrun : s.scheduleCredit = .ok (r, t)) :
    r.clientId ∈ s.registered := by
  obtain ⟨r', t', hrun', hreg, -⟩ := h.scheduleCredit (h.count_pos hrun)
  obtain ⟨rfl, -⟩ : r' = r ∧ t' = t := Prod.mk.inj (Except.ok.inj (hrun'.symm.trans hrun))
  exact hreg

variable [IntCast κ]

theorem Classified.next {s t : Scheduler κ} {e : Event} (h : Classified s)
    (hinv : CreditInvariant s) (ht : next .credit s e = some t) (hno : ¬ e.IsDeregistration) :
    Classified t := by
  cases e with
  | registerClient k priority p =>
    simp only [Scheduler.next] at ht
    split at ht
    · cases ht
    · next hk =>
      cases ht
      exact h.registerClient hk priority p
  | enqueue k requestId fileSize p => exact h.enqueue hinv.queues (enqueue_of_next ht)
  | schedule =>
    obtain ⟨hpos, r, hrun⟩ := schedule_of_next ht
    obtain ⟨k, q, r', rest, t', -, -, -, hrun', -, hserved, -⟩ := scheduleCredit_spec hinv hpos
    obtain rfl : t' = t := (Prod.mk.inj (Except.ok.inj (hrun'.symm.trans hrun))).2
    exact hserved.classified
  | deregisterClient k => exact absurd trivial hno

theorem classified_of_reachable {numWorkers : ℕ} {s : Scheduler κ}
    (h : (machine .credit numWorkers).ReachableIf (fun _ e => ¬ e.IsDeregistration) s) :
    CreditInvariant s ∧ Classified s := by
  induction h with
  | start => exact ⟨creditInvariant_init numWorkers, classified_init numWorkers⟩
  | step _ hnext hno ih =>
    exact ⟨ih.1.next hnext (fun k _ he _ => absurd (he ▸ trivial) hno), ih.2.next ih.1 hnext hno⟩

end Arithmetic

/-- A waiting client is `UNDER` exactly while it has credit, and a client without
credit is served only when no client with a request has any. -/
theorem in_credit_first {numWorkers : ℕ} {s : Scheduler ℚ}
    (h : (machine .credit numWorkers).ReachableIf (fun _ e => ¬ e.IsDeregistration) s) :
    (∀ k c, s.clientCredits.find? k = some c → c.type ≠ .IDLE →
      (c.type = .UNDER ↔ 0 < c.credit)) ∧
    ∀ r t, s.scheduleCredit = .ok (r, t) →
      ∃ c, s.clientCredits.find? r.clientId = some c ∧
        (c.credit ≤ 0 → ∀ k d, s.clientCredits.find? k = some d → s.pending k ≠ [] →
          d.credit ≤ 0) := by
  obtain ⟨hinv, hclass⟩ := classified_of_reachable h
  constructor
  · intro k c hk hbusy
    rw [hclass k c hk hbusy]
    exact queueType_eq_under
  · intro r t hrun
    obtain ⟨c, hc⟩ := UnorderedMap.mem_keys_iff.mp (hinv.registered_of_served hrun)
    refine ⟨c, hc, fun hspent k d hk hp => ?_⟩
    by_contra hrich
    exact absurd (credit_pos_of_served hinv hclass hrun hc hk hp (not_le.mp hrich))
      (not_lt.mpr hspent)

/-- Two clients with priority 0 wait, and one with credit does not. -/
def spentClients : List Event :=
  [.registerClient 0 0 (.splice 0), .registerClient 1 64 (.splice 0),
    .registerClient 2 0 (.splice 0), .enqueue 0 0 100 (.splice 0), .enqueue 2 0 200 (.splice 0)]

theorem in_credit_first_spent_clients :
    ∃ (s : Scheduler ℚ) (r : Request) (t : Scheduler ℚ),
      (machine .credit 4).runIf (fun _ e => ¬ e.IsDeregistration) (init 4) spentClients =
        some s ∧
      s.scheduleCredit = .ok (r, t) ∧
      ∀ k d, s.clientCredits.find? k = some d → s.pending k ≠ [] → d.credit ≤ 0 := by
  have hserve : ((machine .credit 4).runIf (fun _ e => ¬ e.IsDeregistration)
      (init 4 : Scheduler ℚ) spentClients).map (fun s => s.scheduleCredit.toOption.map
        fun rt => (s.clientCredits.find? rt.1.clientId).map Credit.credit) =
      some (some (some 0)) := by decide +kernel
  obtain ⟨s, hs, hok⟩ := Option.map_eq_some_iff.mp hserve
  obtain ⟨⟨r, t⟩, hrun, hcredit⟩ := Option.map_eq_some_iff.mp hok
  obtain ⟨d, hd, hspent⟩ := Option.map_eq_some_iff.mp hcredit
  have hreach : (machine .credit 4).ReachableIf (fun _ e => ¬ e.IsDeregistration) s :=
    Machine.reachableIf_of_runIf hs
  have hrt : s.scheduleCredit = .ok (r, t) := by
    cases hcall : s.scheduleCredit with
    | error fault =>
      rw [hcall] at hrun
      cases hrun
    | ok rt =>
      rw [hcall] at hrun
      rw [Option.some.inj hrun]
  obtain ⟨c, hc, hfirst⟩ := (in_credit_first hreach).2 r t hrt
  obtain rfl : d = c := Option.some.inj (hd.symm.trans hc)
  exact ⟨s, r, t, hs, hrt, hfirst hspent.le⟩

end TinyFile.Scheduler
