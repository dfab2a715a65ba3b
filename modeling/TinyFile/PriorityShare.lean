import TinyFile.CreditRace
import TinyFile.Delivery
import TinyFile.Fairness

/-!
# The share of a client under the credit strategy

Two clients with unlimited work take turns by the signs of their credits, as the
parties of `TinyFile.CreditRace` do: a call of `scheduleCredit` rebuilds both
queues with the other client ahead of the served one, so the served client comes
next only from `underQueue` against an opponent in `overQueue`.
-/
namespace TinyFile.Scheduler

theorem served_append {κ : Type} [Add κ] [Sub κ] [Mul κ] [Div κ] [NatCast κ] [IntCast κ]
    [Zero κ] [LT κ] [DecidableLT κ] {numWorkers : ℕ} {ok : Scheduler κ → Event → Prop}
    {s t : Scheduler κ} {es : List Event} (h : (machine .credit numWorkers).RunIf ok s es t)
    (es' : List Event) : served s (es ++ es') = served s es ++ served t es' := by
  induction h with
  | nil => rfl
  | cons hnext _ _ ih =>
    rw [List.cons_append, served_cons hnext, served_cons hnext, ih, List.append_assoc]

open CreditRace (Turns SharedWithin lead)

/-- Both clients wait at every call of `schedule`, nobody comes or goes, and all
requests have one size. -/
def Contended (A B : ℤ) (f : ℕ) (s : Scheduler ℚ) : Event → Prop
  | .schedule => s.pending A ≠ [] ∧ s.pending B ≠ []
  | .enqueue clientId _ fileSize _ => (clientId = A ∨ clientId = B) ∧ fileSize = f
  | .registerClient .. => False
  | .deregisterClient _ => False

/-- The charge for a request of the common size. -/
def turnSize (f numWorkers : ℕ) : ℚ := (f : ℚ) / (FILE_CREDIT_MULTIPLIER : ℚ) / (numWorkers : ℚ)

/-- The credit of a client after a history of turns. -/
def creditAfter (P : Bool → ℤ) (f numWorkers : ℕ) (w : Bool) (ws : List Bool) : ℚ :=
  CreditRace.credit (fun v => (P v : ℚ)) DEFAULT_PRIORITY (turnSize f numWorkers) w ws

/-- The state of the scheduler after a history of turns between the clients
`ids true` and `ids false`, which have `n` requests or more. -/
structure Contest (ids : Bool → ℤ) (P : Bool → ℤ) (f numWorkers : ℕ) (n : Bool → ℕ)
    (s : Scheduler ℚ) (ws : List Bool) : Prop where
  invariant : CreditInvariant s
  workers : s.numWorkers = numWorkers
  registered : ∀ k ∈ s.registered, ∃ w, k = ids w
  record : ∀ w, ∃ c, s.clientCredits.find? (ids w) = some c ∧ c.priority = P w ∧
    c.credit = creditAfter P f numWorkers w ws
  backlog : ∀ w, n w ≤ (s.pending (ids w)).length
  size : ∀ w, ∀ r ∈ s.pending (ids w), r.fileSize = f
  rule : ∀ w, (s.underQueue.values ++ s.overQueue.values).head? = some (ids w) →
    ws.head? = some w →
    0 < creditAfter P f numWorkers w ws ∧ creditAfter P f numWorkers (!w) ws ≤ 0

variable {ids P : Bool → ℤ} {f numWorkers : ℕ} {n : Bool → ℕ} {s : Scheduler ℚ} {ws : List Bool}

theorem creditAfter_self (w : Bool) :
    creditAfter P f numWorkers w (w :: ws) =
      creditAfter P f numWorkers w ws - turnSize f numWorkers := by
  have hother : (w :: ws).count (!w) = ws.count (!w) := List.count_cons_of_ne (by simp)
  simp only [creditAfter, CreditRace.credit, List.count_cons_self, hother]
  push_cast
  ring

theorem creditAfter_other (w : Bool) :
    creditAfter P f numWorkers (!w) (w :: ws) = creditAfter P f numWorkers (!w) ws +
      P (!w) * (f : ℚ) / (DEFAULT_PRIORITY : ℚ) / (FILE_CREDIT_MULTIPLIER : ℚ) /
        (numWorkers : ℚ) := by
  have hother : (w :: ws).count (!w) = ws.count (!w) := List.count_cons_of_ne (by simp)
  simp only [creditAfter, CreditRace.credit, turnSize, Bool.not_not, List.count_cons_self, hother]
  push_cast
  ring

theorem head?_append_ne {l m : List ℤ} {k : ℤ} (hl : l ≠ []) (hk : k ∉ l) :
    (l ++ m).head? ≠ some k := by
  cases l with
  | nil => exact absurd rfl hl
  | cons j l =>
    intro h
    have hj : j = k := by simpa using h
    exact hk (hj ▸ List.mem_cons_self)

/-- A request arrives; the history goes on. -/
theorem Contest.enqueue (h : Contest ids P f numWorkers n s []) (hids : Function.Injective ids)
    (v : Bool) :
    ∃ t, next .credit s (.enqueue (ids v) 0 f (.splice 0)) = some t ∧
      Contest ids P f numWorkers (fun w => if w = v then n w + 1 else n w) t [] := by
  obtain ⟨c, hc, hpriority, hcredit⟩ := h.record v
  obtain ⟨t, hrun, -, hworkers, hkeys, -, -, -, hpending, -, -, -, c', hc', hfind⟩ :=
    enqueue_spec h.invariant.queues hc 0 f (.splice 0)
  refine ⟨t, by simp [next, hrun], h.invariant.enqueue hrun, hworkers.trans h.workers, ?_, ?_,
    ?_, ?_, by simp⟩
  · intro k hk
    rw [Scheduler.registered, hkeys] at hk
    exact h.registered k hk
  · intro w
    rw [hfind]
    split_ifs with he
    · obtain rfl := hids he
      exact ⟨c', rfl, hc'.2.1.trans hpriority, hc'.2.2.1.trans hcredit⟩
    · exact h.record w
  · intro w
    have hold := h.backlog w
    rw [hpending]
    by_cases he : w = v
    · subst he
      simpa using hold
    · simpa [he, hids.ne he] using hold
  · intro w r hr
    rw [hpending] at hr
    split_ifs at hr with he
    · rcases List.mem_append.mp hr with hr | hr
      · exact h.size v r hr
      · rw [List.mem_singleton.mp hr]
    · exact h.size w r hr

/-- The served client comes next only if it still has credit, and a client that
waits has none. -/
theorem Served.of_first {t : Scheduler ℚ} {k j : ℤ} {r : Request} {rest : List Request}
    {c d : Credit ℚ} (h : Served s k r rest t) (hc : s.clientCredits.find? k = some c)
    (hd : s.clientCredits.find? j = some d) (hjk : j ≠ k) (hbusy : d.type ≠ .IDLE)
    (hfirst : (t.underQueue.values ++ t.overQueue.values).head? = some k) :
    0 < s.charge r.fileSize c ∧ s.gain r.fileSize d ≤ 0 := by
  rw [h.underQueue c hc, h.overQueue c hc] at hfirst
  have hkey : j ∈ s.clientCredits.keys := UnorderedMap.mem_keys_of_find? hd
  -- a client with credit would be ahead in `underQueue`, one without in `overQueue`
  have hno : s.gain r.fileSize d ≤ 0 := by
    by_contra hyes
    refine absurd hfirst ?_
    rw [List.append_assoc]
    refine head?_append_ne ?_ (by simp)
    refine List.ne_nil_of_mem (a := j) (List.mem_filter.mpr ⟨hkey, ?_⟩)
    simp [waitsUnder, hd, hbusy, hjk, not_le.mp hyes]
  refine ⟨?_, hno⟩
  by_contra hspent
  refine absurd hfirst ?_
  simp only [landing, if_neg hspent, ite_self, List.append_nil]
  rw [← List.append_assoc]
  refine head?_append_ne ?_ (by simp)
  refine List.append_ne_nil_of_right_ne_nil _ (List.ne_nil_of_mem (a := j) ?_)
  refine List.mem_filter.mpr ⟨hkey, ?_⟩
  simp [waitsOver, hd, hbusy, hjk, not_lt.mpr hno]

/-- A call of `scheduleCredit` is one turn under the sign rule. -/
theorem Contest.schedule (h : Contest ids P f numWorkers (fun w => n w + 1) s ws)
    (hids : Function.Injective ids) :
    ∃ w t, next .credit s .schedule = some t ∧ servedBy s .schedule = [ids w] ∧
      (ws.head? = some w →
        0 < creditAfter P f numWorkers w ws ∧ creditAfter P f numWorkers (!w) ws ≤ 0) ∧
      Contest ids P f numWorkers n t (w :: ws) := by
  have hwaits : ∀ w, s.pending (ids w) ≠ [] := by
    intro w hnil
    have hlong := h.backlog w
    rw [hnil] at hlong
    simp at hlong
  have hpos : 0 < s.requestCount := by
    by_contra hzero
    exact hwaits true (pending_eq_nil_of_count h.invariant.map (by omega) _)
  obtain ⟨k, q, r, rest, t, hfront, hreg, hp, hrun, -, hserved, hcount⟩ :=
    scheduleCredit_spec h.invariant hpos
  obtain ⟨w, rfl⟩ := h.registered k hreg
  have hsched : s.schedule .credit = .ok (r, t) := hrun
  have hnext : next .credit s .schedule = some t := by
    have hne : s.requestCount ≠ 0 := by omega
    simp [next, hne, hsched, Except.toOption]
  have hr : r.clientId = ids w := h.invariant.map.owner _ r (hp ▸ List.mem_cons_self)
  have hsize : r.fileSize = f := h.size w r (hp ▸ List.mem_cons_self)
  obtain ⟨-, hpending⟩ := h.invariant.map.pop hp rfl hserved.requestMap hserved.keys hcount
  have hother : ids (!w) ≠ ids w := hids.ne (by simp)
  obtain ⟨c, hc, hpriority, hcredit⟩ := h.record w
  obtain ⟨d, hd, hpriority', hcredit'⟩ := h.record (!w)
  have hcharge : s.charge r.fileSize c = creditAfter P f numWorkers w (w :: ws) := by
    rw [creditAfter_self, charge, hsize, hcredit, h.workers, turnSize]
  have hgain : s.gain r.fileSize d = creditAfter P f numWorkers (!w) (w :: ws) := by
    rw [creditAfter_other, gain, hsize, hcredit', hpriority', h.workers]
  refine ⟨w, t, hnext, by simp [servedBy, hsched, hr], ?_, ?_⟩
  · exact h.rule w (by rw [hfront, List.head?_cons])
  · refine ⟨h.invariant.next hnext (by simp), hserved.numWorkers.trans h.workers, ?_, ?_, ?_,
      ?_, ?_⟩
    · intro k hk
      rw [Scheduler.registered, hserved.keys] at hk
      exact h.registered k hk
    · intro v
      by_cases hv : v = w
      · subst hv
        obtain ⟨c', hc', hcharged⟩ := hserved.self c hc
        exact ⟨c', hc', hcharged.priority.trans hpriority, hcharged.credit.trans hcharge⟩
      · obtain rfl : v = !w := by cases v <;> cases w <;> simp_all
        obtain ⟨d', hd', hreq⟩ := hserved.others _ d hother hd
        exact ⟨d', hd', hreq.priority.trans hpriority', hreq.credit.trans hgain⟩
    · intro v
      have hold := h.backlog v
      rw [hpending]
      split_ifs with he
      · obtain rfl := hids he
        rw [hp] at hold
        simpa using hold
      · omega
    · intro v r' hr'
      rw [hpending] at hr'
      split_ifs at hr' with he
      · exact h.size w r' (hp ▸ List.mem_cons_of_mem r hr')
      · exact h.size v r' hr'
    · intro v hv hlast
      obtain rfl : w = v := by simpa using hlast
      have hbusy : d.type ≠ .IDLE := fun hidle =>
        hwaits (!w) ((h.invariant.idle_iff _ d hd).mp hidle)
      have hfirst := hserved.of_first hc hd hother hbusy hv
      rwa [hcharge, hgain] at hfirst

/-- The state after the registration of two clients. -/
def twoRegistered (numWorkers : ℕ) (A pA : ℤ) (p : Placement ℤ) (B pB : ℤ) (p' : Placement ℤ) :
    Scheduler ℚ :=
  ((init numWorkers).registerClient A pA p).registerClient B pB p'

/-- `nA * pB - nB * pA` for the numbers of requests served along a run. -/
def priorityGap (A pA B pB : ℤ) (s : Scheduler ℚ) (es : List Event) : ℚ :=
  (served s es).count A * pB - (served s es).count B * pA

theorem contest_twoRegistered (hids : Function.Injective ids) (p p' : Placement ℤ) :
    Contest ids P f numWorkers (fun _ => 0)
      (twoRegistered numWorkers (ids true) (P true) p (ids false) (P false) p') [] := by
  have hnone : ids true ∉ (init numWorkers : Scheduler ℚ).registered := by simp [init, registered]
  have hnew : ids false ∉ ((init numWorkers : Scheduler ℚ).registerClient (ids true) (P true)
      p).registered := by
    rw [mem_registered_registerClient]
    exact fun hm => hm.elim (fun he => by simpa using hids he) (by simp [init, registered])
  refine ⟨((creditInvariant_init numWorkers).registerClient hnone _ p).registerClient hnew _ p',
    rfl, ?_, ?_, fun _ => Nat.zero_le _, ?_, by simp⟩
  · intro k hk
    rcases mem_registered_registerClient.mp hk with hk | hk
    · exact ⟨false, hk⟩
    · rcases mem_registered_registerClient.mp hk with hk | hk
      · exact ⟨true, hk⟩
      · simp [init, registered] at hk
  · intro w
    rw [twoRegistered, find?_registerClient hnew, find?_registerClient hnone]
    cases w with
    | true =>
      have hne : ids true ≠ ids false := hids.ne (by simp)
      exact ⟨_, by rw [if_neg hne, if_pos rfl], rfl, by simp [creditAfter, CreditRace.credit]⟩
    | false => exact ⟨_, by rw [if_pos rfl], rfl, by simp [creditAfter, CreditRace.credit]⟩
  · intro w r hr
    simp [twoRegistered, Scheduler.registerClient, init, pending] at hr

/-- Requests for both clients arrive, as many as one likes. -/
theorem Contest.fill (hids : Function.Injective ids)
    (h : Contest ids P f numWorkers (fun _ => 0) s []) (n : ℕ) :
    ∃ t es, (machine .credit numWorkers).RunIf (Contended (ids true) (ids false) f) s es t ∧
      served s es = [] ∧ Contest ids P f numWorkers (fun _ => n) t [] := by
  induction n with
  | zero => exact ⟨s, [], .nil s, rfl, h⟩
  | succ n ih =>
    obtain ⟨t, es, hrun, hserved, ht⟩ := ih
    obtain ⟨u, hu, hcu⟩ := ht.enqueue hids true
    obtain ⟨v, hv, hcv⟩ := hcu.enqueue hids false
    have hrun' : (machine .credit numWorkers).RunIf (Contended (ids true) (ids false) f) t
        [.enqueue (ids true) 0 f (.splice 0), .enqueue (ids false) 0 f (.splice 0)] v :=
      .cons hu ⟨Or.inl rfl, rfl⟩ (.cons hv ⟨Or.inr rfl, rfl⟩ (.nil v))
    refine ⟨v, _, hrun.append hrun', ?_, ?_⟩
    · rw [served_append hrun, hserved, served_cons hu, served_cons hv]
      rfl
    · have hboth : (fun w => if w = false then (if w = true then n + 1 else n) + 1
          else if w = true then n + 1 else n) = fun _ => n + 1 := by
        funext w
        cases w <;> rfl
      exact hboth ▸ hcv

/-- The history of `m` calls, and that it kept the share if every run does. -/
theorem Contest.run (hids : Function.Injective ids) {K : ℚ} {n : ℕ}
    (h : Contest ids P f numWorkers (fun _ => n) s [])
    (hbound : ∀ es t, (machine .credit numWorkers).RunIf (Contended (ids true) (ids false) f)
      s es t → |priorityGap (ids true) (P true) (ids false) (P false) s es| ≤ K) :
    ∀ m k, m + k = n → ∃ t ws,
      (machine .credit numWorkers).RunIf (Contended (ids true) (ids false) f) s
        (List.replicate m .schedule) t ∧
      served s (List.replicate m .schedule) = (ws.map ids).reverse ∧ ws.length = m ∧
      Turns (fun w => (P w : ℚ)) DEFAULT_PRIORITY (turnSize f numWorkers) ws ∧
      SharedWithin (fun w => (P w : ℚ)) K ws ∧
      Contest ids P f numWorkers (fun _ => k) t ws := by
  have hlead : ∀ es t ws, (machine .credit numWorkers).RunIf
      (Contended (ids true) (ids false) f) s es t → served s es = (ws.map ids).reverse →
      |lead (fun w => (P w : ℚ)) true ws| ≤ K := by
    intro es t ws hrun hserved
    have hle := hbound es t hrun
    rwa [priorityGap, hserved, List.count_reverse, List.count_reverse, List.count_map_of_injective _ _ hids,
      List.count_map_of_injective _ _ hids] at hle
  intro m
  induction m with
  | zero =>
    intro k hk
    obtain rfl : k = n := by omega
    refine ⟨s, [], .nil s, rfl, rfl, .nil, ?_, h⟩
    intro vs hvs
    obtain rfl := List.suffix_nil.mp hvs
    exact hlead [] s [] (.nil s) rfl
  | succ m ih =>
    intro k hk
    obtain ⟨t, ws, hrun, hserved, hlen, hturns, hshared, ht⟩ := ih (k + 1) (by omega)
    obtain ⟨w, u, hnext, hby, hrule, hu⟩ := ht.schedule hids
    have hwaits : ∀ v, t.pending (ids v) ≠ [] := by
      intro v hnil
      have hlong := ht.backlog v
      simp [hnil] at hlong
    have hstep : (machine .credit numWorkers).RunIf (Contended (ids true) (ids false) f) t
        [.schedule] u := .cons hnext ⟨hwaits true, hwaits false⟩ (.nil u)
    have hrun' := hrun.append hstep
    have hserved' : served s (List.replicate m .schedule ++ [.schedule]) =
        ((w :: ws).map ids).reverse := by
      rw [served_append hrun, hserved, served_cons hnext, hby]
      simp [served]
    rw [List.replicate_succ']
    refine ⟨u, w :: ws, hrun', hserved', by simp [hlen], hturns.cons hrule, ?_, hu⟩
    intro vs hvs
    rcases List.suffix_cons_iff.mp hvs with rfl | hvs
    · exact hlead _ u _ hrun' hserved'
    · exact hshared vs hvs

/-- The calls of a long enough run exceed every bound. -/
theorem not_shared_by_priority (hids : Function.Injective ids) (hP : ∀ w, 0 < P w) {w : Bool}
    (hw : P (!w) < P w) (hs : Contest ids P f numWorkers (fun _ => 0) s []) (K : ℚ) :
    ¬ ∀ es t, (machine .credit numWorkers).RunIf (Contended (ids true) (ids false) f) s es t →
      |priorityGap (ids true) (P true) (ids false) (P false) s es| ≤ K := by
  intro hbound
  have hturn : 0 ≤ turnSize f numWorkers := by
    unfold turnSize
    positivity
  have hunit : (0 : ℚ) < DEFAULT_PRIORITY := by norm_num [DEFAULT_PRIORITY]
  obtain ⟨n, hn⟩ := CreditRace.not_sharedWithin (P := fun v => (P v : ℚ)) (w := w)
    (by exact_mod_cast hP (!w)) (by exact_mod_cast hw) hunit hturn K
  obtain ⟨s', es, hfill, hnobody, hs'⟩ := Contest.fill hids hs n
  have hbound' : ∀ es' t, (machine .credit numWorkers).RunIf
      (Contended (ids true) (ids false) f) s' es' t →
      |priorityGap (ids true) (P true) (ids false) (P false) s' es'| ≤ K := by
    intro es' t hrun
    have hle := hbound _ t (hfill.append hrun)
    rwa [priorityGap, served_append hfill, hnobody, List.nil_append] at hle
  obtain ⟨t, ws, -, -, hlen, hturns, hshared, -⟩ := hs'.run hids hbound' n 0 (by omega)
  exact hn ws hturns hlen.ge hshared

/-- The parties `true` and `false` as the clients `A` and `B`. -/
def pair (A B : ℤ) (w : Bool) : ℤ := if w then A else B

theorem pair_injective {A B : ℤ} (h : A ≠ B) : Function.Injective (pair A B) := by
  intro v w hvw
  cases v <;> cases w <;> simp_all [pair, eq_comm]

/-- Under the CREDIT strategy the share of a client does not follow its priority:
for no two distinct priorities is there a bound on the difference. -/
theorem priority_not_honoured {A B pA pB : ℤ} (hAB : A ≠ B) (hA : 0 < pA) (hB : 0 < pB)
    (hne : pA ≠ pB) (f numWorkers : ℕ) (p p' : Placement ℤ) :
    ¬ ∃ K : ℚ, ∀ es t, (machine .credit numWorkers).RunIf (Contended A B f)
      (twoRegistered numWorkers A pA p B pB p') es t →
      |priorityGap A pA B pB (twoRegistered numWorkers A pA p B pB p') es| ≤ K := by
  rintro ⟨K, hK⟩
  have hids := pair_injective hAB
  have hP : ∀ w, 0 < pair pA pB w := by
    intro w
    cases w with
    | true => exact hA
    | false => exact hB
  have hstart : Contest (pair A B) (pair pA pB) f numWorkers (fun _ => 0)
      (twoRegistered numWorkers A pA p B pB p') [] := contest_twoRegistered hids p p'
  rcases lt_or_gt_of_ne hne with hlt | hlt
  · exact not_shared_by_priority (w := false) hids hP hlt hstart K hK
  · exact not_shared_by_priority (w := true) hids hP hlt hstart K hK

theorem priority_not_honoured_half :
    ¬ ∃ K : ℚ, ∀ es t, (machine .credit 4).RunIf (Contended 0 1 1000)
      (twoRegistered 4 0 32 (.splice 0) 1 64 (.splice 0)) es t →
      |priorityGap 0 32 1 64 (twoRegistered 4 0 32 (.splice 0) 1 64 (.splice 0)) es| ≤ K :=
  priority_not_honoured (by decide) (by decide) (by decide) (by decide) 1000 4 _ _

/-- Four requests for each of two clients, and as many calls. -/
def eightCalls : List Event :=
  (List.replicate 4 [.enqueue 0 0 1000 (.splice 0), .enqueue 1 0 1000 (.splice 0)]).flatten ++
    List.replicate 8 .schedule

/-- Twice the priority brings the same share: the clients alternate, and the
difference exceeds every bound in the end. -/
theorem double_priority_same_share :
    served (twoRegistered 4 0 128 (.splice 0) 1 64 (.splice 0)) eightCalls =
        [0, 1, 0, 1, 0, 1, 0, 1] ∧
      ¬ ∃ K : ℚ, ∀ es t, (machine .credit 4).RunIf (Contended 0 1 1000)
        (twoRegistered 4 0 128 (.splice 0) 1 64 (.splice 0)) es t →
        |priorityGap 0 128 1 64 (twoRegistered 4 0 128 (.splice 0) 1 64 (.splice 0)) es| ≤ K := by
  refine ⟨by decide +kernel, ?_⟩
  rintro ⟨K, hK⟩
  have hids : Function.Injective (pair 0 1) := pair_injective (by decide)
  have hstart : Contest (pair 0 1) (pair 128 64) 1000 4 (fun _ => 0)
      (twoRegistered 4 0 128 (.splice 0) 1 64 (.splice 0)) [] := contest_twoRegistered hids _ _
  exact not_shared_by_priority (w := true) hids (by decide) (by decide) hstart K hK

end TinyFile.Scheduler
