import TinyFile.CreditAccounting
import TinyFile.CreditOrder
import TinyFile.PriorityShare

/-!
# Bytes of two equal clients

Two clients of the default priority gain and lose the same amount: what one is
charged for a file, the other is credited. So their credits always add up to the
same sum, which is positive, and each is a measure of the bytes by which the
other client is ahead. A client is served only while it has credit, so nobody
gets further ahead than that and one file.
-/
namespace TinyFile.Scheduler

/-- The bytes of a client's requests. -/
def bytesOf (k : ℤ) (rs : List Request) : ℕ :=
  ((rs.filter (fun r => r.clientId = k)).map Request.fileSize).sum

theorem bytesOf_cons (k : ℤ) (r : Request) (rs : List Request) :
    bytesOf k (r :: rs) = (if r.clientId = k then r.fileSize else 0) + bytesOf k rs := by
  by_cases hr : r.clientId = k
  · simp [bytesOf, hr]
  · simp [bytesOf, hr]

/-- Nobody but the clients `A` and `B` registers, both with the default priority
and for good; both wait at every call of `schedule`, and no request is larger
than `F`. -/
def EqualClients (A B : ℤ) (F : ℕ) (s : Scheduler ℚ) : Event → Prop
  | .registerClient clientId priority _ =>
      (clientId = A ∨ clientId = B) ∧ priority = DEFAULT_PRIORITY
  | .enqueue _ _ fileSize _ => fileSize ≤ F
  | .schedule => s.pending A ≠ [] ∧ s.pending B ≠ []
  | .deregisterClient _ => False

instance (A B : ℤ) (F : ℕ) (s : Scheduler ℚ) (e : Event) : Decidable (EqualClients A B F s e) :=
  match e with
  | .registerClient .. => inferInstanceAs (Decidable (_ ∧ _))
  | .enqueue .. => inferInstanceAs (Decidable (_ ≤ _))
  | .schedule => inferInstanceAs (Decidable (_ ∧ _))
  | .deregisterClient _ => isFalse id

/-- The initial credit, in bytes. -/
def allowance (numWorkers : ℕ) : ℚ := DEFAULT_PRIORITY * FILE_CREDIT_MULTIPLIER * numWorkers

/-- The state of the scheduler when `bytes` have been scheduled for the clients
`ids true` and `ids false`. -/
structure Level (ids : Bool → ℤ) (F numWorkers : ℕ) (bytes : Bool → ℕ) (s : Scheduler ℚ) :
    Prop where
  invariant : CreditInvariant s
  classified : Classified s
  workers : s.numWorkers = numWorkers
  registered : ∀ k ∈ s.registered, ∃ w, k = ids w
  size : ∀ k, ∀ r ∈ s.pending k, r.fileSize ≤ F
  fresh : ∀ w, ids w ∉ s.registered → ∀ v, bytes v = 0
  balance : ∀ w b, s.balance (ids w) = some b → b.priority = DEFAULT_PRIORITY ∧
    b.credit = DEFAULT_PRIORITY +
      ((bytes (!w) : ℚ) - bytes w) / (FILE_CREDIT_MULTIPLIER * numWorkers)
  ahead : ∀ w, (bytes w : ℚ) < bytes (!w) + allowance numWorkers + F

theorem CreditInvariant.keyed {κ : Type} {s : Scheduler κ} (h : CreditInvariant s) : Keyed s := by
  intro k b hb
  obtain ⟨c, hc, rfl⟩ := Option.map_eq_some_iff.mp hb
  exact h.queues.key k c hc

section Steps

variable {ids : Bool → ℤ} {F numWorkers : ℕ} {bytes : Bool → ℕ} {s t : Scheduler ℚ}

theorem allowance_pos (hN : 0 < numWorkers) : 0 < allowance numWorkers := by
  have hN' : (0 : ℚ) < numWorkers := by exact_mod_cast hN
  refine mul_pos ?_ hN'
  norm_num [DEFAULT_PRIORITY, FILE_CREDIT_MULTIPLIER]

theorem level_init (hN : 0 < numWorkers) :
    Level ids F numWorkers (fun _ => 0) (init numWorkers) where
  invariant := creditInvariant_init numWorkers
  classified := classified_init numWorkers
  workers := rfl
  registered := by simp [init, Scheduler.registered]
  size := by simp [init, pending]
  fresh := fun _ _ _ => rfl
  balance := by simp [init, Scheduler.balance]
  ahead := by
    intro w
    have := allowance_pos hN
    positivity

/-- A client with credit is not ahead by its allowance. -/
theorem lt_of_credit_pos (hN : 0 < numWorkers) {a b : ℕ}
    (h : (0 : ℚ) < DEFAULT_PRIORITY + ((b : ℚ) - a) / (FILE_CREDIT_MULTIPLIER * numWorkers)) :
    (a : ℚ) < b + allowance numWorkers := by
  have hN' : (0 : ℚ) < numWorkers := by exact_mod_cast hN
  have hM : (0 : ℚ) < FILE_CREDIT_MULTIPLIER * numWorkers := by
    refine mul_pos ?_ hN'
    norm_num [FILE_CREDIT_MULTIPLIER]
  have hscaled := mul_pos h hM
  rw [add_mul, div_mul_cancel₀ _ hM.ne'] at hscaled
  unfold allowance
  linarith

/-- What the charge for a file and the credit for it come to. -/
theorem balance_after (w v : Bool) {b : Balance ℚ} {f : ℕ}
    (hb : b.priority = DEFAULT_PRIORITY ∧ b.credit = DEFAULT_PRIORITY +
      ((bytes (!v) : ℚ) - bytes v) / (FILE_CREDIT_MULTIPLIER * numWorkers)) :
    let b' := (if v = w then Balance.charged numWorkers f else Balance.credited numWorkers f) b
    let bytes' := fun u => if u = w then bytes u + f else bytes u
    b'.priority = DEFAULT_PRIORITY ∧ b'.credit = DEFAULT_PRIORITY +
      ((bytes' (!v) : ℚ) - bytes' v) / (FILE_CREDIT_MULTIPLIER * numWorkers) := by
  obtain ⟨hpriority, hcredit⟩ := hb
  have hunit : (DEFAULT_PRIORITY : ℚ) ≠ 0 := by norm_num [DEFAULT_PRIORITY]
  by_cases hv : v = w
  · subst hv
    have hother : (!v) ≠ v := by simp
    simp only [if_true, if_neg hother, Balance.charged]
    refine ⟨hpriority, ?_⟩
    rw [hcredit]
    push_cast
    ring
  · have hother : (!v) = w := by cases v <;> cases w <;> simp_all
    simp only [if_neg hv, hother, if_true, Balance.credited]
    refine ⟨hpriority, ?_⟩
    rw [hcredit, hpriority, mul_div_cancel_left₀ _ hunit, hother]
    push_cast
    ring

theorem Level.registerClient (h : Level ids F numWorkers bytes s) {w : Bool}
    (hk : ids w ∉ s.registered) (p : Placement ℤ) :
    Level ids F numWorkers bytes (s.registerClient (ids w) DEFAULT_PRIORITY p) := by
  have hzero := h.fresh w hk
  refine ⟨h.invariant.registerClient hk _ p, h.classified.registerClient hk _ p, h.workers, ?_,
    h.size, ?_, ?_, h.ahead⟩
  · intro k hkr
    rcases mem_registered_registerClient.mp hkr with hkr | hkr
    · exact ⟨w, hkr⟩
    · exact h.registered k hkr
  · intro v hv
    exact h.fresh v (fun hm => hv (mem_registered_registerClient.mpr (Or.inr hm)))
  · intro v b hb
    rw [Scheduler.balance, find?_registerClient hk] at hb
    split_ifs at hb with hv
    · cases hb
      simp [Credit.balance, hzero]
    · exact h.balance v b hb

theorem Level.enqueue (h : Level ids F numWorkers bytes s) {k requestId : ℤ} {fileSize : ℕ}
    {p : Placement ℤ} (hsize : fileSize ≤ F)
    (hrun : s.enqueue k requestId fileSize p = (.ok (), t)) :
    Level ids F numWorkers bytes t := by
  obtain ⟨hworkers, hbalance, hpending⟩ := enqueue_balance h.invariant.keyed hrun
  have hreg : ∀ j, j ∈ t.registered ↔ j ∈ s.registered := by
    intro j
    rw [mem_registered_iff, mem_registered_iff, hbalance]
  refine ⟨h.invariant.enqueue hrun, h.classified.enqueue h.invariant.queues hrun,
    hworkers.trans h.workers, fun j hj => h.registered j ((hreg j).mp hj), ?_,
    fun w hw => h.fresh w (fun hm => hw ((hreg _).mpr hm)),
    fun w b hb => h.balance w b (hbalance _ ▸ hb), h.ahead⟩
  intro j r hr
  rw [hpending] at hr
  split_ifs at hr
  · rcases List.mem_append.mp hr with hr | hr
    · exact h.size k r hr
    · rw [List.mem_singleton.mp hr]
      exact hsize
  · exact h.size j r hr

/-- One of two waiting clients has credit, so the one that is served has. -/
theorem Level.credit_pos (h : Level ids F numWorkers bytes s) (hwaits : ∀ v, s.pending (ids v) ≠ [])
    {r : Request} (hrun : s.scheduleCredit = .ok (r, t)) {w : Bool} (hr : r.clientId = ids w) :
    (0 : ℚ) < DEFAULT_PRIORITY +
      ((bytes (!w) : ℚ) - bytes w) / (FILE_CREDIT_MULTIPLIER * numWorkers) := by
  have hrecord : ∀ v, ∃ c, s.clientCredits.find? (ids v) = some c := fun v =>
    UnorderedMap.mem_keys_iff.mp (h.invariant.map.registered_of_pending (hwaits v))
  obtain ⟨c, hc⟩ := hrecord w
  obtain ⟨d, hd⟩ := hrecord (!w)
  obtain ⟨-, hcredit⟩ := h.balance w c.balance (balance_of_find? hc)
  obtain ⟨-, hcredit'⟩ := h.balance (!w) d.balance (balance_of_find? hd)
  rw [Bool.not_not] at hcredit'
  rw [← hcredit]
  by_cases hpos : 0 < d.credit
  · exact credit_pos_of_served h.invariant h.classified hrun (hr ▸ hc) hd (hwaits _) hpos
  · -- the two credits add up to twice the default priority
    have hsum : c.balance.credit + d.balance.credit = DEFAULT_PRIORITY + DEFAULT_PRIORITY := by
      rw [hcredit, hcredit']
      ring
    have hspent : d.balance.credit ≤ 0 := not_lt.mp hpos
    have hunit : (0 : ℚ) < DEFAULT_PRIORITY := by norm_num [DEFAULT_PRIORITY]
    linarith

theorem Level.schedule (h : Level ids F numWorkers bytes s) (hids : Function.Injective ids)
    (hN : 0 < numWorkers) (hwaits : ∀ v, s.pending (ids v) ≠ []) {r : Request}
    (hrun : s.scheduleCredit = .ok (r, t)) :
    ∃ w, r.clientId = ids w ∧
      Level ids F numWorkers (fun v => if v = w then bytes v + r.fileSize else bytes v) t := by
  obtain ⟨w, hr⟩ := h.registered _ (h.invariant.registered_of_served hrun)
  have hcount := h.invariant.count_pos hrun
  have hnext : next .credit s .schedule = some t := by
    have hsched : s.schedule .credit = .ok (r, t) := hrun
    have hne : s.requestCount ≠ 0 := by omega
    simp [next, hne, hsched, Except.toOption]
  obtain ⟨rest, hp, hmap, hworkers, hbalance⟩ :=
    scheduleCredit_balance h.invariant.keyed h.invariant.map.owner hrun
  have hreg : ∀ j, j ∈ t.registered ↔ j ∈ s.registered := by
    intro j
    rw [mem_registered_iff, mem_registered_iff, hbalance, Option.isSome_map]
  have hsize : r.fileSize ≤ F := h.size r.clientId r (hp ▸ List.mem_cons_self)
  have hroom := lt_of_credit_pos hN (h.credit_pos hwaits hrun hr)
  refine ⟨w, hr, h.invariant.next hnext (by simp), h.classified.next h.invariant hnext id,
    hworkers.trans h.workers, fun j hj => h.registered j ((hreg j).mp hj), ?_, ?_, ?_, ?_⟩
  · intro j r' hr'
    rw [pending, hmap, UnorderedMap.find?_modify] at hr'
    split_ifs at hr' with hj
    · refine h.size j r' ?_
      cases hf : s.requestMap.find? j with
      | none => simp [hf] at hr'
      | some l =>
        rw [hj, hp]
        exact List.mem_cons_of_mem r (by simpa [hf] using hr')
    · exact h.size j r' hr'
  · intro v hv
    exact absurd (h.invariant.map.registered_of_pending (hwaits v)) (fun hm => hv ((hreg _).mpr hm))
  · intro v b' hb'
    rw [hbalance] at hb'
    obtain ⟨b, hb, rfl⟩ := Option.map_eq_some_iff.mp hb'
    have hiff : (ids v = r.clientId) = (v = w) := by rw [hr, hids.eq_iff]
    simp only [hiff, h.workers]
    exact balance_after w v (h.balance v b hb)
  · intro v
    have hold := h.ahead v
    have hsize' : (r.fileSize : ℚ) ≤ F := by exact_mod_cast hsize
    have hzero : (0 : ℚ) ≤ r.fileSize := Nat.cast_nonneg _
    by_cases hv : v = w
    · subst hv
      have hother : (!v) ≠ v := by simp
      simp only [if_true, if_neg hother]
      push_cast
      linarith
    · have hother : (!v) = w := by cases v <;> cases w <;> simp_all
      simp only [if_neg hv, if_pos hother]
      push_cast
      linarith

/-- The bytes that a run schedules. -/
theorem Level.run (hids : Function.Injective ids) (hN : 0 < numWorkers) {es : List Event}
    (hrun : (machine .credit numWorkers).RunIf (EqualClients (ids true) (ids false) F) s es t)
    (h : Level ids F numWorkers bytes s) :
    Level ids F numWorkers (fun v => bytes v +
      bytesOf (ids v) (returned (machine .credit numWorkers) .credit s es)) t := by
  induction hrun generalizing bytes with
  | nil => exact h
  | @cons s t u e es hnext hok _ ih =>
    rw [returned_cons hnext]
    cases e with
    | registerClient k priority p =>
      obtain ⟨hk, rfl⟩ := hok
      obtain ⟨w, rfl⟩ : ∃ w, k = ids w := hk.elim (fun he => ⟨true, he⟩) (fun he => ⟨false, he⟩)
      have hnext' : Scheduler.next .credit s (.registerClient (ids w) DEFAULT_PRIORITY p) =
          some t := hnext
      simp only [Scheduler.next] at hnext'
      split at hnext'
      · cases hnext'
      · next hnot =>
        cases hnext'
        exact ih (h.registerClient hnot p)
    | enqueue k requestId fileSize p =>
      have hnext' : Scheduler.next .credit s (.enqueue k requestId fileSize p) = some t := hnext
      exact ih (h.enqueue hok (enqueue_of_next hnext'))
    | schedule =>
      have hwaits : ∀ v, s.pending (ids v) ≠ [] := by
        intro v
        cases v with
        | true => exact hok.1
        | false => exact hok.2
      obtain ⟨-, r, hsched⟩ := schedule_of_next hnext
      obtain ⟨w, hr, hlevel⟩ := h.schedule hids hN hwaits hsched
      have hby : s.returnedBy .credit .schedule = [r] := by simp only [returnedBy, hsched]
      have hsum : (fun v => bytes v + bytesOf (ids v) (s.returnedBy .credit .schedule ++
            returned (machine .credit numWorkers) .credit t es)) =
          fun v => (if v = w then bytes v + r.fileSize else bytes v) +
            bytesOf (ids v) (returned (machine .credit numWorkers) .credit t es) := by
        funext v
        rw [hby, List.singleton_append, bytesOf_cons, hr]
        by_cases hv : v = w
        · subst hv
          simp only [if_true]
          omega
        · rw [if_neg hv, if_neg (fun he => hv (hids he).symm), Nat.zero_add]
      rw [hsum]
      exact ih hlevel
    | deregisterClient k => exact absurd hok id

end Steps

/-- Two clients of the default priority that wait all the time are never further
apart than the initial credit and one request, counted in bytes. -/
theorem byte_fairness {A B : ℤ} (hAB : A ≠ B) {F numWorkers : ℕ} (hN : 0 < numWorkers)
    {es : List Event} {s : Scheduler ℚ}
    (h : (machine .credit numWorkers).RunIf (EqualClients A B F) (init numWorkers) es s) :
    let requests :=
      returned (machine .credit numWorkers) .credit (init numWorkers : Scheduler ℚ) es
    |(bytesOf A requests : ℤ) - bytesOf B requests| <
      DEFAULT_PRIORITY * FILE_CREDIT_MULTIPLIER * numWorkers + F := by
  intro requests
  have hinit : Level (pair A B) F numWorkers (fun _ => 0) (init numWorkers) := level_init hN
  have hlevel := hinit.run (pair_injective hAB) hN h
  have hA : (bytesOf A requests : ℚ) < bytesOf B requests + allowance numWorkers + F := by
    simpa [pair, requests] using hlevel.ahead true
  have hB : (bytesOf B requests : ℚ) < bytesOf A requests + allowance numWorkers + F := by
    simpa [pair, requests] using hlevel.ahead false
  have hA' : (bytesOf A requests : ℤ) < bytesOf B requests +
      DEFAULT_PRIORITY * FILE_CREDIT_MULTIPLIER * numWorkers + F := by
    unfold allowance at hA
    exact_mod_cast hA
  have hB' : (bytesOf B requests : ℤ) < bytesOf A requests +
      DEFAULT_PRIORITY * FILE_CREDIT_MULTIPLIER * numWorkers + F := by
    unfold allowance at hB
    exact_mod_cast hB
  rw [abs_lt]
  constructor
  · linarith
  · linarith

/-- After two files client 0 has just enough credit to be served once more. -/
def mixedSizes : List Event :=
  [.registerClient 0 64 (.splice 0), .enqueue 0 0 4233216 (.splice 0),
    .registerClient 1 64 (.splice 0), .enqueue 1 0 1 (.splice 0),
    .enqueue 0 1 5000000 (.splice 0), .enqueue 1 1 2000 (.splice 0), .schedule, .schedule,
    .enqueue 0 2 3000 (.splice 0), .schedule]

/-- The bound is 9233216 here, and the difference one less. -/
theorem byte_fairness_mixed_sizes :
    let requests := returned (machine .credit 4) .credit (init 4 : Scheduler ℚ) mixedSizes
    (bytesOf 0 requests : ℤ) - bytesOf 1 requests = 9233215 ∧
      |(bytesOf 0 requests : ℤ) - bytesOf 1 requests| <
        DEFAULT_PRIORITY * FILE_CREDIT_MULTIPLIER * 4 + 5000000 := by
  have hrun : ((machine .credit 4).runIf (EqualClients 0 1 5000000) (init 4)
      mixedSizes).isSome = true := by decide +kernel
  obtain ⟨s, hs⟩ := Option.isSome_iff_exists.mp hrun
  exact ⟨by decide +kernel, byte_fairness (by decide) (by decide) (.of_runIf hs)⟩

end TinyFile.Scheduler
