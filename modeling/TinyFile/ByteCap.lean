import Mathlib.Algebra.Order.BigOperators.Group.Finset
import TinyFile.ByteFairness
import TinyFile.Filing

/-!
# Bytes of many waiting clients

Any number of clients whose priority is the default one or more. A file costs its
client what it brings, at least, to each of the others, so with two clients or more
the credits never add up to less than before. Somebody has credit then, and nobody is
served without it: the bytes of a client that always waits are capped by what the
others were served.
-/
namespace TinyFile.Scheduler

/-- One gives something, and every other one receives at least as much. -/
theorem sum_le_sum_of_transfer {ι : Type*} [DecidableEq ι] {S : Finset ι} {k : ι} (hk : k ∈ S)
    (hcard : 1 < S.card) {x : ℚ} (hx : 0 ≤ x) {f g : ι → ℚ} (hself : f k - x ≤ g k)
    (hothers : ∀ j ∈ S, j ≠ k → f j + x ≤ g j) : ∑ j ∈ S, f j ≤ ∑ j ∈ S, g j := by
  have hrest : ∑ j ∈ S.erase k, (f j + x) ≤ ∑ j ∈ S.erase k, g j :=
    Finset.sum_le_sum fun j hj =>
      hothers j (Finset.mem_of_mem_erase hj) (Finset.ne_of_mem_erase hj)
  have hmany : (1 : ℚ) ≤ (S.erase k).card := by
    rw [Finset.card_erase_of_mem hk]
    exact_mod_cast Nat.le_sub_one_of_lt hcard
  rw [Finset.sum_add_distrib, Finset.sum_const, nsmul_eq_mul] at hrest
  have hshare : x ≤ (S.erase k).card * x := le_mul_of_one_le_left hx hmany
  rw [← Finset.add_sum_erase S f hk, ← Finset.add_sum_erase S g hk]
  linarith

/-- Nobody leaves and nobody has less than the default priority; no request is larger
than `F`; at each call of `schedule` two clients or more are registered, and all of
them wait. -/
def Backlogged (F : ℕ) (s : Scheduler ℚ) : Event → Prop
  | .registerClient _ priority _ => DEFAULT_PRIORITY ≤ priority
  | .enqueue _ _ fileSize _ => fileSize ≤ F
  | .schedule => 1 < s.registered.length ∧ ∀ k ∈ s.registered, s.pending k ≠ []
  | .deregisterClient _ => False

instance (F : ℕ) (s : Scheduler ℚ) (e : Event) : Decidable (Backlogged F s e) :=
  match e with
  | .registerClient .. => inferInstanceAs (Decidable (_ ≤ _))
  | .enqueue .. => inferInstanceAs (Decidable (_ ≤ _))
  | .schedule => inferInstanceAs (Decidable (_ ∧ _))
  | .deregisterClient _ => isFalse id

/-- The credit of a registered client. -/
def creditOf (s : Scheduler ℚ) (k : ℤ) : ℚ := ((s.balance k).map Balance.credit).getD 0

def totalCredit (s : Scheduler ℚ) : ℚ := ∑ k ∈ s.registered.toFinset, creditOf s k

/-- The charge for a file. -/
def cost (numWorkers fileSize : ℕ) : ℚ := fileSize / FILE_CREDIT_MULTIPLIER / numWorkers

/-- What holds while all clients wait: there is credit, and nobody has overdrawn by more
than one file. -/
structure Solvent (F numWorkers : ℕ) (a : ℤ → Account) (s : Scheduler ℚ) : Prop where
  invariant : CreditInvariant s
  classified : Classified s
  accounted : Accounted numWorkers a s
  size : ∀ k, ∀ r ∈ s.pending k, r.fileSize ≤ F
  priority : ∀ k b, s.balance k = some b → DEFAULT_PRIORITY ≤ b.priority
  total : s.registered ≠ [] → 0 < totalCredit s
  overdraft : ∀ k b, s.balance k = some b → -cost numWorkers F < b.credit

theorem solvent_init (F numWorkers : ℕ) (a : ℤ → Account) :
    Solvent F numWorkers a (init numWorkers) where
  invariant := creditInvariant_init numWorkers
  classified := classified_init numWorkers
  accounted := accounted_init numWorkers a
  size := by simp [init, pending]
  priority := by simp [init, Scheduler.balance]
  total := by simp [init, Scheduler.registered]
  overdraft := by simp [init, Scheduler.balance]

section Steps

variable {F numWorkers : ℕ} {a : ℤ → Account} {s t : Scheduler ℚ}

theorem cost_nonneg (numWorkers fileSize : ℕ) : 0 ≤ cost numWorkers fileSize := by
  unfold cost
  have hunit : (0 : ℚ) ≤ FILE_CREDIT_MULTIPLIER := by norm_num [FILE_CREDIT_MULTIPLIER]
  positivity

theorem cost_mono {f F : ℕ} (h : f ≤ F) (numWorkers : ℕ) :
    cost numWorkers f ≤ cost numWorkers F := by
  have hunit : (0 : ℚ) ≤ FILE_CREDIT_MULTIPLIER := by norm_num [FILE_CREDIT_MULTIPLIER]
  have hle : (f : ℚ) ≤ F := by exact_mod_cast h
  unfold cost
  gcongr

/-- A client of the default priority or more earns at least what the file costs. -/
theorem cost_le_gain {p : ℚ} (hp : DEFAULT_PRIORITY ≤ p) (numWorkers fileSize : ℕ) :
    cost numWorkers fileSize ≤
      p * fileSize / DEFAULT_PRIORITY / FILE_CREDIT_MULTIPLIER / numWorkers := by
  have hunit : (0 : ℚ) < DEFAULT_PRIORITY := by norm_num [DEFAULT_PRIORITY]
  have hmultiplier : (0 : ℚ) ≤ FILE_CREDIT_MULTIPLIER := by norm_num [FILE_CREDIT_MULTIPLIER]
  have hfile : (fileSize : ℚ) ≤ p * fileSize / DEFAULT_PRIORITY := by
    rw [le_div_iff₀ hunit, mul_comm]
    exact mul_le_mul_of_nonneg_right hp (Nat.cast_nonneg _)
  unfold cost
  gcongr

theorem creditOf_eq {k : ℤ} {b : Balance ℚ} (h : s.balance k = some b) :
    creditOf s k = b.credit := by
  simp [creditOf, h]

/-- Where there is credit somebody has some. -/
theorem exists_credit_pos (h : 0 < totalCredit s) : ∃ k ∈ s.registered, 0 < creditOf s k := by
  obtain ⟨k, hk, hpos⟩ := Finset.exists_lt_of_sum_lt (f := fun _ => (0 : ℚ)) (g := creditOf s)
    (s := s.registered.toFinset) (by simpa [totalCredit] using h)
  exact ⟨k, List.mem_toFinset.mp hk, hpos⟩

theorem Solvent.registerClient (h : Solvent F numWorkers a s) {k priority : ℤ}
    (hk : k ∉ s.registered) (hp : DEFAULT_PRIORITY ≤ priority) (p : Placement ℤ) :
    Solvent F numWorkers (fun j => (a j).after j s (.registerClient k priority p))
      (s.registerClient k priority p) := by
  have hbalance : ∀ j, (s.registerClient k priority p).balance j =
      if j = k then some ⟨k, priority, priority⟩ else s.balance j := by
    intro j
    rw [Scheduler.balance, find?_registerClient hk]
    split_ifs <;> rfl
  have hpriority : (DEFAULT_PRIORITY : ℚ) ≤ priority := by exact_mod_cast hp
  have hpos : (0 : ℚ) < priority :=
    lt_of_lt_of_le (by norm_num [DEFAULT_PRIORITY]) hpriority
  refine ⟨h.invariant.registerClient hk _ p, h.classified.registerClient hk _ p,
    h.accounted.registerClient hk _ p, h.size, ?_, fun _ => ?_, ?_⟩
  · intro j b hb
    rw [hbalance] at hb
    split_ifs at hb
    · cases hb
      exact hpriority
    · exact h.priority j b hb
  · have hmem : (s.registerClient k priority p).registered.toFinset =
        insert k s.registered.toFinset := by
      ext j
      simp [mem_registered_registerClient]
    have hnew : creditOf (s.registerClient k priority p) k = priority := by
      simp [creditOf, hbalance]
    have hold : ∑ j ∈ s.registered.toFinset, creditOf (s.registerClient k priority p) j =
        totalCredit s := by
      refine Finset.sum_congr rfl fun j hj => ?_
      have hne : j ≠ k := fun he => hk (he ▸ List.mem_toFinset.mp hj)
      simp [creditOf, hbalance, hne]
    rw [totalCredit, hmem, Finset.sum_insert (by simpa using hk), hnew, hold]
    by_cases hempty : s.registered = []
    · simpa [totalCredit, hempty] using hpos
    · exact add_pos hpos (h.total hempty)
  · intro j b hb
    rw [hbalance] at hb
    split_ifs at hb
    · cases hb
      exact lt_of_le_of_lt (neg_nonpos.mpr (cost_nonneg _ _)) hpos
    · exact h.overdraft j b hb

theorem Solvent.enqueue (h : Solvent F numWorkers a s) {k requestId : ℤ} {fileSize : ℕ}
    {p : Placement ℤ} (hsize : fileSize ≤ F)
    (hrun : s.enqueue k requestId fileSize p = (.ok (), t)) : Solvent F numWorkers a t := by
  obtain ⟨-, hbalance, hpending⟩ := enqueue_balance h.accounted.keyed hrun
  obtain ⟨c, hc⟩ := registered_of_enqueue_ok hrun
  obtain ⟨u, hu, hsame⟩ :=
    enqueue_of_registered (UnorderedMap.mem_keys_of_find? hc) requestId fileSize p
  obtain rfl : u = t := (Prod.mk.inj (hu.symm.trans hrun)).2
  have htotal : totalCredit u = totalCredit s := by
    rw [totalCredit, hsame]
    exact Finset.sum_congr rfl fun j _ => by rw [creditOf, hbalance, creditOf]
  refine ⟨h.invariant.enqueue hrun, h.classified.enqueue h.invariant.queues hrun,
    h.accounted.enqueue hrun, ?_, fun j b hb => h.priority j b (hbalance j ▸ hb),
    fun hne => htotal.symm ▸ h.total (hsame ▸ hne),
    fun j b hb => h.overdraft j b (hbalance j ▸ hb)⟩
  intro j r hr
  rw [hpending] at hr
  split_ifs at hr
  · rcases List.mem_append.mp hr with hr | hr
    · exact h.size k r hr
    · rw [List.mem_singleton.mp hr]
      exact hsize
  · exact h.size j r hr

/-- While all clients wait, the one that is served has credit. -/
theorem Solvent.credit_pos (h : Solvent F numWorkers a s)
    (hwaits : ∀ k ∈ s.registered, s.pending k ≠ []) {r : Request}
    (hrun : s.scheduleCredit = .ok (r, t)) {b : Balance ℚ} (hb : s.balance r.clientId = some b) :
    0 < b.credit := by
  have hregistered := h.invariant.registered_of_served hrun
  obtain ⟨j, hj, hpos⟩ := exists_credit_pos (h.total (List.ne_nil_of_mem hregistered))
  obtain ⟨c, hc, rfl⟩ := Option.map_eq_some_iff.mp hb
  obtain ⟨d, hd⟩ := UnorderedMap.mem_keys_iff.mp hj
  rw [creditOf_eq (balance_of_find? hd)] at hpos
  exact credit_pos_of_served h.invariant h.classified hrun hc hd (hwaits j hj) hpos

/-- A file that is served costs its client no more than it brings to the others. -/
theorem Solvent.schedule (h : Solvent F numWorkers a s) (hmany : 1 < s.registered.length)
    (hwaits : ∀ k ∈ s.registered, s.pending k ≠ []) {r : Request}
    (hrun : s.scheduleCredit = .ok (r, t)) :
    Solvent F numWorkers (fun j => (a j).enter j r) t := by
  have hfiled : Filed s := ⟨h.accounted.keyed, h.accounted.owned⟩
  have hsched : s.schedule .credit = .ok (r, t) := hrun
  obtain ⟨-, rest, hp, hpending⟩ := hfiled.schedule hsched
  obtain ⟨-, -, -, -, hbalance⟩ := scheduleCredit_balance h.accounted.keyed h.accounted.owned hrun
  have hregistered := h.invariant.registered_of_served hrun
  have hcount := h.invariant.count_pos hrun
  have hnext : next .credit s .schedule = some t := by
    have hne : s.requestCount ≠ 0 := by omega
    simp [next, hne, hsched, Except.toOption]
  have hsize : r.fileSize ≤ F := h.size r.clientId r (hp ▸ List.mem_cons_self)
  have hset : t.registered.toFinset = s.registered.toFinset := by
    ext j
    rw [List.mem_toFinset, List.mem_toFinset, mem_registered_iff, mem_registered_iff, hbalance,
      Option.isSome_map]
  have hworkers := h.accounted.workers
  have hself : ∀ b, s.balance r.clientId = some b →
      creditOf t r.clientId = b.credit - cost numWorkers r.fileSize := by
    intro b hb
    rw [creditOf, hbalance, hb, if_pos rfl, hworkers]
    rfl
  have hothers : ∀ j b, j ≠ r.clientId → s.balance j = some b →
      b.credit + cost numWorkers r.fileSize ≤ creditOf t j := by
    intro j b hj hb
    have hgain := cost_le_gain (h.priority j b hb) numWorkers r.fileSize
    rw [creditOf, hbalance, hb, if_neg hj, hworkers]
    simpa [Balance.credited] using hgain
  have hrecord : ∀ j ∈ s.registered, ∃ b, s.balance j = some b := fun j hj =>
    Option.isSome_iff_exists.mp (mem_registered_iff.mp hj)
  have htotal : totalCredit s ≤ totalCredit t := by
    rw [totalCredit, totalCredit, hset]
    refine sum_le_sum_of_transfer (List.mem_toFinset.mpr hregistered) ?_
      (cost_nonneg numWorkers r.fileSize) ?_ fun j hj hne => ?_
    · have hnodup : s.registered.Nodup := s.clientCredits.nodup_keys
      rwa [List.toFinset_card_of_nodup hnodup]
    · obtain ⟨b, hb⟩ := hrecord _ hregistered
      rw [hself b hb, creditOf_eq hb]
    · obtain ⟨b, hb⟩ := hrecord j (List.mem_toFinset.mp hj)
      rw [creditOf_eq hb]
      exact hothers j b hne hb
  refine ⟨h.invariant.next hnext (by simp), h.classified.next h.invariant hnext id,
    h.accounted.schedule hrun, ?_, ?_, fun _ => ?_, ?_⟩
  · intro j r' hr'
    rw [hpending] at hr'
    split_ifs at hr'
    · exact h.size r.clientId r' (hp ▸ List.mem_cons_of_mem r hr')
    · exact h.size j r' hr'
  · intro j b' hb'
    rw [hbalance] at hb'
    obtain ⟨b, hb, rfl⟩ := Option.map_eq_some_iff.mp hb'
    split_ifs <;> exact h.priority j b hb
  · exact lt_of_lt_of_le (h.total (List.ne_nil_of_mem hregistered)) htotal
  · intro j b' hb'
    have hcredit := creditOf_eq hb'
    rw [hbalance] at hb'
    obtain ⟨b, hb, -⟩ := Option.map_eq_some_iff.mp hb'
    rw [← hcredit]
    by_cases hj : j = r.clientId
    · subst hj
      have hpos := h.credit_pos hwaits hrun hb
      have hmono := cost_mono hsize numWorkers
      rw [hself b hb]
      linarith
    · have hgain := hothers j b hj hb
      have hold := h.overdraft j b hb
      have hcost := cost_nonneg numWorkers r.fileSize
      linarith

/-- All along a run in which all clients wait. -/
theorem Solvent.run {es : List Event}
    (hrun : (machine .credit numWorkers).RunIf (Backlogged F) s es t)
    (h : Solvent F numWorkers a s) : Solvent F numWorkers (fun j => account j (a j) s es) t := by
  induction hrun generalizing a with
  | nil => exact h
  | @cons s t u e es hnext hok _ ih =>
    have hnext' : Scheduler.next .credit s e = some t := hnext
    simp only [account, hnext']
    cases e with
    | registerClient k priority p =>
      simp only [Scheduler.next] at hnext'
      split at hnext'
      · cases hnext'
      · next hk =>
        cases hnext'
        exact ih (h.registerClient hk hok p)
    | enqueue k requestId fileSize p => exact ih (h.enqueue hok (enqueue_of_next hnext'))
    | schedule =>
      obtain ⟨-, r, hsched⟩ := schedule_of_next hnext'
      have hafter : (fun j => (a j).after j s .schedule) = fun j => (a j).enter j r := by
        funext j
        simp only [Account.after, hsched]
      refine ih ?_
      rw [hafter]
      exact h.schedule hok.1 hok.2 hsched
    | deregisterClient k => exact absurd hok id

/-- A credit of more than minus one file, in bytes. -/
theorem lt_of_overdraft {m d f p others own : ℚ} (hm : 0 < m) (hd : 0 < d)
    (h : -(f / m) < p + p / d * others / m - own / m) :
    d * own < p * (d * m + others) + d * f := by
  have hscaled := mul_lt_mul_of_pos_right h (mul_pos hm hd)
  field_simp at hscaled
  linarith

end Steps

/-- Of any number of clients that always wait, none is ahead of its share of what the
others were served since it registered by more than its first credit and one file. -/
theorem byte_cap {F numWorkers : ℕ} (hN : 0 < numWorkers) {es : List Event} {s : Scheduler ℚ}
    (h : (machine .credit numWorkers).RunIf (Backlogged F) (init numWorkers) es s) {i : ℤ}
    (hi : i ∈ s.registered) :
    ∃ (p : ℤ) (own others : ℕ), account i ⟨0, 0, 0⟩ (init numWorkers) es = ⟨p, own, others⟩ ∧
      (DEFAULT_PRIORITY * own : ℤ) <
        p * (DEFAULT_PRIORITY * FILE_CREDIT_MULTIPLIER * numWorkers + others) +
          DEFAULT_PRIORITY * F := by
  have hsolvent := (solvent_init F numWorkers (fun _ => ⟨0, 0, 0⟩)).run h
  obtain ⟨b, hb⟩ := Option.isSome_iff_exists.mp (mem_registered_iff.mp hi)
  obtain ⟨-, hcredit⟩ := hsolvent.accounted.balance i b hb
  have hfloor := hsolvent.overdraft i b hb
  generalize account i ⟨0, 0, 0⟩ (init numWorkers) es = account at hcredit
  refine ⟨account.priority, account.own, account.others, rfl, ?_⟩
  have hN' : (0 : ℚ) < numWorkers := by exact_mod_cast hN
  have hM : (0 : ℚ) < FILE_CREDIT_MULTIPLIER * numWorkers :=
    mul_pos (by norm_num [FILE_CREDIT_MULTIPLIER]) hN'
  have hD : (0 : ℚ) < DEFAULT_PRIORITY := by norm_num [DEFAULT_PRIORITY]
  rw [hcredit, Account.credit, cost, div_div] at hfloor
  have hbytes := lt_of_overdraft hM hD hfloor
  rw [← mul_assoc] at hbytes
  exact_mod_cast hbytes

/-- The first of three clients has a large file; the third one comes late and has twice
the default priority. -/
def lateThird : List Event :=
  [.registerClient 0 64 (.splice 0), .enqueue 0 0 9000000 (.splice 0),
    .enqueue 0 1 9000000 (.splice 0), .registerClient 1 64 (.splice 0),
    .enqueue 1 0 1000 (.splice 0), .enqueue 1 1 2000 (.splice 0), .schedule,
    .registerClient 2 128 (.splice 0), .enqueue 2 0 3000 (.splice 0),
    .enqueue 2 1 10 (.splice 0), .schedule, .enqueue 1 2 50 (.splice 0), .schedule]

theorem byte_cap_late_third :
    account 0 ⟨0, 0, 0⟩ (init 4) lateThird = ⟨64, 9000000, 4000⟩ ∧
      (DEFAULT_PRIORITY * (9000000 : ℕ) : ℤ) <
        64 * (DEFAULT_PRIORITY * FILE_CREDIT_MULTIPLIER * (4 : ℕ) + (4000 : ℕ)) +
          DEFAULT_PRIORITY * (9000000 : ℕ) := by
  have hrun : ((machine .credit 4).runIf (Backlogged 9000000) (init 4 : Scheduler ℚ)
      lateThird).map (fun s => decide (0 ∈ s.registered)) = some true := by decide +kernel
  have haccount : account 0 ⟨0, 0, 0⟩ (init 4) lateThird = ⟨64, 9000000, 4000⟩ := by decide +kernel
  obtain ⟨s, hs, hmem⟩ := Option.map_eq_some_iff.mp hrun
  obtain ⟨p, own, others, heq, hcap⟩ :=
    byte_cap (by decide) (.of_runIf hs) (of_decide_eq_true hmem)
  rw [haccount] at heq
  cases heq
  exact ⟨haccount, hcap⟩

end TinyFile.Scheduler
