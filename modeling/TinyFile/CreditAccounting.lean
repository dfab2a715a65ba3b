import TinyFile.Delivery

/-!
# The credit of a client as an account

What a client has in credit is decided by byte totals. The model below forgets
the queues, the types and the iterators: of a record it keeps the id, the
priority and the credit. Every function of the scheduler acts on that alone,
whatever state the queues are in, so the account holds in all runs, also in
those where a deregistration has left an id behind in a queue.
-/
namespace TinyFile

/-- A credit record without its place in the queues. -/
structure Balance (κ : Type) where
  clientId : ℤ
  priority : κ
  credit : κ

def Credit.balance {κ : Type} (c : Credit κ) : Balance κ := ⟨c.clientId, c.priority, c.credit⟩

namespace Balance

variable {κ : Type} [Add κ] [Sub κ] [Mul κ] [Div κ] [NatCast κ]

/-- A file of another client has been scheduled. -/
def credited (numWorkers fileSize : ℕ) (b : Balance κ) : Balance κ :=
  { b with
    credit := b.credit + b.priority * (fileSize : κ) / (DEFAULT_PRIORITY : κ) /
      (FILE_CREDIT_MULTIPLIER : κ) / (numWorkers : κ) }

/-- A file of the client has been scheduled. -/
def charged (numWorkers fileSize : ℕ) (b : Balance κ) : Balance κ :=
  { b with
    credit := b.credit - (fileSize : κ) / (FILE_CREDIT_MULTIPLIER : κ) / (numWorkers : κ) }

end Balance

namespace Scheduler

variable {κ : Type}

def balance (s : Scheduler κ) (k : ℤ) : Option (Balance κ) :=
  (s.clientCredits.find? k).map Credit.balance

/-- Every record stands under its own id. -/
def Keyed (s : Scheduler κ) : Prop := ∀ k b, s.balance k = some b → b.clientId = k

/-- Every request stands under the id of its client. -/
def Owned (s : Scheduler κ) : Prop := ∀ k, ∀ r ∈ s.pending k, r.clientId = k

theorem balance_of_find? {s : Scheduler κ} {k : ℤ} {c : Credit κ}
    (h : s.clientCredits.find? k = some c) : s.balance k = some c.balance := by
  simp [balance, h]

theorem balance_eq_none {s : Scheduler κ} {k : ℤ} (h : s.clientCredits.find? k = none) :
    s.balance k = none := by simp [balance, h]

theorem Keyed.clientId_eq {s : Scheduler κ} (h : Keyed s) {k : ℤ} {c : Credit κ}
    (hc : s.clientCredits.find? k = some c) : c.clientId = k :=
  h k c.balance (balance_of_find? hc)

/-- No record goes to another client. -/
theorem Keyed.congr {s s' : Scheduler κ} (h : Keyed s) (hs : ∀ j b', s'.balance j = some b' →
    ∃ b, s.balance j = some b ∧ b'.clientId = b.clientId) : Keyed s' := by
  intro j b' hb'
  obtain ⟨b, hb, hid⟩ := hs j b' hb'
  exact hid.trans (h j b hb)

theorem balance_congr {s s' : Scheduler κ} (h : s'.clientCredits = s.clientCredits) (k : ℤ) :
    s'.balance k = s.balance k := by simp only [balance, h]

theorem mem_registered_iff {s : Scheduler κ} {k : ℤ} :
    k ∈ s.registered ↔ (s.balance k).isSome := by
  rw [registered, UnorderedMap.mem_keys_iff, balance, Option.isSome_map,
    Option.isSome_iff_exists]

section Store

theorem balance_store {s : Scheduler κ} {k : ℤ} (hk : k ∈ s.registered) (c : Credit κ) (j : ℤ) :
    (s.store k c).balance j = if j = k then some c.balance else s.balance j := by
  rw [balance, find?_store hk]
  split_ifs <;> rfl

/-- `creditDequeue` touches a queue only. -/
theorem creditDequeue_frame {s s' : Scheduler κ} {c : Credit κ} (h : s.creditDequeue c = .ok s') :
    s'.clientCredits = s.clientCredits ∧ SameRequests s s' := by
  unfold creditDequeue at h
  cases ht : c.type with
  | UNDER =>
    rw [ht] at h
    cases hq : eraseNode s.underQueue c.iterator with
    | error fault => simp [hq, bind, Except.bind] at h
    | ok q =>
      simp only [hq, bind, Except.bind, pure, Except.pure, Except.ok.injEq] at h
      subst h
      exact ⟨rfl, rfl, rfl, rfl, rfl, rfl⟩
  | OVER =>
    rw [ht] at h
    cases hq : eraseNode s.overQueue c.iterator with
    | error fault => simp [hq, bind, Except.bind] at h
    | ok q =>
      simp only [hq, bind, Except.bind, pure, Except.pure, Except.ok.injEq] at h
      subst h
      exact ⟨rfl, rfl, rfl, rfl, rfl, rfl⟩
  | IDLE => simp [ht] at h

variable [Zero κ] [LT κ] [DecidableLT κ]

theorem balance_append {s : Scheduler κ} {c : Credit κ} (hk : c.clientId ∈ s.registered) (j : ℤ) :
    (s.append c).balance j = if j = c.clientId then some c.balance else s.balance j := by
  unfold append
  split_ifs with hpos hj hj
  · rw [balance_store (by exact hk), if_pos hj]
    rfl
  · rw [balance_store (by exact hk), if_neg hj]
    rfl
  · rw [balance_store (by exact hk), if_pos hj]
    rfl
  · rw [balance_store (by exact hk), if_neg hj]
    rfl

/-- `creditEnqueue` writes the record back, in a queue or not. -/
theorem balance_creditEnqueue {s : Scheduler κ} {c : Credit κ} (hk : c.clientId ∈ s.registered)
    (j : ℤ) : (s.creditEnqueue c).balance j =
      if j = c.clientId then some c.balance else s.balance j := by
  unfold creditEnqueue
  by_cases hidle : c.type = .IDLE
  · rw [if_pos hidle]
    exact balance_append hk j
  · rw [if_neg hidle]
    exact balance_store hk c j

/-- The end of `Credit::schedule` writes the served client's record back, in a queue
or not. -/
theorem ending_frame {s : Scheduler κ} {c : Credit κ} (rest : List Request) (credit : κ) :
    let s' := if rest ≠ [] then s.append { c with credit := credit }
      else s.store c.clientId { c with credit := credit, type := .IDLE }
    SameRequests s s' ∧ (c.clientId ∈ s.registered → ∀ j, s'.balance j =
      if j = c.clientId then some ⟨c.clientId, c.priority, credit⟩ else s.balance j) := by
  intro s'
  by_cases hrest : rest ≠ []
  · simp only [s', if_pos hrest]
    exact ⟨sameRequests_append _ _,
      fun hk => balance_append (c := { c with credit := credit }) hk⟩
  · simp only [s', if_neg hrest]
    exact ⟨sameRequests_store _ _ _, fun hk => balance_store hk _⟩

/-- `Scheduler::enqueue` moves no credit. -/
theorem enqueue_balance {s t : Scheduler κ} (hkeyed : Keyed s) {k requestId : ℤ} {fileSize : ℕ}
    {p : Placement ℤ} (hrun : s.enqueue k requestId fileSize p = (.ok (), t)) :
    t.numWorkers = s.numWorkers ∧ (∀ j, t.balance j = s.balance j) ∧
      ∀ j, t.pending j =
        if j = k then s.pending k ++ [⟨k, requestId, fileSize⟩] else s.pending j := by
  obtain ⟨c, hc⟩ := registered_of_enqueue_ok hrun
  have hkey := hkeyed.clientId_eq hc
  obtain ⟨hpending, -, -⟩ := push_spec s.requestMap k ⟨k, requestId, fileSize⟩ p
  obtain ⟨s₁, hs₁⟩ : ∃ s₁ : Scheduler κ, s₁ =
      { s with
        requestMap := (s.requestMap.emplace k [] p).modify k
          (fun requests => requests ++ [⟨k, requestId, fileSize⟩])
        requestMapIterator := s.requestMapIterator.afterSubscript s.requestMap k p
        requestCount := s.requestCount + 1 } := ⟨_, rfl⟩
  have hrun₁ : s.enqueue k requestId fileSize p = (.ok (), s₁.creditEnqueue c) := by
    simp only [enqueue, hc, hs₁]
  obtain rfl : s₁.creditEnqueue c = t := (Prod.mk.inj (hrun₁.symm.trans hrun)).2
  have hcredits : s₁.clientCredits = s.clientCredits := by rw [hs₁]
  have hreg₁ : c.clientId ∈ s₁.registered := by
    rw [registered, hcredits, hkey]
    exact UnorderedMap.mem_keys_of_find? hc
  have hsame := sameRequests_creditEnqueue s₁ c
  refine ⟨hsame.numWorkers.trans (by rw [hs₁]), ?_, ?_⟩
  · intro j
    rw [balance_creditEnqueue hreg₁, balance_congr hcredits]
    split_ifs with hj
    · rw [hj, hkey, balance_of_find? hc]
    · rfl
  · intro j
    rw [pending, hsame.requestMap, hs₁]
    exact hpending j

end Store

section Arithmetic

variable [Add κ] [Mul κ] [Div κ] [NatCast κ] [Zero κ] [LT κ] [DecidableLT κ]

/-- A turn of the loop that returns: an idle client is credited only, a waiting one
moves as well. -/
theorem requeue_cases {s s' : Scheduler κ} {c : Credit κ} {fileSize : ℕ}
    (h : s.requeue fileSize c = .ok s') :
    (c.type = .IDLE ∧ s' = s.store c.clientId { c with credit := s.gain fileSize c }) ∨
    ∃ s₁, s.creditDequeue { c with credit := s.gain fileSize c } = .ok s₁ ∧
      s' = s₁.creditEnqueue { c with credit := s.gain fileSize c, type := .IDLE } := by
  by_cases hidle : c.type = .IDLE
  · simp only [requeue, hidle, if_true, Except.ok.injEq] at h
    exact .inl ⟨hidle, h ▸ by rw [hidle]⟩
  · simp only [requeue, hidle, if_false] at h
    cases hdeq : s.creditDequeue { c with credit := s.gain fileSize c } with
    | error fault => simp [hdeq, bind, Except.bind] at h
    | ok s₁ =>
      simp only [hdeq, bind, Except.bind, pure, Except.pure, Except.ok.injEq] at h
      exact .inr ⟨s₁, rfl, h.symm⟩

theorem sameRequests_requeue {s s' : Scheduler κ} {c : Credit κ} {fileSize : ℕ}
    (h : s.requeue fileSize c = .ok s') : SameRequests s s' := by
  rcases requeue_cases h with ⟨-, rfl⟩ | ⟨s₁, hdeq, rfl⟩
  · exact sameRequests_store _ _ _
  · exact (creditDequeue_frame hdeq).2.trans (sameRequests_creditEnqueue _ _)

/-- One turn of the loop credits the client, whatever its type is. -/
theorem requeue_balance {s s' : Scheduler κ} {k : ℤ} {c : Credit κ} {fileSize : ℕ}
    (hkey : c.clientId = k) (hc : s.clientCredits.find? k = some c)
    (h : s.requeue fileSize c = .ok s') (j : ℤ) : s'.balance j =
      if j = k then (s.balance k).map (Balance.credited s.numWorkers fileSize)
      else s.balance j := by
  subst hkey
  have hreg : c.clientId ∈ s.registered := UnorderedMap.mem_keys_of_find? hc
  have hcredited : ({ c with credit := s.gain fileSize c } : Credit κ).balance =
      c.balance.credited s.numWorkers fileSize := rfl
  rw [balance_of_find? hc, Option.map_some, ← hcredited]
  rcases requeue_cases h with ⟨-, rfl⟩ | ⟨s₁, hdeq, rfl⟩
  · exact balance_store hreg _ j
  · obtain ⟨hcredits, -⟩ := creditDequeue_frame hdeq
    have hreg₁ : c.clientId ∈ s₁.registered := by simpa only [registered, hcredits] using hreg
    rw [balance_creditEnqueue (s := s₁)
      (c := { c with credit := s.gain fileSize c, type := .IDLE }) hreg₁, balance_congr hcredits]
    rfl

/-- The loop that returns: each of its turns but that of the served client. -/
theorem requeueOthers_cons {k i : ℤ} {fileSize : ℕ} {js : List ℤ} {s s' : Scheduler κ}
    (h : requeueOthers k fileSize (i :: js) s = .ok s') :
    ((i = k ∨ s.clientCredits.find? i = none) ∧ requeueOthers k fileSize js s = .ok s') ∨
    ∃ c s₁, i ≠ k ∧ s.clientCredits.find? i = some c ∧ s.requeue fileSize c = .ok s₁ ∧
      requeueOthers k fileSize js s₁ = .ok s' := by
  simp only [requeueOthers] at h
  split_ifs at h with hik
  · exact .inl ⟨.inl hik, h⟩
  · cases hc : s.clientCredits.find? i with
    | none =>
      rw [hc] at h
      exact .inl ⟨.inr rfl, h⟩
    | some c =>
      rw [hc] at h
      cases hreq : s.requeue fileSize c with
      | error fault => simp [hreq, bind, Except.bind] at h
      | ok s₁ =>
        simp only [hreq, bind, Except.bind] at h
        exact .inr ⟨c, s₁, hik, rfl, hreq, h⟩

theorem sameRequests_requeueOthers {k : ℤ} {fileSize : ℕ} {js : List ℤ} {s s' : Scheduler κ}
    (h : requeueOthers k fileSize js s = .ok s') : SameRequests s s' := by
  induction js generalizing s with
  | nil =>
    simp only [requeueOthers, Except.ok.injEq] at h
    exact h ▸ .refl s
  | cons i js ih =>
    rcases requeueOthers_cons h with ⟨-, hrest⟩ | ⟨c, s₁, -, -, hreq, hrest⟩
    · exact ih hrest
    · exact (sameRequests_requeue hreq).trans (ih hrest)

/-- The loop credits each of its clients once. -/
theorem requeueOthers_balance {k : ℤ} {fileSize : ℕ} {js : List ℤ} {s s' : Scheduler κ}
    (hkeyed : Keyed s) (hnd : js.Nodup) (h : requeueOthers k fileSize js s = .ok s') (j : ℤ) :
    s'.balance j =
      if j ∈ js ∧ j ≠ k then (s.balance j).map (Balance.credited s.numWorkers fileSize)
      else s.balance j := by
  induction js generalizing s with
  | nil =>
    simp only [requeueOthers, Except.ok.injEq] at h
    simp [h]
  | cons i js ih =>
    obtain ⟨hi, hnd⟩ := List.nodup_cons.mp hnd
    rcases requeueOthers_cons h with ⟨hskip, hrest⟩ | ⟨c, s₁, hik, hc, hreq, hrest⟩
    · rw [ih hkeyed hnd hrest]
      by_cases hj : j = i
      · rcases hskip with hik | hnone
        · simp [hj, hik]
        · simp [hj, hi, balance_eq_none hnone]
      · simp [hj]
    · have hbalance₁ := requeue_balance (hkeyed.clientId_eq hc) hc hreq
      have hkeyed₁ : Keyed s₁ := hkeyed.congr fun j b' hb' => by
        rw [hbalance₁ j] at hb'
        split_ifs at hb' with hj
        · obtain ⟨b, hb, rfl⟩ := Option.map_eq_some_iff.mp hb'
          exact ⟨b, hj ▸ hb, rfl⟩
        · exact ⟨b', hb', rfl⟩
      rw [ih hkeyed₁ hnd hrest, hbalance₁ j, (sameRequests_requeue hreq).numWorkers]
      by_cases hj : j = i
      · simp [hj, hi, hik]
      · simp [hj]

/-- The loop over all records credits every client but the one that is served. -/
theorem requeueAll_balance {s s' : Scheduler κ} {k : ℤ} {fileSize : ℕ} (hkeyed : Keyed s)
    (h : requeueOthers k fileSize s.clientCredits.keys s = .ok s') {j : ℤ} (hj : j ≠ k) :
    s'.balance j = (s.balance j).map (Balance.credited s.numWorkers fileSize) := by
  rw [requeueOthers_balance hkeyed s.clientCredits.nodup_keys h]
  by_cases hreg : j ∈ s.clientCredits.keys
  · rw [if_pos ⟨hreg, hj⟩]
  · rw [if_neg (fun hm => hreg hm.1),
      balance_eq_none (UnorderedMap.find?_eq_none_iff.mpr hreg), Option.map_none]

variable [Sub κ]

/-- The steps of a `Credit::schedule` that returns. -/
theorem creditSchedule_cases {s s' : Scheduler κ} {c : Credit κ} {r : Request}
    (h : s.creditSchedule c = .ok (r, s')) :
    ∃ rest s₁ s₂, s.pending c.clientId = r :: rest ∧
      creditDequeue
          { s with requestMap := s.requestMap.modify c.clientId (fun _ => rest) } c = .ok s₁ ∧
      requeueOthers c.clientId r.fileSize s₁.clientCredits.keys s₁ = .ok s₂ ∧
      s' = if rest ≠ [] then s₂.append { c with credit := s₂.charge r.fileSize c }
        else s₂.store c.clientId
          { c with credit := s₂.charge r.fileSize c, type := .IDLE } := by
  unfold creditSchedule at h
  cases hp : s.pending c.clientId with
  | nil => simp [hp] at h
  | cons request rest =>
    simp only [hp, bind, Except.bind, pure, Except.pure] at h
    cases hdeq : creditDequeue
        { s with requestMap := s.requestMap.modify c.clientId (fun _ => rest) } c with
    | error fault => simp [hdeq] at h
    | ok s₁ =>
      simp only [hdeq] at h
      cases hloop : requeueOthers c.clientId request.fileSize s₁.clientCredits.keys s₁ with
      | error fault => simp [hloop] at h
      | ok s₂ =>
        simp only [hloop] at h
        split_ifs at h with hrest
        · obtain ⟨rfl, rfl⟩ := Prod.mk.inj (Except.ok.inj h)
          exact ⟨rest, s₁, s₂, rfl, hdeq, hloop, by rw [if_pos hrest]⟩
        · obtain ⟨rfl, rfl⟩ := Prod.mk.inj (Except.ok.inj h)
          exact ⟨rest, s₁, s₂, rfl, hdeq, hloop, by rw [if_neg hrest]⟩

/-- Of the requests, `Credit::schedule` only takes the first one of the client. -/
theorem sameRequests_creditSchedule {s s' : Scheduler κ} {c : Credit κ} {r : Request}
    (h : s.creditSchedule c = .ok (r, s')) :
    ∃ rest, s.pending c.clientId = r :: rest ∧
      SameRequests
        { s with requestMap := s.requestMap.modify c.clientId (fun _ => rest) } s' := by
  obtain ⟨rest, s₁, s₂, hp, hdeq, hloop, rfl⟩ := creditSchedule_cases h
  have hsame₁ := (creditDequeue_frame hdeq).2
  have hsame₂ := sameRequests_requeueOthers hloop
  exact ⟨rest, hp, (hsame₁.trans hsame₂).trans (ending_frame rest _).1⟩

/-- `Credit::schedule` charges the client and credits every other one. -/
theorem creditSchedule_balance {s s' : Scheduler κ} {k : ℤ} {c : Credit κ} {r : Request}
    (hkeyed : Keyed s) (hc : s.clientCredits.find? k = some c)
    (h : s.creditSchedule c = .ok (r, s')) (j : ℤ) : s'.balance j = (s.balance j).map
        (if j = k then Balance.charged s.numWorkers r.fileSize
          else Balance.credited s.numWorkers r.fileSize) := by
  have hkey := hkeyed.clientId_eq hc
  subst hkey
  obtain ⟨rest, s₁, s₂, -, hdeq, hloop, rfl⟩ := creditSchedule_cases h
  obtain ⟨hcredits₁, hsame₁⟩ := creditDequeue_frame hdeq
  have hkeyed₁ : Keyed s₁ := hkeyed.congr fun j b' hb' =>
    ⟨b', by rwa [balance_congr hcredits₁] at hb', rfl⟩
  have hsame := hsame₁.trans (sameRequests_requeueOthers hloop)
  have hworkers : s₂.numWorkers = s.numWorkers := hsame.numWorkers
  have hreg₂ : c.clientId ∈ s₂.registered := by
    rw [registered, hsame.keys]
    exact UnorderedMap.mem_keys_of_find? hc
  have hself : (s.balance c.clientId).map (Balance.charged s.numWorkers r.fileSize) =
      some ⟨c.clientId, c.priority, s₂.charge r.fileSize c⟩ := by
    simp only [balance_of_find? hc, Option.map_some, charge, hworkers]
    rfl
  rw [(ending_frame rest (s₂.charge r.fileSize c)).2 hreg₂]
  split_ifs with hj
  · rw [hj, hself]
  · rw [requeueAll_balance hkeyed₁ hloop hj, balance_congr hcredits₁, hsame₁.numWorkers]
    rfl

/-- The steps of a `scheduleCredit` that returns. -/
theorem scheduleCredit_cases {s t : Scheduler κ} {r : Request}
    (h : s.scheduleCredit = .ok (r, t)) :
    ∃ k c s', s.clientCredits.find? k = some c ∧ s.creditSchedule c = .ok (r, s') ∧
      t = { s' with requestCount := s'.requestCount - 1 } := by
  unfold scheduleCredit at h
  split at h
  · cases h
  · next k q hfront =>
    cases hc : s.clientCredits.find? k with
    | none => simp [hc] at h
    | some c =>
      cases hrun : s.creditSchedule c with
      | error fault => simp [hc, hrun, bind, Except.bind] at h
      | ok served =>
        obtain ⟨request, s'⟩ := served
        simp only [hc, hrun, bind, Except.bind, pure, Except.pure, Except.ok.injEq,
          Prod.mk.injEq] at h
        obtain ⟨rfl, rfl⟩ := h
        exact ⟨k, c, s', hc, hrun, rfl⟩

/-- `scheduleCredit` of a request charges its client and credits every other one. -/
theorem scheduleCredit_balance {s t : Scheduler κ} {r : Request} (hkeyed : Keyed s)
    (howned : Owned s) (h : s.scheduleCredit = .ok (r, t)) :
    ∃ rest, s.pending r.clientId = r :: rest ∧
      t.requestMap = s.requestMap.modify r.clientId (fun _ => rest) ∧
      t.numWorkers = s.numWorkers ∧
      ∀ j, t.balance j = (s.balance j).map
        (if j = r.clientId then Balance.charged s.numWorkers r.fileSize
          else Balance.credited s.numWorkers r.fileSize) := by
  obtain ⟨k, c, s', hc, hrun, rfl⟩ := scheduleCredit_cases h
  have hkey := hkeyed.clientId_eq hc
  obtain ⟨rest, hp, hsame⟩ := sameRequests_creditSchedule hrun
  rw [hkey] at hp hsame
  have howner : r.clientId = k := howned k r (hp ▸ List.mem_cons_self)
  rw [howner]
  have hbalance := creditSchedule_balance hkeyed hc hrun
  exact ⟨rest, hp, hsame.requestMap, hsame.numWorkers, hbalance⟩

end Arithmetic

/-- What a client registered with, and the bytes scheduled since then, for it and
for others. -/
structure Account where
  priority : ℤ
  own : ℕ
  others : ℕ
  deriving DecidableEq

/-- Enter a scheduled request. -/
def Account.enter (k : ℤ) (a : Account) (r : Request) : Account :=
  if r.clientId = k then { a with own := a.own + r.fileSize }
  else { a with others := a.others + r.fileSize }

/-- The account of a client after one more operation. -/
def Account.after (k : ℤ) (a : Account) (s : Scheduler ℚ) : Event → Account
  | .registerClient clientId priority _ => if clientId = k then ⟨priority, 0, 0⟩ else a
  | .schedule =>
      match s.schedule .credit with
      | .ok (request, _) => a.enter k request
      | .error _ => a
  | .enqueue .. => a
  | .deregisterClient _ => a

/-- The account of a client along a run. -/
def account (k : ℤ) : Account → Scheduler ℚ → List Event → Account
  | a, _, [] => a
  | a, s, e :: es =>
      match next .credit s e with
      | none => a
      | some t => account k (a.after k s e) t es

/-- The credit that an account comes to. -/
def Account.credit (numWorkers : ℕ) (a : Account) : ℚ :=
  a.priority + a.priority / DEFAULT_PRIORITY * a.others / (FILE_CREDIT_MULTIPLIER * numWorkers) -
    a.own / (FILE_CREDIT_MULTIPLIER * numWorkers)

/-- Every record shows what its account says. -/
structure Accounted (numWorkers : ℕ) (a : ℤ → Account) (s : Scheduler ℚ) : Prop where
  workers : s.numWorkers = numWorkers
  keyed : Keyed s
  owned : Owned s
  balance : ∀ k b, s.balance k = some b →
    b.priority = (a k).priority ∧ b.credit = (a k).credit numWorkers

theorem accounted_init (numWorkers : ℕ) (a : ℤ → Account) :
    Accounted numWorkers a (init numWorkers) where
  workers := rfl
  keyed := by
    intro k b hb
    simp [Scheduler.balance, init] at hb
  owned := by
    intro k r hr
    simp [pending, init] at hr
  balance := by
    intro k b hb
    simp [Scheduler.balance, init] at hb

section Steps

variable {numWorkers : ℕ} {a : ℤ → Account} {s t : Scheduler ℚ}

/-- A new client has its priority in credit. -/
theorem Accounted.registerClient (h : Accounted numWorkers a s) {k : ℤ} (hk : k ∉ s.registered)
    (priority : ℤ) (p : Placement ℤ) :
    Accounted numWorkers (fun j => (a j).after j s (.registerClient k priority p))
      (s.registerClient k priority p) := by
  have hbalance : ∀ j, (s.registerClient k priority p).balance j =
      if j = k then some ⟨k, priority, priority⟩ else s.balance j := by
    intro j
    rw [Scheduler.balance, find?_registerClient hk]
    split_ifs <;> rfl
  refine ⟨h.workers, ?_, h.owned, ?_⟩
  · intro j b hb
    rw [hbalance] at hb
    split_ifs at hb with hj
    · cases hb
      exact hj.symm
    · exact h.keyed j b hb
  · intro j b hb
    rw [hbalance] at hb
    split_ifs at hb with hj
    · cases hb
      simp [Account.after, hj, Account.credit]
    · rw [Account.after, if_neg (Ne.symm hj)]
      exact h.balance j b hb

/-- A request that arrives moves no credit. -/
theorem Accounted.enqueue (h : Accounted numWorkers a s) {k requestId : ℤ} {fileSize : ℕ}
    {p : Placement ℤ} (hrun : s.enqueue k requestId fileSize p = (.ok (), t)) :
    Accounted numWorkers a t := by
  obtain ⟨hworkers, hbalance, hpending⟩ := enqueue_balance h.keyed hrun
  refine ⟨hworkers.trans h.workers, ?_, ?_, ?_⟩
  · exact h.keyed.congr fun j b' hb' => ⟨b', hbalance j ▸ hb', rfl⟩
  · intro j r hr
    rw [hpending] at hr
    split_ifs at hr with hj
    · rcases List.mem_append.mp hr with hr | hr
      · exact (h.owned k r hr).trans hj.symm
      · rw [List.mem_singleton.mp hr, hj]
    · exact h.owned j r hr
  · intro j b hb
    exact h.balance j b (hbalance j ▸ hb)

/-- A client that leaves takes its account with it. -/
theorem Accounted.deregisterClient (h : Accounted numWorkers a s) {k : ℤ}
    (hrun : s.deregisterClient k = .ok t) (hk : k ∈ s.registered) :
    Accounted numWorkers a t := by
  rw [deregisterClient_eq hk] at hrun
  cases hrun
  have hbalance : ∀ j b, (s.without k).balance j = some b → s.balance j = some b := by
    intro j b hb
    rw [Scheduler.balance, without, UnorderedMap.find?_erase] at hb
    split_ifs at hb
    · cases hb
    · exact hb
  refine ⟨h.workers, ?_, ?_, fun j b hb => h.balance j b (hbalance j b hb)⟩
  · exact h.keyed.congr fun j b' hb' => ⟨b', hbalance j b' hb', rfl⟩
  · intro j r hr
    rw [pending, without, UnorderedMap.find?_erase] at hr
    split_ifs at hr
    · simp at hr
    · exact h.owned j r hr

theorem Accounted.schedule (h : Accounted numWorkers a s) {r : Request}
    (hrun : s.scheduleCredit = .ok (r, t)) :
    Accounted numWorkers (fun j => (a j).enter j r) t := by
  obtain ⟨rest, hp, hmap, hworkers, hbalance⟩ := scheduleCredit_balance h.keyed h.owned hrun
  refine ⟨hworkers.trans h.workers, ?_, ?_, ?_⟩
  · refine h.keyed.congr fun j b' hb' => ?_
    rw [hbalance j] at hb'
    obtain ⟨b, hb, rfl⟩ := Option.map_eq_some_iff.mp hb'
    refine ⟨b, hb, ?_⟩
    split_ifs <;> rfl
  · intro j r' hr'
    rw [pending, hmap, UnorderedMap.find?_modify] at hr'
    split_ifs at hr' with hj
    · refine h.owned j r' ?_
      rw [hj, hp]
      refine List.mem_cons_of_mem r ?_
      cases hf : s.requestMap.find? j with
      | none => simp [hf] at hr'
      | some l => simpa [hf] using hr'
    · exact h.owned j r' hr'
  · intro j b' hb'
    rw [hbalance j] at hb'
    obtain ⟨b, hb, rfl⟩ := Option.map_eq_some_iff.mp hb'
    obtain ⟨hpriority, hcredit⟩ := h.balance j b hb
    by_cases hj : j = r.clientId
    · rw [if_pos hj, Account.enter, if_pos hj.symm]
      refine ⟨hpriority, ?_⟩
      rw [Balance.charged, hcredit, h.workers]
      simp only [Account.credit]
      push_cast
      ring
    · rw [if_neg hj, Account.enter, if_neg (Ne.symm hj)]
      refine ⟨hpriority, ?_⟩
      rw [Balance.credited, hcredit, hpriority, h.workers]
      simp only [Account.credit]
      push_cast
      ring

theorem Accounted.next (h : Accounted numWorkers a s) {e : Event}
    (ht : next .credit s e = some t) :
    Accounted numWorkers (fun j => (a j).after j s e) t := by
  cases e with
  | registerClient k priority p =>
    simp only [Scheduler.next] at ht
    split at ht
    · cases ht
    · next hk =>
      cases ht
      exact h.registerClient hk priority p
  | enqueue k requestId fileSize p => exact h.enqueue (enqueue_of_next ht)
  | schedule =>
    obtain ⟨-, r, hrun⟩ := schedule_of_next ht
    have hafter : (fun j => (a j).after j s .schedule) = fun j => (a j).enter j r := by
      funext j
      simp only [Account.after, hrun]
    rw [hafter]
    exact h.schedule hrun
  | deregisterClient k =>
    obtain ⟨hrun, hk⟩ := deregisterClient_of_next ht
    exact h.deregisterClient hrun hk

/-- The accounts that a run leads to. -/
theorem Accounted.run {es : List Event}
    (hrun : (machine .credit numWorkers).RunIf (fun _ _ => True) s es t)
    (h : Accounted numWorkers a s) : Accounted numWorkers (fun j => account j (a j) s es) t := by
  induction hrun generalizing a with
  | nil => exact h
  | cons hnext _ _ ih =>
    have hnext' : Scheduler.next .credit _ _ = some _ := hnext
    simpa only [account, hnext'] using ih (h.next hnext)

end Steps

/-- The credit of a client is its priority and its share of the bytes of the other
clients since it registered, less its own bytes, in every run. -/
theorem credit_accounting {numWorkers : ℕ} {es : List Event} {s : Scheduler ℚ}
    (h : (machine .credit numWorkers).RunIf (fun _ _ => True) (init numWorkers) es s) {i : ℤ}
    {c : Credit ℚ} (hi : s.clientCredits.find? i = some c) :
    ∃ (p : ℤ) (own others : ℕ), account i ⟨0, 0, 0⟩ (init numWorkers) es = ⟨p, own, others⟩ ∧
      c.priority = p ∧
      c.credit = p + (p / DEFAULT_PRIORITY) * others / (FILE_CREDIT_MULTIPLIER * numWorkers) -
        own / (FILE_CREDIT_MULTIPLIER * numWorkers) := by
  have hrun := (accounted_init numWorkers (fun _ => ⟨0, 0, 0⟩)).run h
  obtain ⟨hpriority, hcredit⟩ := hrun.balance i c.balance (balance_of_find? hi)
  exact ⟨_, _, _, rfl, hpriority, hcredit⟩

/-- Files of one credit a worker and more. The second client registers when the
first has been served; the first leaves and comes back. -/
def returningClient : List Event :=
  [.registerClient 0 64 (.splice 0), .enqueue 0 0 66144 (.splice 0), .schedule,
    .registerClient 1 32 (.splice 0), .enqueue 0 1 132288 (.splice 0),
    .enqueue 1 0 198432 (.splice 0), .schedule, .schedule, .deregisterClient 0,
    .registerClient 0 128 (.splice 0), .enqueue 1 1 66144 (.splice 0), .schedule]

theorem credit_accounting_returning_client :
    ∃ (s : Scheduler ℚ) (c : Credit ℚ), (machine .credit 4).run (init 4) returningClient = some s ∧
      s.clientCredits.find? 1 = some c ∧ c.credit = 29 := by
  have hrun : ((machine .credit 4).run (init 4 : Scheduler ℚ) returningClient).map
      (fun s => (s.clientCredits.find? 1).isSome) = some true := by decide +kernel
  obtain ⟨s, hs, hsome⟩ := Option.map_eq_some_iff.mp hrun
  obtain ⟨c, hc⟩ := Option.isSome_iff_exists.mp hsome
  obtain ⟨p, own, others, haccount, -, hcredit⟩ := credit_accounting (.of_run hs) hc
  have hvalue : account 1 ⟨0, 0, 0⟩ (init 4) returningClient = ⟨32, 264576, 132288⟩ := by
    decide +kernel
  rw [hvalue] at haccount
  cases haccount
  refine ⟨s, c, hs, hc, ?_⟩
  rw [hcredit]
  norm_num [DEFAULT_PRIORITY, FILE_CREDIT_MULTIPLIER]

end Scheduler

end TinyFile
