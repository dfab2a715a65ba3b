import TinyFile.Deregistration

/-!
# The order of service under the credit strategy

A client in `underQueue` is served after the clients ahead of it, if every call
of `scheduleCredit` keeps the order of the queue behind its front. The requeue
loop keeps it only where the iteration order of `clientCredits` agrees with the
queue: it takes every waiting client out and appends it again in map order.
-/
namespace TinyFile.Scheduler

variable {κ : Type}

section Order

variable [Add κ] [Mul κ] [Div κ] [NatCast κ] [Zero κ] [LT κ] [DecidableLT κ]

/-- The clients that the requeue loop puts into `underQueue` when `k` is served. -/
def requeued (s : Scheduler κ) (k : ℤ) (fileSize : ℕ) : List ℤ :=
  s.clientCredits.keys.filter (fun j => j ≠ k ∧ s.waitsUnder fileSize j)

/-- Enqueue and schedule only, and each schedule leaves the clients behind the
front of `underQueue` at the head of the rebuilt queue, in their order. -/
def KeepsOrder (s : Scheduler κ) : Event → Prop
  | .schedule =>
      ∀ k ∈ s.underQueue.values.head?, ∀ request ∈ (s.pending k).head?,
        s.underQueue.values.tail <+: s.requeued k request.fileSize
  | .enqueue .. => True
  | .registerClient .. => False
  | .deregisterClient _ => False

instance (s : Scheduler κ) (e : Event) : Decidable (s.KeepsOrder e) :=
  match e with
  | .schedule => inferInstanceAs (Decidable (∀ k ∈ s.underQueue.values.head?, _))
  | .enqueue .. => isTrue trivial
  | .registerClient .. => isFalse id
  | .deregisterClient _ => isFalse id

end Order

variable [Add κ] [Sub κ] [Mul κ] [Div κ] [NatCast κ] [IntCast κ] [Zero κ] [LT κ] [DecidableLT κ]

/-- The client that a step serves. -/
def servedBy (s : Scheduler κ) : Event → List ℤ
  | .schedule =>
      match s.schedule .credit with
      | .ok (request, _) => [request.clientId]
      | .error _ => []
  | _ => []

/-- The clients served along a run, in order. -/
def served (s : Scheduler κ) : List Event → List ℤ
  | [] => []
  | e :: es =>
      match next .credit s e with
      | none => []
      | some t => servedBy s e ++ served t es

theorem served_cons {s t : Scheduler κ} {e : Event} (h : next .credit s e = some t)
    (es : List Event) : served s (e :: es) = servedBy s e ++ served t es := by simp [served, h]

/-- One `scheduleCredit` that keeps the order: the front is served, and the
clients behind it move up. -/
theorem schedule_keepsOrder {s t : Scheduler κ} (h : CreditInvariant s) {k : ℤ} {q : List ℤ}
    (hq : s.underQueue.values = k :: q) (hstep : next .credit s .schedule = some t)
    (hok : s.KeepsOrder .schedule) :
    servedBy s .schedule = [k] ∧ ∃ behind, t.underQueue.values = q ++ behind := by
  obtain ⟨hpos, r₀, hrun₀⟩ := schedule_of_next hstep
  obtain ⟨k', q', r, rest, t', hfront, hreg, hp, hrun, -, hserved, -⟩ := scheduleCredit_spec h hpos
  obtain rfl : k = k' := by
    rw [hq, List.cons_append] at hfront
    exact (List.cons.inj hfront).1
  have hsched : s.schedule .credit = .ok (r, t') := hrun
  obtain ⟨-, rfl⟩ : r = r₀ ∧ t' = t := by simpa [hsched] using hrun₀
  have hr : r.clientId = k := h.map.owner k r (hp ▸ List.mem_cons_self)
  refine ⟨by simp [servedBy, hsched, hr], ?_⟩
  obtain ⟨c, hc⟩ := UnorderedMap.mem_keys_iff.mp hreg
  obtain ⟨others, hothers⟩ := hok k (by simp [hq]) r (by simp [hp])
  rw [hq, List.tail_cons, requeued] at hothers
  exact ⟨others ++ _, by rw [hserved.underQueue c hc, ← hothers, List.append_assoc]⟩

/-- An `enqueue` only adds to the end of `underQueue`. -/
theorem enqueue_keepsOrder {s t : Scheduler κ} (h : CreditInvariant s) {k requestId : ℤ}
    {fileSize : ℕ} {p : Placement ℤ}
    (hstep : next .credit s (.enqueue k requestId fileSize p) = some t) :
    ∃ behind, t.underQueue.values = s.underQueue.values ++ behind := by
  have hrun := enqueue_of_next hstep
  obtain ⟨c, hc⟩ := registered_of_enqueue_ok hrun
  obtain ⟨t', hrun', -, -, -, -, -, -, -, -, hunder, -⟩ :=
    enqueue_spec h.queues hc requestId fileSize p
  obtain rfl : t' = t := (Prod.mk.inj (hrun'.symm.trans hrun)).2
  exact ⟨_, hunder⟩

/-- The clients served before `c` are those that were ahead of it, in queue order. -/
theorem served_prefix_ahead {numWorkers : ℕ} {s t : Scheduler κ} {es : List Event}
    (hrun : (machine .credit numWorkers).RunIf KeepsOrder s es t) (h : CreditInvariant s)
    {c : ℤ} {ahead behind : List ℤ} (hq : s.underQueue.values = ahead ++ c :: behind) :
    (served s es).takeWhile (· ≠ c) <+: ahead := by
  induction hrun generalizing ahead behind with
  | nil => exact List.nil_prefix
  | @cons s u t e es hstep hok _ ih =>
    have hinv : CreditInvariant u := by
      refine h.next hstep ?_
      rintro k cr rfl
      exact absurd hok id
    rw [served_cons hstep]
    cases e with
    | registerClient => exact absurd hok id
    | deregisterClient => exact absurd hok id
    | enqueue k requestId fileSize p =>
      obtain ⟨more, hmore⟩ := enqueue_keepsOrder h hstep
      exact ih hinv (by rw [hmore, hq, List.append_assoc, List.cons_append])
    | schedule =>
      cases ahead with
      | nil =>
        -- `c` is at the front, so nobody is served before it
        obtain ⟨hserved, -⟩ := schedule_keepsOrder h hq hstep hok
        simp [hserved]
      | cons k ahead =>
        have hq' : s.underQueue.values = k :: (ahead ++ c :: behind) := hq
        obtain ⟨hserved, more, hmore⟩ := schedule_keepsOrder h hq' hstep hok
        have hne : k ≠ c := by
          rintro rfl
          have hnd := h.queues.under_nodup
          simp [hq] at hnd
        rw [hserved, List.singleton_append, List.takeWhile_cons_of_pos (by simpa using hne)]
        have hu : u.underQueue.values = ahead ++ c :: (behind ++ more) := by
          rw [hmore, List.append_assoc, List.cons_append]
        exact (List.cons_prefix_cons).mpr ⟨rfl, ih hinv hu⟩

/-- While every call keeps the order of `underQueue`, no client is served twice
before a client that waits in it. -/
theorem served_once_before_waiting {numWorkers : ℕ} {s t : Scheduler κ} {es : List Event} {c : ℤ}
    (hs : (machine .credit numWorkers).ReachableIf Harmless s) (hc : c ∈ s.underQueue.values)
    (hrun : (machine .credit numWorkers).RunIf KeepsOrder s es t) :
    ((served s es).takeWhile (· ≠ c)).Nodup := by
  have hinv : CreditInvariant s := creditInvariant_of_reachable (fun _ _ cr hok hk => hok cr hk) hs
  obtain ⟨ahead, behind, hq⟩ := List.append_of_mem hc
  have hnd := hinv.queues.under_nodup
  rw [hq] at hnd
  exact (List.nodup_append.mp hnd).1.sublist (served_prefix_ahead hrun hinv hq).sublist

/-- Three clients of equal priority that wait in map order. -/
def waitingClients : List Event :=
  [.registerClient 0 64 (.splice 0), .registerClient 1 64 (.splice 0),
    .registerClient 2 64 (.splice 0), .enqueue 2 0 64 (.splice 0), .enqueue 1 0 64 (.splice 0),
    .enqueue 0 0 64 (.splice 0), .enqueue 0 1 64 (.splice 0)]

theorem served_once_before_waiting_four_calls :
    ∃ s t : Scheduler ℚ, (machine .credit 4).runIf Harmless (init 4) waitingClients = some s ∧
      (machine .credit 4).runIf KeepsOrder s (List.replicate 4 .schedule) = some t ∧
      served s (List.replicate 4 .schedule) = [2, 1, 0, 0] ∧
      ((served s (List.replicate 4 .schedule)).takeWhile (· ≠ 0)).Nodup := by
  have hrun : (((machine .credit 4).runIf Harmless (init 4 : Scheduler ℚ) waitingClients).bind
      (fun s => ((machine .credit 4).runIf KeepsOrder s (List.replicate 4 .schedule)).map
        (fun _ => (decide (0 ∈ s.underQueue.values), served s (List.replicate 4 .schedule))))) =
      some (true, [2, 1, 0, 0]) := by decide +kernel
  obtain ⟨s, hs, hrest⟩ := Option.bind_eq_some_iff.mp hrun
  obtain ⟨t, ht, hpair⟩ := Option.map_eq_some_iff.mp hrest
  obtain ⟨hmem, hserved⟩ := Prod.mk.inj hpair
  exact ⟨s, t, hs, ht, hserved, served_once_before_waiting (Machine.reachableIf_of_runIf hs)
    (of_decide_eq_true hmem) (Machine.RunIf.of_runIf ht)⟩

/-- Three clients of equal priority; the map iterates over 2, 1, 0. -/
def threeClients : List Event :=
  [.registerClient 0 64 (.splice 0), .registerClient 1 64 (.splice 0),
    .registerClient 2 64 (.splice 0), .enqueue 2 0 64 (.splice 0), .enqueue 2 1 64 (.splice 0),
    .enqueue 1 0 64 (.splice 0), .enqueue 0 0 64 (.splice 0)]

/-- Client 0 waits at the end of `underQueue`. Serving client 1 rebuilds the
queue in map order, which puts client 2, already served, ahead of it again. -/
theorem served_twice_before_waiting :
    ∃ s : Scheduler ℚ, (machine .credit 4).run (init 4) threeClients = some s ∧
      s.underQueue.values = [2, 1, 0] ∧
      served s [.schedule, .schedule, .schedule] = [2, 1, 2] ∧
      ¬ ((served s [.schedule, .schedule, .schedule]).takeWhile (· ≠ 0)).Nodup := by
  refine ⟨_, rfl, ?_, ?_, ?_⟩
  · decide +kernel
  · decide +kernel
  · decide +kernel

end TinyFile.Scheduler
