import TinyFile.ScheduledSystem

/-!
# The scheduler picks what the system may pick

The scheduler's queue of a client holds what the system has pending for it, in the same
order, and its count is the number of pending requests. So what `schedule` returns is
pending, its segment has the size that the system asks for, and a run with the
scheduler is a run of the system, in which each client's calls are taken in order.
-/
namespace TinyFile.ScheduledSystem

variable {κ : Type}

structure Linked (cfg : Config) (d : ScheduledSystem κ) : Prop where
  sound : Scheduler.Sound cfg.strategy d.scheduler
  queues : ∀ c : ℤ, d.scheduler.pending c =
    (d.system.pending.filter fun r => (r.clientId : ℤ) = c).map toScheduler
  count : d.scheduler.requestCount = d.system.pending.length
  registered : ∀ r, d.system.registration = .enqueueing r →
    (r.clientId : ℤ) ∈ d.scheduler.registered

theorem linked_init (cfg : Config) : Linked cfg (init cfg : ScheduledSystem κ) where
  sound := Scheduler.sound_init cfg.strategy cfg.serviceWorkers
  queues := fun _ => rfl
  count := rfl
  registered := fun _ h => by cases h

section Lists

variable {α : Type*} {p q : α → Bool} {l rest : List α} {a : α}

/-- The first item that meets `p` is the first that meets the weaker `q`. -/
theorem find?_of_filter (hpq : ∀ x, p x = true → q x = true) (hp : p a = true)
    (h : l.filter q = a :: rest) : l.find? p = some a := by
  have hfilter : (l.filter q).find? p = l.find? p := by
    rw [List.find?_filter]
    congr 1
    funext x
    cases hx : p x
    · simp
    · simp [hpq x hx]
  rw [← hfilter, h, List.find?_cons_of_pos hp]

theorem filter_eraseP (hpq : ∀ x, p x = true → q x = true) (hp : p a = true)
    (h : l.filter q = a :: rest) : (l.eraseP p).filter q = rest := by
  have hboth : (fun x => p x && q x) = p := by
    funext x
    cases hx : p x
    · rfl
    · rw [hpq x hx, Bool.and_self]
  have herase := List.eraseP_filter (f := q) (l := l) (p := p)
  rw [hboth, h, List.eraseP_cons_of_pos hp] at herase
  exact herase.symm

/-- What is erased was not kept anyway. -/
theorem filter_eraseP_of_disjoint (hpq : ∀ x, p x = true → q x = false) :
    (l.eraseP p).filter q = l.filter q := by
  induction l with
  | nil => rfl
  | cons x l ih =>
    by_cases hx : p x = true
    · have hno : ¬ q x = true := by
        rw [hpq x hx]
        exact Bool.false_ne_true
      rw [List.eraseP_cons_of_pos hx, List.filter_cons_of_neg hno]
    · rw [List.eraseP_cons_of_neg hx, List.filter_cons, List.filter_cons, ih]

theorem exists_idx_of_find? (h : l.find? p = some a) :
    ∃ i, l[i]? = some a ∧ l.eraseP p = l.eraseIdx i := by
  obtain ⟨hp, i, hlt, rfl, hbefore⟩ := List.find?_eq_some_iff_getElem.mp h
  have hidx : l.findIdx? p = some i :=
    List.findIdx?_eq_some_iff_getElem.mpr ⟨hlt, hp, fun j hj => by simpa using hbefore j hj⟩
  exact ⟨i, List.getElem?_eq_getElem hlt, by rw [List.eraseP_eq_eraseIdx, hidx]⟩

end Lists

section Requests

variable {cfg : Config} {d d' : ScheduledSystem κ}

theorem filterMap_callOf (c : ℕ) (l : List System.Request) :
    l.filterMap (System.Request.callOf c) =
      (l.filter fun r => (r.clientId : ℤ) = c).map System.Request.toCall := by
  induction l with
  | nil => rfl
  | cons r l ih =>
    by_cases hr : r.clientId = c
    · have hcall : r.callOf c = some r.toCall := if_pos hr
      rw [List.filterMap_cons_some hcall, List.filter_cons_of_pos (by simp [hr]), List.map_cons, ih]
    · have hcall : r.callOf c = none := if_neg hr
      rw [List.filterMap_cons_none hcall, List.filter_cons_of_neg (by simp [hr]), ih]

/-- What the other steps of the system leave alone. -/
theorem pending_step {s s' : System} {ev : System.Event} (hstep : s.step cfg ev = some s')
    (henqueue : ev ≠ .enqueue) (hschedule : ∀ w i, ev ≠ .schedule w i) :
    s'.pending = s.pending ∧ (s'.registration = s.registration ∨
      ∃ r, ev = .poll r.clientId ∧ s'.registration = .enqueueing r) := by
  cases ev with
  | submit c src =>
    obtain ⟨small, rfl⟩ := System.submit_cases hstep
    exact ⟨rfl, .inl rfl⟩
  | dispatch c =>
    obtain ⟨h', -, rfl⟩ := System.dispatch_cases hstep
    exact ⟨rfl, .inl rfl⟩
  | scheduleRequest c j =>
    obtain ⟨n, rest, -, -, rfl⟩ := System.scheduleRequest_cases hstep
    exact ⟨rfl, .inl rfl⟩
  | process c j =>
    obtain ⟨n, e, m', t', -, -, -, rfl⟩ := System.process_cases hstep
    exact ⟨rfl, .inl rfl⟩
  | complete c j =>
    obtain ⟨n, e, -, -, -, rfl⟩ := System.complete_cases hstep
    exact ⟨rfl, .inl rfl⟩
  | destroy c j =>
    obtain ⟨n, e, -, -, rfl⟩ := System.destroy_cases hstep
    exact ⟨rfl, .inl rfl⟩
  | poll c =>
    obtain ⟨call, rest, -, -, rfl⟩ := System.poll_cases hstep
    exact ⟨rfl, .inr ⟨_, rfl, rfl⟩⟩
  | enqueue => exact absurd rfl henqueue
  | schedule w i => exact absurd rfl (hschedule w i)
  | allocate w =>
    obtain ⟨request, requestSize, -, ⟨fault, -, rfl⟩ | ⟨gs, m, -, rfl⟩⟩ :=
      System.allocate_cases hstep
    · exact ⟨rfl, .inl rfl⟩
    · exact ⟨rfl, .inl rfl⟩
  | respond w =>
    obtain ⟨n, e, -, -, ⟨fault, rfl⟩ | ⟨-, -, rfl⟩⟩ := System.respond_cases hstep
    · exact ⟨rfl, .inl rfl⟩
    · exact ⟨rfl, .inl rfl⟩
  | serve w =>
    obtain ⟨n, e, m', t', -, -, -, rfl⟩ := System.serve_cases hstep
    exact ⟨rfl, .inl rfl⟩
  | destroyHandler w =>
    obtain ⟨n, e, -, -, -, rfl⟩ := System.destroyHandler_cases hstep
    exact ⟨rfl, .inl rfl⟩

theorem other_cases {ev : System.Event} (hstep : d.other cfg ev = some d') :
    ev ≠ .enqueue ∧ (∀ w i, ev ≠ .schedule w i) ∧
      (∀ c, ev = .poll c → (c : ℤ) ∈ d.scheduler.registered) ∧
      d.system.next cfg ev = some d'.system ∧ d'.scheduler = d.scheduler := by
  have hany : ∀ {ev}, (d.system.next cfg ev).map (fun s => { d with system := s }) = some d' →
      d.system.next cfg ev = some d'.system ∧ d'.scheduler = d.scheduler := by
    intro ev h
    obtain ⟨s', hnext, rfl⟩ := Option.map_eq_some_iff.mp h
    exact ⟨hnext, rfl⟩
  unfold ScheduledSystem.other at hstep
  split at hstep
  · cases hstep
  · cases hstep
  · next c =>
    split_ifs at hstep with hc
    refine ⟨fun h => (by cases h), fun w i h => (by cases h), fun c' h => ?_, hany hstep⟩
    cases h
    exact hc
  · next henqueue hschedule hpoll =>
    exact ⟨fun h => henqueue h, fun w i h => hschedule w i h, fun c h => absurd h (hpoll c),
      hany hstep⟩

theorem Linked.other (h : Linked cfg d) {ev : System.Event} (hstep : d.other cfg ev = some d') :
    Linked cfg d' := by
  obtain ⟨henqueue, hschedule, hpoll, hnext, hsame⟩ := other_cases hstep
  obtain ⟨hpending, hregistration⟩ := pending_step (System.step_of_next hnext) henqueue hschedule
  refine ⟨hsame ▸ h.sound, ?_, ?_, ?_⟩
  · rw [hsame, hpending]
    exact h.queues
  · rw [hsame, hpending]
    exact h.count
  · intro r hr
    rw [hsame]
    rcases hregistration with hkeep | ⟨r', rfl, hnew⟩
    · exact h.registered r (hkeep.symm.trans hr)
    · rw [hnew] at hr
      cases hr
      exact hpoll r.clientId rfl

theorem Linked.registerClient [IntCast κ] (h : Linked cfg d) {c : ℕ} {priority : ℤ}
    {p : Placement ℤ} (hstep : d.registerClient c priority p = some d') :
    Linked cfg d' ∧ d'.system = d.system := by
  unfold ScheduledSystem.registerClient at hstep
  split_ifs at hstep with hnew
  cases hstep
  obtain ⟨hfresh, hpolling⟩ := not_or.mp hnew
  refine ⟨⟨h.sound.registerClient hfresh priority p, h.queues, h.count, fun r hr => ?_⟩, rfl⟩
  have hno := not_not.mp (not_or.mp hpolling).1
  rw [show d.system.registration = .enqueueing r from hr] at hno
  cases hno

/-- The registration thread hands the scheduler what the system accepts. -/
theorem Linked.enqueue_spec [Zero κ] [LT κ] [DecidableLT κ] (h : Linked cfg d)
    {r : System.Request} {p : Placement ℤ} (hr : d.system.registration = .enqueueing r)
    (hmutex : d.system.mutexHeld = false) (hok : d.keepsIterator (.enqueue p) = true) :
    ∃ d', d.enqueue p = some d' ∧ d.system.step cfg .enqueue = some d'.system ∧ Linked cfg d' ∧
      d'.system.pending = d.system.pending ++ [r] := by
  have hrehash : ∀ order, p = .rehash order → (r.clientId : ℤ) ∈ d.scheduler.requestMap.keys ∨
      d.scheduler.requestMapIterator = .atEnd := by
    rintro order rfl
    simpa [keepsIterator, hr] using hok
  obtain ⟨s', hrun, hsound, hregistered, hothers⟩ := h.sound.enqueue (h.registered r hr)
    r.requestId r.fileSize hrehash
  obtain ⟨hmap, -, hcount⟩ := Scheduler.requests_of_enqueue hrun
  obtain ⟨hpush, -⟩ := Scheduler.push_spec d.scheduler.requestMap r.clientId (toScheduler r) p
  refine ⟨⟨{ d.system with
    pending := d.system.pending ++ [r]
    registration := .polling }, s'⟩, ?_, ?_, ⟨hsound, fun c => ?_, ?_, fun _ hno => by cases hno⟩,
    rfl⟩
  · simp only [ScheduledSystem.enqueue, hr, hmutex, hrun, Bool.false_eq_true, if_false]
  · simp only [System.step, System.enqueue, hr, hmutex, Bool.false_eq_true, if_false]
  · by_cases hc : c = r.clientId
    · have hown : s'.pending c = d.scheduler.pending c ++ [toScheduler r] := by
        have hj := hpush c
        have hmap' : s'.requestMap = (d.scheduler.requestMap.emplace (r.clientId : ℤ) [] p).modify
            r.clientId (fun l => l ++ [toScheduler r]) := hmap
        rw [← hmap', if_pos hc, ← hc] at hj
        exact hj
      rw [hown, h.queues, List.filter_append, List.map_append]
      simp [hc]
    · rw [hothers c hc, h.queues, List.filter_append]
      simp [Ne.symm hc]
  · rw [hcount, h.count, List.length_append]
    rfl

end Requests

section Picks

variable [Add κ] [Sub κ] [Mul κ] [Div κ] [NatCast κ] [IntCast κ] [Zero κ] [LT κ] [DecidableLT κ]
  {cfg : Config} {d d' : ScheduledSystem κ}

/-- The call that a worker is given. -/
def Event.takes (cfg : Config) (d : ScheduledSystem κ) : Event → Option System.Request
  | .schedule _ => (d.scheduler.schedule cfg.strategy).toOption.bind fun picked =>
      d.system.pending.find? fun r => toScheduler r = picked.1
  | _ => none

/-- The request that `schedule` returns is the first that its client has pending. -/
theorem Linked.schedule_spec (h : Linked cfg d) {w : ℕ} (hw : d.system.workers[w]? = some .idle)
    (hmutex : d.system.mutexHeld = false) (hsome : d.system.pending ≠ []) :
    ∃ (r : System.Request) (i : ℕ) (d' : ScheduledSystem κ), d.schedule cfg w = some d' ∧
      d.system.step cfg (.schedule w i) = some d'.system ∧ Linked cfg d' ∧
      Event.takes cfg d (.schedule w) = some r ∧
      ∀ c, (r.callOf c).toList ++ d'.system.pending.filterMap (System.Request.callOf c) =
        d.system.pending.filterMap (System.Request.callOf c) := by
  have hpos : 0 < d.scheduler.requestCount := by
    rw [h.count]
    exact List.length_pos_iff.mpr hsome
  obtain ⟨r', s', rest, hrun, hsound, hregistered, hcount, hfirst, hpending⟩ :=
    h.sound.schedule hpos
  have hqueue := h.queues r'.clientId
  rw [hfirst] at hqueue
  obtain ⟨r, rest', hfilter, hr, hrest⟩ := List.map_eq_cons_iff.mp hqueue.symm
  have hclient : (r.clientId : ℤ) = r'.clientId := congrArg Request.clientId hr
  have hsame : ∀ x : System.Request, decide (toScheduler x = r') = true →
      decide ((x.clientId : ℤ) = r'.clientId) = true := by
    intro x hx
    exact decide_eq_true (congrArg Request.clientId (of_decide_eq_true hx))
  have hfind := find?_of_filter (p := fun x => decide (toScheduler x = r')) hsame
    (decide_eq_true hr) hfilter
  have herase := filter_eraseP (p := fun x => decide (toScheduler x = r')) hsame
    (decide_eq_true hr) hfilter
  have hothers : ∀ c : ℤ, c ≠ r'.clientId →
      (d.system.pending.eraseP fun x => toScheduler x = r').filter (fun x => (x.clientId : ℤ) = c) =
        d.system.pending.filter fun x => (x.clientId : ℤ) = c := by
    intro c hc
    refine filter_eraseP_of_disjoint fun x hx => decide_eq_false fun heq => hc ?_
    exact heq.symm.trans (congrArg Request.clientId (of_decide_eq_true hx))
  obtain ⟨i, hi, hidx⟩ := exists_idx_of_find? hfind
  obtain ⟨hlt, -⟩ := List.getElem?_eq_some_iff.mp hi
  have hlength : s'.requestCount = (d.system.pending.eraseIdx i).length := by
    rw [hcount, h.count, List.length_eraseIdx_of_lt hlt]
  have hsize : r.fileSize = r'.fileSize := congrArg Request.fileSize hr
  let requestSize := Scheduler.handlerShmSize d.system.manager s'.requestCount cfg.serviceWorkers
    r'.fileSize cfg.strategy
  refine ⟨r, i, ⟨{ d.system.setWorker w (.allocating r requestSize) with
    pending := d.system.pending.eraseP fun x => toScheduler x = r' }, s'⟩, ?_, ?_, ?_, ?_,
    fun c => ?_⟩
  · simp only [ScheduledSystem.schedule, hw, hmutex, Bool.false_eq_true, hpos.ne', or_self,
      if_false, hrun, hfind, Option.map_some, requestSize]
  · simp only [System.step, System.schedule, hw, hi, hmutex, Bool.false_eq_true, if_false,
      requestSize, hlength, ← hsize, hidx]
  · refine ⟨hsound, fun c => ?_, ?_, ?_⟩
    · rw [hpending]
      split_ifs with hc
      · rw [hc]
        exact hrest.symm.trans (congrArg (List.map toScheduler) herase.symm)
      · rw [h.queues]
        exact congrArg (List.map toScheduler) (hothers c hc).symm
    · rw [hlength, hidx]
    · intro request hrequest
      rw [hregistered]
      exact h.registered request hrequest
  · rw [Event.takes, hrun]
    exact hfind
  · rw [filterMap_callOf, filterMap_callOf]
    by_cases hc : r.clientId = c
    · have heq : (c : ℤ) = r'.clientId := by rw [← hc, hclient]
      rw [System.Request.callOf, if_pos hc]
      simp only [heq, herase, hfilter]
      rfl
    · have hne : (c : ℤ) ≠ r'.clientId := by
        rw [← hclient]
        exact fun heq => hc (Int.ofNat.inj heq).symm
      rw [System.Request.callOf, if_neg hc]
      exact congrArg (List.map System.Request.toCall) (hothers c hne)

/-! What a step puts in or takes out for a client. -/

def submitted (c : ℕ) (d : ScheduledSystem κ) : Event → List System.Call
  | .other ev => System.submitted c d.system ev
  | _ => []

def taken (cfg : Config) (c : ℕ) (d : ScheduledSystem κ) (e : Event) : List System.Call :=
  ((e.takes cfg d).bind (System.Request.callOf c)).toList

/-- The calls of a client that no worker has taken, oldest first. -/
def waiting (d : ScheduledSystem κ) (c : ℕ) : List System.Call :=
  d.system.pending.filterMap (System.Request.callOf c) ++ d.system.upstream c

def Event.ofSystem : Event → Option System.Event
  | .other ev => some ev
  | _ => none

/-- The steps of the system that leave open what the scheduler does. -/
def ofScheduler : System.Event → Bool
  | .enqueue | .schedule _ _ => true
  | _ => false

/-- What a step is to the system. -/
structure Steps (cfg : Config) (d d' : ScheduledSystem κ) (e : Event) : Prop where
  linked : Linked cfg d'
  system : (e.ofSystem = none ∧ d'.system = d.system) ∨
    ∃ ev, d.system.next cfg ev = some d'.system ∧
      (e.ofSystem = none ∧ ofScheduler ev = true ∨ e = .other ev ∧ ofScheduler ev = false)
  order : ∀ c, taken cfg c d e ++ d'.waiting c = d.waiting c ++ submitted c d e

theorem schedule_guards {w : ℕ} (h : Linked cfg d) (hstep : d.schedule cfg w = some d') :
    d.system.workers[w]? = some .idle ∧ d.system.mutexHeld = false ∧ d.system.pending ≠ [] := by
  unfold ScheduledSystem.schedule at hstep
  split at hstep
  · next hw =>
    split_ifs at hstep with hguard
    obtain ⟨hmutex, hcount⟩ := not_or.mp hguard
    refine ⟨hw, by simpa using hmutex, fun hnil => hcount ?_⟩
    rw [h.count, hnil, List.length_nil]
  · cases hstep

theorem Linked.schedule (h : Linked cfg d) {w : ℕ} (hfault : d.system.fault = none)
    (hstep : d.schedule cfg w = some d') : Steps cfg d d' (.schedule w) := by
  obtain ⟨hw, hmutex, hsome⟩ := schedule_guards h hstep
  obtain ⟨r, i, d₁, hrun, hsystem, hlinked, htakes, horder⟩ := h.schedule_spec hw hmutex hsome
  obtain rfl : d₁ = d' := Option.some.inj (hrun.symm.trans hstep)
  refine ⟨hlinked, .inr ⟨.schedule w i, ?_, .inl ⟨rfl, rfl⟩⟩, fun c => ?_⟩
  · simpa [System.next, System.alive, hfault] using hsystem
  · have hup := System.upstream_step (c := c) hsystem
    simp only [System.accepted, System.submitted, List.nil_append, List.append_nil] at hup
    have hsubmitted : submitted c d (.schedule w) = [] := rfl
    rw [taken, htakes, waiting, waiting, hup, hsubmitted, List.append_nil, ← List.append_assoc]
    exact congrArg (· ++ d.system.upstream c) (horder c)

theorem Linked.enqueue (h : Linked cfg d) {p : Placement ℤ} (hfault : d.system.fault = none)
    (hok : d.keepsIterator (.enqueue p) = true) (hstep : d.enqueue p = some d') :
    Steps cfg d d' (.enqueue p) := by
  obtain ⟨r, hr, hmutex⟩ : ∃ r, d.system.registration = .enqueueing r ∧
      d.system.mutexHeld = false := by
    unfold ScheduledSystem.enqueue at hstep
    split at hstep
    · cases hstep
    · next r hr =>
      split_ifs at hstep with hmutex
      exact ⟨r, hr, by simpa using hmutex⟩
  obtain ⟨d₁, hrun, hsystem, hlinked, hpending⟩ := h.enqueue_spec hr hmutex hok
  obtain rfl : d₁ = d' := Option.some.inj (hrun.symm.trans hstep)
  refine ⟨hlinked, .inr ⟨.enqueue, ?_, .inl ⟨rfl, rfl⟩⟩, fun c => ?_⟩
  · simpa [System.next, System.alive, hfault] using hsystem
  · have hup := System.upstream_step (c := c) hsystem
    have hone : [r].filterMap (System.Request.callOf c) = (r.callOf c).toList := by
      cases hc : r.callOf c <;> simp [hc]
    simp only [System.accepted, System.submitted, hr, System.Registration.callOf,
      List.append_nil] at hup
    have htaken : taken cfg c d (.enqueue p) = [] := rfl
    have hsubmitted : submitted c d (.enqueue p) = [] := rfl
    rw [htaken, hsubmitted, List.nil_append, List.append_nil, waiting, waiting, hpending,
      List.filterMap_append, hone, List.append_assoc, hup]

theorem steps_of_next {e : Event} (h : Linked cfg d) (hok : d.keepsIterator e = true)
    (hstep : next cfg d e = some d') : Steps cfg d d' e := by
  cases e with
  | registerClient c priority p =>
    simp only [next] at hstep
    split_ifs at hstep
    obtain ⟨hlinked, hsame⟩ := h.registerClient hstep
    refine ⟨hlinked, .inl ⟨rfl, hsame⟩, fun c => ?_⟩
    rw [waiting, waiting, hsame]
    exact (List.append_nil _).symm
  | enqueue p =>
    simp only [next] at hstep
    split_ifs at hstep with hfault
    exact h.enqueue (by simpa using hfault) hok hstep
  | schedule w =>
    simp only [next] at hstep
    split_ifs at hstep with hfault
    exact h.schedule (by simpa using hfault) hstep
  | other ev =>
    obtain ⟨henqueue, hschedule, -, hnext, -⟩ := other_cases hstep
    have hsystem := System.step_of_next hnext
    obtain ⟨hpending, -⟩ := pending_step hsystem henqueue hschedule
    have hnot : ofScheduler ev = false := by
      cases ev with
      | enqueue => exact absurd rfl henqueue
      | schedule w i => exact absurd rfl (hschedule w i)
      | _ => rfl
    refine ⟨h.other hstep, .inr ⟨ev, hnext, .inr ⟨rfl, hnot⟩⟩, fun c => ?_⟩
    have hup := System.upstream_step (c := c) hsystem
    have haccepted : System.accepted c d.system ev = [] := by
      cases ev with
      | enqueue => exact absurd rfl henqueue
      | _ => rfl
    rw [haccepted, List.nil_append] at hup
    have htaken : taken cfg c d (.other ev) = [] := rfl
    rw [htaken, List.nil_append, waiting, waiting, hpending, hup, List.append_assoc, submitted]

/-- A run with the scheduler is one of the system, which shows what is left open there. -/
theorem exists_systemRun {ok : System → System.Event → Prop} {es : List Event}
    (hfree : ∀ s ev, ofScheduler ev = true → ok s ev) (hd : Linked cfg d)
    (h : (machine cfg).RunIf (fun d e => d.keepsIterator e = true ∧
      ∀ ev, e = .other ev → ok d.system ev) d es d') :
    Linked cfg d' ∧ ∃ evs, (System.machine cfg).RunIf ok d.system evs d'.system ∧
      evs.filter (fun ev => !ofScheduler ev) = es.filterMap Event.ofSystem := by
  induction h with
  | nil d => exact ⟨hd, [], .nil _, rfl⟩
  | cons hnext hok _ ih =>
    obtain ⟨hlinked, hsystem, -⟩ := steps_of_next hd hok.1 hnext
    obtain ⟨hend, evs, hevs, hsame⟩ := ih hlinked
    refine ⟨hend, ?_⟩
    rcases hsystem with ⟨hnone, hstay⟩ | ⟨ev, hev, ⟨hnone, hpick⟩ | ⟨rfl, hother⟩⟩
    · rw [hstay] at hevs
      exact ⟨evs, hevs, by rw [List.filterMap_cons_none hnone, hsame]⟩
    · refine ⟨ev :: evs, .cons hev (hfree _ _ hpick) hevs, ?_⟩
      rw [List.filterMap_cons_none hnone, List.filter_cons_of_neg (by simp [hpick]), hsame]
    · refine ⟨ev :: evs, .cons hev (hok.2 ev rfl) hevs, ?_⟩
      have hkept : Event.ofSystem (.other ev) = some ev := rfl
      rw [List.filterMap_cons_some hkept, List.filter_cons_of_pos (by simp [hother]), hsame]

/-- The system with its scheduler, under either strategy: a run of it is a run of the
system under the same conditions; a worker that finds something pending is always given
a request, and what the registration thread hands over is always taken; and the calls of
a client are taken by the workers in the order in which it made them. -/
theorem scheduler_picks {ok : System → System.Event → Prop} {es : List Event}
    (hfree : ∀ s ev, ofScheduler ev = true → ok s ev)
    (h : (machine cfg).RunIf (fun d e => d.keepsIterator e = true ∧
      ∀ ev, e = .other ev → ok d.system ev) (init cfg) es d) :
    (∃ evs, (System.machine cfg).RunIf ok (System.init cfg) evs d.system ∧
      evs.filter (fun ev => !ofScheduler ev) = es.filterMap Event.ofSystem) ∧
    (d.system.fault = none → d.system.mutexHeld = false →
      (∀ w, d.system.workers[w]? = some .idle → d.system.pending ≠ [] →
        ∃ d', next cfg d (.schedule w) = some d' ∧ d'.system.fault = none) ∧
      ∀ r p, d.system.registration = .enqueueing r → d.keepsIterator (.enqueue p) = true →
        ∃ d', next cfg d (.enqueue p) = some d' ∧ d'.system.fault = none) ∧
    let run : Machine (ScheduledSystem κ) Event := machine cfg
    ∀ c, run.emitted (taken cfg c) (init cfg) es ++ d.waiting c =
      run.emitted (submitted c) (init cfg) es := by
  obtain ⟨hlinked, hsystem⟩ := exists_systemRun hfree (linked_init cfg) h
  refine ⟨hsystem, fun hfault hmutex => ⟨fun w hw hsome => ?_, fun r p hr hok => ?_⟩, fun c => ?_⟩
  · obtain ⟨r, i, d', hstep, hnext, -⟩ := hlinked.schedule_spec hw hmutex hsome
    refine ⟨d', by simpa [next, hfault] using hstep, ?_⟩
    obtain ⟨request, -, -, -, hs⟩ := System.schedule_cases hnext
    rw [hs]
    exact hfault
  · obtain ⟨d', hstep, hnext, -⟩ := hlinked.enqueue_spec hr hmutex hok
    refine ⟨d', by simpa [next, hfault] using hstep, ?_⟩
    obtain ⟨request, -, -, hs⟩ := System.enqueue_cases hnext
    rw [hs]
    exact hfault
  · exact h.fifo (Linked cfg) (fun d : ScheduledSystem κ => d.waiting c) (submitted c)
      (taken cfg c) (fun _ _ _ hd hnext hok => (steps_of_next hd hok.1 hnext).linked)
      (fun _ _ _ hd hnext hok => (steps_of_next hd hok.1 hnext).order c) (linked_init cfg)

end Picks

/-- Two calls of one client, the first of which a worker takes. -/
def firstTaken : List Event :=
  [.registerClient 0 64 (.splice 0), .other (.submit 0 [1, 2, 3]), .other (.submit 0 [4]),
    .other (.dispatch 0), .other (.dispatch 0), .other (.poll 0), .enqueue (.rehash []),
    .schedule 0]

/-- The other call still waits. -/
theorem scheduler_picks_first : ∃ d : ScheduledSystem ℚ,
    (machine (System.smallService (fun _ => 1))).run (init (System.smallService (fun _ => 1)))
      firstTaken = some d ∧ (d.waiting 0).map System.Call.src = [[4]] := by
  obtain ⟨d, hrun⟩ := Option.isSome_iff_exists.mp
    (show ((machine (System.smallService (fun _ => 1)) : Machine (ScheduledSystem ℚ) Event).runIf
      (fun d e => d.keepsIterator e = true) (init (System.smallService (fun _ => 1)))
      firstTaken).isSome = true by decide +kernel)
  have hd := Machine.RunIf.of_runIf hrun
  obtain ⟨-, -, horder⟩ := scheduler_picks (fun _ _ _ => trivial)
    (hd.mono fun _ _ hok => ⟨hok, fun _ _ => trivial⟩)
  have htaken : ((machine (System.smallService (fun _ => 1)) :
      Machine (ScheduledSystem ℚ) Event).emitted (taken (System.smallService (fun _ => 1)) 0)
      (init (System.smallService (fun _ => 1))) firstTaken).map System.Call.src = [[1, 2, 3]] := by
    decide +kernel
  have hsubmitted : ((machine (System.smallService (fun _ => 1)) :
      Machine (ScheduledSystem ℚ) Event).emitted (submitted 0)
      (init (System.smallService (fun _ => 1))) firstTaken).map System.Call.src =
        [[1, 2, 3], [4]] := by
    decide +kernel
  have hmap := congrArg (List.map System.Call.src) (horder 0)
  rw [List.map_append, htaken, hsubmitted] at hmap
  exact ⟨d, hd.run_eq, List.cons_injective hmap⟩

end TinyFile.ScheduledSystem
