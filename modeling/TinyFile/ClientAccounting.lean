import TinyFile.Acquisition

/-!
# The counter of a client's pool

What a client does with its pool in the course of its life: it acquires the
segments of the responses by their ids and destroys them in any order. The bitmap
is right throughout, but `availableSize` grows with every id that is released.
-/
namespace TinyFile

/-- The client's pool with the segments of the responses it has received. -/
structure ReceivedSegments where
  manager : ShmManager
  outstanding : List FragmentedShmSegment
  deriving DecidableEq

namespace ReceivedSegments

inductive Event where
  | getShmSegment (shmIds : List ℕ)
  | destroy (index : ℕ)
  deriving DecidableEq

def next (p : ReceivedSegments) : Event → Option ReceivedSegments
  | .getShmSegment shmIds =>
      if p.manager.Acquirable shmIds then
        match p.manager.getShmSegmentByIds shmIds with
        | (.ok gs, m) => some ⟨m, gs :: p.outstanding⟩
        | (.error _, _) => none
      else none
  | .destroy index => p.outstanding[index]?.map fun gs =>
      ⟨p.manager.releaseShmSegment gs.getSegmentIds, p.outstanding.eraseIdx index⟩

def machine (m : ShmManager) : Machine ReceivedSegments Event where
  start := ⟨m, []⟩
  next := next

/-- `availableSize` is what its declaration says. -/
def Accounted (p : ReceivedSegments) : Prop :=
  p.manager.availableSize = p.manager.availableTotal ∧ p.manager.availableSize ≤ p.manager.size

/-- An acquisition that is undone at once leaves the bitmap and the counter as
they were. -/
def Restores (p : ReceivedSegments) : Event → Prop
  | .getShmSegment shmIds => ∀ q q', p.next (.getShmSegment shmIds) = some q →
      q.next (.destroy 0) = some q' →
      q'.manager.availableSegments = p.manager.availableSegments ∧
        q'.manager.availableSize = p.manager.availableSize
  | .destroy _ => True

/-- The number of ids that an event acquires. -/
def Event.acquired : Event → ℕ
  | .getShmSegment shmIds => shmIds.length
  | .destroy _ => 0

/-- The segments of the client are segments of its pool, and the counter has
grown by the ids that were released. -/
structure Drift (m : ShmManager) (p : ReceivedSegments) (released : ℕ) : Prop where
  same : m.SamePool p.manager
  length : p.manager.availableSegments.length = m.numInternalSegments
  segment : ∀ gs ∈ p.outstanding, ∀ g ∈ gs, m.shmSegments[g.id]? = some g ∧
    g.size = m.internalRepSize
  availableSize : p.manager.availableSize = SizeT.add m.size (m.internalRepSize * released)

variable {m : ShmManager} {p q : ReceivedSegments}

theorem Drift.layout {released : ℕ} (hm : m.Layout) (h : Drift m p released) :
    p.manager.Layout := by
  rw [h.same]
  exact ⟨hm.rep_pos, hm.size_lt, hm.count, hm.segment, hm.disjoint⟩

theorem Drift.length_manager {released : ℕ} (h : Drift m p released) :
    p.manager.availableSegments.length = p.manager.numInternalSegments := by
  rw [h.length, h.same]

/-- The acquisitions of a run come to an end with the ids marked. -/
theorem next_getShmSegment {shmIds : List ℕ} {released : ℕ} (hm : m.Layout)
    (h : Drift m p released) (hq : p.next (.getShmSegment shmIds) = some q) :
    p.manager.Acquirable shmIds ∧ ∃ gs : FragmentedShmSegment,
      q = ⟨p.manager.marked shmIds, gs :: p.outstanding⟩ ∧ gs.getSegmentIds = shmIds ∧
      ∀ g ∈ gs, m.shmSegments[g.id]? = some g ∧ g.size = m.internalRepSize := by
  simp only [next] at hq
  split_ifs at hq with hacq
  obtain ⟨gs, hcall, hids, hgs⟩ :=
    ShmManager.getShmSegmentByIds_acquirable (h.layout hm) h.length_manager hacq
  rw [hcall] at hq
  cases hq
  refine ⟨hacq, gs, rfl, hids, ?_⟩
  rw [h.same] at hgs
  exact hgs

/-- A release adds to the counter, an acquisition takes nothing out of it. -/
theorem drift_next {e : Event} {released : ℕ} (hm : m.Layout) (h : Drift m p released)
    (hq : p.next e = some q) : ∃ released', Drift m q released' ∧
      released' + q.outstanding.flatten.length =
        released + p.outstanding.flatten.length + e.acquired := by
  cases e with
  | getShmSegment shmIds =>
    obtain ⟨-, gs, rfl, rfl, hgs⟩ := next_getShmSegment hm h hq
    refine ⟨released, ⟨h.same.trans rfl, ?_, ?_, h.availableSize⟩, ?_⟩
    · exact (ShmManager.length_setFlags _ _ _).trans h.length
    · intro gs' hgs'
      rcases List.mem_cons.mp hgs' with rfl | hgs'
      · exact hgs
      · exact h.segment gs' hgs'
    · simp only [List.flatten_cons, List.length_append, Event.acquired,
        FragmentedShmSegment.getSegmentIds, List.length_map]
      omega
  | destroy index =>
    obtain ⟨gs, hgs, rfl⟩ := Option.map_eq_some_iff.mp hq
    obtain ⟨hlt, hget⟩ := List.getElem?_eq_some_iff.mp hgs
    have hmem : gs ∈ p.outstanding := List.mem_of_getElem? hgs
    have hlen : p.outstanding.flatten.length =
        gs.length + (p.outstanding.eraseIdx index).flatten.length := by
      have := (List.getElem_cons_eraseIdx_perm hlt).flatten.length_eq
      rw [hget, List.flatten_cons, List.length_append] at this
      exact this.symm
    have hgs' : ∀ g ∈ gs, p.manager.shmSegments[g.id]? = some g ∧
        g.size = p.manager.internalRepSize := by
      rw [h.same]
      exact h.segment gs hmem
    have hsmall : p.manager.availableSize < SizeT.modulus := by
      rw [h.availableSize]
      exact Nat.mod_lt _ (by norm_num [SizeT.modulus])
    refine ⟨released + gs.length, ⟨h.same.trans (ShmManager.samePool_release _ _), ?_, ?_, ?_⟩, ?_⟩
    · exact (ShmManager.length_release _ _).trans h.length
    · intro gs₁ hgs₁
      exact h.segment gs₁ (List.mem_of_mem_eraseIdx hgs₁)
    · rw [ShmManager.availableSize_release hgs' hsmall, h.availableSize, h.same.internalRepSize,
        SizeT.add, SizeT.add, SizeT.add, Nat.mod_add_mod, Nat.mul_add, Nat.add_assoc]
    · dsimp only [Event.acquired]
      omega

theorem drift_start (h : m.PoolInvariant []) : Drift m ⟨m, []⟩ 0 where
  same := .refl m
  length := h.length
  segment := by
    intro gs hgs
    cases hgs
  availableSize := by
    have := h.availableSize_add
    have := h.layout.size_lt
    simp only [List.length_nil, Nat.mul_zero, Nat.add_zero] at *
    rw [SizeT.add_of_lt (by omega)]
    omega

theorem drift_run {ok : ReceivedSegments → Event → Prop} {es : List Event} (hm : m.Layout)
    (hrun : (machine m).RunIf ok p es q) {released : ℕ} (h : Drift m p released) :
    ∃ released', Drift m q released' ∧ released' + q.outstanding.flatten.length =
      released + p.outstanding.flatten.length + (es.map Event.acquired).sum := by
  induction hrun generalizing released with
  | nil => exact ⟨released, h, by simp⟩
  | cons hnext _ _ ih =>
    obtain ⟨released₁, h₁, hsum₁⟩ := drift_next hm h hnext
    obtain ⟨released₂, h₂, hsum₂⟩ := ih h₁
    refine ⟨released₂, h₂, ?_⟩
    rw [List.map_cons, List.sum_cons]
    omega

/-- The counter after any run, by the ids that were acquired and given back. -/
theorem availableSize_of_run (h : m.PoolInvariant []) {es : List Event}
    (hrun : (machine m).run ⟨m, []⟩ es = some q) :
    q.manager.availableSize = SizeT.add m.size (m.internalRepSize *
      ((es.map Event.acquired).sum - q.outstanding.flatten.length)) := by
  obtain ⟨released, hdrift, hsum⟩ := drift_run h.layout (.of_run hrun) (drift_start h)
  rw [List.flatten_nil, List.length_nil] at hsum
  have hreleased : released = (es.map Event.acquired).sum - q.outstanding.flatten.length := by
    omega
  rw [hdrift.availableSize, hreleased]

section Accounting

theorem availableTotal_eq {released : ℕ} (hm : m.Layout) (h : Drift m p released) :
    p.manager.availableTotal = m.internalRepSize * p.manager.availableSegments.count true := by
  refine ShmManager.sum_available fun i hi => ?_
  obtain ⟨g, hg, -, hsize⟩ := hm.segment i (h.length ▸ hi)
  exact ⟨g, by rw [h.same]; exact hg, hsize⟩

/-- Acquiring an id puts the counter above the total. -/
theorem not_accounted_acquire {shmIds : List ℕ} {released : ℕ} (hm : m.Layout)
    (h : Drift m p released) (hp : p.Accounted) (hne : shmIds ≠ [])
    (hq : p.next (.getShmSegment shmIds) = some q) : ¬ q.Accounted := by
  obtain ⟨released', hdrift', -⟩ := drift_next hm h hq
  obtain ⟨hacq, gs, rfl, -, -⟩ := next_getShmSegment hm h hq
  rintro ⟨htotal, -⟩
  have hbefore := hp.1
  rw [availableTotal_eq hm h] at hbefore
  rw [availableTotal_eq hm hdrift'] at htotal
  have hcount := ShmManager.count_setFlags hacq.1 hacq.2
  have hpos : 0 < shmIds.length := List.length_pos_iff.mpr hne
  have hlt : m.internalRepSize * (p.manager.marked shmIds).availableSegments.count true <
      m.internalRepSize * p.manager.availableSegments.count true := by
    refine Nat.mul_lt_mul_of_pos_left ?_ hm.rep_pos
    simp only [ShmManager.marked]
    omega
  have hsame : (p.manager.marked shmIds).availableSize = p.manager.availableSize := rfl
  simp only at htotal
  omega

/-- A run that keeps the books. -/
def KeepsAccounts (m : ShmManager) (p : ReceivedSegments) (es : List Event)
    (q : ReceivedSegments) : Prop :=
  (machine m).RunIf (fun p e => p.Accounted ∧ p.Restores e) p es q ∧ q.Accounted

theorem KeepsAccounts.accounted {es : List Event} (h : KeepsAccounts m p es q) :
    p.Accounted := by
  obtain ⟨hrun, hq⟩ := h
  cases hrun with
  | nil => exact hq
  | cons _ hok _ => exact hok.1

theorem KeepsAccounts.acquires_nothing {es : List Event} {released : ℕ} (hm : m.Layout)
    (hdrift : Drift m p released) (h : KeepsAccounts m p es q) :
    ∀ shmIds, .getShmSegment shmIds ∈ es → shmIds = [] := by
  induction es generalizing p released with
  | nil => simp
  | cons e es ih =>
    obtain ⟨hrun, hq⟩ := h
    cases hrun with
    | cons hnext hok hrest =>
      obtain ⟨released', hdrift', -⟩ := drift_next hm hdrift hnext
      have htail : KeepsAccounts m _ es q := ⟨hrest, hq⟩
      intro shmIds hmem
      rcases List.mem_cons.mp hmem with rfl | hmem
      · by_contra hne
        exact not_accounted_acquire hm hdrift hok.1 hne hnext htail.accounted
      · exact ih hdrift' htail shmIds hmem

/-- The client has acquired nothing but empty lists of ids. -/
def Untouched (m : ShmManager) (p : ReceivedSegments) : Prop :=
  p.manager = m ∧ ∀ gs ∈ p.outstanding, gs = []

theorem next_getShmSegment_nil (p : ReceivedSegments) :
    p.next (.getShmSegment []) = some ⟨p.manager, [] :: p.outstanding⟩ := by
  have hacq : p.manager.Acquirable [] := ⟨List.nodup_nil, by simp⟩
  simp [next, hacq, ShmManager.getShmSegmentByIds]

theorem restores_nil (p : ReceivedSegments) : p.Restores (.getShmSegment []) := by
  intro q q' hq hq'
  rw [next_getShmSegment_nil] at hq
  cases hq
  cases hq'
  exact ⟨rfl, rfl⟩

theorem untouched_next {e : Event} (h : Untouched m p)
    (he : ∀ shmIds, e = .getShmSegment shmIds → shmIds = []) (hq : p.next e = some q) :
    Untouched m q := by
  obtain ⟨hm, hall⟩ := h
  cases e with
  | getShmSegment shmIds =>
    obtain rfl := he shmIds rfl
    rw [next_getShmSegment_nil] at hq
    cases hq
    exact ⟨hm, by simpa using hall⟩
  | destroy index =>
    obtain ⟨gs, hgs, rfl⟩ := Option.map_eq_some_iff.mp hq
    obtain rfl := hall gs (List.mem_of_getElem? hgs)
    exact ⟨hm, fun gs' hgs' => hall gs' (List.mem_of_mem_eraseIdx hgs')⟩

/-- With nothing held the counter is the total of the pool. -/
theorem accounted_iff (h : m.PoolInvariant []) (hp : Untouched m p) :
    p.Accounted ↔ m.size % m.internalRepSize = 0 := by
  have htotal := availableTotal_eq h.layout (drift_start h)
  have havail := h.available
  have hsize := h.availableSize_add
  rw [Accounted, hp.1]
  dsimp only at htotal
  simp only [List.length_nil, Nat.mul_zero, Nat.add_zero] at hsize
  rw [htotal]
  omega

theorem keepsAccounts_of_untouched {es : List Event} (h : m.PoolInvariant [])
    (hrest : m.size % m.internalRepSize = 0) (hp : Untouched m p)
    (hes : ∀ shmIds, .getShmSegment shmIds ∈ es → shmIds = [])
    (hrun : (machine m).run p es = some q) : KeepsAccounts m p es q := by
  induction es generalizing p with
  | nil =>
    obtain rfl : p = q := by simpa using hrun
    exact ⟨.nil p, (accounted_iff h hp).mpr hrest⟩
  | cons e es ih =>
    obtain ⟨p', hnext, hrun'⟩ := Option.bind_eq_some_iff.mp hrun
    have he : ∀ shmIds, e = .getShmSegment shmIds → shmIds = [] := by
      intro shmIds heq
      exact hes shmIds (heq ▸ List.mem_cons_self)
    have hrestores : p.Restores e := by
      cases e with
      | getShmSegment shmIds =>
        obtain rfl := he shmIds rfl
        exact restores_nil p
      | destroy index => trivial
    obtain ⟨htail, hq⟩ := ih (untouched_next hp he hnext)
      (fun shmIds hmem => hes shmIds (List.mem_cons_of_mem _ hmem)) hrun'
    exact ⟨.cons hnext ⟨(accounted_iff h hp).mpr hrest, hrestores⟩ htail, hq⟩

/-- The counter is right along a run exactly when the pool has no rest and the
run acquires no id. -/
theorem keepsAccounts_iff {n s r : ℕ} (hr : 0 < r) (hinit : ShmManager.init n s r = some m)
    {es : List Event} (hrun : (machine m).run ⟨m, []⟩ es = some q) :
    KeepsAccounts m ⟨m, []⟩ es q ↔
      m.size % m.internalRepSize = 0 ∧ ∀ shmIds, .getShmSegment shmIds ∈ es → shmIds = [] := by
  have hinv := ShmManager.poolInvariant_init hr hinit
  have huntouched : Untouched m ⟨m, []⟩ := ⟨rfl, by simp⟩
  constructor
  · intro h
    exact ⟨(accounted_iff hinv huntouched).mp h.accounted,
      h.acquires_nothing hinv.layout (drift_start hinv)⟩
  · rintro ⟨hrest, hes⟩
    exact keepsAccounts_of_untouched hinv hrest huntouched hes hrun

/-- A response of two segments and its destruction, in a pool of two. -/
theorem keepsAccounts_iff_response :
    ∃ m q, ShmManager.init 1 64 INTERNAL_REP_SIZE = some m ∧
      (machine m).run ⟨m, []⟩ [.getShmSegment [1, 0], .destroy 0] = some q ∧
      ¬ KeepsAccounts m ⟨m, []⟩ [.getShmSegment [1, 0], .destroy 0] q := by
  obtain ⟨m, hinit⟩ : ∃ m, ShmManager.init 1 64 INTERNAL_REP_SIZE = some m := ⟨_, rfl⟩
  obtain ⟨q, hrun⟩ : ∃ q, (machine m).run ⟨m, []⟩ [.getShmSegment [1, 0], .destroy 0] = some q := by
    have hm : m = (ShmManager.init 1 64 INTERNAL_REP_SIZE).get (by decide) := by simp [hinit]
    subst hm
    exact ⟨_, rfl⟩
  refine ⟨m, q, hinit, hrun, fun h => ?_⟩
  have hnothing := ((keepsAccounts_iff (by decide) hinit hrun).mp h).2 [1, 0] (by simp)
  cases hnothing

/-- Acquiring one of two segments and destroying it leaves 96 bytes available of
a pool of 64. -/
theorem availableSize_exceeds_size :
    ∃ m p q, ShmManager.init 1 64 INTERNAL_REP_SIZE = some m ∧
      (machine m).run ⟨m, []⟩ [.getShmSegment [0]] = some p ∧
      p.manager.availableSize = 64 ∧ p.manager.availableTotal = 32 ∧
      (machine m).run p [.destroy 0] = some q ∧
      q.manager.availableSegments = m.availableSegments ∧
      m.availableSize = 64 ∧ q.manager.availableSize = 96 ∧ q.manager.size = 64 ∧
      ¬ KeepsAccounts m ⟨m, []⟩ [.getShmSegment [0], .destroy 0] q := by
  refine ⟨_, _, _, rfl, rfl, by decide, by decide, rfl, by decide, by decide, by decide,
    by decide, ?_⟩
  rintro ⟨-, -, hle⟩
  revert hle
  decide

end Accounting

end ReceivedSegments

end TinyFile
