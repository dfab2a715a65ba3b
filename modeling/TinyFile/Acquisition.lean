import TinyFile.Machine
import TinyFile.ShmManager

/-!
# Acquisition by ids

`getShmSegment(ids)`, which a client calls with the ids of a response. Its loop
checks and marks one id after the other, so that a throw leaves marked what stands
before the conflict. Unlike the loop of `getShmSegment(size)` it takes nothing out
of `availableSize`, while the release that they share puts the segments back.
-/
namespace TinyFile

namespace ShmManager

/-- The bitmap after the flags of the ids were set, one after the other. -/
def setFlags (flag : Bool) (ids : List ℕ) (flags : List Bool) : List Bool :=
  ids.foldl (fun flags id => flags.set id flag) flags

theorem length_setFlags (flag : Bool) (ids : List ℕ) (flags : List Bool) :
    (setFlags flag ids flags).length = flags.length := by
  induction ids generalizing flags with
  | nil => rfl
  | cons id ids ih =>
    have h := ih (flags.set id flag)
    rw [List.length_set] at h
    exact h

theorem getElem?_setFlags (flag : Bool) (ids : List ℕ) (flags : List Bool) (i : ℕ) :
    (setFlags flag ids flags)[i]? =
      if i ∈ ids then flags[i]?.map (fun _ => flag) else flags[i]? := by
  induction ids generalizing flags with
  | nil => simp [setFlags]
  | cons id ids ih =>
    have hrest : setFlags flag (id :: ids) flags = setFlags flag ids (flags.set id flag) := rfl
    rw [hrest, ih, List.getElem?_set]
    by_cases hi : id = i
    · subst hi
      by_cases hlt : id < flags.length
      · simp [hlt]
      · simp [hlt]
    · simp [hi, Ne.symm hi]

/-- Clearing the flags of available segments and setting them again. -/
theorem setFlags_setFlags {ids : List ℕ} {flags : List Bool}
    (h : ∀ i ∈ ids, flags[i]? = some true) :
    setFlags true ids (setFlags false ids flags) = flags := by
  refine List.ext_getElem? fun i => ?_
  rw [getElem?_setFlags, getElem?_setFlags]
  split_ifs with hi
  · rw [h i hi]
    rfl
  · rfl

/-- The exception of `getShmSegment(ids)`. -/
def alreadyAllocated (id : ℕ) : Fault :=
  .runtimeError s!"ShmManager: segment {id} already allocated"

/-- The ids index the bitmap and the segments. -/
def InRange (m : ShmManager) (ids : List ℕ) : Prop :=
  ∀ id ∈ ids, id < m.availableSegments.length ∧ id < m.shmSegments.length

/-- The ids are distinct and their segments available. -/
def Acquirable (m : ShmManager) (ids : List ℕ) : Prop :=
  ids.Nodup ∧ ∀ id ∈ ids, m.availableSegments[id]? = some true

instance (m : ShmManager) (ids : List ℕ) : Decidable (m.Acquirable ids) :=
  inferInstanceAs (Decidable (_ ∧ _))

/-- The manager after the loop marked the ids. -/
def marked (m : ShmManager) (ids : List ℕ) : ShmManager :=
  { m with availableSegments := setFlags false ids m.availableSegments }

/-- How the loop ends: through all ids, or at the first id that was allocated
before the call or by it, with the ids before that one marked. -/
inductive Acquisition (m : ShmManager) (ids : List ℕ) :
    Except Fault FragmentedShmSegment × ShmManager → Prop
  | all {gs : FragmentedShmSegment} : m.Acquirable ids →
      ids.map (fun id => m.shmSegments[id]?) = gs.map some →
      Acquisition m ids (.ok gs, m.marked ids)
  | conflict (before : List ℕ) {after : List ℕ} {id : ℕ} : ids = before ++ id :: after →
      m.Acquirable before → id ∈ before ∨ m.availableSegments[id]? = some false →
      Acquisition m ids (.error (alreadyAllocated id), m.marked before)

/-- Marking a segment first leaves those acquirable that were so with it. -/
theorem acquirable_cons {m : ShmManager} {id : ℕ} {ids : List ℕ}
    (hid : m.availableSegments[id]? = some true)
    (h : ({ m with availableSegments := m.availableSegments.set id false } :
      ShmManager).Acquirable ids) : m.Acquirable (id :: ids) := by
  obtain ⟨hnd, hall⟩ := h
  have hlt : id < m.availableSegments.length := (List.getElem?_eq_some_iff.mp hid).1
  have hnot : id ∉ ids := by
    intro hm
    have := hall id hm
    simp [List.getElem?_set_self hlt] at this
  refine ⟨List.nodup_cons.mpr ⟨hnot, hnd⟩, ?_⟩
  intro i hi
  rcases List.mem_cons.mp hi with rfl | hi
  · exact hid
  · have hne : id ≠ i := fun he => hnot (he ▸ hi)
    have := hall i hi
    simpa [List.getElem?_set_ne hne] using this

theorem getShmSegmentByIds_cases {m : ShmManager} {ids : List ℕ} (h : m.InRange ids) :
    m.Acquisition ids (m.getShmSegmentByIds ids) := by
  induction ids generalizing m with
  | nil => exact .all ⟨List.nodup_nil, by simp⟩ rfl
  | cons id ids ih =>
    obtain ⟨hlt, hlt'⟩ := h id List.mem_cons_self
    have hflag := List.getElem?_eq_getElem hlt
    have hseg := List.getElem?_eq_getElem hlt'
    cases hval : m.availableSegments[id] with
    | false =>
      rw [hval] at hflag
      simp only [getShmSegmentByIds, hflag]
      exact .conflict [] rfl ⟨List.nodup_nil, by simp⟩ (.inr hflag)
    | true =>
      rw [hval] at hflag
      obtain ⟨m₁, hm₁⟩ : ∃ m₁ : ShmManager,
        m₁ = { m with availableSegments := m.availableSegments.set id false } := ⟨_, rfl⟩
      have hrange : m₁.InRange ids := by
        intro i hi
        obtain ⟨hi₁, hi₂⟩ := h i (List.mem_cons_of_mem _ hi)
        subst hm₁
        exact ⟨by simpa using hi₁, hi₂⟩
      have hcall := ih hrange
      simp only [getShmSegmentByIds, hflag, hseg, ← hm₁]
      generalize getShmSegmentByIds ids m₁ = r at hcall ⊢
      cases hcall with
      | all hacq hgs =>
        subst hm₁
        exact .all (acquirable_cons hflag hacq) (by rw [List.map_cons, hgs, hseg]; rfl)
      | @conflict before after id' hids hacq hcon =>
        subst hm₁
        refine .conflict (id :: before) (by rw [hids]; rfl) (acquirable_cons hflag hacq) ?_
        rcases hcon with hmem | hfalse
        · exact .inl (List.mem_cons_of_mem _ hmem)
        · by_cases hi : id = id'
          · exact .inl (hi ▸ List.mem_cons_self)
          · exact .inr (by simpa [List.getElem?_set_ne hi] using hfalse)

section AllOrNothing

/-- If the call throws because an id is already allocated, it changed nothing. -/
def AllOrNothing (m : ShmManager) (ids : List ℕ) : Prop :=
  ∀ id, (m.getShmSegmentByIds ids).1 = .error (alreadyAllocated id) →
    (m.getShmSegmentByIds ids).2.availableSegments = m.availableSegments ∧
      (m.getShmSegmentByIds ids).2.availableSize = m.availableSize

/-- A marked segment is not available any more. -/
theorem marked_ne {m : ShmManager} {id : ℕ} {ids : List ℕ}
    (hid : m.availableSegments[id]? = some true) (hmem : id ∈ ids) :
    (m.marked ids).availableSegments ≠ m.availableSegments := by
  intro he
  have hflag : (m.marked ids).availableSegments[id]? = some false := by
    rw [marked, getElem?_setFlags, if_pos hmem, hid]
    rfl
  rw [he, hid] at hflag
  simp at hflag

/-- The call is all or nothing exactly when nothing stands in its way or the
first id already does. -/
theorem allOrNothing_iff {m : ShmManager} {ids : List ℕ} (h : m.InRange ids) :
    m.AllOrNothing ids ↔ m.Acquirable ids ∨
      ∃ id, ids.head? = some id ∧ m.availableSegments[id]? = some false := by
  have hcases := getShmSegmentByIds_cases h
  rw [AllOrNothing]
  generalize m.getShmSegmentByIds ids = r at hcases ⊢
  cases hcases with
  | all hacq _ => simp [hacq]
  | @conflict before after id hids hacq hcon =>
    cases before with
    | nil =>
      -- the first id was allocated before the call
      have hfalse : m.availableSegments[id]? = some false := by simpa using hcon
      refine iff_of_true (fun _ _ => ⟨rfl, rfl⟩) (.inr ⟨id, by rw [hids]; rfl, hfalse⟩)
    | cons first before =>
      have htrue := hacq.2 first List.mem_cons_self
      refine iff_of_false ?_ ?_
      · intro hnothing
        exact marked_ne htrue List.mem_cons_self (hnothing id rfl).1
      · rintro (⟨hnd, hall⟩ | ⟨id', hhead, hfalse⟩)
        · rcases hcon with hmem | hfalse
          · rw [hids] at hnd
            exact List.disjoint_of_nodup_append hnd hmem List.mem_cons_self
          · have := hall id (by rw [hids]; simp)
            rw [hfalse] at this
            simp at this
        · rw [hids] at hhead
          obtain rfl : first = id' := by simpa using hhead
          rw [htrue] at hfalse
          simp at hfalse

/-- The first id is free and the second is not. -/
theorem allOrNothing_iff_partial :
    ∃ m, init 1 64 INTERNAL_REP_SIZE = some m ∧ ¬ (m.marked [1]).AllOrNothing [0, 1] := by
  obtain ⟨m, hm⟩ : ∃ m, m = (init 1 64 INTERNAL_REP_SIZE).get (by decide) := ⟨_, rfl⟩
  have hrange : (m.marked [1]).InRange [0, 1] := by
    subst hm
    unfold InRange
    decide
  refine ⟨m, by simp [hm], fun hnothing => ?_⟩
  subst hm
  rcases (allOrNothing_iff hrange).mp hnothing with hacq | ⟨id, hhead, hfalse⟩
  · revert hacq
    decide
  · obtain rfl : 0 = id := by simpa using hhead
    revert hfalse
    decide

/-- A repeated id throws at its second occurrence and its segment stays marked. -/
theorem conflict_leaves_marked :
    ∃ m, init 1 64 INTERNAL_REP_SIZE = some m ∧ m.InRange [0, 0] ∧
      (m.getShmSegmentByIds [0, 0]).1 = .error (alreadyAllocated 0) ∧
      m.availableSegments = [true, true] ∧
      (m.getShmSegmentByIds [0, 0]).2.availableSegments = [false, true] ∧
      ¬ m.AllOrNothing [0, 0] := by
  refine ⟨_, rfl, by unfold InRange; decide, by decide, by decide, by decide, ?_⟩
  intro hnothing
  have := (hnothing 0 (by decide)).1
  revert this
  decide

end AllOrNothing

section Accounting

/-- The total size of the segments that are marked available. -/
def availableTotal (m : ShmManager) : ℕ :=
  (((m.availableSegments.zip m.shmSegments).filter Prod.fst).map (fun a => a.2.size)).sum

theorem sum_available {rep : ℕ} {flags : List Bool} {segs : List ContiguousShmSegment}
    (hsegs : ∀ i, i < flags.length → ∃ g, segs[i]? = some g ∧ g.size = rep) :
    (((flags.zip segs).filter Prod.fst).map (fun a => a.2.size)).sum =
      rep * flags.count true := by
  induction flags generalizing segs with
  | nil => simp
  | cons flag flags ih =>
    obtain ⟨g, hg, hsize⟩ := hsegs 0 (by simp)
    cases segs with
    | nil => simp at hg
    | cons g' segs =>
      obtain rfl : g' = g := by simpa using hg
      have hsegs' : ∀ i, i < flags.length → ∃ g, segs[i]? = some g ∧ g.size = rep := by
        intro i hi
        simpa using hsegs (i + 1) (by simpa using hi)
      have hrest := ih hsegs'
      cases flag with
      | false => simpa using hrest
      | true =>
        simp only [List.zip_cons_cons, List.filter_cons_of_pos, List.map_cons, List.sum_cons,
          List.count_cons_self, hrest, hsize, Nat.mul_succ]
        omega

/-- Marking takes the ids out of the available ones. -/
theorem count_setFlags {ids : List ℕ} {flags : List Bool} (hnd : ids.Nodup)
    (h : ∀ i ∈ ids, flags[i]? = some true) :
    (setFlags false ids flags).count true + ids.length = flags.count true := by
  induction ids generalizing flags with
  | nil => rfl
  | cons id ids ih =>
    obtain ⟨hnot, hnd⟩ := List.nodup_cons.mp hnd
    obtain ⟨hlt, hget⟩ := List.getElem?_eq_some_iff.mp (h id List.mem_cons_self)
    have hrest : (setFlags false ids (flags.set id false)).count true + ids.length =
        (flags.set id false).count true := by
      refine ih hnd fun i hi => ?_
      have hne : id ≠ i := fun he => hnot (he ▸ hi)
      rw [List.getElem?_set_ne hne]
      exact h i (List.mem_cons_of_mem _ hi)
    have hset : (flags.set id false).count true + 1 = flags.count true := by
      have hpos : 0 < flags.count true :=
        List.count_pos_iff.mpr (hget ▸ List.getElem_mem hlt)
      rw [List.count_set hlt, hget]
      simp
      omega
    have hcons : setFlags false (id :: ids) flags =
      setFlags false ids (flags.set id false) := rfl
    rw [hcons, List.length_cons]
    omega

/-- The segments that the loop collects, when each one stands under its id. -/
theorem getSegmentIds_of_map {segs : ℕ → Option ContiguousShmSegment} {ids : List ℕ}
    {gs : FragmentedShmSegment} (h : ids.map segs = gs.map some)
    (hid : ∀ id ∈ ids, ∀ g, segs id = some g → g.id = id) : gs.getSegmentIds = ids := by
  induction ids generalizing gs with
  | nil =>
    obtain rfl : gs = [] := by simpa using h.symm
    rfl
  | cons id ids ih =>
    cases gs with
    | nil => simp at h
    | cons g gs =>
      obtain ⟨hg, hgs⟩ := List.cons.inj h
      have hfirst := hid id List.mem_cons_self g hg
      have hrest := ih hgs fun i hi => hid i (List.mem_cons_of_mem _ hi)
      exact List.cons_eq_cons.mpr ⟨hfirst, hrest⟩

/-- Acquiring distinct, available segments succeeds. -/
theorem getShmSegmentByIds_acquirable {m : ShmManager} {ids : List ℕ} (hlayout : m.Layout)
    (hlen : m.availableSegments.length = m.numInternalSegments) (h : m.Acquirable ids) :
    ∃ gs : FragmentedShmSegment, m.getShmSegmentByIds ids = (.ok gs, m.marked ids) ∧
      gs.getSegmentIds = ids ∧ ∀ g ∈ gs, m.shmSegments[g.id]? = some g ∧
        g.size = m.internalRepSize := by
  have hlt : ∀ id ∈ ids, id < m.numInternalSegments := by
    intro id hid
    exact hlen ▸ (List.getElem?_eq_some_iff.mp (h.2 id hid)).1
  have hrange : m.InRange ids := by
    intro id hid
    obtain ⟨g, hg, -⟩ := hlayout.segment id (hlt id hid)
    exact ⟨hlen ▸ hlt id hid, (List.getElem?_eq_some_iff.mp hg).1⟩
  have hcases := getShmSegmentByIds_cases hrange
  generalize m.getShmSegmentByIds ids = r at hcases ⊢
  cases hcases with
  | @all gs _ hgs =>
    have hsegment : ∀ id ∈ ids, ∀ g, m.shmSegments[id]? = some g →
        g.id = id ∧ g.size = m.internalRepSize := by
      intro id hid g hg
      obtain ⟨g', hg', hid', hsize⟩ := hlayout.segment id (hlt id hid)
      obtain rfl : g = g' := Option.some.inj (hg.symm.trans hg')
      exact ⟨hid', hsize⟩
    refine ⟨gs, rfl, getSegmentIds_of_map hgs fun id hid g hg => (hsegment id hid g hg).1, ?_⟩
    intro g hg
    have hmem : some g ∈ ids.map (fun id => m.shmSegments[id]?) :=
      hgs ▸ List.mem_map_of_mem hg
    obtain ⟨id, hid, hsome⟩ := List.mem_map.mp hmem
    obtain ⟨rfl, hsize⟩ := hsegment id hid g hsome
    exact ⟨hsome, hsize⟩
  | @conflict before after id hids _ hcon =>
    obtain ⟨hnd, hall⟩ := h
    rcases hcon with hmem | hfalse
    · rw [hids] at hnd
      exact absurd List.mem_cons_self (List.disjoint_of_nodup_append hnd hmem)
    · have := hall id (by rw [hids]; simp)
      rw [hfalse] at this
      simp at this

/-- Each released id adds a segment's size to the counter. -/
theorem availableSize_release {m : ShmManager} {gs : FragmentedShmSegment}
    (hgs : ∀ g ∈ gs, m.shmSegments[g.id]? = some g ∧ g.size = m.internalRepSize)
    (hlt : m.availableSize < SizeT.modulus) :
    (m.releaseShmSegment gs.getSegmentIds).availableSize =
      SizeT.add m.availableSize (m.internalRepSize * gs.length) := by
  induction gs generalizing m with
  | nil => exact (Nat.mod_eq_of_lt hlt).symm
  | cons g gs ih =>
    obtain ⟨hg, hsize⟩ := hgs g List.mem_cons_self
    have hone : (m.releaseOne g.id).availableSize =
        SizeT.add m.availableSize m.internalRepSize := by
      simp only [ShmManager.releaseOne, hg, Option.map_some, Option.getD_some, hsize]
    have hlt' : (m.releaseOne g.id).availableSize < SizeT.modulus := by
      rw [hone]
      exact Nat.mod_lt _ (by norm_num [SizeT.modulus])
    have hrest := ih (m := m.releaseOne g.id)
      (fun g' hg' => hgs g' (List.mem_cons_of_mem _ hg')) hlt'
    have hcons : m.releaseShmSegment (FragmentedShmSegment.getSegmentIds (g :: gs)) =
        (m.releaseOne g.id).releaseShmSegment (FragmentedShmSegment.getSegmentIds gs) := rfl
    rw [hcons, hrest, hone, SizeT.add, SizeT.add, SizeT.add, Nat.mod_add_mod,
      show (m.releaseOne g.id).internalRepSize = m.internalRepSize from rfl,
      List.length_cons, Nat.mul_succ]
    congr 1
    omega

theorem availableSegments_release (m : ShmManager) (ids : List ℕ) :
    (m.releaseShmSegment ids).availableSegments = setFlags true ids m.availableSegments := by
  induction ids generalizing m with
  | nil => rfl
  | cons id ids ih => exact ih (m.releaseOne id)

/-- An acquisition and its release restore the bitmap and add to the counter
what the acquisition did not take out. -/
theorem acquire_release {m : ShmManager} {gs : FragmentedShmSegment}
    (hacq : m.Acquirable gs.getSegmentIds) (hlt : m.availableSize < SizeT.modulus)
    (hgs : ∀ g ∈ gs, m.shmSegments[g.id]? = some g ∧ g.size = m.internalRepSize) :
    ((m.marked gs.getSegmentIds).releaseShmSegment gs.getSegmentIds).availableSegments =
        m.availableSegments ∧
      ((m.marked gs.getSegmentIds).releaseShmSegment gs.getSegmentIds).availableSize =
        SizeT.add m.availableSize (m.internalRepSize * gs.length) := by
  refine ⟨?_, availableSize_release (m := m.marked gs.getSegmentIds) hgs hlt⟩
  rw [availableSegments_release]
  exact setFlags_setFlags hacq.2

end Accounting

end ShmManager

end TinyFile
