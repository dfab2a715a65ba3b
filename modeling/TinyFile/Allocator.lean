import TinyFile.PoolLayout
import TinyFile.ResponseSize

/-!
# The allocator's books

The pool of the service over whole runs of `getShmSegment(size)` and of the
destructors of what it returned, in any order. Beside each outstanding segment
stands the size it was asked for.
-/
namespace TinyFile

/-- A pool and the size that each outstanding segment was asked for. -/
structure Ledger where
  pool : Pool
  requested : List ℕ

namespace Ledger

def record : Pool.Event → List ℕ → List ℕ
  | .getShmSegment requestSize, sizes => requestSize :: sizes
  | .destroy index, sizes => sizes.eraseIdx index

def next (l : Ledger) (e : Pool.Event) : Option Ledger :=
  (l.pool.next e).map fun p => ⟨p, record e l.requested⟩

def machine (m : ShmManager) : Machine Ledger Pool.Event where
  start := ⟨⟨m, []⟩, []⟩
  next := next

/-- The books balance: the outstanding segments share no id and have the sizes
they were asked for, and the bitmap, the byte counter and the segments handed
out agree. -/
structure Balanced (l : Ledger) (initial : ShmManager) : Prop where
  disjoint : l.pool.outstanding.Pairwise
    (fun gs gs' => gs.getSegmentIds.Disjoint gs'.getSegmentIds)
  nodup : ∀ gs ∈ l.pool.outstanding, gs.getSegmentIds.Nodup
  sizes : List.Forall₂ (fun requestSize gs => FragmentedShmSegment.size gs = requestSize)
    l.requested l.pool.outstanding
  availableSize : l.pool.manager.availableSize =
    l.pool.manager.internalRepSize * l.pool.manager.availableSegments.count true
  owner : ∀ id, id < l.pool.manager.numInternalSegments →
    (l.pool.manager.availableSegments[id]? = some true ∧
      ∀ gs ∈ l.pool.outstanding, id ∉ gs.getSegmentIds) ∨
    (l.pool.manager.availableSegments[id]? = some false ∧
      l.pool.outstanding.countP (fun gs => id ∈ gs.getSegmentIds) = 1)
  restored : l.pool.outstanding = [] → l.pool.manager = initial

end Ledger

theorem forall₂_eraseIdx {α β : Type*} {r : α → β → Prop} {xs : List α} {ys : List β}
    (h : List.Forall₂ r xs ys) (i : ℕ) : List.Forall₂ r (xs.eraseIdx i) (ys.eraseIdx i) := by
  induction h generalizing i with
  | nil => exact .nil
  | cons hxy hrest ih =>
    cases i with
    | zero => exact hrest
    | succ i => exact .cons hxy (ih i)

/-- In lists without a common element, the ones that hold `a` are as many as the
occurrences of `a`. -/
theorem countP_mem_eq_count_flatten {α : Type*} [DecidableEq α] {L : List (List α)}
    (h : L.flatten.Nodup) (a : α) : L.countP (fun l => a ∈ l) = L.flatten.count a := by
  induction L with
  | nil => rfl
  | cons l L ih =>
    obtain ⟨hl, hL, -⟩ := List.nodup_append.mp (List.flatten_cons ▸ h)
    rw [List.countP_cons, ih hL, List.flatten_cons, List.count_append]
    by_cases ha : a ∈ l
    · rw [List.count_eq_one_of_mem hl ha, if_pos (by simpa using ha), Nat.add_comm]
    · rw [List.count_eq_zero.mpr ha, if_neg (by simpa using ha), Nat.add_zero, Nat.zero_add]

namespace ShmManager

/-- A pool that is cut evenly has no rest. -/
theorem size_of_init {n s r : ℕ} {m : ShmManager} (hr : 0 < r) (hs : s < SizeT.modulus)
    (hdvd : r ∣ s) (hinit : init n s r = some m) : m.size = n * s := by
  rw [(init_fields hinit).2.1]
  by_cases hsmall : n * s < SizeT.modulus
  · exact SizeT.mul_of_lt hsmall
  exfalso
  simp only [init] at hinit
  split_ifs at hinit with _ hreserve
  rw [length_layout, roundUp_of_dvd hr hdvd] at hreserve
  -- the pool has at least two physical segments, so the reserve is what counts
  have htwo : 2 ≤ n * (s / r) := by
    have hn : 2 ≤ n := by
      by_contra hn
      have : n * s ≤ 1 * s := Nat.mul_le_mul_right s (by omega)
      omega
    have hpos : 0 < s := by
      by_contra h0
      rw [show s = 0 by omega, Nat.mul_zero] at hsmall
      exact hsmall (by decide)
    exact Nat.mul_le_mul hn (Nat.div_pos (Nat.le_of_dvd hpos hdvd) hr)
  have hle : n * (s / r) ≤ SizeT.mul n s / r := by omega
  have hmul : n * s ≤ SizeT.mul n s := by
    calc n * s = n * (s / r) * r := by rw [Nat.mul_assoc, Nat.div_mul_cancel hdvd]
      _ ≤ SizeT.mul n s / r * r := Nat.mul_le_mul_right r hle
      _ ≤ SizeT.mul n s := Nat.div_mul_le_self _ r
  have : SizeT.mul n s < SizeT.modulus := Nat.mod_lt _ (by decide)
  omega

/-- A pool with nothing held is the pool it was. -/
theorem PoolInvariant.eq_of_nothing_held {m m' : ShmManager} (h : PoolInvariant m [])
    (h' : PoolInvariant m' []) (hsame : m.SamePool m') : m' = m := by
  have hflags : ∀ {p : ShmManager}, PoolInvariant p [] →
      p.availableSegments = List.replicate p.numInternalSegments true := by
    intro p hp
    refine List.eq_replicate_iff.mpr ⟨hp.length, fun b hb => ?_⟩
    obtain ⟨i, hi⟩ := List.getElem?_of_mem hb
    have hlt : i < p.numInternalSegments := hp.length ▸ (List.getElem?_eq_some_iff.mp hi).1
    have hcount := hp.held_count i hlt
    rw [List.map_nil, List.count_nil] at hcount
    split_ifs at hcount with htrue
    exact Option.some.inj (hi.symm.trans htrue)
  have hcount : m'.numInternalSegments = m.numInternalSegments := by rw [hsame]
  have havail : m'.availableSize = m.availableSize := by
    have h₁ := h.availableSize_add
    have h₂ := h'.availableSize_add
    rw [List.length_nil, Nat.mul_zero] at h₁ h₂
    have := hsame.size
    omega
  rw [hsame, hflags h', hcount, havail, ← hflags h]

end ShmManager

namespace Ledger

/-- Without its record a run of the ledger is a run of the pool. -/
theorem reachable_pool {m : ShmManager} {l : Ledger} (h : (machine m).Reachable l) :
    (Pool.machine m).Reachable l.pool := by
  induction h with
  | start => exact .start
  | step _ hnext _ ih =>
    obtain ⟨p, hp, rfl⟩ := Option.map_eq_some_iff.mp hnext
    exact ih.step hp trivial

/-- Each outstanding segment has as many virtual segments as its size needs. -/
theorem granted_of_reachable {n s r : ℕ} (hr : 0 < r) {m : ShmManager}
    (hinit : ShmManager.init n s r = some m) {l : Ledger} (h : (machine m).Reachable l) :
    List.Forall₂ (fun requestSize gs => m.internalRepSize * gs.length = requestSize)
      l.requested l.pool.outstanding := by
  induction h with
  | start => exact .nil
  | @step l _ e hreach hnext _ ih =>
    obtain ⟨p, hp, rfl⟩ := Option.map_eq_some_iff.mp hnext
    cases e with
    | getShmSegment requestSize =>
      obtain ⟨hinv, hsame⟩ := Pool.invariant_of_reachable hr hinit (reachable_pool hreach)
      simp only [Pool.next] at hp
      split at hp
      · next gs m' hgrant =>
        cases hp
        have hlen := (Pool.grant_spec hinv hgrant).1
        rw [hsame.internalRepSize] at hlen
        exact .cons hlen ih
      · cases hp
    | destroy index =>
      obtain ⟨gs, -, rfl⟩ := Option.map_eq_some_iff.mp hp
      exact forall₂_eraseIdx ih index

/-- In every run the books balance. -/
theorem balanced_of_reachable {n s r : ℕ} (hr : 0 < r) (hs : s < SizeT.modulus) (hdvd : r ∣ s)
    {m : ShmManager} (hinit : ShmManager.init n s r = some m) {l : Ledger}
    (h : (machine m).Reachable l) : l.Balanced m := by
  obtain ⟨hinv, hsame⟩ := Pool.invariant_of_reachable hr hinit (reachable_pool h)
  have hrep : l.pool.manager.internalRepSize = r :=
    hsame.internalRepSize.trans (ShmManager.init_fields hinit).1
  have hids : (l.pool.outstanding.map FragmentedShmSegment.getSegmentIds).flatten =
      l.pool.held.map ContiguousShmSegment.id := by
    rw [Pool.held, List.map_flatten]
    rfl
  have hnd : (l.pool.outstanding.map FragmentedShmSegment.getSegmentIds).flatten.Nodup :=
    hids ▸ hinv.held_nodup
  obtain ⟨hnodup, hdisjoint⟩ := List.nodup_flatten.mp hnd
  refine ⟨List.pairwise_map.mp hdisjoint, fun gs hgs => hnodup _ (List.mem_map_of_mem hgs), ?_,
    ?_, ?_, ?_⟩
  · obtain ⟨hlength, hgranted⟩ := List.forall₂_iff_zip.mp (granted_of_reachable hr hinit h)
    refine List.forall₂_iff_zip.mpr ⟨hlength, @fun requestSize gs hzip => ?_⟩
    have hlen := hgranted hzip
    obtain ⟨i, hi⟩ := List.getElem?_of_mem (List.of_mem_zip hzip).2
    obtain ⟨hlt, hget⟩ := List.getElem?_eq_some_iff.mp hi
    have hperm := (List.getElem_cons_eraseIdx_perm hlt).flatten
    rw [hget, List.flatten_cons] at hperm
    have hgs' := hinv.perm hperm.symm
    rw [FragmentedShmSegment.size_eq_total hgs'.wellFormed.small, ShmManager.total_of_sizes
      (fun g hg => hgs'.size_of_held (List.mem_append_left _ hg)), hsame.internalRepSize, hlen]
  · have hrest : l.pool.manager.size % l.pool.manager.internalRepSize = 0 := by
      rw [hsame.size, ShmManager.size_of_init hr hs hdvd hinit, hrep]
      exact Nat.mod_eq_zero_of_dvd (hdvd.mul_left n)
    have := hinv.available
    omega
  · intro id hid
    have hcount := hinv.held_count id hid
    rw [← hids] at hcount
    have hlt : id < l.pool.manager.availableSegments.length := hinv.length ▸ hid
    have hsome := List.getElem?_eq_getElem hlt
    cases hflag : l.pool.manager.availableSegments[id] with
    | true =>
      rw [hsome, hflag, if_pos rfl] at hcount
      refine Or.inl ⟨by rw [hsome, hflag], fun gs hgs hmem => ?_⟩
      exact List.count_eq_zero.mp hcount (List.mem_flatten.mpr ⟨_, List.mem_map_of_mem hgs, hmem⟩)
    | false =>
      rw [hsome, hflag, if_neg (by simp), ← countP_mem_eq_count_flatten hnd,
        List.countP_map] at hcount
      exact Or.inr ⟨by rw [hsome, hflag], hcount⟩
  · intro hempty
    have hnothing := hinv
    rw [Pool.held, hempty, List.flatten_nil] at hnothing
    exact (ShmManager.poolInvariant_init hr hinit).eq_of_nothing_held hnothing hsame

/-- Two segments are handed out, and the first of them is given back. -/
theorem balanced_two_grants : ∃ m l, ShmManager.init 2 64 INTERNAL_REP_SIZE = some m ∧
    (machine m).run (machine m).start [.getShmSegment 64, .getShmSegment 32, .destroy 1] =
      some l ∧ l.pool.outstanding = [[⟨2, 1, 0, 32⟩]] ∧ l.Balanced m := by
  have hinit : ShmManager.init 2 64 INTERNAL_REP_SIZE =
      some ((ShmManager.init 2 64 INTERNAL_REP_SIZE).get (by decide)) := (Option.some_get _).symm
  have hrun : ((machine ((ShmManager.init 2 64 INTERNAL_REP_SIZE).get (by decide))).run
      (machine ((ShmManager.init 2 64 INTERNAL_REP_SIZE).get (by decide))).start
      [.getShmSegment 64, .getShmSegment 32, .destroy 1]).map (fun l => l.pool.outstanding) =
      some [[⟨2, 1, 0, 32⟩]] := by decide +kernel
  obtain ⟨l, hl, hout⟩ := Option.map_eq_some_iff.mp hrun
  exact ⟨_, l, hinit, hl, hout, balanced_of_reachable (by decide) (by decide) (by decide) hinit
    (Machine.reachable_of_run hl)⟩

end Ledger

end TinyFile
