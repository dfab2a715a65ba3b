import TinyFile.Messages
import TinyFile.ResponseSize

/-!
# One segment, seen from both processes

The service sends the parameters of its pool in a `MQServerIdMessage` and the
ids of a segment in a `MQServerRequestMessage`; the client builds its own
`ShmManager` from the first and its own `FragmentedShmSegment` from the second.
The physical segments have the same names in both, so a `Memory` is what both
have mapped.
-/
namespace TinyFile

open Message

/-- An `int` as an index, converted to `size_t`. -/
def toIndex (id : Int32) : ℕ := (id.toInt % SizeT.modulus).toNat

namespace RegistrationVisitor

/-- The reply of `visitRegistration`. -/
def idMessage (shmManager : ShmManager) (clientId : Int32) : MQServerIdMessage where
  clientId := clientId
  numShmSegments := .ofNat shmManager.numSegments
  shmSegmentSize := .ofNat shmManager.physicalSegmentSize
  internalRepSize := .ofNat shmManager.internalRepSize

end RegistrationVisitor

namespace ServiceFileCompressorHandler

/-- The response that names the handler's segment; a segment has no more ids than
a vector holds. -/
def response (requestId : Int32) (shmSegment : FragmentedShmSegment) :
    Option Message.MQServerRequestMessage :=
  let ids := shmSegment.getSegmentIds.map Int32.ofNat
  if h : ids.length ≤ VECTOR_INT_MAX_SIZE then
    some (Message.MQServerRequestMessage.ofIds requestId ids h)
  else none

end ServiceFileCompressorHandler

namespace ClientSide

/-- The constructor of `Servicer`: the pool that the reply describes. -/
def initShmManager (buffer : List UInt8) : Except Fault (Option ShmManager) := do
  let serverIdMessage ← MQServerIdMessage.deserialize buffer
  return ShmManager.init serverIdMessage.numShmSegments.toNat serverIdMessage.shmSegmentSize.toNat
    serverIdMessage.internalRepSize.toNat

/-- What `receiveResponses` does with a response. -/
def receiveSegment (shmManager : ShmManager) (buffer : List UInt8) :
    Except Fault FragmentedShmSegment × ShmManager :=
  match Message.MQServerRequestMessage.deserialize buffer with
  | .error e => (.error e, shmManager)
  | .ok responseMessage =>
      shmManager.getShmSegmentByIds (responseMessage.shmSegmentIds.map toIndex)

/-- What a client does with its manager; a call that throws leaves flags cleared. -/
inductive PoolEvent where
  | getShmSegment (shmIds : List Int32)
  | releaseShmSegment (ids : List ℕ)

def pool (shmManager : ShmManager) : Machine ShmManager PoolEvent where
  start := shmManager
  next m
    | .getShmSegment shmIds => some (m.getShmSegmentByIds (shmIds.map toIndex)).2
    | .releaseShmSegment ids => some (m.releaseShmSegment ids)

end ClientSide

theorem toIndex_ofNat {id : ℕ} (h : id ≤ INT_MAX) : toIndex (Int32.ofNat id) = id := by
  have hlt : id < 2 ^ 31 := lt_of_le_of_lt h (by decide)
  have hmod : id < SizeT.modulus := lt_of_le_of_lt h (by decide)
  rw [toIndex, Int32.toInt_ofNat_of_lt hlt, ← Int.natCast_mod, Nat.mod_eq_of_lt hmod,
    Int.toNat_natCast]

namespace ShmManager

/-- The manager after `getShmSegment(ids)`, whether it returns or throws, is one
of the same pool. -/
theorem samePool_getByIds (ids : List ℕ) (m : ShmManager) :
    m.SamePool (m.getShmSegmentByIds ids).2 := by
  induction ids generalizing m with
  | nil => exact .refl m
  | cons id ids ih =>
    simp only [getShmSegmentByIds]
    split
    · next g hflag hg =>
      have hrest := ih { m with availableSegments := m.availableSegments.set id false }
      split
      · next gs m' hcall =>
        rw [hcall] at hrest
        exact hrest
      · next e m' hcall =>
        rw [hcall] at hrest
        exact hrest
    · exact .refl m
    · exact .refl m

/-- What `getShmSegment(ids)` returns is what the ids stand for. -/
theorem getByIds_ok {ids : List ℕ} {m m' : ShmManager} {gs : FragmentedShmSegment}
    (h : m.getShmSegmentByIds ids = (.ok gs, m')) :
    ids.map (fun id => m.shmSegments[id]?) = gs.map some := by
  induction ids generalizing m gs m' with
  | nil =>
    obtain ⟨hgs, -⟩ := Prod.mk.inj h
    cases hgs
    rfl
  | cons id ids ih =>
    simp only [getShmSegmentByIds] at h
    split at h
    · next g hflag hg =>
      split at h
      · next gs₁ m₁ hcall =>
        obtain ⟨hgs, -⟩ := Prod.mk.inj h
        cases hgs
        have hrest := ih hcall
        simp only [List.map_cons, hg, hrest]
      · cases (Prod.mk.inj h).1
    · cases (Prod.mk.inj h).1
    · cases (Prod.mk.inj h).1

theorem PoolInvariant.segments_of_held {m : ShmManager} {held : List ContiguousShmSegment}
    {gs : FragmentedShmSegment} (h : m.PoolInvariant (gs ++ held)) :
    gs.getSegmentIds.map (fun id => m.shmSegments[id]?) = gs.map some := by
  rw [FragmentedShmSegment.getSegmentIds, List.map_map]
  exact List.map_congr_left fun g hg => (h.held_segment g (List.mem_append_left _ hg)).2

theorem SamePool.shmSegments {m m' : ShmManager} (h : m.SamePool m') :
    m'.shmSegments = m.shmSegments := by rw [h]

/-- The parameters of a pool are those it was constructed with, and its ids are `int`s. -/
theorem parameters_of_init {n s r : ℕ} {m : ShmManager} (h : init n s r = some m) :
    m.numSegments = n ∧ m.physicalSegmentSize = s ∧ m.internalRepSize = r ∧
      m.shmSegments.length ≤ INT_MAX := by
  simp only [init] at h
  split_ifs at h with _ _ hint
  cases h
  exact ⟨rfl, rfl, rfl, Nat.not_lt.mp hint⟩

end ShmManager

open RegistrationVisitor ServiceFileCompressorHandler ClientSide

/-- A message arrives as it was sent. -/
theorem deserialize_of_serialize {μ : Type} {F : Format μ} {m : μ} (h : F.RoundTrips m)
    (rest : List UInt8) :
    ∃ bytes, F.serialize m = .ok bytes ∧ F.deserialize (bytes ++ rest) = .ok m := by
  obtain ⟨bytes, hrun, -⟩ := id h
  exact ⟨bytes, hrun, (h.read hrun rest).2⟩

/-- The client's manager is the one the service started with. -/
theorem initShmManager_idMessage {n s r : UInt64} {m m' : ShmManager}
    (hinit : ShmManager.init n.toNat s.toNat r.toNat = some m) (hsame : m.SamePool m')
    (clientId : Int32) {buffer : List UInt8}
    (hbuffer : MQServerIdMessage.deserialize buffer = .ok (idMessage m' clientId)) :
    initShmManager buffer = .ok (some m) := by
  obtain ⟨hn, hs, hr, -⟩ := ShmManager.parameters_of_init hinit
  have hn' : m'.numSegments = n.toNat := by rw [hsame]; exact hn
  have hs' : m'.physicalSegmentSize = s.toNat := by rw [hsame]; exact hs
  have hr' : m'.internalRepSize = r.toNat := by rw [hsame]; exact hr
  simp only [initShmManager, hbuffer, idMessage, hn', hs', hr', UInt64.ofNat_toNat]
  exact congrArg Except.ok hinit

/-- The ids arrive as they were. -/
theorem map_toIndex {ids : List ℕ} (h : ∀ id ∈ ids, id ≤ INT_MAX) :
    (ids.map Int32.ofNat).map toIndex = ids := by
  have hback : (ids.map Int32.ofNat).map toIndex = ids.map id := by
    rw [List.map_map]
    exact List.map_congr_left fun id hid => toIndex_ofNat (h id hid)
  rw [hback, List.map_id]

/-- Writing through a segment and reading the same place. -/
theorem read_of_write {gs : FragmentedShmSegment} (h : gs.WellFormed) {data : List UInt8}
    {offset : ℕ} (mem : Memory) (hlen : offset + data.length ≤ FragmentedShmSegment.size gs) :
    ∃ mem', gs.write data offset mem = .ok mem' ∧ gs.read data.length offset mem' = .ok data ∧
      ∀ segment a, ¬ gs.Covers segment a → mem' segment a = mem segment a := by
  rw [FragmentedShmSegment.size_eq_total h.small] at hlen
  obtain ⟨mem', hwrite, hbytes, hframe⟩ := FragmentedShmSegment.write_spec h mem hlen
  refine ⟨mem', hwrite, ?_, hframe⟩
  rw [FragmentedShmSegment.read_spec h mem' hlen, hbytes]
  exact congrArg Except.ok (take_drop_splice (by rw [FragmentedShmSegment.length_bytes]; omega))

/-- Every id of a segment is an `int`, and there are no more than that. -/
theorem ids_of_held {m : ShmManager} {held : List ContiguousShmSegment}
    {gs : FragmentedShmSegment} (h : m.PoolInvariant (gs ++ held))
    (hint : m.shmSegments.length ≤ INT_MAX) :
    (∀ id ∈ gs.getSegmentIds, id ≤ INT_MAX) ∧ gs.getSegmentIds.Nodup ∧
      gs.getSegmentIds.length ≤ INT_MAX := by
  have hlt : ∀ id ∈ gs.getSegmentIds, id < m.shmSegments.length := by
    intro id hid
    obtain ⟨g, hg, rfl⟩ := List.mem_map.mp hid
    exact (List.getElem?_eq_some_iff.mp (h.held_segment g (List.mem_append_left _ hg)).2).1
  have hnd : gs.getSegmentIds.Nodup :=
    h.held_nodup.sublist ((List.sublist_append_left gs held).map _)
  have hlen := (List.subperm_of_subset hnd fun id hid =>
    List.mem_range.mpr (hlt id hid)).length_le
  rw [List.length_range] at hlen
  exact ⟨fun id hid => (hlt id hid).le.trans hint, hnd, hlen.trans hint⟩

/-- Each side reads what the other wrote, and a write changes nothing else. -/
def SameView (gs gs' : FragmentedShmSegment) : Prop :=
  ∀ (data : List UInt8) (offset : ℕ) (mem : Memory),
    offset + data.length ≤ FragmentedShmSegment.size gs →
    ∃ mem', gs.write data offset mem = .ok mem' ∧ gs'.read data.length offset mem' = .ok data ∧
      ∀ segment a, ¬ gs.Covers segment a → mem' segment a = mem segment a

/-- For every segment that the service is given, in every state of its pool: the
two messages arrive, the client starts with the pool the service started with,
and the segment it builds from the ids is the service's, so that each side reads
what the other wrote. It can build it when its own manager has the ids. -/
theorem shared_view {n s r : UInt64} (hr : 0 < r.toNat) {m : ShmManager}
    (hinit : ShmManager.init n.toNat s.toNat r.toNat = some m) {p : Pool}
    (hp : (Pool.machine m).Reachable p) {requestSize : ℕ} {gs : FragmentedShmSegment}
    {m' : ShmManager} (hgrant : p.manager.getShmSegment requestSize = .ok (some (gs, m')))
    (clientId requestId : Int32) (rest rest' : List UInt8) :
    ∃ idBytes message responseBytes,
      MQServerIdMessage.format.serialize (idMessage m' clientId) = .ok idBytes ∧
      response requestId gs = some message ∧
      Message.MQServerRequestMessage.format.serialize message = .ok responseBytes ∧
      initShmManager (idBytes ++ rest) = .ok (some m) ∧
      ∀ c, (pool m).Reachable c →
        (∀ gs' c', receiveSegment c (responseBytes ++ rest') = (.ok gs', c') →
          SameView gs gs' ∧ SameView gs' gs) ∧
        ((∀ id ∈ gs.getSegmentIds, c.availableSegments[id]? = some true) →
          ∃ c', receiveSegment c (responseBytes ++ rest') = (.ok gs, c')) := by
  obtain ⟨hinv, hsame⟩ := Pool.invariant_of_reachable hr hinit hp
  obtain ⟨-, hinv', hsame'⟩ := Pool.grant_spec hinv hgrant
  have hpool : m.SamePool m' := hsame.trans hsame'
  have hint : m'.shmSegments.length ≤ INT_MAX :=
    hpool.shmSegments ▸ (ShmManager.parameters_of_init hinit).2.2.2
  obtain ⟨hids, hnd, hcount⟩ := ids_of_held hinv' hint
  have hlen : (gs.getSegmentIds.map Int32.ofNat).length ≤ VECTOR_INT_MAX_SIZE := by
    rw [List.length_map]
    exact hcount.trans (by decide)
  obtain ⟨idBytes, hid, hidread⟩ :=
    deserialize_of_serialize (MQServerIdMessage.roundTrips (idMessage m' clientId)) rest
  obtain ⟨responseBytes, hresponse, hresponseread⟩ := deserialize_of_serialize
    (Message.MQServerRequestMessage.ofIds requestId (gs.getSegmentIds.map Int32.ofNat)
      hlen).roundTrips rest'
  refine ⟨idBytes, _, responseBytes, hid, dif_pos hlen, hresponse,
    initShmManager_idMessage hinit hpool clientId hidread, fun c hc => ?_⟩
  have hclient : m.SamePool c := by
    refine hc.invariant (.refl m) fun c e c' hmc hnext => ?_
    cases e with
    | getShmSegment shmIds =>
      cases hnext
      exact hmc.trans (ShmManager.samePool_getByIds _ c)
    | releaseShmSegment ids =>
      cases hnext
      exact hmc.trans (ShmManager.samePool_release c ids)
  have hsegments : c.shmSegments = m'.shmSegments := by
    rw [hclient.shmSegments, hpool.shmSegments]
  have hreceive : receiveSegment c (responseBytes ++ rest') =
      c.getShmSegmentByIds gs.getSegmentIds := by
    change Message.MQServerRequestMessage.deserialize (responseBytes ++ rest') = _ at hresponseread
    simp only [receiveSegment, hresponseread, Message.MQServerRequestMessage.ofIds,
      map_toIndex hids]
  refine ⟨fun gs' c' hcall => ?_, fun havail => ?_⟩
  · rw [hreceive] at hcall
    have hsegs' := ShmManager.getByIds_ok hcall
    rw [hsegments, hinv'.segments_of_held] at hsegs'
    obtain rfl : gs = gs' := List.map_injective_iff.mpr (Option.some_injective _) hsegs'
    have hview : SameView gs gs := fun data offset mem => read_of_write hinv'.wellFormed mem
    exact ⟨hview, hview⟩
  · obtain ⟨c', hcall, -⟩ := ShmManager.getShmSegmentByIds_spec (m := c) (fun g hg =>
      ⟨hsegments ▸ (hinv'.held_segment g (List.mem_append_left _ hg)).2,
        havail g.id (List.mem_map_of_mem hg)⟩) hnd
    exact ⟨c', hreceive.trans hcall⟩

/-- A pool of two physical segments, a scattered segment of two ids. -/
theorem shared_view_scattered :
    ∃ m p gs m', ShmManager.init 2 64 32 = some m ∧
      (Pool.machine m).run (Pool.machine m).start
        [.getShmSegment 32, .getShmSegment 32, .getShmSegment 32, .destroy 1] = some p ∧
      p.manager.getShmSegment 64 = .ok (some (gs, m')) ∧ gs.getSegmentIds = [1, 3] ∧
      SameView gs gs := by
  obtain ⟨m, hinit⟩ : ∃ m, ShmManager.init 2 64 32 = some m := ⟨_, rfl⟩
  have hm : m = (ShmManager.init 2 64 32).get (by decide) := by simp [hinit]
  have hrun : ((Pool.machine m).run (Pool.machine m).start
      [.getShmSegment 32, .getShmSegment 32, .getShmSegment 32, .destroy 1]).bind (fun p =>
        (p.manager.getShmSegment 64).toOption.bind (fun o => o.map (fun q =>
          q.1.getSegmentIds))) = some [1, 3] := by
    subst hm
    decide +kernel
  obtain ⟨p, hp, hrest⟩ := Option.bind_eq_some_iff.mp hrun
  obtain ⟨o, ho, hids⟩ := Option.bind_eq_some_iff.mp hrest
  obtain ⟨⟨gs, m'⟩, rfl, hgs⟩ := Option.map_eq_some_iff.mp hids
  have hgrant : p.manager.getShmSegment 64 = .ok (some (gs, m')) := by
    cases hcall : p.manager.getShmSegment 64 with
    | error e => simp [hcall, Except.toOption] at ho
    | ok o => simpa [hcall, Except.toOption] using ho
  obtain ⟨idBytes, message, responseBytes, -, -, -, -, hclient⟩ :=
    shared_view (n := 2) (s := 64) (r := 32) (by decide) hinit (Machine.reachable_of_run hp) hgrant
      0 0 [] []
  obtain ⟨hviews, hbuilt⟩ := hclient m .start
  obtain ⟨c', hc'⟩ := hbuilt (by
    intro id hid
    change gs.getSegmentIds = [1, 3] at hgs
    rw [hgs] at hid
    subst hm
    revert id
    decide)
  exact ⟨m, p, gs, m', hinit, hp, hgrant, hgs, (hviews gs c' hc').1⟩

end TinyFile
