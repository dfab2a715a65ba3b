import TinyFile.SemaphoreLinks

/-!
# The handles of an exchange

The service's handles of an exchange are objects of its own, with the values that the
exchange has in the system. No semaphore call fails, because names of different
exchanges are different, and no call changes that.
-/
namespace TinyFile

open CommunicationManager

namespace NamedSystem

/-- The names of the semaphores of an exchange. -/
def nameOf (e : System.Exchange) : Semaphore → String :=
  semaphoreName e.request.clientId e.request.requestId

theorem nameOf_injective (e : System.Exchange) : Function.Injective (nameOf e) :=
  fun _ _ h => (semaphoreName_inj h).1

/-- What every interleaving keeps: in the system each exchange has three semaphores of
its own, and the service's handles are theirs. -/
structure Bound (cfg : Config) (s : NamedSystem) : Prop where
  reachable : (System.machine cfg).Reachable s.system
  unborn : ∀ n, s.system.exchanges.length ≤ n → s.service n = .ofService ∧ s.client n = .ofClient
  ordered : ∀ n, Ordered (s.service n) (s.client n)
  opened : ∀ n < s.system.exchanges.length, .responding n ∉ s.system.workers →
    (s.service n).opening = []
  unused : ∀ n e k, s.system.exchanges[n]? = some e → (s.service n).opening ≠ [] →
    Semaphore.count e.transfer.wires k = k.initial
  linked : ∀ n e k, s.system.exchanges[n]? = some e →
    Linked s.table (nameOf e) (s.service n) (s.client n) k
  old : ∀ n k o, (s.service n).handle k = some o → o < s.table.fresh
  distinct : ∀ n k m l o, (s.service n).handle k = some o → (s.service m).handle l = some o →
    n = m ∧ k = l
  values : ∀ n e k o, s.system.exchanges[n]? = some e → (s.service n).handle k = some o →
    s.table.value o = Semaphore.count e.transfer.wires k
  released : ∀ n e, s.system.exchanges[n]? = some e → e.completed = true →
    (s.client n).closing = []

variable {cfg : Config} {s t : NamedSystem}

theorem bound_init (cfg : Config) (table : SemaphoreTable) : Bound cfg (init cfg table) where
  reachable := .start
  unborn _ _ := ⟨rfl, rfl⟩
  ordered _ := ordered_start
  opened _ hn := absurd hn (Nat.not_lt_zero _)
  unused _ _ _ he := by cases he
  linked _ _ _ he := by cases he
  old _ _ _ ho := by cases ho
  distinct _ _ _ _ _ ho := by cases ho
  values _ _ _ _ he := by cases he
  released _ _ he := by cases he

/-- The names of another exchange are other names. -/
theorem Bound.name_ne (h : Bound cfg s) {n m : ℕ} {e e' : System.Exchange}
    (he : s.system.exchanges[n]? = some e) (he' : s.system.exchanges[m]? = some e') (hm : m ≠ n)
    (j k : Semaphore) : nameOf e' j ≠ nameOf e k := by
  intro hname
  obtain ⟨-, hclient, hid⟩ := semaphoreName_inj hname
  exact hm ((System.numbered_of_reachable h.reachable).exchange_unique he' he hclient hid)

section HandlerSteps

variable {n : ℕ} {e : System.Exchange} {table' : SemaphoreTable} {h' : SemaphoreCalls}

/-- A step of the service's handler that touches its own names only, and creates its
semaphores as the exchange has them. -/
theorem Bound.setService (h : Bound cfg s) (he : s.system.exchanges[n]? = some e)
    (hordered : Ordered h' (s.client n))
    (hlinked : ∀ k, Linked table' (nameOf e) h' (s.client n) k)
    (hother : ∀ name, (∀ k, name ≠ nameOf e k) → table'.object name = s.table.object name)
    (hopening : (s.service n).opening = [] → h'.opening = [])
    (hfresh : s.table.fresh ≤ table'.fresh)
    (hvalue : ∀ o < s.table.fresh, table'.value o = s.table.value o)
    (hhandle : ∀ k o, h'.handle k = some o → (s.service n).handle k = some o ∨
      s.table.fresh ≤ o ∧ o < table'.fresh ∧ table'.value o = k.initial ∧
        (s.service n).opening ≠ [] ∧ ∀ l, h'.handle l = some o → l = k) :
    Bound cfg { s with table := table', service := Function.update s.service n h' } := by
  have hlt := (List.getElem?_eq_some_iff.mp he).1
  constructor
  · exact h.reachable
  · intro m hm
    have hne : m ≠ n := fun hmn => Nat.not_lt.mpr hm (hmn ▸ hlt)
    simpa [hne] using h.unborn m hm
  · intro m
    by_cases hm : m = n
    · subst hm
      simpa using hordered
    · simpa [hm] using h.ordered m
  · intro m hmlt hresponding
    by_cases hm : m = n
    · subst hm
      simpa using hopening (h.opened m hmlt hresponding)
    · simpa [hm] using h.opened m hmlt hresponding
  · intro m e' k he' hopen
    by_cases hm : m = n
    · subst hm
      exact h.unused m e' k he' (mt hopening (by simpa using hopen))
    · exact h.unused m e' k he' (by simpa [hm] using hopen)
  · intro m e' k he'
    by_cases hm : m = n
    · subst hm
      obtain rfl : e = e' := Option.some.inj (he.symm.trans he')
      simpa using hlinked k
    · simpa [hm] using (h.linked m e' k he').congr (hother _ fun l => h.name_ne he he' hm k l)
  · intro m k o ho
    by_cases hm : m = n
    · subst hm
      rcases hhandle k o (by simpa using ho) with hold | ⟨-, hlt', -⟩
      · exact (h.old m k o hold).trans_le hfresh
      · exact hlt'
    · exact (h.old m k o (by simpa [hm] using ho)).trans_le hfresh
  · intro m k m' l o ho ho'
    by_cases hm : m = n
    · by_cases hm' : m' = n
      · subst hm hm'
        simp only [Function.update_self] at ho ho'
        rcases hhandle k o ho with hold | ⟨-, -, -, -, hone⟩
        · rcases hhandle l o ho' with hold' | ⟨-, -, -, -, hone⟩
          · exact h.distinct _ _ _ _ o hold hold'
          · exact ⟨rfl, hone k ho⟩
        · exact ⟨rfl, (hone l ho').symm⟩
      · subst hm
        simp only [Function.update_self] at ho
        have hm'' : (s.service m').handle l = some o := by simpa [hm'] using ho'
        rcases hhandle k o ho with hold | ⟨hge, -⟩
        · exact h.distinct _ _ _ _ o hold hm''
        · exact absurd (h.old m' l o hm'') (by omega)
    · have hm'' : (s.service m).handle k = some o := by simpa [hm] using ho
      by_cases hm' : m' = n
      · subst hm'
        simp only [Function.update_self] at ho'
        rcases hhandle l o ho' with hold | ⟨hge, -⟩
        · exact h.distinct _ _ _ _ o hm'' hold
        · exact absurd (h.old m k o hm'') (by omega)
      · exact h.distinct _ _ _ _ o hm'' (by simpa [hm'] using ho')
  · intro m e' k o he' ho
    by_cases hm : m = n
    · subst hm
      rcases hhandle k o (by simpa using ho) with hold | ⟨-, -, hinitial, hopen, -⟩
      · exact (hvalue o (h.old m k o hold)).trans (h.values m e' k o he' hold)
      · exact hinitial.trans (h.unused m e' k he' hopen).symm
    · have hold : (s.service m).handle k = some o := by simpa [hm] using ho
      exact (hvalue o (h.old m k o hold)).trans (h.values m e' k o he' hold)
  · exact h.released

/-- A step of the client's handler that touches its own names only. -/
theorem Bound.setClient (h : Bound cfg s) (he : s.system.exchanges[n]? = some e)
    (hordered : Ordered (s.service n) h')
    (hlinked : ∀ k, Linked table' (nameOf e) (s.service n) h' k)
    (hother : ∀ name, (∀ k, name ≠ nameOf e k) → table'.object name = s.table.object name)
    (hvalue : table'.value = s.table.value) (hfresh : table'.fresh = s.table.fresh)
    (hclosing : (s.client n).closing = [] → h'.closing = []) :
    Bound cfg { s with table := table', client := Function.update s.client n h' } := by
  have hlt := (List.getElem?_eq_some_iff.mp he).1
  constructor
  · exact h.reachable
  · intro m hm
    have hne : m ≠ n := fun hmn => Nat.not_lt.mpr hm (hmn ▸ hlt)
    simpa [hne] using h.unborn m hm
  · intro m
    by_cases hm : m = n
    · subst hm
      simpa using hordered
    · simpa [hm] using h.ordered m
  · exact h.opened
  · exact h.unused
  · intro m e' k he'
    by_cases hm : m = n
    · subst hm
      obtain rfl : e = e' := Option.some.inj (he.symm.trans he')
      simpa using hlinked k
    · simpa [hm] using (h.linked m e' k he').congr (hother _ fun l => h.name_ne he he' hm k l)
  · exact hfresh ▸ h.old
  · exact h.distinct
  · exact hvalue ▸ h.values
  · intro m e' he' hcompleted
    by_cases hm : m = n
    · subst hm
      simpa using hclosing (h.released m e' he' hcompleted)
    · simpa [hm] using h.released m e' he' hcompleted

/-- The next call of the service's handler of an exchange succeeds. -/
theorem Bound.perform_service (h : Bound cfg s) (he : s.system.exchanges[n]? = some e)
    {finished : Bool} {call : SemaphoreCall} {rest : SemaphoreCalls}
    (hdue : (s.service n).due finished = some (call, rest)) (handler : String) :
    ∃ table' handle', call.perform handler (nameOf e) s.table (s.service n).handle =
        .ok (table', handle') ∧
      Bound cfg { s with
        table := table'
        service := Function.update s.service n { rest with handle := handle' } } := by
  have hordered := h.ordered n
  have hinj := nameOf_injective e
  rcases SemaphoreCalls.due_cases hdue with ⟨l, hl, rfl⟩ | ⟨l, hopening, -, hl, rfl⟩
  · have hsuffix := hl ▸ hordered.service
    have hordered' : ∀ handle, Ordered { s.service n with opening := l, handle := handle }
        (s.client n) := fun _ =>
      { hordered with
        service := (List.suffix_cons call l).trans hsuffix
        serviceFirst := fun _ => hordered.serviceFirst (by simp [hl]) }
    rcases opening_cases_service hsuffix with ⟨k, rfl, hcreate⟩ | ⟨k, rfl, hreset, hcreate⟩
    · refine ⟨_, _, rfl, h.setService he (hordered' _)
        (fun j => Linked.reset (v := s.service n) hinj (h.linked n e j he) hl hcreate) ?_
        (by simp [hl]) le_rfl
        (fun _ _ => rfl) fun j o ho => .inl ho⟩
      exact fun name hname => s.table.object_unlink_of_ne (hname k)
    · have hlinked := h.linked n e k he
      have hmem : .create k ∈ (s.service n).opening := by simp [hl]
      have hfree := hlinked.free hmem (by simpa [hl] using hreset)
      have hunlink : .unlink k ∈ (s.client n).closing := by
        rw [hordered.openingFirst (by rw [hordered.serviceFirst (by simp [hl])]; decide)]
        cases k <;> decide
      have hperform := s.table.create_of_free hfree k.initial
      refine ⟨_, _, by simp only [SemaphoreCall.perform, hperform]; rfl, h.setService he
        (hordered' _) (fun j => Linked.create (v := s.service n) hinj (h.linked n e j he) hl hcreate
          hunlink rfl) ?_ (by simp [hl]) (Nat.le_succ _) ?_ ?_⟩
      · exact fun name hname => Function.update_of_ne (hname k) ..
      · exact fun o ho => Function.update_of_ne (Nat.ne_of_lt ho) ..
      · intro j o ho
        dsimp only at ho
        by_cases hj : j = k
        · subst hj
          obtain rfl : s.table.fresh = o := by simpa using ho
          refine .inr ⟨le_rfl, Nat.lt_succ_self _, Function.update_self .., by simp [hl], ?_⟩
          intro i hi
          by_contra hij
          dsimp only at hi
          rw [Function.update_of_ne hij] at hi
          exact Nat.lt_irrefl _ (h.old n i _ hi)
        · exact .inl (by rwa [Function.update_of_ne hj] at ho)
  · obtain ⟨k, rfl⟩ := closing_cases_service (hl ▸ hordered.serviceEnd)
    obtain ⟨o, ho⟩ := Option.ne_none_iff_exists'.mp
      (mt (h.linked n e k he).made.mp (by simp [hopening]))
    refine ⟨_, _, by simp only [SemaphoreCall.perform, ho], h.setService he
      { hordered with serviceEnd := (List.suffix_cons _ l).trans (hl ▸ hordered.serviceEnd) }
      (fun j => ?_) (fun _ _ => rfl) id le_rfl (fun _ _ => rfl) fun j o ho => .inl ho⟩
    obtain ⟨hmade, hfree, hnamed, hgone, hattached, hsame⟩ := h.linked n e j he
    exact ⟨hmade, hfree, hnamed, hgone, hattached, hsame⟩

/-- Once the service's handler has opened its semaphores, the next call of the client's
handler succeeds. -/
theorem Bound.perform_client (h : Bound cfg s) (he : s.system.exchanges[n]? = some e)
    (hopen : (s.service n).opening = []) {finished : Bool} {call : SemaphoreCall}
    {rest : SemaphoreCalls} (hdue : (s.client n).due finished = some (call, rest))
    (handler : String) :
    ∃ table' handle', call.perform handler (nameOf e) s.table (s.client n).handle =
        .ok (table', handle') ∧
      Bound cfg { s with
        table := table'
        client := Function.update s.client n { rest with handle := handle' } } := by
  have hordered := h.ordered n
  have hmade : ∀ k, ∃ o, (s.service n).handle k = some o := fun k =>
    Option.ne_none_iff_exists'.mp (mt (h.linked n e k he).made.mp (by simp [hopen]))
  rcases SemaphoreCalls.due_cases hdue with ⟨l, hl, rfl⟩ | ⟨l, hopening, -, hl, rfl⟩
  · have hsuffix := hl ▸ hordered.client
    have hclosing := hordered.openingFirst (by simp [hl])
    obtain ⟨k, rfl, hattach⟩ := opening_cases_client hsuffix
    obtain ⟨o, ho⟩ := hmade k
    have hunlink : .unlink k ∈ (s.client n).closing := by
      rw [hclosing]
      cases k <;> decide
    have hobject := (h.linked n e k he).named o ho hunlink
    refine ⟨_, _, by simp only [SemaphoreCall.perform, hobject], h.setClient he
      { hordered with
        client := (List.suffix_cons _ l).trans hsuffix
        serviceFirst := fun hne => absurd hopen hne
        openingFirst := fun _ => hclosing }
      (fun j => (h.linked n e j he).attach hl hattach ho) (fun _ _ => rfl) rfl rfl id⟩
  · have hsuffix := hl ▸ hordered.clientEnd
    have hordered' : Ordered (s.service n) { s.client n with closing := l } :=
      { hordered with
        clientEnd := (List.suffix_cons _ l).trans hsuffix
        openingFirst := fun hne => absurd hopening hne }
    have hempty : (s.client n).closing = [] → l = [] := by simp [hl]
    rcases closing_cases_client hsuffix with ⟨k, rfl⟩ | ⟨k, rfl, hrest⟩
    · obtain ⟨o, ho⟩ := Option.ne_none_iff_exists'.mp
        (mt (h.linked n e k he).attached.mp (by simp [hopening]))
      exact ⟨_, _, by simp only [SemaphoreCall.perform, ho], h.setClient he hordered'
        (fun j => (h.linked n e j he).close hl) (fun _ _ => rfl) rfl rfl hempty⟩
    · obtain ⟨o, ho⟩ := hmade k
      have hobject := (h.linked n e k he).named o ho (by simp [hl])
      exact ⟨_, _, by simp only [SemaphoreCall.perform, hobject], h.setClient he hordered'
        (fun j => Linked.unlink (c := s.client n) (nameOf_injective e) (h.linked n e j he) hopen hl
          hrest)
        (fun name hname => s.table.object_unlink_of_ne (hname k)) rfl rfl hempty⟩

end HandlerSteps

theorem processed_cases {c j n : ℕ} (h : s.processed c j = some n) :
    (s.system.clients c).workers[j]? = some (.processing n) := by
  obtain ⟨pc, hpc, hn⟩ := Option.bind_eq_some_iff.mp h
  cases pc with
  | processing m =>
    obtain rfl : m = n := Option.some.inj hn
    exact hpc
  | _ => cases hn

/-- When a client's worker has the response, the semaphores are open. -/
theorem Bound.opened_of_processed (h : Bound cfg s) {c j n : ℕ} (hn : s.processed c j = some n) :
    ∃ e, s.system.exchanges[n]? = some e ∧ e.request.clientId = c ∧
      (s.service n).opening = [] := by
  have hinv := System.invariant_of_reachable h.reachable
  obtain ⟨hnot, e, he, hclient, -⟩ :=
    hinv.responses c n (System.mem_responses_of_processing (processed_cases hn))
  exact ⟨e, he, hclient, h.opened n (List.getElem?_eq_some_iff.mp he).1 hnot⟩

theorem serviceCall_step (h : Bound cfg s) {w : ℕ} (hstep : s.serviceCall w = some t) :
    t.system = s.system ∧ Bound cfg t := by
  obtain ⟨n, -, hstep⟩ := Option.bind_eq_some_iff.mp hstep
  obtain ⟨e, he, hstep⟩ := Option.bind_eq_some_iff.mp hstep
  obtain ⟨⟨call, rest⟩, hdue, rfl⟩ := Option.map_eq_some_iff.mp hstep
  obtain ⟨table', handle', hperform, hbound⟩ :=
    h.perform_service he hdue "ServiceFileCompressorHandler"
  rw [nameOf] at hperform
  simp only [hperform]
  exact ⟨trivial, hbound⟩

theorem clientCall_step (h : Bound cfg s) {c j : ℕ} (hstep : s.clientCall c j = some t) :
    t.system = s.system ∧ Bound cfg t := by
  obtain ⟨n, hn, hstep⟩ := Option.bind_eq_some_iff.mp hstep
  obtain ⟨e, he, hstep⟩ := Option.bind_eq_some_iff.mp hstep
  obtain ⟨⟨call, rest⟩, hdue, rfl⟩ := Option.map_eq_some_iff.mp hstep
  obtain ⟨e', he', rfl, hopen⟩ := h.opened_of_processed hn
  obtain rfl : e = e' := Option.some.inj (he.symm.trans he')
  obtain ⟨table', handle', hperform, hbound⟩ :=
    h.perform_client he hopen hdue "ClientFileCompressorHandler"
  rw [nameOf] at hperform
  simp only [hperform]
  exact ⟨trivial, hbound⟩

end NamedSystem

end TinyFile
