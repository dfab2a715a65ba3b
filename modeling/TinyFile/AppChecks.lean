import TinyFile.App
import TinyFile.HeldResults
import TinyFile.Transfer

/-!
# What the application gets back

The main thread holds the calls of its first task. What it has read for that task fits
the task's files, so the results come back in the order of the files and each passes the
comparison.
-/
namespace TinyFile

namespace App

/-- The calls under way with their files. -/
def Position.held : Position → List (ℕ × List UInt8)
  | .ready => []
  | .blocked fileData requestId => [(requestId, fileData)]
  | .calling fileData requestIds => requestIds.zip fileData
  | .collecting fileData requestIds i | .waiting fileData requestIds i =>
      (requestIds.zip fileData).drop i

def Position.blockedIn : Position → List ℕ
  | .blocked _ requestId => [requestId]
  | .waiting _ requestIds i => requestIds[i]?.toList
  | _ => []

/-- The files of the tasks that are left, without those that were compared. -/
def left (a : App) : List String :=
  match a.position with
  | .collecting _ _ i | .waiting _ _ i => (a.tasks.flatMap Task.files).drop i
  | _ => a.tasks.flatMap Task.files

/-- The files of the tasks that are left, without those that were sent. -/
def unsent (a : App) : List String :=
  match a.position with
  | .ready => a.tasks.flatMap Task.files
  | .calling _ requestIds => (a.tasks.flatMap Task.files).drop requestIds.length
  | .blocked _ _ | .collecting _ _ _ | .waiting _ _ _ => a.tasks.tail.flatMap Task.files

/-- A file as it is read. -/
def Setup.read (x : Setup) (file : String) : Option (List UInt8) := (readFile x.disk file).toOption

/-- What ends the application: a file that cannot be read or a list that does not open. -/
def Setup.Fails (x : Setup) (tasks : List Task) (fault : Fault) : Prop :=
  (∃ file ∈ tasks.flatMap Task.files, readFile x.disk file = .error fault) ∨
    ∃ path, Task.openFileList path ∈ tasks ∧ x.fileLists path = none ∧
      fault = failedToOpen path

/-- What the main thread has read for its first task. -/
def Fits (x : Setup) (tasks : List Task) : Position → Prop
  | .ready => True
  | .blocked fileData _ => ∃ file rest, tasks = .processFileSync file :: rest ∧
      x.read file = some fileData
  | .calling fileData requestIds => ∃ files rest, tasks = .processFileAsync files :: rest ∧
      requestIds.length = fileData.length ∧
      (files.take requestIds.length).map x.read = fileData.map some
  | .collecting fileData requestIds i => ∃ files rest, tasks = .processFileAsync files :: rest ∧
      requestIds.length = fileData.length ∧ files.map x.read = fileData.map some ∧
      i ≤ files.length
  | .waiting fileData requestIds i => ∃ files rest, tasks = .processFileAsync files :: rest ∧
      requestIds.length = fileData.length ∧ files.map x.read = fileData.map some ∧
      i < files.length

structure Sound (x : Setup) (tasks : List Task) (a : App) : Prop where
  holds : Servicer.Holds x.compress a.position.held a.position.blockedIn a.servicer
  fits : Fits x a.tasks a.position
  checked : ∃ done, tasks.flatMap Task.files = done ++ a.left ∧
    a.checked.map some = done.map fun file => (x.read file).map x.compress
  suffix : a.tasks <:+ tasks
  calls : a.servicer.nextRequestId + a.unsent.length ≤ (tasks.flatMap Task.files).length
  fault : ∀ fault, a.fault = some fault → x.Fails tasks fault

/-- What `snappy` documents, for the files that are read. -/
def Setup.Restores (x : Setup) (files : List String) : Prop :=
  ∀ file ∈ files, ∀ src, x.read file = some src → x.uncompress (x.compress src) = src

variable {x : Setup} {tasks : List Task} {a a' : App}

theorem sound_init (x : Setup) (tasks : List Task) : Sound x tasks (init x tasks) where
  holds := Servicer.holds_init x.compress x.numWorkers
  fits := trivial
  checked := ⟨[], rfl, rfl⟩
  suffix := List.suffix_rfl
  calls := (Nat.zero_add _).le
  fault := fun _ h => by cases h

theorem resume_blocked {s : Servicer} (h : s.returned = a.servicer.returned)
    (fileData : List UInt8) (returned : Position) (tasks : List Task) (blocked : Position) :
    a.resume x s fileData returned tasks blocked =
      { a with servicer := s, position := blocked } := by
  rw [resume, h, List.drop_length]

theorem resume_returned {s : Servicer} {id : ℕ} {fileData : List UInt8}
    (h : s.returned = a.servicer.returned ++ [(id, x.compress fileData)])
    (hright : x.uncompress (x.compress fileData) = fileData) (returned : Position)
    (tasks : List Task) (blocked : Position) :
    a.resume x s fileData returned tasks blocked =
      { a with
        servicer := s
        position := returned
        tasks := tasks
        checked := a.checked ++ [x.compress fileData] } := by
  rw [resume, h, List.drop_append_of_le_length le_rfl, List.drop_length, List.nil_append]
  exact if_pos hright

theorem drop_zip {requestIds : List ℕ} {fileData : List (List UInt8)} {i id : ℕ}
    {src : List UInt8} (hid : requestIds[i]? = some id) (hsrc : fileData[i]? = some src) :
    (requestIds.zip fileData).drop i = (id, src) :: (requestIds.zip fileData).drop (i + 1) := by
  obtain ⟨hlt, rfl⟩ := List.getElem?_eq_some_iff.mp hid
  obtain ⟨hlt', rfl⟩ := List.getElem?_eq_some_iff.mp hsrc
  rw [List.drop_eq_getElem_cons (by rw [List.length_zip]; omega), List.getElem_zip]

/-- The next file to be compared, in the second loop of `processFileAsync`. -/
theorem left_collecting {files : List String} (rest : List Task) {fileData : List (List UInt8)}
    {i : ℕ} {src : List UInt8} (hread : files.map x.read = fileData.map some)
    (hsrc : fileData[i]? = some src) : ∃ file, x.read file = some src ∧
      ((Task.processFileAsync files :: rest).flatMap Task.files).drop i =
        file :: ((Task.processFileAsync files :: rest).flatMap Task.files).drop (i + 1) := by
  have hget := congrArg (·[i]?) hread
  simp only [List.getElem?_map, hsrc, Option.map_some, Option.map_eq_some_iff] at hget
  obtain ⟨file, hfile, hdisk⟩ := hget
  obtain ⟨hlt, rfl⟩ := List.getElem?_eq_some_iff.mp hfile
  refine ⟨files[i], hdisk, ?_⟩
  have hlt' : i < ((Task.processFileAsync files :: rest).flatMap Task.files).length := by
    rw [List.flatMap_cons, List.length_append]
    exact Nat.lt_add_right _ hlt
  rw [List.drop_eq_getElem_cons hlt']
  simp only [List.flatMap_cons, Task.files]
  rw [List.getElem_append_left hlt]

/-- One more file has been compared. -/
theorem Sound.returned {file : String} {src : List UInt8} {rest : List String}
    (h : Sound x tasks a) (hleft : a.left = file :: rest) (hdisk : x.read file = some src) :
    ∃ done, tasks.flatMap Task.files = done ++ rest ∧
      (a.checked ++ [x.compress src]).map some =
        done.map fun file => (x.read file).map x.compress := by
  obtain ⟨done, hdone, hchecked⟩ := h.checked
  refine ⟨done ++ [file], by rw [hdone, hleft, List.append_assoc]; rfl, ?_⟩
  rw [List.map_append, List.map_append, hchecked]
  simp [hdisk]

theorem readFile_cases (x : Setup) (file : String) :
    (∃ fault, readFile x.disk file = .error fault) ∨
      ∃ src, x.read file = some src ∧ readFile x.disk file = .ok src := by
  cases hread : readFile x.disk file with
  | error fault => exact .inl ⟨fault, rfl⟩
  | ok src => exact .inr ⟨src, by rw [Setup.read, hread]; rfl, rfl⟩

theorem Sound.mem_left (h : Sound x tasks a) {file : String} (hfile : file ∈ a.left) :
    file ∈ tasks.flatMap Task.files := by
  obtain ⟨done, hdone, -⟩ := h.checked
  rw [hdone]
  exact List.mem_append_right _ hfile

/-- The main thread throws. -/
theorem Sound.failed (h : Sound x tasks a) {fault : Fault} (hfails : x.Fails tasks fault) :
    Sound x tasks { a with fault := some fault } where
  holds := h.holds
  fits := h.fits
  checked := h.checked
  suffix := h.suffix
  calls := h.calls
  fault := by
    intro fault' hfault
    cases hfault
    exact hfails

theorem Sound.start {task : Task} {rest : List Task} (h : Sound x tasks a)
    (halive : a.servicer.fault = none) (htasks : a.tasks = task :: rest)
    (hp : a.position = .ready) : Sound x tasks (a.start x task) := by
  have hholds := h.holds
  have hchecked := h.checked
  have hcalls := h.calls
  simp only [left, hp] at hchecked
  simp only [unsent, hp] at hcalls
  rw [hp] at hholds
  cases task with
  | processFileSync file =>
    rcases readFile_cases x file with ⟨fault, hread⟩ | ⟨src, hdisk, hread⟩
    · simp only [App.start, hread]
      refine h.failed (.inl ⟨file, h.mem_left ?_, hread⟩)
      simp [left, hp, htasks, Task.files]
    · simp only [App.start, hread]
      refine ⟨hholds.callServiceSync halive src, ⟨file, rest, htasks, hdisk⟩, hchecked, h.suffix,
        ?_, h.fault⟩
      simp only [htasks, List.flatMap_cons, Task.files, List.length_append,
        List.length_singleton] at hcalls
      simp only [unsent, htasks, List.tail_cons, Servicer.callServiceSync, Servicer.submit]
      omega
  | processFileAsync files =>
    exact ⟨hholds, ⟨files, rest, htasks, rfl, rfl⟩, hchecked, h.suffix, hcalls, h.fault⟩
  | openFileList path =>
    simp only [App.start]
    split
    · next hnone =>
      exact h.failed (.inr ⟨path, h.suffix.mem (htasks ▸ List.mem_cons_self), hnone, rfl⟩)
    · have hrest : rest.flatMap Task.files = a.tasks.flatMap Task.files := by
        rw [htasks]
        rfl
      rw [htasks, List.tail_cons]
      rw [← hrest] at hchecked hcalls
      have hsuffix : rest <:+ a.tasks := htasks ▸ List.suffix_cons _ _
      refine ⟨?_, ?_, ?_, hsuffix.trans h.suffix, ?_, h.fault⟩
      · simp only [hp]
        exact hholds
      · simp only [hp]
        trivial
      · simp only [left, hp]
        exact hchecked
      · simp only [unsent, hp]
        exact hcalls

theorem Sound.call {fileData : List (List UInt8)} {requestIds : List ℕ} {task : Task}
    {rest : List Task} (h : Sound x tasks a) (halive : a.servicer.fault = none)
    (htasks : a.tasks = task :: rest) (hp : a.position = .calling fileData requestIds) :
    Sound x tasks (a.call x task.files fileData requestIds) := by
  have hholds := h.holds
  have hchecked := h.checked
  have hcalls := h.calls
  have hfits := h.fits
  simp only [left, hp] at hchecked
  simp only [unsent, hp] at hcalls
  rw [hp] at hholds hfits
  obtain ⟨files, rest', hhead, hlength, hread⟩ := hfits
  rw [htasks] at hhead
  cases hhead
  rw [htasks, List.flatMap_cons, List.length_drop, List.length_append] at hcalls
  unfold App.call
  split
  · next hnone =>
    have hall : files.length ≤ requestIds.length := List.getElem?_eq_none_iff.mp hnone
    have hsame := congrArg List.length hread
    simp only [List.length_map, List.length_take] at hsame
    rw [List.take_of_length_le hall] at hread
    refine ⟨hholds, ⟨files, rest, htasks, hlength, hread, Nat.zero_le _⟩, hchecked, h.suffix, ?_,
      h.fault⟩
    simp only [Task.files] at hcalls
    simp only [unsent, htasks, List.tail_cons]
    omega
  · next file hfile =>
    have hmem : file ∈ files := List.mem_of_getElem? hfile
    obtain ⟨hlt, -⟩ := List.getElem?_eq_some_iff.mp hfile
    rcases readFile_cases x file with ⟨fault, hfault⟩ | ⟨src, hdisk, hok⟩
    · simp only [hfault]
      refine h.failed (.inl ⟨file, h.mem_left ?_, hfault⟩)
      simp only [left, hp, htasks, List.flatMap_cons]
      exact List.mem_append_left _ hmem
    · simp only [hok]
      refine ⟨?_, ⟨files, rest, htasks, by simp [hlength], ?_⟩, hchecked, h.suffix, ?_, h.fault⟩
      · have hnext := hholds.callServiceAsync halive src
        simp only [Position.held, Position.blockedIn] at hnext ⊢
        rwa [List.zip_append hlength]
      · have hget : files[requestIds.length]? = some file := hfile
        rw [List.length_append, List.length_singleton, List.take_add_one, List.map_append, hread,
          hget, List.map_append]
        simp [hdisk]
      · simp only [unsent, htasks, List.flatMap_cons, List.length_drop, List.length_append,
          List.length_singleton, Servicer.callServiceAsync, Servicer.submit]
        simp only [Task.files] at hcalls hlt ⊢
        omega

/-- The main thread has been given the result for the next file. -/
theorem Sound.collected {fileData : List (List UInt8)} {requestIds : List ℕ} {i : ℕ}
    {src : List UInt8} {files : List String} {rest : List Task} {s : Servicer}
    (h : Sound x tasks a) (htasks : a.tasks = .processFileAsync files :: rest)
    (hleft : a.left = (a.tasks.flatMap Task.files).drop i)
    (hunsent : a.unsent = a.tasks.tail.flatMap Task.files)
    (hsame : s.nextRequestId = a.servicer.nextRequestId)
    (hlength : requestIds.length = fileData.length) (hread : files.map x.read = fileData.map some)
    (hsrc : fileData[i]? = some src)
    (hholds : s.Holds x.compress ((requestIds.zip fileData).drop (i + 1)) []) :
    Sound x tasks { a with
      servicer := s
      position := .collecting fileData requestIds (i + 1)
      checked := a.checked ++ [x.compress src] } := by
  have hcalls := h.calls
  rw [hunsent, ← hsame] at hcalls
  obtain ⟨file, hdisk, hdrop⟩ := left_collecting rest hread hsrc
  rw [htasks, hdrop] at hleft
  obtain ⟨hlt, -⟩ := List.getElem?_eq_some_iff.mp hsrc
  have hfiles := congrArg List.length hread
  rw [List.length_map, List.length_map] at hfiles
  refine ⟨hholds, ⟨files, rest, htasks, hlength, hread, by omega⟩, ?_, h.suffix, hcalls, h.fault⟩
  simp only [left, htasks]
  exact h.returned hleft hdisk

theorem Sound.blocked {src : List UInt8} {id : ℕ} {task : Task} {rest : List Task}
    (h : Sound x tasks a) (halive : a.servicer.fault = none)
    (hright : x.Restores (tasks.flatMap Task.files)) (htasks : a.tasks = task :: rest)
    (hp : a.position = .blocked src id)
    (hstep : a.main x = some a') : Sound x tasks a' := by
  have hholds := h.holds
  have hfits := h.fits
  rw [hp] at hholds hfits
  obtain ⟨file, rest', hhead, hdisk⟩ := hfits
  rw [htasks] at hhead
  cases hhead
  simp only [App.main, htasks, hp] at hstep
  obtain ⟨s, hwake, rfl⟩ := Option.map_eq_some_iff.mp hstep
  obtain ⟨hreturned, hnext⟩ := Servicer.Holds.wake hholds hwake
  have hcalls := h.calls
  simp only [unsent, hp, htasks, List.tail_cons,
    ← Servicer.nextRequestId_wake halive hwake] at hcalls
  have hsuffix : rest <:+ tasks := (htasks ▸ List.suffix_cons _ _ : rest <:+ a.tasks).trans h.suffix
  have hleft : a.left = file :: rest.flatMap Task.files := by
    simp [left, hp, htasks, Task.files]
  rw [resume_returned hreturned (hright file (h.mem_left (hleft ▸ List.mem_cons_self)) src hdisk)]
  exact ⟨hnext, trivial, h.returned hleft hdisk, hsuffix, hcalls, h.fault⟩

/-- The second loop of `processFileAsync` waits for the next result, or has ended. -/
theorem Sound.collecting {fileData : List (List UInt8)} {requestIds : List ℕ} {i : ℕ}
    {task : Task} {rest : List Task} (h : Sound x tasks a) (halive : a.servicer.fault = none)
    (hright : x.Restores (tasks.flatMap Task.files)) (htasks : a.tasks = task :: rest)
    (hp : a.position = .collecting fileData requestIds i) (hstep : a.main x = some a') :
    Sound x tasks a' := by
  have hholds := h.holds
  have hfits := h.fits
  have hchecked := h.checked
  rw [hp] at hholds hfits
  obtain ⟨files, rest', hhead, hlength, hread, hi⟩ := hfits
  rw [htasks] at hhead
  cases hhead
  have hleft : a.left = (a.tasks.flatMap Task.files).drop i := by simp only [left, hp]
  have hunsent : a.unsent = a.tasks.tail.flatMap Task.files := by simp only [unsent, hp]
  have hcalls := h.calls
  rw [hunsent, htasks, List.tail_cons] at hcalls
  have hsuffix : rest <:+ tasks := (htasks ▸ List.suffix_cons _ _ : rest <:+ a.tasks).trans h.suffix
  have hfiles := congrArg List.length hread
  rw [List.length_map, List.length_map] at hfiles
  rw [hleft, htasks] at hchecked
  simp only [App.main, htasks, hp] at hstep
  split at hstep
  · next src id hsrc hid =>
    obtain ⟨s, hwait, rfl⟩ := Option.map_eq_some_iff.mp hstep
    have hsameIds := Servicer.nextRequestId_waitServiceSync halive hwait
    obtain ⟨file, hdisk, hdrop⟩ := left_collecting rest hread hsrc
    have hmem : file ∈ tasks.flatMap Task.files :=
      h.mem_left (by rw [hleft, htasks, hdrop]; exact List.mem_cons_self)
    simp only [Position.held, Position.blockedIn, drop_zip hid hsrc] at hholds
    rcases hholds.waitServiceSync hwait with ⟨hsame, hnext⟩ | ⟨hreturned, hnext⟩
    · have hlt : i < files.length := hfiles ▸ (List.getElem?_eq_some_iff.mp hsrc).1
      rw [resume_blocked hsame]
      refine ⟨?_, ⟨files, rest, htasks, hlength, hread, hlt⟩, ?_, h.suffix, ?_, h.fault⟩
      · simpa only [Position.held, Position.blockedIn, drop_zip hid hsrc, hid,
          Option.toList_some] using hnext
      · simpa only [left, htasks] using hchecked
      · simpa only [unsent, htasks, List.tail_cons, hsameIds] using hcalls
    · rw [← htasks, resume_returned hreturned (hright file hmem src hdisk)]
      exact h.collected htasks hleft hunsent hsameIds hlength hread hsrc hnext
  · next hnone =>
    cases hstep
    have hend : i = files.length := by
      refine le_antisymm hi (Nat.not_lt.mp fun hlt => ?_)
      exact hnone _ _ (List.getElem?_eq_getElem (hfiles ▸ hlt))
        (List.getElem?_eq_getElem (by omega))
    have hzip : (requestIds.zip fileData).drop i = [] := by
      rw [List.drop_eq_nil_iff, List.length_zip]
      omega
    have hrest : ((Task.processFileAsync files :: rest).flatMap Task.files).drop i =
        rest.flatMap Task.files := by
      rw [List.flatMap_cons, hend]
      exact List.drop_left
    simp only [Position.held, Position.blockedIn, hzip] at hholds
    rw [hrest] at hchecked
    exact ⟨hholds, trivial, hchecked, hsuffix, hcalls, h.fault⟩

theorem Sound.waiting {fileData : List (List UInt8)} {requestIds : List ℕ} {i : ℕ} {task : Task}
    {rest : List Task} (h : Sound x tasks a) (halive : a.servicer.fault = none)
    (hright : x.Restores (tasks.flatMap Task.files))
    (htasks : a.tasks = task :: rest) (hp : a.position = .waiting fileData requestIds i)
    (hstep : a.main x = some a') : Sound x tasks a' := by
  have hholds := h.holds
  have hfits := h.fits
  rw [hp] at hholds hfits
  obtain ⟨files, rest', hhead, hlength, hread, -⟩ := hfits
  rw [htasks] at hhead
  cases hhead
  have hleft : a.left = (a.tasks.flatMap Task.files).drop i := by simp only [left, hp]
  have hunsent : a.unsent = a.tasks.tail.flatMap Task.files := by simp only [unsent, hp]
  simp only [App.main, htasks, hp] at hstep
  split at hstep
  · next src id hsrc hid =>
    obtain ⟨s, hwake, rfl⟩ := Option.map_eq_some_iff.mp hstep
    have hsameIds := Servicer.nextRequestId_wake halive hwake
    obtain ⟨file, hdisk, hdrop⟩ := left_collecting rest hread hsrc
    have hmem : file ∈ tasks.flatMap Task.files :=
      h.mem_left (by rw [hleft, htasks, hdrop]; exact List.mem_cons_self)
    simp only [Position.held, Position.blockedIn, drop_zip hid hsrc, hid,
      Option.toList_some] at hholds
    obtain ⟨hreturned, hnext⟩ := hholds.wake hwake
    rw [← htasks, resume_returned hreturned (hright file hmem src hdisk)]
    exact h.collected htasks hleft hunsent hsameIds hlength hread hsrc hnext
  · cases hstep

theorem Sound.main (h : Sound x tasks a) (halive : a.servicer.fault = none)
    (hright : x.Restores (tasks.flatMap Task.files)) (hstep : a.main x = some a') :
    Sound x tasks a' := by
  cases htasks : a.tasks with
  | nil => simp [App.main, htasks] at hstep
  | cons task rest =>
    cases hp : a.position with
    | ready =>
      simp only [App.main, htasks, hp, Option.some.injEq] at hstep
      exact hstep ▸ h.start halive htasks hp
    | blocked src id => exact h.blocked halive hright htasks hp hstep
    | calling fileData requestIds =>
      simp only [App.main, htasks, hp, Option.some.injEq] at hstep
      exact hstep ▸ h.call halive htasks hp
    | collecting fileData requestIds i => exact h.collecting halive hright htasks hp hstep
    | waiting fileData requestIds i => exact h.waiting halive hright htasks hp hstep

/-- A step of another thread. -/
theorem Sound.library {e : Servicer.Event} (h : Sound x tasks a) (he : isCall e = false)
    (hright : a.servicer.answers (fun src data => data = x.compress src) e) {s : Servicer}
    (hstep : a.servicer.next e = some s) : Sound x tasks { a with servicer := s } := by
  have hbooks := h.holds.books.next hstep
  have hsameIds : s.nextRequestId = a.servicer.nextRequestId := by
    rw [(Servicer.constants_next hstep).2]
    cases e <;> first | rfl | cases he
  refine ⟨?_, h.fits, h.checked, h.suffix, hsameIds ▸ h.calls, h.fault⟩
  simp only [Servicer.next, Servicer.next_cases hstep, Option.isSome_none, Bool.false_eq_true,
    if_false] at hstep
  cases e with
  | dispatch =>
    obtain ⟨hmap, hhandlers, hwaiting, hunclaimed⟩ := Servicer.dispatch_keeps hstep
    exact h.holds.congr hbooks hmap hhandlers hwaiting hunclaimed
  | serve =>
    simp only [Servicer.serve] at hstep
    split at hstep <;> cases hstep
    exact h.holds.congr hbooks rfl rfl rfl rfl
  | answer id =>
    simp only [Servicer.answer] at hstep
    split at hstep <;> cases hstep
    exact h.holds.congr hbooks rfl rfl rfl rfl
  | scheduleRequest => exact h.holds.scheduleRequest hstep
  | completeRequest i data => exact h.holds.completeRequest hright hstep
  | _ => cases he

theorem sound_next {e : Event} (h : Sound x tasks a)
    (hright : x.Restores (tasks.flatMap Task.files)) (hok : answersRight x a e)
    (hstep : next x a e = some a') : Sound x tasks a' := by
  simp only [next] at hstep
  split_ifs at hstep with hdead
  have halive : a.servicer.fault = none := by
    have hnone := (not_or.mp (mt Bool.or_eq_true_iff.mpr hdead)).2
    simpa using hnone
  cases e with
  | main => exact h.main halive hright hstep
  | library e =>
    simp only at hstep
    split_ifs at hstep with he
    obtain ⟨s, hs, rfl⟩ := Option.map_eq_some_iff.mp hstep
    exact h.library (by simpa using he) hok hs

/-- When `main` is through, the `Servicer` has nothing left to do. -/
theorem Sound.nothing_left (h : Sound x tasks a) (hdone : a.tasks = []) :
    a.left = [] ∧ (∀ id, a.servicer.requestMap id = none) ∧ a.servicer.requestQueue = [] ∧
      a.servicer.inFlight = [] ∧ a.servicer.requestsInFlight = 0 := by
  have hp : a.position = .ready := by
    have hfits := h.fits
    rw [hdone] at hfits
    cases hp : a.position with
    | ready => rfl
    | blocked src id => obtain ⟨_, _, hnil, -⟩ := hp ▸ hfits; cases hnil
    | calling fileData requestIds => obtain ⟨_, _, hnil, -⟩ := hp ▸ hfits; cases hnil
    | collecting fileData requestIds i => obtain ⟨_, _, hnil, -⟩ := hp ▸ hfits; cases hnil
    | waiting fileData requestIds i => obtain ⟨_, _, hnil, -⟩ := hp ▸ hfits; cases hnil
  have hholds := h.holds
  rw [hp] at hholds
  have hmap : ∀ id, a.servicer.requestMap id = none := by
    intro id
    have howner := hholds.books.owner id
    rw [← List.count_append, hholds.owned.count_eq] at howner
    by_contra hsome
    rw [if_pos (Option.isSome_iff_ne_none.mpr hsome)] at howner
    cases howner
  have hnone : ∀ id, ¬ (id ∈ a.servicer.requestQueue ∨ id ∈ a.servicer.inFlight) := by
    intro id hid
    obtain ⟨r, hr, -⟩ := hholds.books.outstanding id hid
    rw [hmap] at hr
    cases hr
  have hflight : a.servicer.inFlight = [] :=
    List.eq_nil_iff_forall_not_mem.mpr fun id hid => hnone id (.inr hid)
  refine ⟨by simp [left, hp, hdone], hmap,
    List.eq_nil_iff_forall_not_mem.mpr fun id hid => hnone id (.inl hid), hflight, ?_⟩
  rw [hholds.books.count, hflight, List.length_nil]

/-- The files that the application is given. -/
def Setup.files (x : Setup) (filePath fileListPath : Option String) : List String :=
  filePath.toList ++ x.lines fileListPath

/-- In both states `main` goes through its files in order. -/
theorem files_program (x : Setup) (state : ProcessState) (filePath fileListPath : Option String) :
    (program x state filePath fileListPath).flatMap Task.files =
      x.files filePath fileListPath := by
  have hsync : ∀ files : List String,
      (files.map Task.processFileSync).flatMap Task.files = files := by
    intro files
    induction files with
    | nil => rfl
    | cons file files ih => rw [List.map_cons, List.flatMap_cons, ih]; rfl
  have hopen : (fileListPath.toList.map Task.openFileList).flatMap Task.files = [] := by
    cases fileListPath <;> rfl
  cases state with
  | SYNC => simp only [program, List.flatMap_append, hsync, hopen, List.append_nil, Setup.files]
  | ASYNC =>
    simp only [program, List.flatMap_append, hopen, List.append_nil, Setup.files]
    cases filePath <;> cases fileListPath <;> simp [Task.files, Setup.lines]

theorem openFileList_mem_program {state : ProcessState} {filePath fileListPath : Option String}
    {path : String} (h : Task.openFileList path ∈ program x state filePath fileListPath) :
    fileListPath = some path := by
  cases state <;> simpa [program] using h

/-- A disk with a directory and two files, one of them empty, which the list names. -/
def twoFiles : Setup where
  numWorkers := 1
  disk := fun file =>
    if file = "a" then some ⟨.ok 3, [1, 2, 3]⟩
    else if file = "b" then some ⟨.ok 0, []⟩
    else if file = "dir" then some ⟨.error "Is a directory", []⟩
    else none
  fileLists := fun path => if path = "list" then some ["a", "b"] else none
  compress := Transfer.snappyLiteral
  uncompress := List.drop 2

/-- A request through the library and the service. -/
def requestRun (requestId : ℕ) (compressedData : List UInt8) : List Servicer.Event :=
  [.dispatch, .dispatch, .dispatch, .serve, .answer requestId, .dispatch, .dispatch, .dispatch,
    .scheduleRequest, .completeRequest 0 compressedData]

/-- Both calls are made before the first result is waited for. -/
def twoFilesRun : List Event :=
  List.replicate 6 Event.main ++ (requestRun 0 [3, 8, 1, 2, 3]).map Event.library ++
    List.replicate 2 Event.main ++
    (Servicer.Event.dispatch :: requestRun 1 [0]).map Event.library ++ List.replicate 2 Event.main

end App

end TinyFile
