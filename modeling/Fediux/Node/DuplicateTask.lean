import Fediux.Basic.OrderedMap
import Fediux.Basic.Separator
import Fediux.Node.Registry

set_option autoImplicit false

/-! # The filter for duplicate tasks

`IsDuplicateTask` keeps the text `request_id_sub_task_id` of every task that it lets through,
with the time, and `CleanDuplicateTaskIdFilter` erases the texts that are too old
(`node/node_impl.cc`). Both hold the mutex, so a run is a sequence of calls. `exact_iff` says for
which tasks the filter tells every task from every other one.
-/

namespace Fediux.Node.Duplicate

open OrderedMap (Entries find? erase find?_foldl_erase_of_mem find?_foldl_erase_of_notMem)

/-! ## The filter -/

/-- What `IsDuplicateTask` reads of a task. -/
structure TaskContext where
  request_id : Str
  sub_task_id : Str
  deriving DecidableEq, Repr

def task_uid (task_info : TaskContext) : Str :=
  task_info.request_id ++ '_' :: task_info.sub_task_id

def task_id_timeout_s_ : ℤ := 30

/-- The filter, and the clock that `time(nullptr)` reads. -/
structure State where
  duplicate_task_id_filter_ : Entries Str ℤ
  now : ℤ
  deriving DecidableEq, Repr

def IsDuplicateTask (s : State) (task_info : TaskContext) : Bool × State :=
  if (find? s.duplicate_task_id_filter_ (task_uid task_info)).isSome then (true, s)
  else
    (false, { s with
      duplicate_task_id_filter_ := (task_uid task_info, s.now) :: s.duplicate_task_id_filter_ })

def timeouted_task_id (s : State) : List Str :=
  (s.duplicate_task_id_filter_.filter fun e => task_id_timeout_s_ < s.now - e.2).map Prod.fst

def CleanDuplicateTaskIdFilter (s : State) : State :=
  { s with
    duplicate_task_id_filter_ := (timeouted_task_id s).foldl erase s.duplicate_task_id_filter_ }

/-! ## Runs -/

inductive Action where
  | isDuplicateTask (task_info : TaskContext)
  | cleanDuplicateTaskIdFilter
  /-- Seconds pass. -/
  | wait (seconds : ℕ)
  deriving DecidableEq, Repr

inductive Event where
  | accepted (task_info : TaskContext) (time : ℤ)
  | rejected (task_info : TaskContext) (time : ℤ)
  | cleaned (uids : List Str) (time : ℤ)
  deriving DecidableEq, Repr

/-- A step, with the events of the run so far, the last one first. -/
def step (s : State × List Event) : Action → State × List Event
  | .isDuplicateTask task_info =>
      ((IsDuplicateTask s.1 task_info).2,
        (if (IsDuplicateTask s.1 task_info).1 then .rejected task_info s.1.now
          else .accepted task_info s.1.now) :: s.2)
  | .cleanDuplicateTaskIdFilter =>
      (CleanDuplicateTaskIdFilter s.1, .cleaned (timeouted_task_id s.1) s.1.now :: s.2)
  | .wait seconds => ({ s.1 with now := s.1.now + seconds }, s.2)

def run (start : ℤ) (actions : List Action) : State × List Event :=
  actions.foldl step ({ duplicate_task_id_filter_ := [], now := start }, [])

/-! ## What the filter is for -/

/-- The task was accepted at this time, and has not been cleaned since. -/
def AcceptedAt : List Event → TaskContext → ℤ → Prop
  | [], _, _ => False
  | .accepted task time :: before, task_info, c =>
      (task = task_info ∧ time = c) ∨ AcceptedAt before task_info c
  | .rejected _ _ :: before, task_info, c => AcceptedAt before task_info c
  | .cleaned uids _ :: before, task_info, c =>
      task_uid task_info ∉ uids ∧ AcceptedAt before task_info c

/-- A task is rejected exactly when it is accepted already, and none is cleaned too early. -/
def Right (before : List Event) : Event → Prop
  | .accepted task_info _ => ∀ c, ¬ AcceptedAt before task_info c
  | .rejected task_info _ => ∃ c, AcceptedAt before task_info c
  | .cleaned uids time => ∀ task_info c, AcceptedAt before task_info c →
      task_uid task_info ∈ uids → task_id_timeout_s_ < time - c

def Exact : List Event → Prop
  | [] => True
  | e :: before => Right before e ∧ Exact before

/-- One task is the other one with the joining character moved to an earlier one. -/
def Ambiguous (task task' : TaskContext) : Prop :=
  ∃ x, task'.request_id = task.request_id ++ '_' :: x ∧
    task.sub_task_id = x ++ '_' :: task'.sub_task_id

theorem task_uid_eq_iff {task task' : TaskContext} :
    task_uid task = task_uid task' ↔
      task = task' ∨ Ambiguous task task' ∨ Ambiguous task' task := by
  obtain ⟨r, t⟩ := task
  obtain ⟨r', t'⟩ := task'
  show r ++ '_' :: t = r' ++ '_' :: t' ↔ _
  rw [TaskContext.mk.injEq]
  exact Separator.append_cons_eq_append_cons_iff

theorem Ambiguous.ne {task task' : TaskContext} (h : Ambiguous task task') : task ≠ task' := by
  rintro rfl
  obtain ⟨x, hx, _⟩ := h
  have hlen := congrArg List.length hx
  rw [List.length_append, List.length_cons] at hlen
  omega

/-! ## The filter follows the accepted tasks -/

/-- Each text has one time, and the tasks are those accepted. -/
structure Tracks (tasks : Set TaskContext) (s : State × List Event) : Prop where
  find : ∀ e ∈ s.1.duplicate_task_id_filter_,
    find? s.1.duplicate_task_id_filter_ e.1 = some e.2
  accepted : ∀ task_info ∈ tasks, ∀ c,
    find? s.1.duplicate_task_id_filter_ (task_uid task_info) = some c ↔
      AcceptedAt s.2 task_info c
  mem : ∀ task_info c, AcceptedAt s.2 task_info c → task_info ∈ tasks
  exact : Exact s.2

section

variable {tasks : Set TaskContext} {s : State × List Event}

/-- What is cleaned is too old. -/
theorem Tracks.timeouted (h : Tracks tasks s) {uid : Str} {c : ℤ}
    (hmem : uid ∈ timeouted_task_id s.1)
    (hfind : find? s.1.duplicate_task_id_filter_ uid = some c) :
    task_id_timeout_s_ < s.1.now - c := by
  obtain ⟨e, he, rfl⟩ := List.mem_map.mp hmem
  obtain ⟨hin, hold⟩ := List.mem_filter.mp he
  rw [h.find e hin, Option.some.injEq] at hfind
  rw [← hfind]
  exact of_decide_eq_true hold

theorem Tracks.clean (h : Tracks tasks s) :
    Tracks tasks (step s .cleanDuplicateTaskIdFilter) where
  find e he := by
    have hin := OrderedMap.mem_of_mem_foldl_erase he
    show find? (CleanDuplicateTaskIdFilter s.1).duplicate_task_id_filter_ e.1 = some e.2
    exact (find?_foldl_erase_of_notMem hin.2 _).trans (h.find e hin.1)
  accepted task_info htask c := by
    show find? (CleanDuplicateTaskIdFilter s.1).duplicate_task_id_filter_ (task_uid task_info) =
      some c ↔ task_uid task_info ∉ timeouted_task_id s.1 ∧ AcceptedAt s.2 task_info c
    rw [← h.accepted task_info htask c, CleanDuplicateTaskIdFilter]
    by_cases hmem : task_uid task_info ∈ timeouted_task_id s.1
    · rw [find?_foldl_erase_of_mem hmem]
      exact ⟨fun hc => (by cases hc), fun hc => absurd hmem hc.1⟩
    · rw [find?_foldl_erase_of_notMem hmem]
      exact ⟨fun hc => ⟨hmem, hc⟩, fun hc => hc.2⟩
  mem task_info c hc := h.mem task_info c hc.2
  exact := by
    refine ⟨fun task_info c hc hmem => h.timeouted hmem ?_, h.exact⟩
    exact (h.accepted task_info (h.mem task_info c hc) c).mpr hc

/-- A task that the filter does not know is accepted. -/
theorem Tracks.accept (h : Tracks tasks s)
    (hne : ∀ task ∈ tasks, ∀ task' ∈ tasks, task_uid task = task_uid task' → task = task')
    {task_info : TaskContext} (htask : task_info ∈ tasks)
    (hnone : find? s.1.duplicate_task_id_filter_ (task_uid task_info) = none) :
    Tracks tasks
      ({ s.1 with duplicate_task_id_filter_ :=
          (task_uid task_info, s.1.now) :: s.1.duplicate_task_id_filter_ },
        .accepted task_info s.1.now :: s.2) where
  find e he := by
    rcases List.mem_cons.mp he with rfl | he
    · exact if_pos rfl
    · have hfind := h.find e he
      have hkey : e.1 ≠ task_uid task_info := by
        intro hkey
        rw [hkey, hnone] at hfind
        cases hfind
      exact (if_neg hkey).trans hfind
  accepted task htask' c := by
    show (if task_uid task = task_uid task_info then some s.1.now
      else find? s.1.duplicate_task_id_filter_ (task_uid task)) = some c ↔
        (task_info = task ∧ s.1.now = c) ∨ AcceptedAt s.2 task c
    have hold := h.accepted task htask' c
    by_cases heq : task_info = task
    · rw [heq] at hnone
      rw [hnone] at hold
      have hnot : ¬ AcceptedAt s.2 task c := fun hc => by cases hold.mpr hc
      rw [if_pos (by rw [heq]), Option.some.injEq]
      simp [heq, hnot]
    · have hkey : task_uid task ≠ task_uid task_info :=
        fun hkey => heq (hne task htask' task_info htask hkey).symm
      rw [if_neg hkey, hold]
      simp [heq]
  mem task c hc := by
    rcases hc with ⟨rfl, _⟩ | hc
    · exact htask
    · exact h.mem task c hc
  exact := by
    refine ⟨fun c hc => ?_, h.exact⟩
    rw [← h.accepted task_info htask c, hnone] at hc
    cases hc

theorem Tracks.reject (h : Tracks tasks s) {task_info : TaskContext} (htask : task_info ∈ tasks)
    {c : ℤ} (hsome : find? s.1.duplicate_task_id_filter_ (task_uid task_info) = some c) :
    Tracks tasks (s.1, .rejected task_info s.1.now :: s.2) where
  find := h.find
  accepted := h.accepted
  mem := h.mem
  exact := ⟨⟨c, (h.accepted task_info htask c).mp hsome⟩, h.exact⟩

theorem Tracks.step
    (hne : ∀ task ∈ tasks, ∀ task' ∈ tasks, task_uid task = task_uid task' → task = task')
    (h : Tracks tasks s) {a : Action} (ha : ∀ task_info, a = .isDuplicateTask task_info →
      task_info ∈ tasks) : Tracks tasks (step s a) := by
  cases a with
  | isDuplicateTask task_info =>
      have htask := ha task_info rfl
      rw [Duplicate.step, IsDuplicateTask]
      cases hfind : find? s.1.duplicate_task_id_filter_ (task_uid task_info) with
      | none => exact h.accept hne htask hfind
      | some c => exact h.reject htask hfind
  | cleanDuplicateTaskIdFilter => exact h.clean
  | wait seconds => exact ⟨h.find, h.accepted, h.mem, h.exact⟩

theorem Tracks.run
    (hne : ∀ task ∈ tasks, ∀ task' ∈ tasks, task_uid task = task_uid task' → task = task')
    (start : ℤ) {actions : List Action}
    (ha : ∀ task_info, Action.isDuplicateTask task_info ∈ actions → task_info ∈ tasks) :
    Tracks tasks (run start actions) := by
  have hinit : Tracks tasks ({ duplicate_task_id_filter_ := [], now := start }, []) :=
    ⟨fun e he => (by cases he), fun _ _ _ => ⟨fun h => (by cases h), False.elim⟩,
      fun _ _ h => h.elim, trivial⟩
  refine List.foldlRecOn actions Duplicate.step hinit ?_
  intro s hs a hmem
  exact hs.step hne fun task_info heq => ha task_info (heq ▸ hmem)

end

/-- **When the filter is exact**: in all runs over these tasks a task is rejected exactly when it
has been accepted and not cleaned since, and none is cleaned before its time, if and only if no
two of the tasks are ambiguous. -/
theorem exact_iff (tasks : Set TaskContext) :
    (∀ start actions, (∀ task_info, Action.isDuplicateTask task_info ∈ actions →
        task_info ∈ tasks) → Exact (run start actions).2) ↔
      ∀ task ∈ tasks, ∀ task' ∈ tasks, ¬ Ambiguous task task' := by
  constructor
  · intro h task htask task' htask' hamb
    have huid : task_uid task' = task_uid task :=
      task_uid_eq_iff.mpr (Or.inr (Or.inr hamb))
    have hrun := h 0 [.isDuplicateTask task, .isDuplicateTask task'] (by
      intro task_info hmem
      rcases List.mem_cons.mp hmem with heq | hmem
      · exact (Action.isDuplicateTask.inj heq) ▸ htask
      · exact (Action.isDuplicateTask.inj (List.mem_singleton.mp hmem)) ▸ htask')
    have hevents : (run 0 [.isDuplicateTask task, .isDuplicateTask task']).2 =
        [.rejected task' 0, .accepted task 0] := by
      simp [run, step, IsDuplicateTask, find?, huid]
    rw [hevents] at hrun
    obtain ⟨c, hc⟩ := hrun.1
    rcases hc with ⟨heq, _⟩ | hc
    · exact hamb.ne heq
    · exact hc
  · intro h start actions ha
    refine (Tracks.run (fun task htask task' htask' huid => ?_) start ha).exact
    rcases task_uid_eq_iff.mp huid with heq | hamb | hamb
    · exact heq
    · exact absurd hamb (h task htask task' htask')
    · exact absurd hamb (h task' htask' task htask)

/-- The second task has not been accepted, but is rejected. -/
theorem not_exact_joined :
    ¬ ∀ start actions, Exact (run start actions).2 := by
  intro h
  have hrun := (h 0 [.isDuplicateTask ⟨['a'], ['b', '_', 'c']⟩,
    .isDuplicateTask ⟨['a', '_', 'b'], ['c']⟩]).1
  obtain ⟨c, hc⟩ := hrun
  rcases hc with ⟨heq, _⟩ | hc
  · cases heq
  · exact hc

end Fediux.Node.Duplicate
