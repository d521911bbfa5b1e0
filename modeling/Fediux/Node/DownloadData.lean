import Fediux.Basic.Chunks
import Fediux.Basic.Run
import Fediux.Network.GrpcChannel

set_option autoImplicit false

/-! # Downloading files

`DataServiceImpl::DownloadData` reads files in a thread of its own and sends their blocks from
the calling thread (`node/ds.cc`). The threads share a `ThreadSafeQueue`, an error flag and the
error text. They take turns in any order at the steps that another thread can see.
`serves_iff` says for which lists of files the client is served right in every order.
-/

namespace Fediux.Node.Download

open Fediux.Network (limitedPackageSize)
open Transition (run)

/-! ## `ThreadSafeQueue::wait_and_pop` -/

/-- Where a thread is in `wait_and_pop`: before it has the lock, before it looks at the
predicate, before it gives the lock back to wait, waiting, before it takes an item. -/
inductive PopPhase where
  | acquire
  | test
  | block
  | waiting
  | take
  deriving DecidableEq, Repr

def PopPhase.holdsLock : PopPhase → Bool
  | .test | .block | .take => true
  | .acquire | .waiting => false

/-- After `notify_one`, which only a waiting thread sees. -/
def PopPhase.notified : PopPhase → PopPhase
  | .waiting => .acquire
  | ph => ph

/-! ## The reading thread -/

structure DataBlock where
  data : Bytes
  isLastBlock : Bool
  fileName : Str
  deriving DecidableEq, Repr

structure DownloadRespone where
  code : Retcode
  info : Str
  fileName : Str
  data : Bytes
  deriving DecidableEq, Repr

/-- What is at a path. -/
inductive File where
  | missing
  | unreadable
  | content (data : Bytes)
  deriving DecidableEq, Repr

/-- The files of the node: where relative paths start, and what is there. -/
structure Disk where
  storagePath : Str
  file : Str → File

def CompletePath (defaultStoragePath filePath : Str) : Str :=
  match filePath with
  | [] => []
  | c :: _ =>
      if c = '/' then filePath
      else if defaultStoragePath = [] then filePath
      else defaultStoragePath ++ ['/'] ++ filePath

/-- The file of a name in the request; an empty path does not exist. -/
def Disk.open (disk : Disk) (name : Str) : File :=
  let path := CompletePath disk.storagePath name
  if path = [] then .missing else disk.file path

/-- A step of the reading thread that the sending thread can see. -/
inductive ReadStep where
  | push (block : DataBlock)
  | notify
  | setErrorMsg (msg : Str)
  | setError
  | setStop
  deriving DecidableEq, Repr

/-- `push`: the item is put into the queue under the lock, then a waiting thread is woken. -/
def push (block : DataBlock) : List ReadStep := [.push block, .notify]

def endMark : DataBlock := { data := [], isLastBlock := true, fileName := [] }

def dataBlock (name : Str) (data : Bytes) : DataBlock :=
  { data := data, isLastBlock := false, fileName := name }

/-- The blocks of a file. -/
def fileBlocks (name : Str) (data : Bytes) : List DataBlock :=
  (Chunks.blocks data limitedPackageSize).map (dataBlock name)

/-- An exception in the reading thread: the text, the flag, `shutdown`. -/
def failure (errMsg : Str) : List ReadStep :=
  [.setErrorMsg errMsg, .setError, .setStop, .notify]

/-- `DownloadDataImpl` in the reading thread. -/
def DownloadDataImpl (disk : Disk) : List Str → List ReadStep
  | [] => []
  | name :: fileList =>
      let path := CompletePath disk.storagePath name
      match disk.open name with
      | .missing => failure ("file: ".toList ++ path ++ " is not exist".toList)
      | .unreadable => failure ("open file ".toList ++ path ++ " failed".toList)
      | .content data =>
          (fileBlocks name data ++ [endMark]).flatMap push ++ DownloadDataImpl disk fileList

/-! ## The two threads -/

/-- Where the sending thread is in its loop. -/
inductive Sender where
  | popping (phase : PopPhase)
  | popped (block : DataBlock)
  | writing (resp : DownloadRespone)
  | wrote
  | finished
  deriving DecidableEq, Repr

def Sender.holdsLock : Sender → Bool
  | .popping phase => phase.holdsLock
  | _ => false

def Sender.notified : Sender → Sender
  | .popping phase => .popping phase.notified
  | sender => sender

structure State where
  program : List ReadStep
  items : List DataBlock
  stop : Bool
  error : Bool
  errorMsg : Str
  sender : Sender
  written : List DownloadRespone
  deriving DecidableEq, Repr

/-- What is written for a block. -/
def State.response (s : State) (block : DataBlock) : DownloadRespone :=
  if s.error then { code := .FAIL, info := s.errorMsg, fileName := [], data := [] }
  else { code := .SUCCESS, info := "SUCCESS".toList, fileName := block.fileName,
         data := block.data }

def readerStep (s : State) : Option State :=
  match s.program with
  | [] => none
  | .push block :: program =>
      if s.sender.holdsLock then none
      else some { s with program, items := s.items ++ [block] }
  | .notify :: program => some { s with program, sender := s.sender.notified }
  | .setErrorMsg msg :: program => some { s with program, errorMsg := msg }
  | .setError :: program => some { s with program, error := true }
  | .setStop :: program => some { s with program, stop := true }

def senderStep (s : State) : Option State :=
  match s.sender with
  | .popping .acquire => some { s with sender := .popping .test }
  | .popping .test =>
      if s.stop = true ∨ s.items ≠ [] then some { s with sender := .popping .take }
      else some { s with sender := .popping .block }
  | .popping .block => some { s with sender := .popping .waiting }
  | .popping .waiting => none
  | .popping .take =>
      -- without an item `data_block` stays as it was made
      if s.stop then some { s with sender := .popped ⟨[], false, []⟩ }
      else
        match s.items with
        | [] => none
        | block :: items => some { s with items, sender := .popped block }
  | .popped block =>
      if block.isLastBlock then some { s with sender := .finished }
      else some { s with sender := .writing (s.response block) }
  | .writing resp => some { s with written := s.written ++ [resp], sender := .wrote }
  | .wrote =>
      if s.error then some { s with sender := .finished }
      else some { s with sender := .popping .acquire }
  | .finished => none

inductive Thread where
  | reader
  | sender
  deriving DecidableEq, Repr

def step (s : State) : Thread → Option State
  | .reader => readerStep s
  | .sender => senderStep s

/-- Both threads at the start of `DownloadData`; without a file no thread is started. -/
def start (disk : Disk) (fileList : List Str) : State :=
  { program := DownloadDataImpl disk fileList
    items := []
    stop := false
    error := false
    errorMsg := []
    sender := if fileList = [] then .finished else .popping .acquire
    written := if fileList = [] then
        [{ code := .FAIL, info := "download list is empty, no data file for download".toList,
           fileName := [], data := [] }]
      else [] }

/-- No thread can go on. -/
def Terminal (s : State) : Prop := ∀ t, step s t = none

/-! ## What a client is owed -/

/-- The responses are those of the files, one file after the other: each file has its name on
its responses, and their data are its content. -/
def SentAll (disk : Disk) (fileList : List Str) (written : List DownloadRespone) : Prop :=
  ∃ groups : List (List DownloadRespone), written = groups.flatten ∧
    List.Forall₂ (fun name group => disk.open name = .content (group.map (·.data)).flatten ∧
      ∀ resp ∈ group, resp.code = .SUCCESS ∧ resp.fileName = name) fileList groups

def Readable (disk : Disk) (name : Str) : Prop := ∃ data, disk.open name = .content data

/-- In every order of the steps the call ends, and at the end the client has the files, or a
failure where one cannot be read. -/
def Serves (disk : Disk) (fileList : List Str) : Prop :=
  (∃ n, ∀ as s, run step (start disk fileList) as = some s → as.length ≤ n) ∧
  ∀ as s, run step (start disk fileList) as = some s → Terminal s →
    ((∀ name ∈ fileList, Readable disk name) → SentAll disk fileList s.written) ∧
    ((∃ name ∈ fileList, ¬ Readable disk name) → ∃ resp ∈ s.written, resp.code = .FAIL)

/-- All files can be read, and those after the first are empty. -/
def OnlyFirst (disk : Disk) (fileList : List Str) : Prop :=
  (∀ name ∈ fileList, Readable disk name) ∧
    ∀ name ∈ fileList.tail, disk.open name = .content []

/-! ## Runs without an error -/

/-- What is written for a block where nothing has failed. -/
def sent (block : DataBlock) : DownloadRespone :=
  { code := .SUCCESS, info := "SUCCESS".toList, fileName := block.fileName, data := block.data }

/-- How the blocks of all files are spread over the threads: the blocks `taken` are written,
the blocks `todo` are still to be pushed. -/
def Spread (all taken todo : List DataBlock) (s : State) : Prop :=
  match s.sender with
  | .popping phase => all = taken ++ s.items ++ todo ∧ (phase = .take → s.items ≠ []) ∧
      (phase = .block → s.items = []) ∧
      (phase = .waiting → s.items = [] ∨ s.program.head? = some .notify)
  | .popped block => all = taken ++ block :: s.items ++ todo
  | .writing resp => ∃ block, block.isLastBlock = false ∧ resp = sent block ∧
      all = taken ++ block :: s.items ++ todo
  | .wrote => all = taken ++ s.items ++ todo
  | .finished => ∃ block, block.isLastBlock = true ∧ all = taken ++ block :: s.items ++ todo

/-- A state of a run in which no file fails. -/
structure Reading (all taken todo : List DataBlock) (s : State) : Prop where
  program : s.program = todo.flatMap push ∨ s.program = .notify :: todo.flatMap push
  stop : s.stop = false
  error : s.error = false
  notLast : ∀ block ∈ taken, block.isLastBlock = false
  written : s.written = taken.map sent
  spread : Spread all taken todo s

/-- What is left to do: steps of the reading thread, items, the place in the loop. -/
def Sender.rank : Sender → Nat
  | .popping .acquire => 3
  | .popping .test => 2
  | .popping .block => 1
  | .popping .waiting => 0
  | .popping .take => 1
  | .popped _ => 6
  | .writing _ => 5
  | .wrote => 4
  | .finished => 0

def measure (s : State) : Nat := 10 * s.program.length + 6 * s.items.length + s.sender.rank

theorem rank_notified_le (sender : Sender) : sender.notified.rank ≤ sender.rank + 3 := by
  cases sender with
  | popping phase => cases phase <;> simp [Sender.notified, PopPhase.notified, Sender.rank]
  | _ => exact Nat.le_add_right _ _

theorem reading_readerStep {all taken todo : List DataBlock} {s s' : State}
    (h : Reading all taken todo s) (hs : readerStep s = some s') :
    (∃ todo', Reading all taken todo' s') ∧ measure s' < measure s := by
  obtain ⟨hprogram, hstop, herror, htaken, hwritten, hspread⟩ := h
  obtain ⟨program, items, stop, error, errorMsg, sender, written⟩ := s
  rcases hprogram with hprogram | hprogram
  · -- a block is pushed
    cases todo with
    | nil =>
        cases hprogram
        cases hs
    | cons block todo =>
        cases hprogram
        unfold readerStep at hs
        simp only at hs
        split at hs
        · cases hs
        · rename_i hlock
          cases hs
          refine ⟨⟨todo, Or.inr rfl, hstop, herror, htaken, hwritten, ?_⟩, ?_⟩
          · cases sender with
            | popping phase =>
                obtain ⟨hall, -, -, hwait⟩ := hspread
                refine ⟨by rw [hall]; simp, ?_, ?_, fun _ => Or.inr rfl⟩
                · intro hphase
                  exact absurd (by rw [hphase]; rfl) hlock
                · intro hphase
                  exact absurd (by rw [hphase]; rfl) hlock
            | popped b => exact hspread.trans (by simp)
            | writing resp =>
                obtain ⟨b, hb, hresp, hall⟩ := hspread
                exact ⟨b, hb, hresp, hall.trans (by simp)⟩
            | wrote => exact hspread.trans (by simp)
            | finished =>
                obtain ⟨b, hb, hall⟩ := hspread
                exact ⟨b, hb, hall.trans (by simp)⟩
          · simp [measure]
            omega
  · -- a waiting thread is woken
    cases hprogram
    cases hs
    refine ⟨⟨todo, Or.inl rfl, hstop, herror, htaken, hwritten, ?_⟩, ?_⟩
    · cases sender with
      | popping phase =>
          obtain ⟨hall, htake, hblock, hwait⟩ := hspread
          cases phase with
          | waiting => exact ⟨hall, nofun, nofun, nofun⟩
          | acquire | test | block | take => exact ⟨hall, htake, hblock, nofun⟩
      | popped b => exact hspread
      | writing resp => exact hspread
      | wrote => exact hspread
      | finished => exact hspread
    · have hrank := rank_notified_le sender
      simp [measure]
      omega

theorem reading_senderStep {all taken todo : List DataBlock} {s s' : State}
    (h : Reading all taken todo s) (hs : senderStep s = some s') :
    (∃ taken', Reading all taken' todo s') ∧ measure s' < measure s := by
  obtain ⟨hprogram, hstop, herror, htaken, hwritten, hspread⟩ := h
  obtain ⟨program, items, stop, error, errorMsg, sender, written⟩ := s
  cases hstop
  cases herror
  cases sender with
  | popping phase =>
      obtain ⟨hall, htake, hblock, hwait⟩ := hspread
      cases phase with
      | acquire =>
          cases hs
          exact ⟨⟨taken, hprogram, rfl, rfl, htaken, hwritten, hall, by simp, by simp, by simp⟩,
            by simp [measure, Sender.rank]⟩
      | test =>
          cases items with
          | nil =>
              cases hs
              exact ⟨⟨taken, hprogram, rfl, rfl, htaken, hwritten, hall, by simp, by simp, by simp⟩,
                by simp [measure, Sender.rank]⟩
          | cons block items =>
              cases hs
              exact ⟨⟨taken, hprogram, rfl, rfl, htaken, hwritten, hall, by simp, by simp, by simp⟩,
                by simp [measure, Sender.rank]⟩
      | block =>
          cases hs
          exact ⟨⟨taken, hprogram, rfl, rfl, htaken, hwritten, hall, by simp, by simp,
            fun _ => Or.inl (hblock rfl)⟩, by simp [measure, Sender.rank]⟩
      | waiting => cases hs
      | take =>
          cases items with
          | nil => exact absurd rfl (htake rfl)
          | cons block items =>
              cases hs
              refine ⟨⟨taken, hprogram, rfl, rfl, htaken, hwritten, ?_⟩, ?_⟩
              · exact hall
              · simp [measure, Sender.rank]
                omega
  | popped block =>
      simp only [senderStep] at hs
      split at hs
      · rename_i hlast
        cases hs
        exact ⟨⟨taken, hprogram, rfl, rfl, htaken, hwritten, block, hlast, hspread⟩,
          by simp [measure, Sender.rank]⟩
      · rename_i hlast
        cases hs
        exact ⟨⟨taken, hprogram, rfl, rfl, htaken, hwritten, block, by simpa using hlast, rfl,
          hspread⟩, by simp [measure, Sender.rank]⟩
  | writing resp =>
      cases hs
      obtain ⟨block, hblock, rfl, hall⟩ := hspread
      refine ⟨⟨taken ++ [block], hprogram, rfl, rfl, ?_, ?_, ?_⟩, by simp [measure, Sender.rank]⟩
      · intro b hb
        rcases List.mem_append.mp hb with hb | hb
        · exact htaken b hb
        · rw [List.mem_singleton.mp hb]
          exact hblock
      · show written ++ [sent block] = _
        rw [List.map_append, ← hwritten]
        rfl
      · show all = taken ++ [block] ++ items ++ todo
        rw [hall]
        simp
  | wrote =>
      cases hs
      exact ⟨⟨taken, hprogram, rfl, rfl, htaken, hwritten, hspread, by simp, by simp, by simp⟩,
        by simp [measure, Sender.rank]⟩
  | finished => cases hs

theorem reading_step {all taken todo : List DataBlock} {s s' : State} {t : Thread}
    (h : Reading all taken todo s) (hs : step s t = some s') :
    (∃ taken' todo', Reading all taken' todo' s') ∧ measure s' < measure s := by
  cases t with
  | reader =>
      obtain ⟨⟨todo', h'⟩, hlt⟩ := reading_readerStep h hs
      exact ⟨⟨taken, todo', h'⟩, hlt⟩
  | sender =>
      obtain ⟨⟨taken', h'⟩, hlt⟩ := reading_senderStep h hs
      exact ⟨⟨taken', todo, h'⟩, hlt⟩

theorem reading_run {all taken todo : List DataBlock} {s s' : State} {as : List Thread}
    (h : Reading all taken todo s) (hrun : run step s as = some s') :
    (∃ taken' todo', Reading all taken' todo' s') ∧ as.length + measure s' ≤ measure s := by
  induction as generalizing s taken todo with
  | nil =>
      cases hrun
      exact ⟨⟨taken, todo, h⟩, by simp⟩
  | cons t as ih =>
      obtain ⟨s₁, hs, hrun⟩ := Transition.run_cons_eq_some.mp hrun
      obtain ⟨⟨taken₁, todo₁, h₁⟩, hlt⟩ := reading_step h hs
      obtain ⟨h', hle⟩ := ih h₁ hrun
      refine ⟨h', ?_⟩
      rw [List.length_cons]
      omega

/-- When no thread can go on, the sending thread has met the end of a file: it does not wait
for ever. -/
theorem finished_of_terminal {all taken todo : List DataBlock} {s : State}
    (h : Reading all taken todo s) (hterm : Terminal s)
    (hlast : ∃ block ∈ all, block.isLastBlock = true) :
    ∃ block rest, block.isLastBlock = true ∧ all = taken ++ block :: rest := by
  obtain ⟨hprogram, hstop, herror, htaken, hwritten, hspread⟩ := h
  have hreader : readerStep s = none := hterm .reader
  have hsender : senderStep s = none := hterm .sender
  obtain ⟨program, items, stop, error, errorMsg, sender, written⟩ := s
  cases hstop
  cases sender with
  | popping phase =>
      obtain ⟨hall, htake, -, hwait⟩ := hspread
      cases phase with
      | acquire => cases hsender
      | test =>
          cases items <;> cases hsender
      | block => cases hsender
      | take =>
          cases items with
          | nil => exact absurd rfl (htake rfl)
          | cons block items => cases hsender
      | waiting =>
          -- the reading thread has ended, so nothing is in the queue
          rcases hprogram with hprogram | hprogram
          · cases todo with
            | cons block todo =>
                cases hprogram
                cases hreader
            | nil =>
                cases hprogram
                have hitems : items = [] := (hwait rfl).resolve_right (by simp)
                obtain ⟨block, hblock, hl⟩ := hlast
                rw [hall, hitems, List.append_nil, List.append_nil] at hblock
                rw [htaken block hblock] at hl
                cases hl
          · cases hprogram
            cases hreader
  | popped block =>
      unfold senderStep at hsender
      simp only at hsender
      split at hsender <;> cases hsender
  | writing resp => cases hsender
  | wrote =>
      unfold senderStep at hsender
      simp only at hsender
      split at hsender <;> cases hsender
  | finished =>
      obtain ⟨block, hblock, hall⟩ := hspread
      exact ⟨block, items ++ todo, hblock, by rw [hall]; simp⟩

/-! ## The blocks of the files -/

/-- The blocks of all files, with the end marks. -/
def allBlocks (disk : Disk) (fileList : List Str) : List DataBlock :=
  fileList.flatMap fun name =>
    match disk.open name with
    | .content data => fileBlocks name data ++ [endMark]
    | _ => []

theorem DownloadDataImpl_eq {disk : Disk} {fileList : List Str}
    (h : ∀ name ∈ fileList, Readable disk name) :
    DownloadDataImpl disk fileList = (allBlocks disk fileList).flatMap push := by
  induction fileList with
  | nil => rfl
  | cons name fileList ih =>
      obtain ⟨data, hdata⟩ := h name List.mem_cons_self
      have ih := ih fun name' hname' => h name' (List.mem_cons_of_mem name hname')
      rw [allBlocks, List.flatMap_cons, List.flatMap_append, DownloadDataImpl]
      simp only [hdata]
      rw [ih]
      rfl

theorem isLastBlock_of_mem_fileBlocks {name : Str} {data : Bytes} {block : DataBlock}
    (h : block ∈ fileBlocks name data) : block.isLastBlock = false := by
  obtain ⟨_, _, rfl⟩ := List.mem_map.mp h
  rfl

theorem takeWhile_append_cons {α : Type} {p : α → Bool} {xs ys : List α} {x : α}
    (hxs : ∀ y ∈ xs, p y = true) (hx : p x = false) : (xs ++ x :: ys).takeWhile p = xs := by
  rw [List.takeWhile_append_of_pos hxs, List.takeWhile_cons, hx]
  simp

/-- Up to the first end mark there are the blocks of the first file. -/
theorem eq_fileBlocks {disk : Disk} {name : Str} {fileList : List Str} {data : Bytes}
    (hdata : disk.open name = .content data) {taken rest : List DataBlock} {block : DataBlock}
    (htaken : ∀ b ∈ taken, b.isLastBlock = false) (hblock : block.isLastBlock = true)
    (hall : allBlocks disk (name :: fileList) = taken ++ block :: rest) :
    taken = fileBlocks name data := by
  have hfirst : allBlocks disk (name :: fileList) =
      fileBlocks name data ++ endMark :: allBlocks disk fileList := by
    rw [allBlocks, List.flatMap_cons, hdata]
    show fileBlocks name data ++ [endMark] ++ _ = _
    rw [List.append_assoc]
    rfl
  have h := congrArg (List.takeWhile fun b => !b.isLastBlock) (hfirst.symm.trans hall)
  rw [takeWhile_append_cons (fun b hb => by simp [isLastBlock_of_mem_fileBlocks hb]) rfl,
    takeWhile_append_cons (fun b hb => by simp [htaken b hb]) (by simp [hblock])] at h
  exact h.symm

theorem reading_start {disk : Disk} {fileList : List Str} (hne : fileList ≠ [])
    (h : ∀ name ∈ fileList, Readable disk name) :
    Reading (allBlocks disk fileList) [] (allBlocks disk fileList) (start disk fileList) where
  program := Or.inl (DownloadDataImpl_eq h)
  stop := rfl
  error := rfl
  notLast := by simp
  written := if_neg hne
  spread := by
    unfold Spread start
    simp [hne]

/-- What is written in the end is the first file. -/
theorem written_of_terminal {disk : Disk} {name : Str} {fileList : List Str} {data : Bytes}
    (h : ∀ name' ∈ name :: fileList, Readable disk name')
    (hdata : disk.open name = .content data) {as : List Thread} {s : State}
    (hrun : run step (start disk (name :: fileList)) as = some s) (hterm : Terminal s) :
    s.written = (fileBlocks name data).map sent := by
  obtain ⟨⟨taken, todo, hs⟩, _⟩ := reading_run (reading_start (List.cons_ne_nil _ _) h) hrun
  have hlast : ∃ block ∈ allBlocks disk (name :: fileList), block.isLastBlock = true := by
    refine ⟨endMark, List.mem_flatMap.mpr ⟨name, List.mem_cons_self, ?_⟩, rfl⟩
    rw [hdata]
    exact List.mem_append_right _ (List.mem_singleton.mpr rfl)
  obtain ⟨block, rest, hblock, hall⟩ := finished_of_terminal hs hterm hlast
  rw [hs.written, eq_fileBlocks hdata hs.notLast hblock hall]

/-! ## One order of the steps: the first file is read, then sent, then the rest is read -/

/-- The reading thread alone, while the sending thread has not started. -/
theorem run_pushes (blocks : List DataBlock) {s : State} {program : List ReadStep}
    (hprogram : s.program = blocks.flatMap push ++ program)
    (hsender : s.sender = .popping .acquire) :
    ∃ as, run step s as = some { s with program, items := s.items ++ blocks } := by
  induction blocks generalizing s with
  | nil =>
      obtain ⟨_, items, stop, error, errorMsg, sender, written⟩ := s
      cases hprogram
      exact ⟨[], by simp [run]⟩
  | cons block blocks ih =>
      obtain ⟨_, items, stop, error, errorMsg, sender, written⟩ := s
      cases hprogram
      cases hsender
      obtain ⟨as, hrun⟩ := @ih
        ⟨blocks.flatMap push ++ program, items ++ [block], stop, error, errorMsg,
          .popping .acquire, written⟩ rfl rfl
      refine ⟨.reader :: .reader :: as, ?_⟩
      refine Transition.run_cons_eq_some.mpr ⟨_, rfl, ?_⟩
      refine Transition.run_cons_eq_some.mpr ⟨_, rfl, ?_⟩
      refine hrun.trans ?_
      simp

/-- The sending thread alone, up to the end of a file. -/
theorem run_drains {blocks : List DataBlock} (hblocks : ∀ b ∈ blocks, b.isLastBlock = false)
    {s : State} (hstop : s.stop = false) (herror : s.error = false)
    (hitems : s.items = blocks ++ [endMark]) (hsender : s.sender = .popping .acquire) :
    ∃ as, run step s as =
      some { s with items := [], sender := .finished, written := s.written ++ blocks.map sent } := by
  induction blocks generalizing s with
  | nil =>
      obtain ⟨program, _, _, _, errorMsg, _, written⟩ := s
      cases hstop
      cases herror
      cases hitems
      cases hsender
      refine ⟨[.sender, .sender, .sender, .sender], ?_⟩
      simp [run, step, senderStep, endMark]
  | cons block blocks ih =>
      obtain ⟨program, _, _, _, errorMsg, _, written⟩ := s
      cases hstop
      cases herror
      cases hitems
      cases hsender
      have hblock : block.isLastBlock = false := hblocks block List.mem_cons_self
      obtain ⟨as, hrun⟩ := @ih (fun b hb => hblocks b (List.mem_cons_of_mem block hb))
        ⟨program, blocks ++ [endMark], false, false, errorMsg, .popping .acquire,
          written ++ [sent block]⟩ rfl rfl rfl rfl
      refine ⟨[.sender, .sender, .sender, .sender, .sender, .sender] ++ as,
        Transition.run_append ?_ (hrun.trans ?_)⟩
      · simp [run, step, senderStep, hblock, State.response, sent]
      · simp

/-- The reading thread ends when the sending thread has ended. -/
theorem run_reads {s : State} (hsender : s.sender = .finished) :
    ∃ as s', run step s as = some s' ∧ Terminal s' ∧ s'.written = s.written := by
  obtain ⟨program, items, stop, error, errorMsg, sender, written⟩ := s
  cases hsender
  induction program generalizing items stop error errorMsg with
  | nil =>
      refine ⟨[], _, rfl, ?_, rfl⟩
      intro t
      cases t <;> rfl
  | cons r program ih =>
      have hnext : ∃ s₁, step ⟨r :: program, items, stop, error, errorMsg, .finished, written⟩
          .reader = some s₁ ∧ ∃ as s', run step s₁ as = some s' ∧ Terminal s' ∧
            s'.written = written := by
        cases r with
        | push block => exact ⟨_, rfl, ih (items ++ [block]) stop error errorMsg⟩
        | notify => exact ⟨_, rfl, ih items stop error errorMsg⟩
        | setErrorMsg msg => exact ⟨_, rfl, ih items stop error msg⟩
        | setError => exact ⟨_, rfl, ih items stop true errorMsg⟩
        | setStop => exact ⟨_, rfl, ih items true error errorMsg⟩
      obtain ⟨s₁, hs, as, s', hrun, hend⟩ := hnext
      exact ⟨.reader :: as, s', Transition.run_cons_eq_some.mpr ⟨s₁, hs, hrun⟩, hend⟩

/-- Whatever comes after the first file, the call can end with the first file alone. -/
theorem run_firstOnly {disk : Disk} {name : Str} {data : Bytes}
    (hdata : disk.open name = .content data) (fileList : List Str) :
    ∃ as s, run step (start disk (name :: fileList)) as = some s ∧ Terminal s ∧
      s.written = (fileBlocks name data).map sent := by
  have hprogram : (start disk (name :: fileList)).program =
      (fileBlocks name data ++ [endMark]).flatMap push ++ DownloadDataImpl disk fileList := by
    show DownloadDataImpl disk (name :: fileList) = _
    rw [DownloadDataImpl]
    simp only [hdata]
  obtain ⟨as, hpush⟩ := run_pushes _ hprogram rfl
  obtain ⟨as', hdrain⟩ := run_drains
    (s := { start disk (name :: fileList) with
      program := DownloadDataImpl disk fileList
      items := [] ++ (fileBlocks name data ++ [endMark]) })
    (fun b hb => isLastBlock_of_mem_fileBlocks hb) rfl rfl rfl rfl
  obtain ⟨as'', s, hread, hterm, hwritten⟩ := run_reads
    (s := { start disk (name :: fileList) with
      program := DownloadDataImpl disk fileList
      items := []
      sender := .finished
      written := [] ++ (fileBlocks name data).map sent }) rfl
  exact ⟨as ++ (as' ++ as''), s, Transition.run_append hpush (Transition.run_append hdrain hread),
    hterm, hwritten⟩

/-- When the first file cannot be read, the sending thread can miss `shutdown`, which does not
take the lock: it is woken before it waits. -/
theorem run_lostWakeup {disk : Disk} {name : Str} (h : ¬ Readable disk name)
    (fileList : List Str) :
    ∃ as s, run step (start disk (name :: fileList)) as = some s ∧ Terminal s ∧
      s.written = [] := by
  have hprogram : ∃ errMsg, DownloadDataImpl disk (name :: fileList) = failure errMsg := by
    rw [DownloadDataImpl]
    cases hopen : disk.open name with
    | missing => exact ⟨_, rfl⟩
    | unreadable => exact ⟨_, rfl⟩
    | content data => exact absurd ⟨data, hopen⟩ h
  obtain ⟨errMsg, hprogram⟩ := hprogram
  refine ⟨[.sender, .sender, .reader, .reader, .reader, .reader, .sender],
    ⟨[], [], true, true, errMsg, .popping .waiting, []⟩, ?_, ?_, rfl⟩
  · simp [run, step, senderStep, readerStep, start, hprogram, failure, Sender.notified,
      PopPhase.notified]
  · intro t
    cases t <;> rfl

/-! ## Which lists are served -/

/-- The responses of a file make up its content. -/
theorem flatten_sent (name : Str) (data : Bytes) :
    (((fileBlocks name data).map sent).map (·.data)).flatten = data := by
  rw [fileBlocks, List.map_map, List.map_map]
  show ((Chunks.blocks data limitedPackageSize).map id).flatten = data
  rw [List.map_id, Chunks.flatten_blocks]

theorem exists_of_forall₂ {α β : Type} {R : α → β → Prop} {as : List α} {bs : List β}
    (h : List.Forall₂ R as bs) {a : α} (ha : a ∈ as) : ∃ b ∈ bs, R a b := by
  induction h with
  | nil => cases ha
  | @cons a' b _ _ hab _ ih =>
      rcases List.mem_cons.mp ha with rfl | ha
      · exact ⟨b, List.mem_cons_self, hab⟩
      · obtain ⟨b', hb', hR⟩ := ih ha
        exact ⟨b', List.mem_cons_of_mem b hb', hR⟩

theorem serves_of_onlyFirst {disk : Disk} {fileList : List Str} (hne : fileList ≠ [])
    (h : OnlyFirst disk fileList) : Serves disk fileList := by
  obtain ⟨hreadable, hempty⟩ := h
  refine ⟨⟨measure (start disk fileList), fun as s hrun => ?_⟩, fun as s hrun hterm => ⟨?_, ?_⟩⟩
  · have hle := (reading_run (reading_start hne hreadable) hrun).2
    omega
  · intro _
    cases fileList with
    | nil => exact absurd rfl hne
    | cons name fileList =>
        obtain ⟨data, hdata⟩ := hreadable name List.mem_cons_self
        have hwritten := written_of_terminal hreadable hdata hrun hterm
        refine ⟨(fileBlocks name data).map sent :: fileList.map fun _ => [], ?_, ?_⟩
        · rw [hwritten]
          simp
        · refine List.Forall₂.cons ⟨?_, ?_⟩ ?_
          · rw [hdata]
            rw [flatten_sent]
          · intro resp hresp
            obtain ⟨block, hblock, rfl⟩ := List.mem_map.mp hresp
            obtain ⟨_, _, rfl⟩ := List.mem_map.mp hblock
            exact ⟨rfl, rfl⟩
          · rw [List.forall₂_map_right_iff, List.forall₂_same]
            intro name' hname'
            exact ⟨hempty name' hname', by simp⟩
  · rintro ⟨name, hname, hcontra⟩
    exact absurd (hreadable name hname) hcontra

theorem onlyFirst_of_serves {disk : Disk} {fileList : List Str} (hne : fileList ≠ [])
    (h : Serves disk fileList) : OnlyFirst disk fileList := by
  obtain ⟨-, hserves⟩ := h
  cases fileList with
  | nil => exact absurd rfl hne
  | cons name fileList =>
      by_cases hname : Readable disk name
      · obtain ⟨data, hdata⟩ := hname
        obtain ⟨as, s, hrun, hterm, hwritten⟩ := run_firstOnly hdata fileList
        obtain ⟨hall, hfail⟩ := hserves as s hrun hterm
        have hreadable : ∀ name' ∈ name :: fileList, Readable disk name' := by
          by_contra hcontra
          push Not at hcontra
          obtain ⟨resp, hresp, hcode⟩ := hfail hcontra
          rw [hwritten] at hresp
          obtain ⟨_, _, rfl⟩ := List.mem_map.mp hresp
          cases hcode
        refine ⟨hreadable, fun name' hname' => ?_⟩
        obtain ⟨groups, hgroups, hforall⟩ := hall hreadable
        rw [hwritten] at hgroups
        cases hforall with
        | @cons _ group _ groups hfirst hrest =>
            rw [hdata] at hfirst
            have hgroup : data = (group.map (·.data)).flatten := File.content.inj hfirst.1
            have hflat := congrArg (fun l => (l.map (·.data)).flatten) hgroups
            simp only [flatten_sent, List.flatten_cons, List.map_append, List.flatten_append,
              ← hgroup] at hflat
            have hnil : (groups.flatten.map (·.data)).flatten = [] :=
              List.self_eq_append_right.mp hflat
            obtain ⟨group', hgroup', hopen, -⟩ := exists_of_forall₂ hrest hname'
            rw [hopen]
            congr 1
            refine List.flatten_eq_nil_iff.mpr fun block hblock => ?_
            obtain ⟨resp, hresp, rfl⟩ := List.mem_map.mp hblock
            exact List.flatten_eq_nil_iff.mp hnil _
              (List.mem_map_of_mem (List.mem_flatten.mpr ⟨group', hgroup', hresp⟩))
      · obtain ⟨as, s, hrun, hterm, hwritten⟩ := run_lostWakeup hname fileList
        obtain ⟨resp, hresp, _⟩ := (hserves as s hrun hterm).2 ⟨name, List.mem_cons_self, hname⟩
        rw [hwritten] at hresp
        cases hresp

/-- **Which downloads are served**: those of one file that can be read, also when empty files
follow it. -/
theorem serves_iff {disk : Disk} {fileList : List Str} (hne : fileList ≠ []) :
    Serves disk fileList ↔ OnlyFirst disk fileList :=
  ⟨onlyFirst_of_serves hne, serves_of_onlyFirst hne⟩

/-- A node with the files `a`, `b` and an empty file. -/
def twoFiles : Disk where
  storagePath := []
  file path := if path = ['a'] ∨ path = ['b'] then .content [1] else
    if path = ['c'] then .content [] else .missing

theorem serves_a : Serves twoFiles [['a'], ['c']] := by
  refine (serves_iff (List.cons_ne_nil _ _)).mpr ⟨?_, ?_⟩
  · intro name hname
    simp only [List.mem_cons, List.not_mem_nil, or_false] at hname
    rcases hname with rfl | rfl
    · exact ⟨[1], rfl⟩
    · exact ⟨[], rfl⟩
  · intro name hname
    obtain rfl : name = ['c'] := List.mem_singleton.mp hname
    rfl

/-- The second of two files is never sent. -/
theorem not_serves_two : ¬ Serves twoFiles [['a'], ['b']] := by
  intro h
  have hb := (onlyFirst_of_serves (List.cons_ne_nil _ _) h).2 ['b'] List.mem_cons_self
  cases hb

end Fediux.Node.Download
