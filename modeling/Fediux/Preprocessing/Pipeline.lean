import Mathlib

set_option autoImplicit false

/-! # Who fits a module

The loop of `Pipeline.fit_transform` of `python/fediux/FL/preprocessing/pipeline.py` in horizontal
mode. For every module a client looks at the types of its own columns, and the server at the number
of columns of the first client and at its own list of columns, so they may go different ways
(`lockstep_iff`). What a fit does to the parties that take part in it is left open here.
-/

namespace Fediux.Preprocessing

inductive Err where
  | AttributeError
  | IndexError
  | KeyError
  | RuntimeError
  | TypeError
  | ValueError
  deriving DecidableEq, Repr

inductive Dtype where
  | int
  | float
  | bool
  | object
  | datetime
  deriving DecidableEq, Repr

/-- `num_type`. -/
def Dtype.isNum : Dtype → Bool
  | .int => true
  | .float => true
  | _ => false

/-- The names and types of the columns of a table. -/
abbrev Dtypes := List (String × Dtype)

/-- `column` of a module: one name or a list of them. -/
inductive Column where
  | name (c : String)
  | names (cs : List String)
  deriving DecidableEq, Repr

namespace Column

def toList : Column → List String
  | name c => [c]
  | names cs => cs

/-- `if column`. -/
def given : Column → Bool
  | name c => c ≠ ""
  | names cs => cs ≠ []

end Column

/-- An entry of `preprocess_module`. -/
structure Module where
  name : String
  column : Option Column
  deriving DecidableEq, Repr

/-- `sub in s`. -/
def contains (sub s : String) : Bool := decide (sub.toList <:+: s.toList)

/-- The names that `select_module` knows. -/
def supported (name : String) : Bool :=
  decide (name ∈ ["KBinsDiscretizer", "LabelBinarizer", "LabelEncoder", "MultiLabelBinarizer",
    "MaxAbsScaler", "MinMaxScaler", "Normalizer", "OneHotEncoder", "OrdinalEncoder",
    "PowerTransformer", "QuantileTransformer", "PCATransformer", "RobustScaler",
    "SplineTransformer", "StandardScaler", "OutlierHandler", "ValueReplacer", "TargetEncoder",
    "InterpolateImputer", "BFImputer"]) || contains "SimpleImputer" name

/-- What all parties find in `common_params`. -/
structure Common where
  task : String
  id : Option String
  label : Option String
  selected_column : Option (List String)
  preprocess_column : Option (List String)

/-- `preprocess_column` of a party with its own `selected_column` and, at a client, the names of
its columns. -/
def preprocess_column (P : Common) (selected_column data : Option (List String)) :
    Option (List String) :=
  (((P.preprocess_column.or P.selected_column).or selected_column).or data).map fun cs =>
    (cs.filter fun c => some c ≠ P.id).filter fun c => some c ≠ P.label

/-- The check of the modules for labels. -/
def checkLabel (P : Common) (m : Module) : Except Err Unit :=
  if contains "Label" m.name ∧ P.task ≠ "classification" then .error .RuntimeError else .ok ()

/-- `if column`, and `select_module` for what is not skipped. -/
def select_module (m : Module) (column : Column) : Except Err (Option Column) :=
  if column.given then
    if supported m.name then .ok (some column) else .error .RuntimeError
  else .ok none

section Client

/-- `data[column].select_dtypes`. -/
def select_dtypes (t : Dtypes) (column : List String) (p : Dtype → Bool) :
    Except Err (List String) :=
  if ∀ c ∈ column, c ∈ t.map Prod.fst then
    .ok (column.flatMap fun c => (t.filter fun d => d.1 = c ∧ p d.2).map Prod.fst)
  else .error .KeyError

/-- The columns for a module without `column`. -/
def implicit (name : String) (t : Dtypes) (column : List String) : Except Err (List String) :=
  if contains "SimpleImputer" name then
    if contains "string" name then select_dtypes t column fun d => !d.isNum
    else if contains "numeric" name then select_dtypes t column Dtype.isNum
    else .ok column
  else if name = "OrdinalEncoder" ∨ name = "OneHotEncoder" then
    select_dtypes t column fun d => !d.isNum
  else if contains "Scaler" name then select_dtypes t column Dtype.isNum
  else .ok column

/-- `column` of a client. -/
def clientColumn (m : Module) (t : Dtypes) (column : List String) : Except Err Column :=
  match m.column with
  | some c => .ok c
  | none => (implicit m.name t column).map .names

/-- The columns to which a client applies a module, or `none` for a module that it skips. -/
def clientSelects (P : Common) (m : Module) (t : Dtypes) (column : List String) :
    Except Err (Option Column) := do
  checkLabel P m
  let column ← clientColumn m t column
  select_module m column

/-- `data[column]` and, for the target encoder, `data[label]` can be read. -/
def Readable (P : Common) (m : Module) (t : Dtypes) (column : Column) : Prop :=
  (∀ c ∈ column.toList, c ∈ t.map Prod.fst) ∧
    (m.name = "TargetEncoder" → ∃ l ∈ t.map Prod.fst, P.label = some l)

instance (P : Common) (m : Module) (t : Dtypes) (column : Column) :
    Decidable (Readable P m t column) := by
  unfold Readable
  infer_instance

end Client

/-! ## All parties -/

/-- What a party does with a module: it begins the fit, goes on to the next module, raises an
error, or waits for a number of columns that nobody sends. -/
inductive Action where
  | fits
  | skips
  | raises (e : Err)
  | waits
  deriving DecidableEq, Repr

def Action.of : Except Err (Option Column) → Action
  | .error e => .raises e
  | .ok none => .skips
  | .ok (some _) => .fits

/-- A party is gone after an error, or it waits for ever. -/
inductive Halt where
  | raised (e : Err)
  | waits
  deriving DecidableEq, Repr

def Action.ofHalt : Halt → Action
  | .raised e => .raises e
  | .waits => .waits

/-- The server and the clients, which still have their tables or are gone. -/
structure State (T : Type) (n : ℕ) where
  server : Except Halt Unit
  client : Fin n → Except Halt T

/-- No party is gone, and the clients have these tables. -/
def State.Alive {T : Type} {n : ℕ} (s : State T n) (t : Fin n → T) : Prop :=
  s.server = .ok () ∧ ∀ i, s.client i = .ok (t i)

/-- The number of clients, the parameters, what `read_data` returns, and what a fit that all
parties have begun makes of them. -/
structure Setup (T : Type) where
  n : ℕ
  common : Common
  server_selected : Option (List String)
  client_selected : Fin n → Option (List String)
  dtypes : T → Dtypes
  data : Fin n → Except Err T
  after : Module → State T n → State T n

namespace Setup

variable {T : Type} (S : Setup T)

/-- `preprocess_column` of the server. -/
def server_column : Option (List String) :=
  preprocess_column S.common S.server_selected none

/-- `preprocess_column` of a client, which stays as it is while the modules add columns. -/
def client_column (i : Fin S.n) : List String :=
  match S.data i with
  | .error _ => []
  | .ok t => (preprocess_column S.common (S.client_selected i)
      (some ((S.dtypes t).map Prod.fst))).getD []

def start : State T S.n :=
  { server := .ok ()
    client := fun i =>
      match S.data i with
      | .error e => .error (.raised e)
      | .ok t => .ok t }

/-- `column_cnt` of a client, if it sends one. -/
def column_cnt (s : State T S.n) (m : Module) (i : Fin S.n) : Option ℕ :=
  match s.client i with
  | .error _ => none
  | .ok t => (implicit m.name (S.dtypes t) (S.client_column i)).toOption.map List.length

def clientAction (s : State T S.n) (m : Module) (i : Fin S.n) : Action :=
  match s.client i with
  | .error h => .ofHalt h
  | .ok t =>
      match clientSelects S.common m (S.dtypes t) (S.client_column i) with
      | .error e => .raises e
      | .ok none => .skips
      | .ok (some column) =>
          if Readable S.common m (S.dtypes t) column then .fits else .raises .KeyError

/-- The columns of the server, from the numbers of columns that it received. -/
def serverSelects (m : Module) : List ℕ → Except Err (Option Column)
  | [] => .error .IndexError
  | cnt :: _ =>
      if cnt = 0 then .ok none
      else
        match S.server_column with
        | none => .ok none
        | some cs => select_module m (.names cs)

def serverAction (s : State T S.n) (m : Module) : Action :=
  match s.server with
  | .error h => .ofHalt h
  | .ok _ =>
      match checkLabel S.common m with
      | .error e => .raises e
      | .ok _ =>
          match m.column with
          | some column => .of (select_module m column)
          | none =>
              if ∀ i, (S.column_cnt s m i).isSome then
                .of (S.serverSelects m ((List.finRange S.n).map fun i =>
                  (S.column_cnt s m i).getD 0))
              else .waits

def AllRaise (s : State T S.n) (m : Module) : Prop :=
  (∃ e, S.serverAction s m = .raises e) ∧ ∀ i, ∃ e, S.clientAction s m i = .raises e

/-- All parties fit a module, or all of them skip it, or the run ends with an error at all of
them. -/
def Together (s : State T S.n) (m : Module) : Prop :=
  (S.serverAction s m = .fits ∧ ∀ i, S.clientAction s m i = .fits) ∨
    (S.serverAction s m = .skips ∧ ∀ i, S.clientAction s m i = .skips) ∨ S.AllRaise s m

/-- A property of every module that the server comes to. -/
def Along (P : State T S.n → Module → Prop) : List Module → State T S.n → Prop
  | [], _ => True
  | m :: ms, s => P s m ∧
      match S.serverAction s m with
      | .fits => Along P ms (S.after m s)
      | .skips => Along P ms s
      | _ => True

/-- The server and the clients go through the modules in lockstep. -/
def Lockstep (ms : List Module) : Prop := S.Along S.Together ms S.start

/-- The tables of the clients take all parties the same way: the module has columns that all
clients can read; or it finds columns at all clients or at none of them, and in the first case the
server has a list of columns, too; or it is one that everybody refuses. -/
def Agree (t : Fin S.n → T) (m : Module) : Prop :=
  (contains "Label" m.name ∧ S.common.task ≠ "classification") ∨
    match m.column with
    | some column => column.given = false ∨ supported m.name = false ∨
        ∀ i, Readable S.common m (S.dtypes (t i)) column
    | none => ∃ column : Fin S.n → List String,
        (∀ i, implicit m.name (S.dtypes (t i)) (S.client_column i) = .ok (column i)) ∧
          ((∀ i, column i = []) ∨ (∀ i, column i ≠ []) ∧
            (∃ cs, S.server_column = some cs ∧ cs ≠ []) ∧
            (supported m.name = false ∨
              ∀ i, Readable S.common m (S.dtypes (t i)) (.names (column i))))

/-- The tables agree on a module as long as no party is gone, and when one is, all others raise an
error at the module. -/
def Agreed (s : State T S.n) (m : Module) : Prop :=
  (∀ t, s.Alive t → S.Agree t m) ∧ ((∀ t, ¬ s.Alive t) → S.AllRaise s m)

end Setup

/-! ## A module of parties that are all there -/

section Module

variable {P : Common} {m : Module} {column : Column}

theorem checkLabel_of_error (h : contains "Label" m.name ∧ P.task ≠ "classification") :
    checkLabel P m = .error .RuntimeError := if_pos h

theorem checkLabel_of_ok (h : ¬ (contains "Label" m.name ∧ P.task ≠ "classification")) :
    checkLabel P m = .ok () := if_neg h

theorem select_module_of_not_given (h : column.given = false) :
    select_module m column = .ok none := by
  simp [select_module, h]

theorem select_module_of_not_supported (h : column.given = true) (hm : supported m.name = false) :
    select_module m column = .error .RuntimeError := by
  simp [select_module, h, hm]

theorem select_module_of_supported (h : column.given = true) (hm : supported m.name = true) :
    select_module m column = .ok (some column) := by
  simp [select_module, h, hm]

theorem given_names {cs : List String} : (Column.names cs).given = true ↔ cs ≠ [] := by
  simp [Column.given]

end Module

namespace Setup

variable {T : Type} {S : Setup T} {s : State T S.n} {m : Module} {t : Fin S.n → T}

/-- A module with `column`. -/
theorem together_iff_of_column (hs : s.Alive t) {column : Column} (hm : m.column = some column)
    (hlabel : checkLabel S.common m = .ok ()) :
    S.Together s m ↔ column.given = false ∨ supported m.name = false ∨
      ∀ i, Readable S.common m (S.dtypes (t i)) column := by
  have hserver : S.serverAction s m = .of (select_module m column) := by
    simp only [serverAction, hs.1, hlabel, hm]
  have hselects : ∀ i, clientSelects S.common m (S.dtypes (t i)) (S.client_column i) =
      select_module m column := by
    intro i
    simp only [clientSelects, clientColumn, hlabel, hm]
    rfl
  have hclient : ∀ i, S.clientAction s m i =
      match select_module m column with
      | .error e => .raises e
      | .ok none => .skips
      | .ok (some column) =>
          if Readable S.common m (S.dtypes (t i)) column then .fits else .raises .KeyError := by
    intro i
    simp only [clientAction, hs.2 i, hselects i]
  cases hgiven : column.given with
  | false =>
      rw [select_module_of_not_given hgiven] at hserver hclient
      simp [Together, hserver, hclient, Action.of]
  | true =>
      cases hsupported : supported m.name with
      | false =>
          rw [select_module_of_not_supported hgiven hsupported] at hserver hclient
          simp [Together, AllRaise, hserver, hclient, Action.of]
      | true =>
          rw [select_module_of_supported hgiven hsupported] at hserver hclient
          simp [Together, AllRaise, hserver, hclient, Action.of]

/-! ### Modules without columns -/

section Implicit

variable {cs : Fin S.n → List String} (hs : s.Alive t) (hm : m.column = none)
  (hlabel : checkLabel S.common m = .ok ())
  (hcs : ∀ i, implicit m.name (S.dtypes (t i)) (S.client_column i) = .ok (cs i))

include hs hm hlabel hcs

theorem clientAction_of_implicit (i : Fin S.n) : S.clientAction s m i =
    if cs i = [] then .skips
    else if supported m.name = false then .raises .RuntimeError
    else if Readable S.common m (S.dtypes (t i)) (.names (cs i)) then .fits
    else .raises .KeyError := by
  have hselects : clientSelects S.common m (S.dtypes (t i)) (S.client_column i) =
      select_module m (.names (cs i)) := by
    simp only [clientSelects, clientColumn, hlabel, hm, hcs i]
    rfl
  simp only [clientAction, hs.2 i, hselects]
  by_cases hempty : cs i = []
  · rw [select_module_of_not_given (by simp [Column.given, hempty]), if_pos hempty]
  · have hgiven := given_names.mpr hempty
    rw [if_neg hempty]
    cases hsupported : supported m.name with
    | false =>
        rw [select_module_of_not_supported hgiven hsupported]
        rfl
    | true =>
        rw [select_module_of_supported hgiven hsupported]
        simp

theorem serverAction_of_implicit : S.serverAction s m =
    .of (S.serverSelects m ((List.finRange S.n).map fun i => (cs i).length)) := by
  have hcnt : ∀ i, S.column_cnt s m i = some (cs i).length := by
    intro i
    simp only [column_cnt, hs.2 i, hcs i]
    rfl
  simp [serverAction, hs.1, hlabel, hm, hcnt]

/-- The clients alone. -/
theorem clients_skip_iff : (∀ i, S.clientAction s m i = .skips) ↔ ∀ i, cs i = [] := by
  refine forall_congr' fun i => ?_
  rw [clientAction_of_implicit hs hm hlabel hcs i]
  split_ifs <;> simp_all

theorem clients_fit_iff (hsupported : supported m.name = true) :
    (∀ i, S.clientAction s m i = .fits) ↔
      ∀ i, cs i ≠ [] ∧ Readable S.common m (S.dtypes (t i)) (.names (cs i)) := by
  refine forall_congr' fun i => ?_
  rw [clientAction_of_implicit hs hm hlabel hcs i]
  split_ifs <;> simp_all

theorem clients_raise_iff (hsupported : supported m.name = false) :
    (∀ i, ∃ e, S.clientAction s m i = .raises e) ↔ ∀ i, cs i ≠ [] := by
  refine forall_congr' fun i => ?_
  rw [clientAction_of_implicit hs hm hlabel hcs i]
  split_ifs <;> simp_all

theorem together_iff_of_implicit : S.Together s m ↔
    (∀ i, cs i = []) ∨ (∀ i, cs i ≠ []) ∧ (∃ cs, S.server_column = some cs ∧ cs ≠ []) ∧
      (supported m.name = false ∨
        ∀ i, Readable S.common m (S.dtypes (t i)) (.names (cs i))) := by
  have hserver := serverAction_of_implicit hs hm hlabel hcs
  cases hn : List.finRange S.n with
  | nil =>
      -- no client: the server finds no count, and raises an error
      have hempty : IsEmpty (Fin S.n) := by
        rw [List.finRange_eq_nil_iff.mp hn]
        infer_instance
      rw [hn] at hserver
      refine iff_of_true (Or.inr (Or.inr ⟨⟨.IndexError, hserver⟩, ?_⟩)) (Or.inl ?_)
      · exact fun i => isEmptyElim i
      · exact fun i => isEmptyElim i
  | cons i₀ rest =>
      rw [hn, List.map_cons] at hserver
      by_cases hfirst : cs i₀ = []
      · -- the server skips, and so does the first client
        have hskips : S.serverAction s m = .skips := by
          simp [hserver, serverSelects, hfirst, Action.of]
        have hnot : ¬ ∀ i, cs i ≠ [] := fun h => h i₀ hfirst
        simp only [Together, AllRaise, hskips, reduceCtorEq, false_and, exists_false, or_false,
          false_or, true_and, hnot, clients_skip_iff hs hm hlabel hcs]
      · have hnot : ¬ ∀ i, cs i = [] := fun h => hfirst (h i₀)
        have hcount : (cs i₀).length ≠ 0 := by simpa using hfirst
        have hselects : S.serverAction s m = .of (match S.server_column with
            | none => .ok none
            | some cs => select_module m (.names cs)) := by
          rw [hserver, serverSelects, if_neg hcount]
        by_cases hknown : ∃ cs, S.server_column = some cs ∧ cs ≠ []
        · obtain ⟨known, hcolumn, hgiven⟩ := hknown
          rw [hcolumn] at hselects
          have hknown : ∃ cs, S.server_column = some cs ∧ cs ≠ [] := ⟨known, hcolumn, hgiven⟩
          cases hsupported : supported m.name with
          | true =>
              simp only [select_module_of_supported (given_names.mpr hgiven) hsupported,
                Action.of] at hselects
              simp only [Together, AllRaise, hselects, reduceCtorEq, false_and, exists_false,
                or_false, true_and, clients_fit_iff hs hm hlabel hcs hsupported, hnot, hknown,
                false_or, Bool.true_eq_false, forall_and]
          | false =>
              simp only [select_module_of_not_supported (given_names.mpr hgiven) hsupported,
                Action.of] at hselects
              simp only [Together, AllRaise, hselects, reduceCtorEq, false_and, false_or,
                clients_raise_iff hs hm hlabel hcs hsupported, hnot, hknown, true_and, true_or,
                and_true, Action.raises.injEq, exists_eq']
        · -- the server has no columns of its own
          have hskips : S.serverAction s m = .skips := by
            rw [hselects]
            cases hcolumn : S.server_column with
            | none => rfl
            | some known =>
                have hnil : known = [] := by
                  by_contra hgiven
                  exact hknown ⟨known, hcolumn, hgiven⟩
                simp [hnil, select_module, Column.given, Action.of]
          simp only [Together, AllRaise, hskips, reduceCtorEq, false_and, exists_false, or_false,
            hnot, hknown, and_false, clients_skip_iff hs hm hlabel hcs]

end Implicit

/-! ## Any module -/

/-- A client whose columns cannot be read sends no number, and the server waits for it. -/
theorem not_together_of_waits (hs : s.Alive t) (hm : m.column = none)
    (hlabel : checkLabel S.common m = .ok ()) {i : Fin S.n} {e : Err}
    (hi : implicit m.name (S.dtypes (t i)) (S.client_column i) = .error e) :
    ¬ S.Together s m := by
  have hnone : S.column_cnt s m i = none := by
    simp only [column_cnt, hs.2 i, hi]
    rfl
  have hserver : S.serverAction s m = .waits := by
    have hnot : ¬ ∀ i, (S.column_cnt s m i).isSome := by
      intro h
      simpa [hnone] using h i
    simp [serverAction, hs.1, hlabel, hm, hnot]
  simp [Together, AllRaise, hserver]

theorem together_iff_agree (hs : s.Alive t) : S.Together s m ↔ S.Agree t m := by
  by_cases hrefused : contains "Label" m.name ∧ S.common.task ≠ "classification"
  · have hlabel := checkLabel_of_error hrefused
    refine iff_of_true (Or.inr (Or.inr ⟨⟨.RuntimeError, ?_⟩, fun i => ⟨.RuntimeError, ?_⟩⟩))
      (Or.inl hrefused)
    · simp only [serverAction, hs.1, hlabel]
    · simp [clientAction, hs.2 i, clientSelects, hlabel, bind, Except.bind]
  · have hlabel := checkLabel_of_ok hrefused
    rw [Agree, or_iff_right hrefused]
    cases hm : m.column with
    | some column => exact together_iff_of_column hs hm hlabel
    | none =>
        by_cases hread : ∀ i, ∃ cs,
            implicit m.name (S.dtypes (t i)) (S.client_column i) = .ok cs
        · choose cs hcs using hread
          rw [together_iff_of_implicit hs hm hlabel hcs]
          refine ⟨fun h => ⟨cs, hcs, h⟩, ?_⟩
          rintro ⟨cs', hcs', h⟩
          obtain rfl : cs = cs' := funext fun i => Except.ok.inj ((hcs i).symm.trans (hcs' i))
          exact h
        · rw [not_forall] at hread
          obtain ⟨i, hi⟩ := hread
          cases herror : implicit m.name (S.dtypes (t i)) (S.client_column i) with
          | ok cs => exact absurd ⟨cs, herror⟩ hi
          | error e =>
              refine iff_of_false (not_together_of_waits hs hm hlabel herror) ?_
              rintro ⟨cs, hcs, _⟩
              exact hi ⟨cs i, hcs i⟩

/-- Where somebody is gone, all can but raise an error. -/
theorem together_iff_allRaise (hs : ∀ t, ¬ s.Alive t) : S.Together s m ↔ S.AllRaise s m := by
  refine ⟨?_, fun h => Or.inr (Or.inr h)⟩
  have hgone : (∃ h, s.server = .error h) ∨ ∃ i h, s.client i = .error h := by
    by_contra hthere
    rw [not_or, not_exists, not_exists] at hthere
    have hserver : s.server = .ok () := by
      cases hcase : s.server with
      | error h => exact absurd hcase (hthere.1 h)
      | ok u => rfl
    have hclient : ∀ i, ∃ t, s.client i = .ok t := by
      intro i
      cases hcase : s.client i with
      | error h => exact absurd ⟨h, hcase⟩ (hthere.2 i)
      | ok t => exact ⟨t, rfl⟩
    choose t ht using hclient
    exact hs t ⟨hserver, ht⟩
  have hhalt : ∀ h : Halt, Action.ofHalt h ≠ .fits ∧ Action.ofHalt h ≠ .skips := by
    intro h
    cases h <;> simp [Action.ofHalt]
  rintro (⟨hserver, hclient⟩ | ⟨hserver, hclient⟩ | hraise)
  · rcases hgone with ⟨h, hh⟩ | ⟨i, h, hh⟩
    · exact absurd (by simpa [serverAction, hh] using hserver) (hhalt h).1
    · exact absurd (by simpa [clientAction, hh] using hclient i) (hhalt h).1
  · rcases hgone with ⟨h, hh⟩ | ⟨i, h, hh⟩
    · exact absurd (by simpa [serverAction, hh] using hserver) (hhalt h).2
    · exact absurd (by simpa [clientAction, hh] using hclient i) (hhalt h).2
  · exact hraise

theorem together_iff_agreed : S.Together s m ↔ S.Agreed s m := by
  by_cases hs : ∃ t, s.Alive t
  · obtain ⟨t, ht⟩ := hs
    rw [together_iff_agree ht]
    constructor
    · intro h
      refine ⟨fun t' ht' => ?_, fun hgone => absurd ht (hgone t)⟩
      obtain rfl : t = t' := funext fun i => Except.ok.inj ((ht.2 i).symm.trans (ht'.2 i))
      exact h
    · exact fun h => h.1 t ht
  · rw [together_iff_allRaise (not_exists.mp hs)]
    exact ⟨fun h => ⟨fun t ht => absurd ⟨t, ht⟩ hs, fun _ => h⟩, fun h => h.2 (not_exists.mp hs)⟩

/-! ## All modules -/

theorem along_congr {P Q : State T S.n → Module → Prop} (h : ∀ s m, P s m ↔ Q s m)
    (ms : List Module) (s : State T S.n) : S.Along P ms s ↔ S.Along Q ms s := by
  induction ms generalizing s with
  | nil => rfl
  | cons m ms ih =>
      rw [Along, Along, h s m]
      refine and_congr_right fun _ => ?_
      cases S.serverAction s m with
      | fits => exact ih _
      | skips => exact ih _
      | raises e => rfl
      | waits => rfl

/-- **Lockstep**: the parties go through the modules in lockstep exactly when their tables agree on
every module that they come to. -/
theorem lockstep_iff (ms : List Module) : S.Lockstep ms ↔ S.Along S.Agreed ms S.start :=
  along_congr (fun _ _ => together_iff_agreed) ms S.start

/-- A client with one column of floats. -/
def oneClient : Setup Dtypes where
  n := 1
  common :=
    { task := "classification", id := none, label := none
      selected_column := none, preprocess_column := none }
  server_selected := none
  client_selected := fun _ => none
  dtypes := id
  data := fun _ => .ok [("x", .float)]
  after := fun _ s => s

/-- The client fits a scaler, and the server skips it. -/
theorem oneClient_not_lockstep :
    ¬ oneClient.Lockstep [{ name := "StandardScaler", column := none }] := by
  intro h
  have hserver : oneClient.serverAction oneClient.start
      { name := "StandardScaler", column := none } = .skips := by decide +kernel
  have hclient : oneClient.clientAction oneClient.start
      { name := "StandardScaler", column := none } (0 : Fin 1) = .fits := by decide +kernel
  have htogether := h.1
  simp only [Together, AllRaise, hserver, reduceCtorEq, false_and, exists_false, or_false,
    false_or, true_and] at htogether
  have hskips := htogether (0 : Fin 1)
  rw [hclient] at hskips
  cases hskips

end Setup

end Fediux.Preprocessing
