import Fediux.Basic.Fallible
import Fediux.Preprocessing.Pipeline

set_option autoImplicit false

/-! # The saved modules on the table they were fitted on

`Pipeline.fit_transform` of a client in horizontal mode, which saves the modules that it fits, and
`Pipeline.transform`, which applies the saved modules. The two go by different lists of module
names: `transform` fits the binarizers, the one-hot encoder and the discretizer again, to the
client's own table; it overwrites the columns of a transformer, whose results `fit_transform`
appends; and it calls `transform` on the plain parameters that some classes save.
`sameOutputs_iff` says where the tables stay the same.

The data frames of pandas and the estimators of scikit-learn are taken by what is documented of
them (`Pandas`, `Sklearn`), and the federated fits are left open (`Client`).
-/

namespace Fediux.Preprocessing

/-- The tables `T`, what `data[column]` gives (`X`), and arrays (`A`), where a vector counts as an
array with one column. -/
structure Pandas (T X A : Type) where
  dtypes : T → Dtypes
  /-- `data[column]` -/
  getitem : T → Column → Except Err X
  /-- `data[column] = temp` -/
  setitem : T → Column → A → Except Err T
  /-- `data.join(pd.DataFrame(temp, columns=col_name))` -/
  join : T → List String → A → Except Err T
  /-- `temp.shape[1]` -/
  width : A → ℕ
  names_setitem : ∀ {t column x temp t'}, getitem t column = .ok x →
    setitem t column temp = .ok t' → (dtypes t').map Prod.fst = (dtypes t).map Prod.fst
  width_setitem : ∀ {t column temp t'}, column.given = true →
    setitem t column temp = .ok t' → 0 < width temp
  names_join : ∀ {t col_name temp t'}, join t col_name temp = .ok t' →
    (dtypes t').map Prod.fst = (dtypes t).map Prod.fst ++ col_name
  width_join : ∀ {t col_name temp t'}, join t col_name temp = .ok t' →
    col_name.length = width temp
  join_inj : ∀ {t col_name temp temp' t'}, join t col_name temp = .ok t' →
    join t col_name temp' = .ok t' → temp = temp'

/-- The estimators. `fit_transform` is `transform` after `fit`. -/
structure Sklearn (M X A : Type) where
  fit : M → X → Except Err M
  transform : M → X → Except Err A
  get_feature_names_out : M → Except Err (List String)

/-- What is saved of a module: an estimator, or the plain parameters that the server sent. -/
inductive Saved (M : Type) where
  | estimator (e : M)
  | params

/-- An entry of the saved list. -/
structure Entry (M : Type) where
  name : String
  saved : Saved M
  column : Column

/-- The names of the classes whose `self.module` is a dictionary. -/
def savesParams (name : String) : Bool :=
  decide (name ∈ ["PCATransformer", "OutlierHandler", "ValueReplacer", "InterpolateImputer",
    "BFImputer"])

/-- The modules that `transform` fits again. -/
def refits (name : String) : Bool :=
  contains "LabelBinarizer" name || decide (name ∈ ["OneHotEncoder", "KBinsDiscretizer"])

/-- `[column + str(i) for i in range(temp.shape[1])]`. -/
def label_columns (column : Column) (width : ℕ) : Except Err (List String) :=
  match column with
  | .name c => .ok ((List.range width).map fun i => c ++ toString i)
  | .names _ => if width = 0 then .ok [] else .error .TypeError

/-- The prefix for the columns of a module. -/
def prefixed (name : String) (col_name : List String) : List String :=
  if name = "KBinsDiscretizer" then col_name.map ("Bin_" ++ ·)
  else if name = "QuantileTransformer" then col_name.map ("Quantile_" ++ ·)
  else if name = "PowerTransformer" then col_name.map ("Power_" ++ ·)
  else col_name

/-- A client, its libraries, and what the fits with the server and the other clients give it. -/
structure Client (T X A M : Type) where
  pandas : Pandas T X A
  sklearn : Sklearn M X A
  common : Common
  selected_column : Option (List String)
  /-- `Hfit` of a class with an estimator. -/
  Hfit : Module → X → Except Err M
  /-- `_Hfit` of `PowerTransformer`, which transforms `X` as it goes. -/
  power_Hfit : Module → X → Except Err (M × A)
  /-- `fit_transform` of a class that saves parameters. -/
  params_fit_transform : Module → X → Except Err A
  /-- `n_components` of `PCATransformer`. -/
  n_components : Module → ℕ
  /-- `fit_transform` of `TargetEncoder`, of the columns and the label. -/
  target_fit_transform : Module → X → X → Except Err (M × A)
  width_power : ∀ {m x e temp}, power_Hfit m x = .ok (e, temp) → 0 < pandas.width temp

/-- The modules whose results `fit_transform` appends. -/
def appends (name : String) : Bool :=
  contains "LabelBinarizer" name || contains "Transformer" name ||
    decide (name ∈ ["OneHotEncoder", "KBinsDiscretizer"])

namespace Client

variable {T X A M : Type} (C : Client T X A M)

/-! ## Fitting -/

/-- `fit_transform` of a module. -/
def fit_transform (m : Module) (x : X) : Except Err (Saved M × A) :=
  if savesParams m.name then do
    let temp ← C.params_fit_transform m x
    return (.params, temp)
  else if m.name = "PowerTransformer" then do
    let r ← C.power_Hfit m x
    return (.estimator r.1, r.2)
  else do
    let e ← C.Hfit m x
    let temp ← C.sklearn.transform e x
    return (.estimator e, temp)

/-- `col_name` in `Pipeline.fit_transform`. -/
def fit_col_name (m : Module) (column : Column) (saved : Saved M) (temp : A) :
    Except Err (List String) :=
  if contains "LabelBinarizer" m.name then label_columns column (C.pandas.width temp)
  else if m.name = "PCATransformer" then
    .ok ((List.range (C.n_components m)).map fun i => "pc_" ++ toString (i + 1))
  else
    match saved with
    | .estimator e => (C.sklearn.get_feature_names_out e).map (prefixed m.name)
    | .params => .error .AttributeError

/-- `data[label]`. -/
def label (t : T) : Except Err X :=
  match C.common.label with
  | none => .error .KeyError
  | some l => C.pandas.getitem t (.name l)

/-- What `Pipeline.fit_transform` does with a module. -/
def fitStep (m : Module) (column : Column) (t : T) : Except Err (Saved M × T) := do
  let x ← C.pandas.getitem t column
  if appends m.name then do
    let r ← C.fit_transform m x
    let col_name ← C.fit_col_name m column r.1 r.2
    let t' ← C.pandas.join t col_name r.2
    return (r.1, t')
  else if m.name = "TargetEncoder" then do
    let y ← C.label t
    let r ← C.target_fit_transform m x y
    let t' ← C.pandas.setitem t column r.2
    return (.estimator r.1, t')
  else do
    let r ← C.fit_transform m x
    let t' ← C.pandas.setitem t column r.2
    return (r.1, t')

/-- The loop of `Pipeline.fit_transform`, with the columns for modules without `column`. -/
def fitFrom (preprocess_column : List String) :
    List Module → T → Except Err (List (Entry M) × T)
  | [], t => .ok ([], t)
  | m :: ms, t =>
      match clientSelects C.common m (C.pandas.dtypes t) preprocess_column with
      | .error e => .error e
      | .ok none => fitFrom preprocess_column ms t
      | .ok (some column) => do
          let r ← C.fitStep m column t
          let rest ← fitFrom preprocess_column ms r.2
          return ({ name := m.name, saved := r.1, column := column } :: rest.1, rest.2)

/-- `preprocess_column` of the client for the table that was read. -/
def columns (t : T) : List String :=
  (preprocess_column C.common C.selected_column
    (some ((C.pandas.dtypes t).map Prod.fst))).getD []

/-- What `Pipeline.fit_transform` saves and the table that it writes. -/
def pipeline_fit_transform (ms : List Module) (t : T) : Except Err (List (Entry M) × T) :=
  C.fitFrom (C.columns t) ms t

/-! ## Transforming -/

/-- `col_name` in `Pipeline.transform`. -/
def col_name (name : String) (column : Column) (e : M) (temp : A) : Except Err (List String) :=
  if contains "LabelBinarizer" name then label_columns column (C.pandas.width temp)
  else
    (C.sklearn.get_feature_names_out e).map fun col_name =>
      if name = "KBinsDiscretizer" then col_name.map ("Bin_" ++ ·) else col_name

/-- What `Pipeline.transform` does with a saved module. -/
def transformStep (t : T) (entry : Entry M) : Except Err T :=
  match entry.saved with
  | .params => .error .AttributeError
  | .estimator e => do
      let x ← C.pandas.getitem t entry.column
      if refits entry.name then do
        let e' ← C.sklearn.fit e x
        let temp ← C.sklearn.transform e' x
        let col_name ← C.col_name entry.name entry.column e' temp
        C.pandas.join t col_name temp
      else do
        let temp ← C.sklearn.transform e x
        C.pandas.setitem t entry.column temp

/-- `Pipeline.transform` of the saved modules. -/
def pipeline_transform (preprocess : List (Entry M)) (t : T) : Except Err T :=
  preprocess.foldlM C.transformStep t

/-- The saved modules make of the table what fitting them made of it, if they were fitted. -/
def SameOutput (ms : List Module) (t : T) : Prop :=
  ∀ preprocess out, C.pipeline_fit_transform ms t = .ok (preprocess, out) →
    C.pipeline_transform preprocess t = .ok out

/-! ## Modules that can be used again -/

/-- The estimator of the federated fit, fitted again to the client's own columns alone, gives the
same array, with the same names. -/
def RefitsSame (name : String) (x : X) (saved : Saved M) (temp : A) : Prop :=
  ∃ e e', saved = .estimator e ∧ C.sklearn.fit e x = .ok e' ∧
    C.sklearn.transform e' x = .ok temp ∧
    (contains "LabelBinarizer" name = false →
      C.sklearn.get_feature_names_out e' = C.sklearn.get_feature_names_out e)

/-- A module with an estimator, which is not one of the transformers; where it is fitted again, the
fit on the own columns has to do what the federated one did. -/
def Reuses (m : Module) (column : Column) (t : T) : Prop :=
  if refits m.name then
    ∀ x saved temp, C.pandas.getitem t column = .ok x →
      C.fit_transform m x = .ok (saved, temp) → C.RefitsSame m.name x saved temp
  else if contains "Transformer" m.name then False
  else if m.name = "TargetEncoder" then
    ∀ x y e temp, C.pandas.getitem t column = .ok x → C.label t = .ok y →
      C.target_fit_transform m x y = .ok (e, temp) →
        ∃ temp', C.sklearn.transform e x = .ok temp' ∧
          C.pandas.setitem t column temp' = C.pandas.setitem t column temp
  else savesParams m.name = false

/-- All modules that are fitted, each on its table. -/
def ReusesFrom (preprocess_column : List String) : List Module → T → Prop
  | [], _ => True
  | m :: ms, t =>
      match clientSelects C.common m (C.pandas.dtypes t) preprocess_column with
      | .error _ => True
      | .ok none => ReusesFrom preprocess_column ms t
      | .ok (some column) =>
          match C.fitStep m column t with
          | .error _ => True
          | .ok r => C.Reuses m column t ∧ ReusesFrom preprocess_column ms r.2

def ReusesAll (ms : List Module) (t : T) : Prop := C.ReusesFrom (C.columns t) ms t

end Client

/-! ## One module -/

section Names

theorem appends_of_refits {name : String} (h : refits name = true) : appends name = true := by
  rw [refits, Bool.or_eq_true] at h
  rcases h with h | h
  · simp [appends, h]
  · simp only [appends, h, Bool.or_true]

theorem prefixed_injective (name : String) : Function.Injective (prefixed name) := by
  have hmap : ∀ s : String, Function.Injective (List.map (s ++ ·)) := by
    intro s
    exact List.map_injective_iff.mpr fun a b hab => by simpa using hab
  intro l l' h
  unfold prefixed at h
  split_ifs at h
  · exact hmap _ h
  · exact hmap _ h
  · exact hmap _ h
  · exact h

theorem given_of_clientSelects {P : Common} {m : Module} {t : Dtypes} {cs : List String}
    {column : Column} (h : clientSelects P m t cs = .ok (some column)) :
    column.given = true := by
  obtain ⟨_, _, h⟩ := Fallible.bind_eq_ok.mp h
  obtain ⟨column', _, h⟩ := Fallible.bind_eq_ok.mp h
  unfold select_module at h
  split_ifs at h with hgiven
  · cases h
    exact hgiven
  · cases h

end Names

namespace Client

variable {T X A M : Type} {C : Client T X A M} {m : Module} {column : Column} {t t' : T}
  {saved : Saved M}

/-- An estimator transforms `x` as it is saved, but for `PowerTransformer`. -/
theorem transform_of_fit_transform {x : X} {temp : A} (hm : savesParams m.name = false)
    (hpower : m.name ≠ "PowerTransformer") (h : C.fit_transform m x = .ok (saved, temp)) :
    ∃ e, saved = .estimator e ∧ C.sklearn.transform e x = .ok temp := by
  rw [fit_transform, if_neg (by simp [hm]), if_neg hpower] at h
  obtain ⟨e, _, h⟩ := Fallible.bind_eq_ok.mp h
  obtain ⟨temp', htemp, h⟩ := Fallible.bind_eq_ok.mp h
  cases h
  exact ⟨e, rfl, htemp⟩

theorem saved_of_savesParams {x : X} {temp : A} (hm : savesParams m.name = true)
    (h : C.fit_transform m x = .ok (saved, temp)) : saved = .params := by
  rw [fit_transform, if_pos hm] at h
  obtain ⟨_, _, h⟩ := Fallible.bind_eq_ok.mp h
  cases h
  rfl

/-- A module that appends its columns. -/
theorem fitStep_of_appends (hm : appends m.name = true)
    (h : C.fitStep m column t = .ok (saved, t')) :
    ∃ x temp col_name, C.pandas.getitem t column = .ok x ∧
      C.fit_transform m x = .ok (saved, temp) ∧
      C.fit_col_name m column saved temp = .ok col_name ∧
      C.pandas.join t col_name temp = .ok t' := by
  obtain ⟨x, hx, h⟩ := Fallible.bind_eq_ok.mp h
  rw [if_pos hm] at h
  obtain ⟨⟨saved', temp⟩, hr, h⟩ := Fallible.bind_eq_ok.mp h
  obtain ⟨col_name, hcol, h⟩ := Fallible.bind_eq_ok.mp h
  obtain ⟨t'', hjoin, h⟩ := Fallible.bind_eq_ok.mp h
  cases h
  exact ⟨x, temp, col_name, hx, hr, hcol, hjoin⟩

/-- A saved estimator that is fitted again. -/
theorem transformStep_of_refits {name : String} {e : M} (hm : refits name = true) :
    C.transformStep t { name := name, saved := .estimator e, column := column } = .ok t' ↔
      ∃ x e' temp col_name, C.pandas.getitem t column = .ok x ∧
        C.sklearn.fit e x = .ok e' ∧ C.sklearn.transform e' x = .ok temp ∧
        C.col_name name column e' temp = .ok col_name ∧
        C.pandas.join t col_name temp = .ok t' := by
  simp only [transformStep, if_pos hm, Fallible.bind_eq_ok]
  constructor
  · rintro ⟨x, hx, e', he', temp, htemp, col_name, hcol, hjoin⟩
    exact ⟨x, e', temp, col_name, hx, he', htemp, hcol, hjoin⟩
  · rintro ⟨x, e', temp, col_name, hx, he', htemp, hcol, hjoin⟩
    exact ⟨x, hx, e', he', temp, htemp, col_name, hcol, hjoin⟩

theorem transformStep_of_not_refits {name : String} {e : M} (hm : refits name = false) :
    C.transformStep t { name := name, saved := .estimator e, column := column } = .ok t' ↔
      ∃ x temp, C.pandas.getitem t column = .ok x ∧ C.sklearn.transform e x = .ok temp ∧
        C.pandas.setitem t column temp = .ok t' := by
  simp only [transformStep, hm, Bool.false_eq_true, if_false, Fallible.bind_eq_ok]
  constructor
  · rintro ⟨x, hx, temp, htemp, hset⟩
    exact ⟨x, temp, hx, htemp, hset⟩
  · rintro ⟨x, temp, hx, htemp, hset⟩
    exact ⟨x, hx, temp, htemp, hset⟩

/-- The names of both runs come from the estimators in the same way. -/
theorem col_name_eq (hm : refits m.name = true) (hlabel : contains "LabelBinarizer" m.name = false)
    (column : Column) (e : M) (temp : A) :
    C.fit_col_name m column (.estimator e) temp =
        (C.sklearn.get_feature_names_out e).map (prefixed m.name) ∧
      C.col_name m.name column e temp =
        (C.sklearn.get_feature_names_out e).map (prefixed m.name) := by
  rw [refits, hlabel, Bool.false_or, decide_eq_true_eq, List.mem_pair] at hm
  have hpca : m.name ≠ "PCATransformer" := by
    rcases hm with hm | hm <;> simp [hm]
  have hprefixed : prefixed m.name = fun col_name =>
      if m.name = "KBinsDiscretizer" then col_name.map ("Bin_" ++ ·) else col_name := by
    funext col_name
    rcases hm with hm | hm <;> simp [prefixed, hm]
  rw [fit_col_name, col_name, hlabel, hprefixed]
  simp [hpca]

/-- The step of a saved module does what its fit did. -/
abbrev SameStep (C : Client T X A M) (m : Module) (column : Column) (saved : Saved M)
    (t t' : T) : Prop :=
  C.transformStep t { name := m.name, saved := saved, column := column } = .ok t'

/-- Nothing can be done with saved parameters. -/
theorem not_sameStep_params : ¬ SameStep C m column .params t t' := by
  intro h
  cases h

/-- Of two joins with one result, the arrays and the names are the same. -/
theorem join_unique {col_name col_name' : List String} {temp temp' : A}
    (h : C.pandas.join t col_name temp = .ok t') (h' : C.pandas.join t col_name' temp' = .ok t') :
    col_name = col_name' ∧ temp = temp' := by
  have hnames : col_name = col_name' :=
    List.append_cancel_left ((C.pandas.names_join h).symm.trans (C.pandas.names_join h'))
  subst hnames
  exact ⟨rfl, C.pandas.join_inj h h'⟩

theorem sameStep_iff_of_refits (hm : refits m.name = true)
    (h : C.fitStep m column t = .ok (saved, t')) :
    SameStep C m column saved t t' ↔ C.Reuses m column t := by
  obtain ⟨x, temp, col_name, hx, hfit, hcol, hjoin⟩ :=
    fitStep_of_appends (appends_of_refits hm) h
  have hreuses : C.Reuses m column t ↔ C.RefitsSame m.name x saved temp := by
    rw [Reuses, if_pos hm]
    constructor
    · exact fun hall => hall x saved temp hx hfit
    · intro hsame x' saved' temp' hx' hfit'
      obtain rfl : x = x' := Except.ok.inj (hx.symm.trans hx')
      obtain ⟨rfl, rfl⟩ := Prod.mk.inj (Except.ok.inj (hfit.symm.trans hfit'))
      exact hsame
  rw [hreuses]
  cases saved with
  | params =>
      refine iff_of_false not_sameStep_params ?_
      rintro ⟨e, _, he, _⟩
      cases he
  | estimator e =>
      rw [SameStep, transformStep_of_refits hm]
      constructor
      · rintro ⟨x', e', temp', col_name', hx', he', htemp', hcol', hjoin'⟩
        obtain rfl : x = x' := Except.ok.inj (hx.symm.trans hx')
        obtain ⟨rfl, rfl⟩ := join_unique hjoin hjoin'
        refine ⟨e, e', rfl, he', htemp', fun hlabel => ?_⟩
        have hmap : (C.sklearn.get_feature_names_out e').map (prefixed m.name) =
            (C.sklearn.get_feature_names_out e).map (prefixed m.name) := by
          rw [← (col_name_eq hm hlabel column e' temp).2,
            ← (col_name_eq hm hlabel column e temp).1, hcol', hcol]
        exact Fallible.map_injective (prefixed_injective m.name) hmap
      · rintro ⟨e₁, e', he₁, he', htemp', hnames⟩
        cases he₁
        refine ⟨x, e', temp, col_name, hx, he', htemp', ?_, hjoin⟩
        cases hlabel : contains "LabelBinarizer" m.name with
        | true => simpa [Client.col_name, fit_col_name, hlabel] using hcol
        | false =>
            rw [(col_name_eq hm hlabel column e' temp).2, hnames hlabel,
              ← (col_name_eq hm hlabel column e temp).1, hcol]

/-- The results of a transformer are appended, and `transform` appends none. -/
theorem not_sameStep_of_transformer (hc : column.given = true) (hm : refits m.name = false)
    (htransformer : contains "Transformer" m.name = true)
    (h : C.fitStep m column t = .ok (saved, t')) : ¬ SameStep C m column saved t t' := by
  have happends : appends m.name = true := by simp [appends, htransformer]
  obtain ⟨x, temp, col_name, hx, hfit, _, hjoin⟩ := fitStep_of_appends happends h
  cases saved with
  | params => exact not_sameStep_params
  | estimator e =>
      rw [SameStep, transformStep_of_not_refits hm]
      rintro ⟨x', temp', hx', htemp', hset⟩
      obtain rfl : x = x' := Except.ok.inj (hx.symm.trans hx')
      -- the tables have the same columns, so nothing was appended
      have hnil : col_name = [] := by
        have hnames := (C.pandas.names_join hjoin).symm.trans (C.pandas.names_setitem hx hset)
        simpa using hnames
      have hzero : C.pandas.width temp = 0 := by
        rw [← C.pandas.width_join hjoin, hnil]
        rfl
      have hparams : savesParams m.name = false := by
        by_contra hparams
        cases saved_of_savesParams (Bool.not_eq_false _ ▸ hparams) hfit
      by_cases hpower : m.name = "PowerTransformer"
      · rw [fit_transform, if_neg (by simp [hparams]), if_pos hpower] at hfit
        obtain ⟨r, hr, hfit⟩ := Fallible.bind_eq_ok.mp hfit
        cases hfit
        have hpos := C.width_power hr
        omega
      · obtain ⟨e₁, he₁, htemp⟩ := transform_of_fit_transform hparams hpower hfit
        cases he₁
        obtain rfl : temp = temp' := Except.ok.inj (htemp.symm.trans htemp')
        have hpos := C.pandas.width_setitem hc hset
        omega

theorem sameStep_iff_of_target (hm : refits m.name = false) (happends : appends m.name = false)
    (htarget : m.name = "TargetEncoder") (h : C.fitStep m column t = .ok (saved, t')) :
    SameStep C m column saved t t' ↔
      ∀ x y e temp, C.pandas.getitem t column = .ok x → C.label t = .ok y →
        C.target_fit_transform m x y = .ok (e, temp) →
          ∃ temp', C.sklearn.transform e x = .ok temp' ∧
            C.pandas.setitem t column temp' = C.pandas.setitem t column temp := by
  obtain ⟨x, hx, h⟩ := Fallible.bind_eq_ok.mp h
  rw [if_neg (by simp [happends]), if_pos htarget] at h
  obtain ⟨y, hy, h⟩ := Fallible.bind_eq_ok.mp h
  obtain ⟨⟨e, temp⟩, hr, h⟩ := Fallible.bind_eq_ok.mp h
  obtain ⟨t'', hset, h⟩ := Fallible.bind_eq_ok.mp h
  cases h
  rw [SameStep, transformStep_of_not_refits hm]
  constructor
  · rintro ⟨x', temp', hx', htemp', hset'⟩ x₁ y₁ e₁ temp₁ hx₁ hy₁ hr₁
    obtain rfl : x = x' := Except.ok.inj (hx.symm.trans hx')
    obtain rfl : x = x₁ := Except.ok.inj (hx.symm.trans hx₁)
    obtain rfl : y = y₁ := Except.ok.inj (hy.symm.trans hy₁)
    obtain ⟨rfl, rfl⟩ := Prod.mk.inj (Except.ok.inj (hr.symm.trans hr₁))
    exact ⟨temp', htemp', hset'.trans hset.symm⟩
  · intro hall
    obtain ⟨temp', htemp', hset'⟩ := hall x y e temp hx hy hr
    exact ⟨x, temp', hx, htemp', hset'.trans hset⟩

theorem sameStep_iff_of_overwrites (hm : refits m.name = false) (happends : appends m.name = false)
    (htarget : m.name ≠ "TargetEncoder") (h : C.fitStep m column t = .ok (saved, t')) :
    SameStep C m column saved t t' ↔ savesParams m.name = false := by
  obtain ⟨x, hx, h⟩ := Fallible.bind_eq_ok.mp h
  rw [if_neg (by simp [happends]), if_neg htarget] at h
  obtain ⟨⟨saved', temp⟩, hfit, h⟩ := Fallible.bind_eq_ok.mp h
  obtain ⟨t'', hset, h⟩ := Fallible.bind_eq_ok.mp h
  cases h
  cases hparams : savesParams m.name with
  | true =>
      obtain rfl := saved_of_savesParams hparams hfit
      exact iff_of_false not_sameStep_params (by simp)
  | false =>
      have hpower : m.name ≠ "PowerTransformer" := by
        intro hpower
        rw [hpower] at happends
        revert happends
        decide +kernel
      obtain ⟨e, rfl, htemp⟩ := transform_of_fit_transform hparams hpower hfit
      refine iff_of_true ?_ rfl
      rw [SameStep, transformStep_of_not_refits hm]
      exact ⟨x, temp, hx, htemp, hset⟩

/-- **A saved module on the table it was fitted on.** -/
theorem sameStep_iff (hc : column.given = true) (h : C.fitStep m column t = .ok (saved, t')) :
    SameStep C m column saved t t' ↔ C.Reuses m column t := by
  cases hm : refits m.name with
  | true => exact sameStep_iff_of_refits hm h
  | false =>
      rw [Reuses, if_neg (by simp [hm])]
      cases htransformer : contains "Transformer" m.name with
      | true =>
          rw [if_pos rfl, iff_false]
          exact not_sameStep_of_transformer hc hm htransformer h
      | false =>
          have happends : appends m.name = false := by
            rw [refits, Bool.or_eq_false_iff] at hm
            rw [appends, hm.1, htransformer, hm.2]
            rfl
          rw [if_neg (by simp)]
          by_cases htarget : m.name = "TargetEncoder"
          · rw [if_pos htarget]
            exact sameStep_iff_of_target hm happends htarget h
          · rw [if_neg htarget]
            exact sameStep_iff_of_overwrites hm happends htarget h

/-! ## All modules -/

/-- The saved modules on the table, from a module on. -/
def SameFrom (C : Client T X A M) (cs : List String) (ms : List Module) (t : T) : Prop :=
  ∀ preprocess out, C.fitFrom cs ms t = .ok (preprocess, out) →
    C.pipeline_transform preprocess t = .ok out

variable {cs : List String} {ms : List Module}

theorem fitFrom_of_error {e : Err}
    (h : clientSelects C.common m (C.pandas.dtypes t) cs = .error e) :
    C.fitFrom cs (m :: ms) t = .error e := by
  simp only [fitFrom, h]

theorem fitFrom_of_skip (h : clientSelects C.common m (C.pandas.dtypes t) cs = .ok none) :
    C.fitFrom cs (m :: ms) t = C.fitFrom cs ms t := by
  simp only [fitFrom, h]

theorem fitFrom_eq_ok_of_fit (h : clientSelects C.common m (C.pandas.dtypes t) cs = .ok (some column))
    {preprocess : List (Entry M)} {out : T} :
    C.fitFrom cs (m :: ms) t = .ok (preprocess, out) ↔
      ∃ saved t' rest, C.fitStep m column t = .ok (saved, t') ∧
        C.fitFrom cs ms t' = .ok (rest, out) ∧
        preprocess = { name := m.name, saved := saved, column := column } :: rest := by
  simp only [fitFrom, h, Fallible.bind_eq_ok]
  constructor
  · rintro ⟨⟨saved, t'⟩, hstep, ⟨rest, out'⟩, hrest, hend⟩
    cases hend
    exact ⟨saved, t', rest, hstep, hrest, rfl⟩
  · rintro ⟨saved, t', rest, hstep, hrest, rfl⟩
    exact ⟨(saved, t'), hstep, (rest, out), hrest, rfl⟩

/-- One more module in front. -/
theorem sameFrom_cons_of_fit
    (h : clientSelects C.common m (C.pandas.dtypes t) cs = .ok (some column))
    (hstep : C.fitStep m column t = .ok (saved, t')) (hsame : SameStep C m column saved t t') :
    SameFrom C cs (m :: ms) t ↔ SameFrom C cs ms t' := by
  have hcons : ∀ rest, C.pipeline_transform
      ({ name := m.name, saved := saved, column := column } :: rest) t =
        C.pipeline_transform rest t' :=
    fun rest => Fallible.foldlM_cons_of_ok hsame
  constructor
  · intro hall rest out hrest
    rw [← hcons]
    exact hall _ out ((fitFrom_eq_ok_of_fit h).mpr ⟨saved, t', rest, hstep, hrest, rfl⟩)
  · intro hall preprocess out hfit
    obtain ⟨saved₁, t₁, rest, hstep₁, hrest, rfl⟩ := (fitFrom_eq_ok_of_fit h).mp hfit
    obtain ⟨rfl, rfl⟩ := Prod.mk.inj (Except.ok.inj (hstep.symm.trans hstep₁))
    rw [hcons]
    exact hall rest out hrest

theorem sameFrom_of_failure (h : ∀ r, C.fitFrom cs ms t ≠ .ok r) : SameFrom C cs ms t :=
  fun _ _ hfit => absurd hfit (h _)

/-- **After any number of the modules** the tables are the same exactly when each module that was
fitted can be used again. -/
theorem sameFrom_take_iff : (∀ k, SameFrom C cs (ms.take k) t) ↔ C.ReusesFrom cs ms t := by
  induction ms generalizing t with
  | nil =>
      refine iff_of_true (fun k preprocess out hfit => ?_) trivial
      rw [List.take_nil] at hfit
      cases hfit
      rfl
  | cons m ms ih =>
      have hzero : SameFrom C cs [] t := by
        intro preprocess out hfit
        cases hfit
        rfl
      have htake : (∀ k, SameFrom C cs ((m :: ms).take k) t) ↔
          ∀ k, SameFrom C cs (m :: ms.take k) t := by
        refine ⟨fun hall k => hall (k + 1), fun hall k => ?_⟩
        cases k with
        | zero => exact hzero
        | succ k => exact hall k
      rw [htake]
      cases hselects : clientSelects C.common m (C.pandas.dtypes t) cs with
      | error e =>
          refine iff_of_true (fun k => sameFrom_of_failure fun r hfit => ?_) ?_
          · rw [fitFrom_of_error hselects] at hfit
            cases hfit
          · simp only [ReusesFrom, hselects]
      | ok selected =>
          cases selected with
          | none =>
              have hskip : ∀ k, SameFrom C cs (m :: ms.take k) t ↔ SameFrom C cs (ms.take k) t :=
                fun k => by rw [SameFrom, fitFrom_of_skip hselects, SameFrom]
              simp only [ReusesFrom, hselects, hskip]
              exact ih
          | some column =>
              cases hstep : C.fitStep m column t with
              | error e =>
                  refine iff_of_true (fun k => sameFrom_of_failure fun r hfit => ?_) ?_
                  · obtain ⟨_, _, _, hstep', _⟩ := (fitFrom_eq_ok_of_fit hselects).mp hfit
                    rw [hstep] at hstep'
                    cases hstep'
                  · simp only [ReusesFrom, hselects, hstep]
              | ok r =>
                  obtain ⟨saved, t'⟩ := r
                  have hgiven := given_of_clientSelects hselects
                  simp only [ReusesFrom, hselects, hstep, ← sameStep_iff hgiven hstep, ← ih]
                  constructor
                  · intro hall
                    have hsame : SameStep C m column saved t t' := by
                      have hfirst := hall 0 _ t'
                        ((fitFrom_eq_ok_of_fit hselects).mpr ⟨saved, t', [], hstep, rfl, rfl⟩)
                      obtain ⟨t₁, ht₁, hrest⟩ := Fallible.foldlM_cons_eq_ok.mp hfirst
                      cases hrest
                      exact ht₁
                    exact ⟨hsame, fun k =>
                      (sameFrom_cons_of_fit hselects hstep hsame).mp (hall k)⟩
                  · rintro ⟨hsame, hall⟩ k
                    exact (sameFrom_cons_of_fit hselects hstep hsame).mpr (hall k)

/-- **The saved modules, and each initial part of them, make of the table what fitting made of it
exactly when** every module that was fitted can be used again. -/
theorem sameOutput_take_iff (ms : List Module) (t : T) :
    (∀ k, C.SameOutput (ms.take k) t) ↔ C.ReusesAll ms t :=
  sameFrom_take_iff

end Client

/-! ## A table of floats -/

section Example

/-- Tables of numbers, whose columns are lists. -/
def numbers : Pandas (List (String × List ℚ)) (List (List ℚ)) (List (List ℚ)) where
  dtypes t := t.map fun c => (c.1, .float)
  getitem t column := column.toList.mapM fun n =>
    match t.lookup n with
    | none => .error .KeyError
    | some c => .ok c
  setitem t column temp :=
    if temp.length = column.toList.length then
      .ok (t.map fun c => (c.1, ((column.toList.zip temp).lookup c.1).getD c.2))
    else .error .ValueError
  join t col_name temp :=
    if (∃ n ∈ col_name, n ∈ t.map Prod.fst) ∨ col_name.length ≠ temp.length then
      .error .ValueError
    else .ok (t ++ col_name.zip temp)
  width := List.length
  names_setitem := by
    intro t column x temp t' _ h
    split_ifs at h
    cases h
    simp
  width_setitem := by
    intro t column temp t' hc h
    split_ifs at h with hlength
    rw [hlength]
    cases column with
    | name c => simp [Column.toList]
    | names cs => exact List.length_pos_iff.mpr (given_names.mp hc)
  names_join := by
    intro t col_name temp t' h
    split_ifs at h with hbad
    cases h
    rw [not_or, not_not] at hbad
    simp [List.map_fst_zip hbad.2.le, Function.comp_def]
  width_join := by
    intro t col_name temp t' h
    split_ifs at h with hbad
    rw [not_or, not_not] at hbad
    exact hbad.2
  join_inj := by
    intro t col_name temp temp' t' h h'
    split_ifs at h h' with hbad hbad'
    cases h
    rw [not_or, not_not] at hbad hbad'
    have hzip := List.append_cancel_left (Except.ok.inj h')
    have hsnd := congrArg (List.map Prod.snd) hzip
    rwa [List.map_snd_zip hbad'.2.ge, List.map_snd_zip hbad.2.ge, eq_comm] at hsnd

/-- A client with the values 0 and 1, on which a quantile transformer is the identity. Its fit
keeps the names of the columns. -/
def quantileClient : Client (List (String × List ℚ)) (List (List ℚ)) (List (List ℚ))
    (List String) where
  pandas := numbers
  sklearn := { fit := fun e _ => .ok e, transform := fun _ x => .ok x, get_feature_names_out := .ok }
  common :=
    { task := "classification", id := none, label := none
      selected_column := none, preprocess_column := none }
  selected_column := none
  Hfit := fun _ _ => .ok ["x"]
  power_Hfit := fun _ _ => .error .ValueError
  params_fit_transform := fun _ _ => .error .ValueError
  n_components := fun _ => 2
  target_fit_transform := fun _ _ _ => .error .ValueError
  width_power := by
    intro m x e temp h
    cases h

/-- Fitting the transformer adds a column, and the saved one puts its results in the place of the
old column. -/
theorem quantileClient_not_sameOutput : ¬ quantileClient.SameOutput
    [{ name := "QuantileTransformer", column := none }] [("x", [0, 1])] := by
  intro h
  have hfit : quantileClient.pipeline_fit_transform
      [{ name := "QuantileTransformer", column := none }] [("x", [0, 1])] =
        .ok ([{ name := "QuantileTransformer", saved := .estimator ["x"], column := .names ["x"] }],
          [("x", [0, 1]), ("Quantile_x", [0, 1])]) := by
    rfl
  have hout := h _ _ hfit
  have htransform : quantileClient.pipeline_transform
      [{ name := "QuantileTransformer", saved := .estimator ["x"], column := .names ["x"] }]
      [("x", [0, 1])] = .ok [("x", [0, 1])] := by
    rfl
  rw [htransform] at hout
  have hlength := congrArg List.length (Except.ok.inj hout)
  simp at hlength

end Example

end Fediux.Preprocessing
