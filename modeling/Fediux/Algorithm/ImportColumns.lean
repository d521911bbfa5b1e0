import Fediux.Algorithm.Arithmetic

set_option autoImplicit false

/-! # Imports into `FeedDict` that fail

`importColumnValues` with all that a call changes: the dictionary, also where the call returns a
code or raises, and the vector of the caller, which is moved into the dictionary. A column is
added or nothing is changed, except where doubles are imported first in a run on integers: the
call fails, but it has set the count of values (`import_iff`).
-/

namespace Fediux.Arithmetic

open OrderedMap (Entries find? emplace find?_emplace)
open Express

/-- The vector of a call. -/
inductive Values (F : Type) where
  | int64 (int64Vec : List I64)
  | double (fp64Vec : List F)
  deriving DecidableEq, Repr

/-- What a call leaves. -/
structure Imported (F : Type) where
  ret : Except Fault Int
  feedDict : FeedDict F
  values : Values F

variable {F : Type} (toDouble : I64 → F)

namespace FeedDict

/-- `importColumnValues` for doubles. -/
def importDoubleVec (d : FeedDict F) (colName : Str) (fp64Vec : List F) : Imported F :=
  match d.colConfig.getColumnLocality colName with
  | .error e => ⟨.error e, d, .double fp64Vec⟩
  | .ok isLocal =>
      if isLocal = false then ⟨.ok (-1), d, .double fp64Vec⟩
      else
        let r := d.setOrCheckValueCount fp64Vec.length
        if r.1 ≠ 0 then ⟨.ok (-2), r.2, .double fp64Vec⟩
        else if r.2.floatRun = false then ⟨.ok (-1), r.2, .double fp64Vec⟩
        else if (find? r.2.fp64Col colName).isSome then ⟨.ok (-2), r.2, .double fp64Vec⟩
        else ⟨.ok 0, { r.2 with fp64Col := emplace r.2.fp64Col colName fp64Vec }, .double []⟩

/-- `importColumnValues` for integers. The vector of the nested call is moved into the dictionary,
so the second `insert` behind it has no effect. -/
def importInt64Vec (d : FeedDict F) (colName : Str) (int64Vec : List I64) : Imported F :=
  match d.colConfig.getColumnLocality colName with
  | .error e => ⟨.error e, d, .int64 int64Vec⟩
  | .ok isLocal =>
      if isLocal = false then ⟨.ok (-1), d, .int64 int64Vec⟩
      else
        match d.colConfig.getColumnDtype colName with
        | .error e => ⟨.error e, d, .int64 int64Vec⟩
        | .ok (_, dtype) =>
            if dtype ≠ .INT64 then ⟨.ok (-2), d, .int64 int64Vec⟩
            else
              let r := d.setOrCheckValueCount int64Vec.length
              if r.1 ≠ 0 then ⟨.ok (-2), r.2, .int64 int64Vec⟩
              else if r.2.floatRun = true then
                let s := r.2.importDoubleVec colName (int64Vec.map toDouble)
                match s.ret with
                | .error e => ⟨.error e, s.feedDict, .int64 int64Vec⟩
                | .ok ret =>
                    if ret ≠ 0 then ⟨.ok (-3), s.feedDict, .int64 int64Vec⟩
                    else
                      let fp64Vec := match s.values with
                        | .double fp64Vec => fp64Vec
                        | .int64 _ => []
                      ⟨.ok 0, { s.feedDict with
                        fp64Col := emplace s.feedDict.fp64Col colName fp64Vec }, .int64 []⟩
              else if (find? r.2.int64Col colName).isSome then
                ⟨.ok (-4), r.2, .int64 int64Vec⟩
              else
                ⟨.ok 0, { r.2 with int64Col := emplace r.2.int64Col colName int64Vec }, .int64 []⟩

def importColumnValues (d : FeedDict F) (colName : Str) : Values F → Imported F
  | .int64 int64Vec => d.importInt64Vec toDouble colName int64Vec
  | .double fp64Vec => d.importDoubleVec colName fp64Vec

/-! ## What a call should do -/

/-- The two value maps at a column. -/
def held (d : FeedDict F) (colName : Str) : Option (List I64) × Option (List F) :=
  (find? d.int64Col colName, find? d.fp64Col colName)

/-- The values in the representation of the run mode. -/
def entry (floatRun : Bool) : Values F → Option (List I64) × Option (List F)
  | .int64 int64Vec =>
      if floatRun then (none, some (int64Vec.map toDouble)) else (some int64Vec, none)
  | .double fp64Vec => (none, some fp64Vec)

/-- The column is there in addition to what was held. -/
structure Adds (d : FeedDict F) (colName : Str) (values : Values F) (d' : FeedDict F) : Prop where
  colConfig : d'.colConfig = d.colConfig
  floatRun : d'.floatRun = d.floatRun
  fresh : d.held colName = (none, none)
  held : ∀ name, d'.held name =
    if name = colName then entry toDouble d.floatRun values else d.held name

/-- A call adds its column, or fails and changes nothing. -/
def Atomic (d : FeedDict F) (colName : Str) (values : Values F) : Prop :=
  let r := d.importColumnValues toDouble colName values
  (r.ret = .ok 0 ∧ Adds toDouble d colName values r.feedDict) ∨
    (r.ret ≠ .ok 0 ∧ r.feedDict = d ∧ r.values = values)

/-- All columns have the common count of values. -/
def Uniform (d : FeedDict F) : Prop :=
  (∀ name xs, find? d.int64Col name = some xs → (xs.length : Int) = d.valCount) ∧
    ∀ name xs, find? d.fp64Col name = some xs → (xs.length : Int) = d.valCount

/-- A sequence of calls; the vectors are the callers' own. -/
def imports (d : FeedDict F) (calls : List (Str × Values F)) : FeedDict F :=
  calls.foldl (fun d call => (d.importColumnValues toDouble call.1 call.2).feedDict) d

/-- The call sets the count before it fails. -/
def FixesCount (d : FeedDict F) (colName : Str) (values : Values F) : Prop :=
  d.floatRun = false ∧ d.valCount = -1 ∧ find? d.colConfig.localCol colName = some true ∧
    ∃ fp64Vec, values = .double fp64Vec

/-! ## What a call does -/

/-- What holds of every dictionary between two calls: only the map of the run mode is used. -/
structure Valid (d : FeedDict F) : Prop where
  uniform : Uniform d
  int64Col : d.floatRun = true → d.int64Col = []
  fp64Col : d.floatRun = false → d.fp64Col = []

theorem Valid.new (c : ColumnConfig) (floatRun : Bool) : Valid (.new c floatRun : FeedDict F) where
  uniform := by
    constructor
    · intro name xs h
      cases h
    · intro name xs h
      cases h
  int64Col _ := rfl
  fp64Col _ := rfl

theorem find?_int64Col_of_new_count {d : FeedDict F} (h : Uniform d) (hcount : d.valCount = -1)
    (colName : Str) : find? d.int64Col colName = none := by
  cases hfind : find? d.int64Col colName with
  | none => rfl
  | some xs =>
      have hlen := h.1 colName xs hfind
      omega

theorem find?_fp64Col_of_new_count {d : FeedDict F} (h : Uniform d) (hcount : d.valCount = -1)
    (colName : Str) : find? d.fp64Col colName = none := by
  cases hfind : find? d.fp64Col colName with
  | none => rfl
  | some xs =>
      have hlen := h.2 colName xs hfind
      omega

/-- The count is that of the new vector, or the dictionary is as it was. -/
theorem setOrCheckValueCount_cases (d : FeedDict F) (n : ℕ) :
    (d.setOrCheckValueCount n = (0, { d with valCount := n }) ∧
        (d.valCount = -1 ∨ d.valCount = n)) ∨
      d.setOrCheckValueCount n = (-1, d) := by
  by_cases hcount : d.valCount = -1 ∨ d.valCount = n
  · have hready : Ready d.colConfig d.floatRun n d := ⟨rfl, rfl, hcount⟩
    exact Or.inl ⟨setOrCheckValueCount_ready hready, hcount⟩
  · rw [not_or] at hcount
    right
    rw [setOrCheckValueCount, if_neg hcount.1, if_pos hcount.2]

theorem with_valCount {d : FeedDict F} {n : ℕ} (h : d.valCount = n) :
    { d with valCount := (n : Int) } = d := by
  obtain ⟨_, _, _, _, _⟩ := d
  cases h
  rfl

/-- The three effects of a call. -/
inductive Effect (d : FeedDict F) (colName : Str) (values : Values F) (r : Imported F) : Prop where
  | fails (ret : r.ret ≠ .ok 0) (feedDict : r.feedDict = d) (values : r.values = values)
  | fixesCount (n : ℕ) (ret : r.ret ≠ .ok 0) (feedDict : r.feedDict = { d with valCount := n })
      (fixes : d.FixesCount colName values)
  | addsInt64 (int64Vec : List I64) (ret : r.ret = .ok 0)
      (feedDict : r.feedDict = { d with
        valCount := int64Vec.length, int64Col := emplace d.int64Col colName int64Vec })
      (mode : d.floatRun = false) (fresh : find? d.int64Col colName = none)
      (count : d.valCount = -1 ∨ d.valCount = int64Vec.length)
      (entry : entry toDouble false values = (some int64Vec, none))
  | addsDouble (fp64Vec : List F) (ret : r.ret = .ok 0)
      (feedDict : r.feedDict = { d with
        valCount := fp64Vec.length, fp64Col := emplace d.fp64Col colName fp64Vec })
      (mode : d.floatRun = true) (fresh : find? d.fp64Col colName = none)
      (count : d.valCount = -1 ∨ d.valCount = fp64Vec.length)
      (entry : entry toDouble true values = (none, some fp64Vec))

theorem getColumnLocality_ok {c : ColumnConfig} {colName : Str} {isLocal : Bool}
    (h : c.getColumnLocality colName = .ok isLocal) : find? c.localCol colName = some isLocal := by
  rw [ColumnConfig.getColumnLocality] at h
  split at h
  · cases h
  · cases h
    assumption

/-- Doubles of as many rows as there should be, in a run on doubles. -/
theorem importDoubleVec_of_count {d : FeedDict F} {colName : Str} {fp64Vec : List F}
    (hlocal : d.colConfig.getColumnLocality colName = .ok true) (hmode : d.floatRun = true)
    (hset : d.setOrCheckValueCount fp64Vec.length = (0, { d with valCount := fp64Vec.length })) :
    d.importDoubleVec colName fp64Vec =
      if (find? d.fp64Col colName).isSome then
        ⟨.ok (-2), { d with valCount := fp64Vec.length }, .double fp64Vec⟩
      else
        ⟨.ok 0, { d with valCount := fp64Vec.length,
                         fp64Col := emplace d.fp64Col colName fp64Vec }, .double []⟩ := by
  rw [importDoubleVec, hlocal]
  simp only [hset, hmode]
  rfl

theorem effect_importDoubleVec {d : FeedDict F} (hd : Valid d) (colName : Str)
    (fp64Vec : List F) :
    Effect toDouble d colName (.double fp64Vec) (d.importDoubleVec colName fp64Vec) := by
  cases hlocal : d.colConfig.getColumnLocality colName with
  | error e =>
      rw [importDoubleVec, hlocal]
      exact .fails (by simp) rfl rfl
  | ok isLocal =>
      cases isLocal with
      | false =>
          rw [importDoubleVec, hlocal]
          exact .fails (by simp) rfl rfl
      | true =>
          rcases setOrCheckValueCount_cases d fp64Vec.length with ⟨hset, hcount⟩ | hset
          · cases hmode : d.floatRun with
            | false =>
                have hresult : d.importDoubleVec colName fp64Vec =
                    ⟨.ok (-1), { d with valCount := fp64Vec.length }, .double fp64Vec⟩ := by
                  rw [importDoubleVec, hlocal]
                  simp only [hset, hmode]
                  rfl
                rw [hresult]
                rcases hcount with hnew | hsame
                · exact .fixesCount fp64Vec.length (by simp) rfl
                    ⟨hmode, hnew, getColumnLocality_ok hlocal, fp64Vec, rfl⟩
                · exact .fails (by simp) (with_valCount hsame) rfl
            | true =>
                rw [importDoubleVec_of_count hlocal hmode hset]
                split_ifs with hfind
                · -- a column that is there has set the count before
                  rcases hcount with hnew | hsame
                  · rw [find?_fp64Col_of_new_count hd.uniform hnew] at hfind
                    cases hfind
                  · exact .fails (by simp) (with_valCount hsame) rfl
                · exact .addsDouble fp64Vec rfl rfl hmode (by simpa using hfind) hcount rfl
          · rw [importDoubleVec, hlocal]
            simp only [hset]
            exact .fails (by simp) rfl rfl

/-- The second `insert` finds the column. -/
theorem emplace_emplace (m : Entries Str (List F)) (colName : Str) (xs ys : List F) :
    emplace (emplace m colName xs) colName ys = emplace m colName xs := by
  have hfind : (find? (emplace m colName xs) colName).isSome = true := by
    rw [find?_emplace, if_pos rfl, Option.isSome_some]
  rw [emplace, if_pos hfind]

/-- Integers of as many rows as there should be, in a run on doubles. -/
theorem importInt64Vec_of_floatRun {d : FeedDict F} {colName : Str} {int64Vec : List I64}
    (hlocal : d.colConfig.getColumnLocality colName = .ok true)
    (hdtype : ∃ ret, d.colConfig.getColumnDtype colName = .ok (ret, .INT64))
    (hmode : d.floatRun = true)
    (hset : d.setOrCheckValueCount int64Vec.length = (0, { d with valCount := int64Vec.length })) :
    d.importInt64Vec toDouble colName int64Vec =
      if (find? d.fp64Col colName).isSome then
        ⟨.ok (-3), { d with valCount := int64Vec.length }, .int64 int64Vec⟩
      else
        ⟨.ok 0, { d with valCount := int64Vec.length,
                         fp64Col := emplace d.fp64Col colName (int64Vec.map toDouble) },
          .int64 []⟩ := by
  obtain ⟨ret, hget⟩ := hdtype
  set e : FeedDict F := { d with valCount := int64Vec.length } with he
  have hlen : (int64Vec.map toDouble).length = int64Vec.length := List.length_map _
  have hready : Ready d.colConfig true int64Vec.length e := ⟨rfl, hmode, Or.inr rfl⟩
  -- the nested call finds the count that was set here
  have hnested : e.importDoubleVec colName (int64Vec.map toDouble) = _ :=
    importDoubleVec_of_count hlocal hmode (by rw [hlen, setOrCheckValueCount_ready hready])
  rw [importInt64Vec, hlocal]
  simp only [hget, hset, hnested]
  have hmode' : e.floatRun = true := hmode
  have hcol : e.fp64Col = d.fp64Col := rfl
  rw [hmode', hcol]
  cases hfind : (find? d.fp64Col colName).isSome with
  | true => simp [hlen, he, hmode]
  | false => simp [hlen, he, emplace_emplace]

/-- Integers for a local column that is declared so. -/
theorem effect_of_dtype {d : FeedDict F} (hd : Valid d) {colName : Str}
    (hlocal : d.colConfig.getColumnLocality colName = .ok true)
    (hdtype : ∃ ret, d.colConfig.getColumnDtype colName = .ok (ret, .INT64))
    (int64Vec : List I64) :
    Effect toDouble d colName (.int64 int64Vec) (d.importInt64Vec toDouble colName int64Vec) := by
  rcases setOrCheckValueCount_cases d int64Vec.length with ⟨hset, hcount⟩ | hset
  · cases hmode : d.floatRun with
    | true =>
        rw [importInt64Vec_of_floatRun toDouble hlocal hdtype hmode hset]
        have hlen : (int64Vec.map toDouble).length = int64Vec.length := List.length_map _
        split_ifs with hfind
        · rcases hcount with hnew | hsame
          · rw [find?_fp64Col_of_new_count hd.uniform hnew] at hfind
            cases hfind
          · exact .fails (by simp) (with_valCount hsame) rfl
        · exact .addsDouble (int64Vec.map toDouble) rfl (by rw [hlen]) hmode (by simpa using hfind)
            (hlen ▸ hcount) rfl
    | false =>
        obtain ⟨ret, hget⟩ := hdtype
        have hresult : d.importInt64Vec toDouble colName int64Vec =
            if (find? d.int64Col colName).isSome then
              ⟨.ok (-4), { d with valCount := int64Vec.length }, .int64 int64Vec⟩
            else
              ⟨.ok 0, { d with valCount := int64Vec.length,
                               int64Col := emplace d.int64Col colName int64Vec }, .int64 []⟩ := by
          rw [importInt64Vec, hlocal]
          simp only [hget, hset, hmode]
          rfl
        rw [hresult]
        split_ifs with hfind
        · rcases hcount with hnew | hsame
          · rw [find?_int64Col_of_new_count hd.uniform hnew] at hfind
            cases hfind
          · exact .fails (by simp) (with_valCount hsame) rfl
        · exact .addsInt64 int64Vec rfl rfl hmode (by simpa using hfind) hcount rfl
  · obtain ⟨ret, hget⟩ := hdtype
    rw [importInt64Vec, hlocal]
    simp only [hget, hset]
    exact .fails (by simp) rfl rfl

theorem effect_importInt64Vec {d : FeedDict F} (hd : Valid d) (colName : Str)
    (int64Vec : List I64) :
    Effect toDouble d colName (.int64 int64Vec) (d.importInt64Vec toDouble colName int64Vec) := by
  cases hlocal : d.colConfig.getColumnLocality colName with
  | error e =>
      rw [importInt64Vec, hlocal]
      exact .fails (by simp) rfl rfl
  | ok isLocal =>
      cases isLocal with
      | false =>
          rw [importInt64Vec, hlocal]
          exact .fails (by simp) rfl rfl
      | true =>
          cases hget : d.colConfig.getColumnDtype colName with
          | error e =>
              rw [importInt64Vec, hlocal]
              simp only [hget]
              exact .fails (by simp) rfl rfl
          | ok r =>
              obtain ⟨ret, dtype⟩ := r
              cases dtype with
              | FP64 =>
                  rw [importInt64Vec, hlocal]
                  simp only [hget]
                  exact .fails (by simp) rfl rfl
              | INT64 =>
                  exact effect_of_dtype toDouble hd hlocal ⟨ret, hget⟩ int64Vec

theorem effect_importColumnValues {d : FeedDict F} (hd : Valid d) (colName : Str)
    (values : Values F) :
    Effect toDouble d colName values (d.importColumnValues toDouble colName values) := by
  cases values with
  | int64 int64Vec => exact effect_importInt64Vec toDouble hd colName int64Vec
  | double fp64Vec => exact effect_importDoubleVec toDouble hd colName fp64Vec

/-! ## A sequence of calls -/

/-- A new column of as many values as the others have. -/
theorem length_of_emplace {α : Type} {m : Entries Str (List α)} {colName : Str} {xs : List α}
    {count : Int} (hm : ∀ name ys, find? m name = some ys → (ys.length : Int) = count)
    (hfresh : find? m colName = none) (hcount : count = -1 ∨ count = xs.length) :
    ∀ name ys, find? (emplace m colName xs) name = some ys → (ys.length : Int) = xs.length := by
  intro name ys h
  rw [find?_emplace, hfresh, Option.getD_none] at h
  split_ifs at h with hname
  · rw [Option.some.inj h]
  · have hlen := hm name ys h
    omega

/-- **One call** keeps the columns of one length. -/
theorem Effect.valid {d : FeedDict F} {colName : Str} {values : Values F} {r : Imported F}
    (hd : Valid d) (h : Effect toDouble d colName values r) : Valid r.feedDict := by
  cases h with
  | fails _ hfeed _ => exact hfeed ▸ hd
  | fixesCount n _ hfeed hfixes =>
      rw [hfeed]
      have hcount := hfixes.2.1
      refine ⟨⟨?_, ?_⟩, hd.int64Col, hd.fp64Col⟩
      · intro name xs hfind
        cases (find?_int64Col_of_new_count hd.uniform hcount name).symm.trans hfind
      · intro name xs hfind
        cases (find?_fp64Col_of_new_count hd.uniform hcount name).symm.trans hfind
  | addsInt64 int64Vec _ hfeed hmode hfresh hcount _ =>
      rw [hfeed]
      refine ⟨⟨length_of_emplace hd.uniform.1 hfresh hcount, ?_⟩, ?_, hd.fp64Col⟩
      · intro name xs hfind
        rw [show d.fp64Col = [] from hd.fp64Col hmode] at hfind
        cases hfind
      · intro htrue
        cases hmode.symm.trans htrue
  | addsDouble fp64Vec _ hfeed hmode hfresh hcount _ =>
      rw [hfeed]
      refine ⟨⟨?_, length_of_emplace hd.uniform.2 hfresh hcount⟩, hd.int64Col, ?_⟩
      · intro name xs hfind
        rw [show d.int64Col = [] from hd.int64Col hmode] at hfind
        cases hfind
      · intro hfalse
        cases hmode.symm.trans hfalse

/-- **A sequence of calls** keeps the columns of one length. -/
theorem imports_valid {d : FeedDict F} (hd : Valid d) (calls : List (Str × Values F)) :
    Valid (d.imports toDouble calls) := by
  induction calls generalizing d with
  | nil => exact hd
  | cons call calls ih =>
      exact ih (Effect.valid toDouble hd (effect_importColumnValues toDouble hd call.1 call.2))

/-- A call is atomic unless it sets the count before it fails. -/
theorem atomic_iff {d : FeedDict F} (hd : Valid d) (colName : Str) (values : Values F) :
    Atomic toDouble d colName values ↔ ¬ d.FixesCount colName values := by
  unfold Atomic
  cases effect_importColumnValues toDouble hd colName values with
  | fails hret hfeed hvalues =>
      refine iff_of_true (Or.inr ⟨hret, hfeed, hvalues⟩) ?_
      rintro ⟨hmode, hcount, hlocal, fp64Vec, rfl⟩
      -- the count of the dictionary is still not set
      have hget : d.colConfig.getColumnLocality colName = .ok true := by
        rw [ColumnConfig.getColumnLocality, hlocal]
      have hset : d.setOrCheckValueCount fp64Vec.length =
          (0, { d with valCount := fp64Vec.length }) :=
        setOrCheckValueCount_ready (c := d.colConfig) ⟨rfl, rfl, Or.inl hcount⟩
      have hset' : d.valCount = fp64Vec.length := by
        rw [importColumnValues, importDoubleVec, hget] at hfeed
        simp only [hset, hmode] at hfeed
        exact congrArg valCount hfeed.symm
      omega
  | fixesCount n hret hfeed hfixes =>
      refine iff_of_false ?_ (not_not.mpr hfixes)
      rintro (⟨hok, _⟩ | ⟨_, hsame, _⟩)
      · exact hret hok
      · have hcount := congrArg valCount (hfeed.symm.trans hsame)
        have hnew := hfixes.2.1
        dsimp only at hcount
        omega
  | addsInt64 int64Vec hret hfeed hmode hfresh _ hentry =>
      refine iff_of_true (Or.inl ⟨hret, ?_⟩) ?_
      · rw [hfeed]
        refine ⟨rfl, rfl, ?_, ?_⟩
        · rw [held, hfresh, hd.fp64Col hmode]
          rfl
        · intro name
          rw [hmode, hentry]
          unfold held
          simp only [find?_emplace, hfresh, hd.fp64Col hmode]
          split_ifs <;> rfl
      · rintro ⟨_, _, _, fp64Vec, rfl⟩
        cases hentry
  | addsDouble fp64Vec hret hfeed hmode hfresh _ hentry =>
      refine iff_of_true (Or.inl ⟨hret, ?_⟩) ?_
      · rw [hfeed]
        refine ⟨rfl, rfl, ?_, ?_⟩
        · rw [held, hfresh, hd.int64Col hmode]
          rfl
        · intro name
          rw [hmode, hentry]
          unfold held
          simp only [find?_emplace, hfresh, hd.int64Col hmode]
          split_ifs <;> rfl
      · rintro ⟨hint, _⟩
        cases hmode.symm.trans hint

/-- **After any imports** the columns have the common length, and the next import adds its column
or changes nothing, unless it brings the first values, as doubles, into a run on integers. -/
theorem import_iff (c : ColumnConfig) (floatRun : Bool) (calls : List (Str × Values F))
    (colName : Str) (values : Values F) :
    (Uniform ((FeedDict.new c floatRun).imports toDouble calls) ∧
        Atomic toDouble ((FeedDict.new c floatRun).imports toDouble calls) colName values) ↔
      ¬ ((FeedDict.new c floatRun).imports toDouble calls).FixesCount colName values := by
  have hvalid := imports_valid toDouble (Valid.new c floatRun) calls
  rw [atomic_iff toDouble hvalid]
  exact and_iff_right hvalid.uniform

/-- The column `A` of the party itself. -/
def columnA : ColumnConfig where
  partyId := 0
  colOwner := [(['A'], 0)]
  colDtype := [(['A'], .INT64)]
  localCol := [(['A'], true)]

/-- One double is refused in a run on integers, and then two integers are refused as well. -/
theorem not_atomic_columnA :
    ¬ Atomic BitVec.toInt (.new columnA false) ['A'] (.double [5]) ∧
      ((FeedDict.new columnA false).imports BitVec.toInt [(['A'], .double [5])]
        |>.importColumnValues BitVec.toInt ['A'] (.int64 [1, 2])).ret = .ok (-2) := by
  refine ⟨?_, rfl⟩
  rw [atomic_iff _ (Valid.new columnA false), not_not]
  exact ⟨rfl, rfl, rfl, [5], rfl⟩

/-! ## The calls that return -/

/-- The calls of the loader are these, without what an exception leaves. -/
theorem importDoubles_eq (d : FeedDict F) (colName : Str) (fp64Vec : List F) :
    d.importDoubles colName fp64Vec =
      (d.importDoubleVec colName fp64Vec).ret.map
        fun ret => (ret, (d.importDoubleVec colName fp64Vec).feedDict) := by
  unfold importDoubles importDoubleVec
  cases d.colConfig.getColumnLocality colName with
  | error e => rfl
  | ok isLocal =>
      simp only [bind, Except.bind, pure, Except.pure]
      split_ifs <;> rfl

/-- A call that returns 0 has entered the column. -/
theorem importDoubleVec_emplace {d : FeedDict F} {colName : Str} {fp64Vec : List F}
    (h : (d.importDoubleVec colName fp64Vec).ret = .ok 0) (ys : List F) :
    emplace (d.importDoubleVec colName fp64Vec).feedDict.fp64Col colName ys =
      (d.importDoubleVec colName fp64Vec).feedDict.fp64Col := by
  unfold importDoubleVec at h ⊢
  split at h
  · cases h
  · dsimp only at h ⊢
    split_ifs at h ⊢
    · exact absurd h (by simp)
    · exact absurd h (by simp)
    · exact absurd h (by simp)
    · exact absurd h (by simp)
    · exact emplace_emplace _ colName fp64Vec ys

theorem importInts_eq (d : FeedDict F) (colName : Str) (int64Vec : List I64) :
    d.importInts toDouble colName int64Vec =
      (d.importInt64Vec toDouble colName int64Vec).ret.map
        fun ret => (ret, (d.importInt64Vec toDouble colName int64Vec).feedDict) := by
  unfold importInts importInt64Vec
  cases d.colConfig.getColumnLocality colName with
  | error e => rfl
  | ok isLocal =>
      cases d.colConfig.getColumnDtype colName with
      | error e =>
          simp only [bind, Except.bind, pure, Except.pure]
          split_ifs <;> rfl
      | ok r =>
          simp only [bind, Except.bind, pure, Except.pure, importDoubles_eq]
          split_ifs with hlocal hdtype hret hmode hfind <;> try rfl
          -- the nested call
          cases hnested : (d.setOrCheckValueCount int64Vec.length).2.importDoubleVec colName
              (int64Vec.map toDouble) with
          | mk ret feedDict values =>
              cases ret with
              | error e => rfl
              | ok ret =>
                  simp only [Except.map]
                  split_ifs with hzero
                  · rfl
                  · have hentered := importDoubleVec_emplace (congrArg Imported.ret hnested |>.trans
                      (by rw [not_not.mp hzero]))
                    rw [hnested] at hentered
                    simp only [hentered]

end FeedDict

end Fediux.Arithmetic
