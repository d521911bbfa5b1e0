import Fediux.Basic.Json
import Fediux.Util.StrSplit

set_option autoImplicit false

/-! # The path of a cached database

The server of keyword PIR looks for a database under the id of the dataset and the indices of the
key columns, joined by `_` (`PirTask::BuildOptions`). `distinguishes_iff` says for which two
requests equal paths mean the same dataset and the same key columns.
-/

namespace Fediux.Pir.Cache

open Util (Str)

/-- The parameter `QueryConfig`. The key columns are those of the server, if it names any. -/
inductive QueryConfig where
  | notSet
  | withoutServer
  | server (key_columns : Option (List ℤ))

/-- What the server reads of a request. The id is empty when no dataset is set, and the details
of the dataset when `is_dataset_detail_` is. -/
structure Request where
  dataset_id_ : Str
  is_dataset_detail_ : Bool
  server_dataset_schema_ : List Str
  QueryConfig : QueryConfig
  /-- The parameter `DbInfo`. -/
  DbInfo : Option Str
  /-- The parameter under the name of the server. -/
  partyParam : Option Str

structure Options where
  db_path : Str
  generate_db : Bool

/-! ## The request is read -/

/-- A column that was there before is left out. -/
def addKey (server_key_columns : List ℤ) (key_index : ℤ) : List ℤ :=
  if key_index ∈ server_key_columns then server_key_columns
  else server_key_columns ++ [key_index]

/-- The key columns behind `PirTask::ParseQueryConfig`. There is an exception when there are no
label columns. -/
def ParseQueryConfig (r : Request) : Option (List ℤ) :=
  match r.QueryConfig with
  | .notSet => some [0]
  | .withoutServer => some []
  | .server key_columns =>
      if r.server_dataset_schema_.isEmpty then none
      else some ((key_columns.getD []).foldl addKey [])

def db_cache_dir_ : Str := "data/cache".toList

/-- The key columns behind the id. -/
def keySuffix (server_key_columns : List ℤ) : Str :=
  server_key_columns.flatMap fun key_index => '_' :: Json.dumpInt key_index

/-- `PirTask::BuildOptions` of the server. -/
def BuildOptions (r : Request) (server_key_columns : List ℤ) : Option Options :=
  match r.DbInfo with
  | some db_path => if r.dataset_id_.isEmpty then none else some ⟨db_path, true⟩
  | none =>
      if r.dataset_id_.isEmpty then none
      else if r.is_dataset_detail_ then
        r.partyParam.map fun value =>
          ⟨db_cache_dir_ ++ ['/'] ++ value ++ keySuffix server_key_columns, false⟩
      else
        some ⟨db_cache_dir_ ++ ['/'] ++ r.dataset_id_ ++ keySuffix server_key_columns, false⟩

def LoadParams (r : Request) : Option Options :=
  (ParseQueryConfig r).bind (BuildOptions r)

/-- Where an online task looks for a cached database. -/
def cachePath (r : Request) : Option Str :=
  (LoadParams r).bind fun options =>
    if options.generate_db then none else some options.db_path

/-! ## What the path is for -/

/-- The dataset that an online request names: by the parameter, when its details are given. -/
def datasetId (r : Request) : Option Str :=
  if r.DbInfo.isSome || r.dataset_id_.isEmpty then none
  else if r.is_dataset_detail_ then r.partyParam
  else some r.dataset_id_

/-- The dataset and the key columns of an online request. -/
def requested (r : Request) : Option (Str × List ℤ) :=
  (ParseQueryConfig r).bind fun keys => (datasetId r).map fun id => (id, keys)

/-- Equal paths mean the same dataset and the same key columns. -/
def Distinguishes (r r' : Request) : Prop :=
  ∀ path, cachePath r = some path → cachePath r' = some path → requested r = requested r'

/-- The id of the second request is that of the first one with some of its key columns, and the
key columns that are left are those of the second one. -/
def Absorbs (r r' : Request) : Prop :=
  ∃ id cols keys, cols ≠ [] ∧ requested r = some (id, cols ++ keys) ∧
    requested r' = some (id ++ keySuffix cols, keys)

theorem cachePath_eq (r : Request) :
    cachePath r = (requested r).map fun x =>
      db_cache_dir_ ++ ['/'] ++ x.1 ++ keySuffix x.2 := by
  unfold cachePath LoadParams requested
  cases ParseQueryConfig r with
  | none => rfl
  | some keys =>
      show (BuildOptions r keys).bind _ = ((datasetId r).map fun id => (id, keys)).map _
      unfold BuildOptions datasetId
      cases r.DbInfo with
      | some db_path => cases r.dataset_id_.isEmpty <;> rfl
      | none =>
          cases r.dataset_id_.isEmpty with
          | true => rfl
          | false =>
              cases r.is_dataset_detail_ with
              | true => cases r.partyParam <;> rfl
              | false => rfl

theorem keySuffix_eq (cols : List ℤ) :
    keySuffix cols = (cols.map Json.dumpInt).flatMap ('_' :: ·) := by
  rw [List.flatMap_map]
  rfl

theorem keySuffix_append (cols cols' : List ℤ) :
    keySuffix (cols ++ cols') = keySuffix cols ++ keySuffix cols' :=
  List.flatMap_append

theorem notMem_columns (cols : List ℤ) : ∀ v ∈ cols.map Json.dumpInt, '_' ∉ v := by
  intro v hv
  obtain ⟨col, _, rfl⟩ := List.mem_map.mp hv
  exact Json.notMem_dumpInt rfl (by decide) col

/-- Key columns whose text ends with that of other ones. -/
theorem keySuffix_eq_append {cols keys : List ℤ} {x : Str}
    (h : keySuffix cols = x ++ keySuffix keys) :
    ∃ first, x = keySuffix first ∧ cols = first ++ keys := by
  rw [keySuffix_eq, keySuffix_eq] at h
  obtain ⟨us, rfl, hcols⟩ :=
    Separator.flatMap_cons_eq_append (notMem_columns cols) (notMem_columns keys) h
  obtain ⟨first, keys', rfl, rfl, hkeys⟩ := List.map_eq_append_iff.mp hcols
  have heq : keys' = keys := (List.map_injective_iff.mpr Json.dumpInt_injective) hkeys
  exact ⟨first, (keySuffix_eq first).symm, by rw [heq]⟩

/-- Equal texts: the same dataset and columns, or one of them absorbs the other. -/
theorem of_append_keySuffix {id id' : Str} {keys keys' : List ℤ}
    (h : id ++ keySuffix keys = id' ++ keySuffix keys') :
    (∃ cols, id' = id ++ keySuffix cols ∧ keys = cols ++ keys') ∨
      ∃ cols, id = id' ++ keySuffix cols ∧ keys' = cols ++ keys := by
  rcases List.append_eq_append_iff.mp h with ⟨x, rfl, hx⟩ | ⟨x, rfl, hx⟩
  · obtain ⟨cols, rfl, hkeys⟩ := keySuffix_eq_append hx
    exact Or.inl ⟨cols, rfl, hkeys⟩
  · obtain ⟨cols, rfl, hkeys⟩ := keySuffix_eq_append hx
    exact Or.inr ⟨cols, rfl, hkeys⟩

theorem cachePath_of_absorbs {r r' : Request} (h : Absorbs r r') :
    ∃ path, cachePath r = some path ∧ cachePath r' = some path ∧ requested r ≠ requested r' := by
  obtain ⟨id, cols, keys, hne, hr, hr'⟩ := h
  refine ⟨_, by rw [cachePath_eq, hr]; rfl, ?_, ?_⟩
  · rw [cachePath_eq, hr']
    simp only [Option.map_some, keySuffix_append, List.append_assoc]
  · rw [hr, hr']
    intro heq
    have hkeys := (Prod.mk.inj (Option.some.inj heq)).2
    exact hne (List.append_left_eq_self.mp hkeys)

/-- **When equal paths mean the same database**: neither id is the other one with some of the key
columns that go with it. -/
theorem distinguishes_iff (r r' : Request) :
    Distinguishes r r' ↔ ¬ Absorbs r r' ∧ ¬ Absorbs r' r := by
  constructor
  · intro h
    constructor
    · intro habs
      obtain ⟨path, hr, hr', hne⟩ := cachePath_of_absorbs habs
      exact hne (h path hr hr')
    · intro habs
      obtain ⟨path, hr', hr, hne⟩ := cachePath_of_absorbs habs
      exact hne (h path hr hr').symm
  · rintro ⟨hno, hno'⟩ path hr hr'
    rw [cachePath_eq] at hr hr'
    obtain ⟨⟨id, keys⟩, hreq, hpath⟩ := Option.map_eq_some_iff.mp hr
    obtain ⟨⟨id', keys'⟩, hreq', hpath'⟩ := Option.map_eq_some_iff.mp hr'
    have htext : id ++ keySuffix keys = id' ++ keySuffix keys' := by
      have heq := hpath.trans hpath'.symm
      simp only [List.append_assoc] at heq
      exact List.append_cancel_left (List.append_cancel_left heq)
    rw [hreq, hreq']
    rcases of_append_keySuffix htext with ⟨cols, rfl, rfl⟩ | ⟨cols, rfl, rfl⟩
    · by_cases hcols : cols = []
      · subst hcols
        rw [List.nil_append, keySuffix, List.flatMap_nil, List.append_nil]
      · exact absurd ⟨id, cols, keys', hcols, hreq, hreq'⟩ hno
    · by_cases hcols : cols = []
      · subst hcols
        rw [List.nil_append, keySuffix, List.flatMap_nil, List.append_nil]
      · exact absurd ⟨id', cols, keys, hcols, hreq', hreq⟩ hno'

/-- An online request for a dataset by its id. -/
def plainRequest (dataset_id : String) (key_columns : List ℤ) : Request where
  dataset_id_ := dataset_id.toList
  is_dataset_detail_ := false
  server_dataset_schema_ := [['k'], ['v'], ['w']]
  QueryConfig := .server (some key_columns)
  DbInfo := none
  partyParam := none

/-- Both requests look for `data/cache/bank_1_2`. -/
theorem not_distinguishes_bank :
    ¬ ∀ r r' : Request, Distinguishes r r' := by
  intro h
  have heq := h (plainRequest "bank" [1, 2]) (plainRequest "bank_1" [2])
    "data/cache/bank_1_2".toList (by decide) (by decide)
  revert heq
  decide

end Fediux.Pir.Cache
