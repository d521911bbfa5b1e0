import Fediux.Arrow.DataType
import Fediux.Basic.Json
import Fediux.Node.Registry

set_option autoImplicit false

/-! # Dataset metas

`DatasetMeta` (`service/dataset/model.cc`) describes a dataset to the other nodes; it is kept
and sent as a JSON text. Its table schema is a text inside this text, in which each column has
the id of its arrow type. `DataSetAccessInfo` (`data_store/driver.cc`) writes and reads the
same list. The JSON library is a parameter.
-/

namespace Fediux.Service

open Arrow (DataType MakeArrowDataType TypeId)
open Json (Codec Value)
open Node (Str Retcode)
open OrderedMap (assignAll find? find?_assignAll)

/-! ## Reading JSON values -/

/-- The exceptions of the JSON library. -/
inductive JsonException where
  | parse_error
  | type_error
  deriving DecidableEq, Repr

/-- `get<std::string>`. -/
def getStr : Value → Except JsonException Str
  | .str s => .ok s
  | _ => .error .type_error

/-- `get` of an `enum`; an integer is cut to 32 bits. -/
def getEnum : Value → Except JsonException ℤ
  | .num n => .ok (n.bmod (2 ^ 32))
  | _ => .error .type_error

/-- The implicit conversion to an `int`. -/
def getInt : Value → Except JsonException ℤ
  | .bool b => .ok (if b then 1 else 0)
  | v => getEnum v

/-- `operator[]` with a key, which enters a null value where there is none. -/
def at? (key : Str) : Value → Except JsonException Value
  | .obj ms => .ok ((find? ms key).getD .null)
  | .null => .ok .null
  | _ => .error .type_error

/-- The value of the key, if the value is an object with this key (`contains`). -/
def contained? (key : Str) : Value → Option Value
  | .obj ms => find? ms key
  | _ => none

/-- The range of a loop over a value. -/
def elements : Value → List Value
  | .null => []
  | .arr vs => vs
  | .obj ms => ms.map Prod.snd
  | v => [v]

/-- The range of a loop over `items()`; an array has its positions as keys. -/
def items : Value → List (Str × Value)
  | .null => []
  | .arr vs => vs.zipIdx.map fun x => (Nat.toDigits 10 x.2, x.1)
  | .obj ms => ms
  | v => [([], v)]

/-! ## Schemas -/

/-- `FieldType`: the name and the type id of a column. -/
abbrev FieldType := Str × ℤ

/-- `arrow::Field`. -/
structure Field where
  name : Str
  type : DataType
  deriving DecidableEq, Repr

/-- `arrow::Schema`. -/
abbrev Schema := List Field

def makeField (field : FieldType) : Field := ⟨field.1, MakeArrowDataType field.2⟩

/-- The fields that a loop reads, up to the first exception. -/
def readFields : List (Str × Value) → List FieldType × Option JsonException
  | [] => ([], none)
  | (name, type) :: rest =>
      match getInt type with
      | .error e => ([], some e)
      | .ok type => ((name, type) :: (readFields rest).1, (readFields rest).2)

/-- The array that both conversions of a schema write. -/
def schemaValue (schema : Schema) : Value :=
  .arr (schema.map fun field => .obj [(field.name, .num field.type.id.toInt)])

/-! ## `TableSchema` -/

namespace TableSchema

def extractFields (oJson : Value) : Except JsonException (List FieldType) :=
  match oJson with
  | .arr vs =>
      match readFields (vs.flatMap items) with
      | (fields, none) => .ok fields
      | (_, some e) => .error e
  | _ => .ok []

def FromFields (field_info : List FieldType) : Schema := field_info.map makeField

variable (json : Codec)

def toJSON (schema : Schema) : Str := json.dump (schemaValue schema)

/-- The constructor from a JSON text. -/
def ofText (text : Str) : Schema :=
  match json.parse text with
  | none => []
  | some oJson =>
      match extractFields oJson with
      | .error _ => []
      | .ok field_info => FromFields field_info

end TableSchema

/-! ## `DatasetMeta` -/

/-- `DatasetVisbility`, an `enum class`: a conversion from an integer can give any `int`. -/
inductive DatasetVisbility where
  | PUBLIC
  | PRIVATE
  | unnamed (n : ℤ) (h : n ≠ 0 ∧ n ≠ 1 ∧ n.bmod (2 ^ 32) = n)

def DatasetVisbility.toInt : DatasetVisbility → ℤ
  | .PUBLIC => 0
  | .PRIVATE => 1
  | .unnamed n _ => n

def DatasetVisbility.ofInt (n : ℤ) : DatasetVisbility :=
  let n := n.bmod (2 ^ 32)
  if h : n ≠ 0 ∧ n ≠ 1 ∧ n.bmod (2 ^ 32) = n then .unnamed n h
  else if n = 0 then .PUBLIC
  else .PRIVATE

/-- `DatasetType`. -/
inductive DatasetType where
  | TABLE
  | ARRAY
  | TENSOR
  | unnamed (n : ℤ) (h : n ≠ 0 ∧ n ≠ 1 ∧ n ≠ 2 ∧ n.bmod (2 ^ 32) = n)

def DatasetType.toInt : DatasetType → ℤ
  | .TABLE => 0
  | .ARRAY => 1
  | .TENSOR => 2
  | .unnamed n _ => n

def DatasetType.ofInt (n : ℤ) : DatasetType :=
  let n := n.bmod (2 ^ 32)
  if h : n ≠ 0 ∧ n ≠ 1 ∧ n ≠ 2 ∧ n.bmod (2 ^ 32) = n then .unnamed n h
  else if n = 0 then .TABLE
  else if n = 1 then .ARRAY
  else .TENSOR

structure DatasetMeta where
  id : Str
  data_url : Str
  server_meta : Str
  access_meta : Str
  description : Str
  visibility : DatasetVisbility
  driver_type : Str
  data_type : DatasetType
  /-- A pointer, which is null when the data is not a table. -/
  schema : Option Schema
  total_records : ℕ

variable (json : Codec)

/-- The schema is made for tables only. -/
def NewDatasetSchema (type : DatasetType) (param : Str) : Option Schema :=
  match type with
  | .TABLE => some (TableSchema.ofText json param)
  | _ => none

/-- The members of the JSON object, as they are assigned. -/
def metaMembers (mate : DatasetMeta) (schema : Schema) : List (Str × Value) :=
  [("id".toList, .str mate.id),
    ("data_url".toList, .str mate.data_url),
    ("data_type".toList, .num mate.data_type.toInt),
    ("description".toList, .str mate.description),
    ("visibility".toList, .num mate.visibility.toInt),
    ("schema".toList, .str (TableSchema.toJSON json schema)),
    ("driver_type".toList, .str mate.driver_type),
    ("server_meta".toList, .str mate.server_meta),
    ("access_meta".toList, .str mate.access_meta)]

def metaValue (mate : DatasetMeta) (schema : Schema) : Value :=
  .obj (assignAll [] (metaMembers json mate schema))

/-- The JSON text; there is none where a null pointer is followed. -/
def DatasetMeta.toJSON (mate : DatasetMeta) : Option Str :=
  mate.schema.map fun schema => json.dump (metaValue json mate schema)

/-- The meta `before` is changed into the one of the text. -/
def DatasetMeta.fromJSON (before : DatasetMeta) (text : Str) :
    Except JsonException DatasetMeta := do
  let oJson ← match json.parse text with
    | none => throw .parse_error
    | some oJson => pure oJson
  let id ← getStr (← at? "id".toList oJson)
  let data_url ← getStr (← at? "data_url".toList oJson)
  let description ← getStr (← at? "description".toList oJson)
  let data_type ← getEnum (← at? "data_type".toList oJson)
  let visibility ← getEnum (← at? "visibility".toList oJson)
  let oJsonSchemaParam ← getStr (← at? "schema".toList oJson)
  let driver_type ← getStr (← at? "driver_type".toList oJson)
  let server_meta ← match contained? "server_meta".toList oJson with
    | some v => getStr v
    | none => pure before.server_meta
  let access_meta ← match contained? "access_meta".toList oJson with
    | some v => getStr v
    | none => pure before.access_meta
  return { before with
    id, data_url, description, driver_type, server_meta, access_meta
    data_type := .ofInt data_type
    visibility := .ofInt visibility
    schema := NewDatasetSchema json (.ofInt data_type) oJsonSchemaParam }

/-! ## `DataSetAccessInfo` -/

/-- The schema of an access info; the pointer to the arrow schema is null until it is made. -/
structure DataSetAccessInfo where
  schema : List FieldType
  arrow_schema : Option Schema
  deriving DecidableEq, Repr

namespace DataSetAccessInfo

def MakeArrowSchema (info : DataSetAccessInfo) : Retcode × DataSetAccessInfo :=
  (.SUCCESS, { info with arrow_schema := some (info.schema.map makeField) })

def SetDatasetSchema (info : DataSetAccessInfo) (schema_info : List FieldType) :
    Retcode × DataSetAccessInfo :=
  if info.schema ≠ [] then (.SUCCESS, info)
  else MakeArrowSchema { info with schema := schema_info }

def SchemaToJsonString (info : DataSetAccessInfo) : Str :=
  match info.arrow_schema with
  | none => []
  | some schema => json.dump (schemaValue schema)

def ParseSchema (info : DataSetAccessInfo) (json_schema : Value) : Retcode × DataSetAccessInfo :=
  if info.schema ≠ [] then (.SUCCESS, info)
  else
    match readFields ((elements json_schema).flatMap items) with
    | (fields, some _) => (.FAIL, { info with schema := info.schema ++ fields })
    | (fields, none) => MakeArrowSchema { info with schema := info.schema ++ fields }

end DataSetAccessInfo

/-- The arrow schema is the one of the list. -/
def DataSetAccessInfo.Made (info : DataSetAccessInfo) : Prop :=
  info.arrow_schema = some (info.schema.map makeField)

theorem DataSetAccessInfo.made_SetDatasetSchema {info : DataSetAccessInfo} (h : info.schema = [])
    (schema_info : List FieldType) : (info.SetDatasetSchema schema_info).2.Made := by
  rw [SetDatasetSchema, if_neg (not_not_intro h)]
  rfl

theorem DataSetAccessInfo.made_ParseSchema {info : DataSetAccessInfo} (h : info.schema = [])
    {json_schema : Value} (hret : (info.ParseSchema json_schema).1 = .SUCCESS) :
    (info.ParseSchema json_schema).2.Made := by
  rw [ParseSchema, if_neg (not_not_intro h)] at hret ⊢
  split at hret
  · cases hret
  · rfl

/-! ## What is read back -/

theorem DatasetVisbility.ofInt_toInt (v : DatasetVisbility) :
    DatasetVisbility.ofInt (v.toInt.bmod (2 ^ 32)) = v := by
  cases v with
  | PUBLIC => rfl
  | PRIVATE => rfl
  | unnamed n h =>
      have hcut : ∀ m, m = n → (if h' : m ≠ 0 ∧ m ≠ 1 ∧ m.bmod (2 ^ 32) = m then unnamed m h'
          else if m = 0 then PUBLIC else PRIVATE) = unnamed n h := by
        rintro m rfl
        exact dif_pos h
      exact hcut _ (by rw [toInt, h.2.2, h.2.2])

theorem DatasetType.ofInt_toInt (t : DatasetType) :
    DatasetType.ofInt (t.toInt.bmod (2 ^ 32)) = t := by
  cases t with
  | TABLE => rfl
  | ARRAY => rfl
  | TENSOR => rfl
  | unnamed n h =>
      have hcut : ∀ m, m = n → (if h' : m ≠ 0 ∧ m ≠ 1 ∧ m ≠ 2 ∧ m.bmod (2 ^ 32) = m then unnamed m h'
          else if m = 0 then TABLE else if m = 1 then ARRAY else TENSOR) = unnamed n h := by
        rintro m rfl
        exact dif_pos h
      exact hcut _ (by rw [toInt, h.2.2.2, h.2.2.2])

/-- The column as it is after a conversion and back. -/
def Field.stored (field : Field) : Field := ⟨field.name, field.type.stored⟩

/-- The list of names and type ids of a schema. -/
def fieldTypes (schema : Schema) : List FieldType :=
  schema.map fun field => (field.name, field.type.id.toInt)

theorem getInt_toInt (t : TypeId) : getInt (.num t.toInt) = .ok t.toInt := by
  cases t <;> rfl

theorem readFields_schema (schema : Schema) :
    readFields ((schema.map fun field => Value.obj [(field.name, .num field.type.id.toInt)]).flatMap
      items) = (fieldTypes schema, none) := by
  induction schema with
  | nil => rfl
  | cons field schema ih =>
      rw [List.map_cons, List.flatMap_cons, items, List.singleton_append, readFields, getInt_toInt,
        ih]
      rfl

theorem ordered_schemaValue (schema : Schema) : Json.Ordered (schemaValue schema) := by
  refine .arr _ fun v hv => ?_
  obtain ⟨field, _, rfl⟩ := List.mem_map.mp hv
  refine .obj _ (List.pairwise_singleton _ _) fun m hm => ?_
  cases List.mem_singleton.mp hm
  exact .num _

/-- The columns that are made of a schema's type ids. -/
theorem map_makeField_fieldTypes (schema : Schema) :
    (fieldTypes schema).map makeField = schema.map Field.stored := by
  rw [fieldTypes, List.map_map]
  rfl

/-- A list of fields in which every id has a case, `DECIMAL256` apart, gives types with these ids. -/
theorem fieldTypes_map_makeField {fields : List FieldType}
    (h : ∀ field ∈ fields, ∃ t : TypeId, t ≠ .DECIMAL256 ∧ field.2 = t.toInt) :
    fieldTypes (fields.map makeField) = fields := by
  have hsame : ∀ field ∈ fields, ((makeField field).name, (makeField field).type.id.toInt) =
      field := by
    intro field hfield
    obtain ⟨t, ht, hid⟩ := h field hfield
    show (field.1, (MakeArrowDataType field.2).id.toInt) = field
    rw [hid, Arrow.id_MakeArrowDataType ht, ← hid]
  rw [fieldTypes, List.map_map]
  exact (List.map_congr_left hsame).trans (List.map_id fields)

/-- Storing a schema without `DECIMAL256` keeps the type ids. -/
theorem fieldTypes_stored {schema : Schema} (h : ∀ field ∈ schema, field.type.id ≠ .DECIMAL256) :
    fieldTypes (schema.map Field.stored) = fieldTypes schema := by
  rw [← map_makeField_fieldTypes]
  apply fieldTypes_map_makeField
  intro field hfield
  obtain ⟨column, hcolumn, rfl⟩ := List.mem_map.mp hfield
  exact ⟨column.type.id, h column hcolumn, rfl⟩

/-- The array says no more of a schema than its names and type ids. -/
theorem schemaValue_congr {schema schema' : Schema} (h : fieldTypes schema = fieldTypes schema') :
    schemaValue schema = schemaValue schema' := by
  have hof : ∀ s : Schema, schemaValue s =
      .arr ((fieldTypes s).map fun field => .obj [(field.1, .num field.2)]) := by
    intro s
    rw [fieldTypes, List.map_map]
    rfl
  rw [hof, hof, h]

section

variable (json : Codec)

theorem ofText_toJSON (schema : Schema) :
    TableSchema.ofText json (TableSchema.toJSON json schema) = schema.map Field.stored := by
  have hfields : TableSchema.extractFields (schemaValue schema) = .ok (fieldTypes schema) := by
    rw [schemaValue, TableSchema.extractFields, readFields_schema]
  rw [TableSchema.ofText, TableSchema.toJSON, json.parse_dump _ (ordered_schemaValue schema)]
  show (match TableSchema.extractFields (schemaValue schema) with
    | .error _ => []
    | .ok field_info => TableSchema.FromFields field_info) = _
  rw [hfields]
  exact map_makeField_fieldTypes schema

theorem ordered_metaValue (mate : DatasetMeta) (schema : Schema) :
    Json.Ordered (metaValue json mate schema) := by
  have hsorted : OrderedMap.Sorted ([] : OrderedMap.Entries Str Value) := List.Pairwise.nil
  have hall : ∀ m ∈ metaMembers json mate schema, Json.Ordered m.2 := by
    simp [metaMembers, Json.Ordered.str, Json.Ordered.num]
  refine .obj _ (OrderedMap.sorted_assignAll hsorted _) fun m hm => ?_
  rcases OrderedMap.mem_assignAll hm with hm | hm
  · cases hm
  · exact hall m hm

/-- The meta that is rebuilt from a text. -/
theorem fromJSON_metaValue (mate before : DatasetMeta) (schema : Schema) :
    before.fromJSON json (json.dump (metaValue json mate schema)) = .ok { mate with
      schema := NewDatasetSchema json mate.data_type (TableSchema.toJSON json schema)
      total_records := before.total_records } := by
  have hread : before.fromJSON json (json.dump (metaValue json mate schema)) = .ok { mate with
      data_type := .ofInt (mate.data_type.toInt.bmod (2 ^ 32))
      visibility := .ofInt (mate.visibility.toInt.bmod (2 ^ 32))
      schema := NewDatasetSchema json (.ofInt (mate.data_type.toInt.bmod (2 ^ 32)))
        (TableSchema.toJSON json schema)
      total_records := before.total_records } := by
    unfold DatasetMeta.fromJSON
    rw [json.parse_dump _ (ordered_metaValue json mate schema)]
    rfl
  rw [hread, DatasetType.ofInt_toInt, DatasetVisbility.ofInt_toInt]

/-! ## Conversion and back -/

/-- The meta that is rebuilt from the text of a meta has its fields and its schema, and gives the
same text. The number of records is not in the text. -/
def Survives (mate : DatasetMeta) : Prop :=
  ∀ before : DatasetMeta, ∃ text after,
    mate.toJSON json = some text ∧ before.fromJSON json text = .ok after ∧
      after = { mate with total_records := before.total_records } ∧
      after.toJSON json = some text

/-- As `Survives`, with every type as it is stored. -/
def SurvivesStored (mate : DatasetMeta) (schema : Schema) : Prop :=
  ∀ before : DatasetMeta, ∃ text after,
    mate.toJSON json = some text ∧ before.fromJSON json text = .ok after ∧
      after = { mate with
        schema := some (schema.map Field.stored)
        total_records := before.total_records } ∧
      after.toJSON json = some text

/-- The list of an access info survives the conversion into another one that has none yet. -/
def SurvivesParse (info : DataSetAccessInfo) : Prop :=
  ∀ fresh : DataSetAccessInfo, fresh.schema = [] → ∃ json_schema,
    json.parse (info.SchemaToJsonString json) = some json_schema ∧
      fresh.ParseSchema json_schema = (.SUCCESS, info)

theorem survivesStored {mate : DatasetMeta} {schema : Schema} (htable : mate.data_type = .TABLE)
    (hschema : mate.schema = some schema)
    (hids : ∀ field ∈ schema, field.type.id ≠ .DECIMAL256) : SurvivesStored json mate schema := by
  intro before
  have htext : mate.toJSON json = some (json.dump (metaValue json mate schema)) := by
    rw [DatasetMeta.toJSON, hschema]
    rfl
  have hnew : NewDatasetSchema json mate.data_type (TableSchema.toJSON json schema) =
      some (schema.map Field.stored) := by
    rw [htable, ← ofText_toJSON json schema]
    rfl
  have hagain : TableSchema.toJSON json (schema.map Field.stored) =
      TableSchema.toJSON json schema := by
    rw [TableSchema.toJSON, TableSchema.toJSON, schemaValue_congr (fieldTypes_stored hids)]
  have hread := fromJSON_metaValue json mate before schema
  rw [hnew] at hread
  refine ⟨_, _, htext, hread, rfl, ?_⟩
  show some (json.dump (.obj (assignAll [] (metaMembers json _ (schema.map Field.stored))))) = _
  unfold metaMembers
  rw [hagain]
  rfl

theorem survives_of_stored {mate : DatasetMeta} {schema : Schema}
    (h : SurvivesStored json mate schema) (hschema : mate.schema = some schema)
    (hmade : ∀ field ∈ schema, field.type ∈ Set.range MakeArrowDataType) :
    Survives json mate := by
  have hstored : schema.map Field.stored = schema := by
    have hsame : ∀ field ∈ schema, field.stored = field := by
      intro field hfield
      obtain ⟨n, hn⟩ := hmade field hfield
      show Field.mk field.name field.type.stored = field
      rw [← hn, Arrow.stored_MakeArrowDataType, hn]
    exact (List.map_congr_left hsame).trans (List.map_id schema)
  intro before
  obtain ⟨text, after, htext, hread, hafter, hagain⟩ := h before
  refine ⟨text, after, htext, hread, ?_, hagain⟩
  rw [hafter, hstored, ← hschema]

theorem survivesParse {info : DataSetAccessInfo}
    (hmade : info.Made)
    (hids : ∀ field ∈ info.schema, ∃ t : TypeId, t ≠ .DECIMAL256 ∧ field.2 = t.toInt) :
    SurvivesParse json info := by
  intro fresh hfresh
  refine ⟨schemaValue (info.schema.map makeField), ?_, ?_⟩
  · have hschema : info.arrow_schema = some (info.schema.map makeField) := hmade
    rw [DataSetAccessInfo.SchemaToJsonString, hschema]
    exact json.parse_dump _ (ordered_schemaValue _)
  · have hread : readFields ((elements (schemaValue (info.schema.map makeField))).flatMap items) =
        (info.schema, none) := by
      rw [schemaValue, elements, readFields_schema, fieldTypes_map_makeField hids]
    rw [DataSetAccessInfo.ParseSchema, if_neg (not_not_intro hfresh), hread, hfresh]
    show (Retcode.SUCCESS, DataSetAccessInfo.mk info.schema (some (info.schema.map makeField))) = _
    rw [← show info.arrow_schema = _ from hmade]

/-- **What survives the conversion to JSON and back**: all of a table's meta, with the type of
every column as it is stored (the same type if it is one that `MakeArrowDataType` makes), and
the list of an access info. -/
theorem conversions_survive (json : Codec) :
    (∀ (mate : DatasetMeta) (schema : Schema), mate.data_type = .TABLE →
      mate.schema = some schema → (∀ field ∈ schema, field.type.id ≠ .DECIMAL256) →
        SurvivesStored json mate schema ∧
          ((∀ field ∈ schema, field.type ∈ Set.range MakeArrowDataType) → Survives json mate)) ∧
    ∀ info : DataSetAccessInfo, info.Made →
      (∀ field ∈ info.schema, ∃ t : TypeId, t ≠ .DECIMAL256 ∧ field.2 = t.toInt) →
        SurvivesParse json info := by
  refine ⟨fun mate schema htable hschema hids => ?_, fun info hmade hids => ?_⟩
  · have hstored := survivesStored json htable hschema hids
    exact ⟨hstored, survives_of_stored json hstored hschema⟩
  · exact survivesParse json hmade hids

end

/-- A table with one column. -/
def oneColumn (type : DataType) : DatasetMeta where
  id := ['d']
  data_url := []
  server_meta := []
  access_meta := []
  description := ['d']
  visibility := .PUBLIC
  driver_type := "CSV".toList
  data_type := .TABLE
  schema := some [⟨['t'], type⟩]
  total_records := 0

theorem conversions_survive_int64 :
    Survives Json.compact (oneColumn .int64) ∧
      SurvivesParse Json.compact ⟨[(['t'], 9)], some [⟨['t'], .int64⟩]⟩ := by
  have hint : ∀ field ∈ [Field.mk ['t'] .int64], field = ⟨['t'], .int64⟩ := by simp
  constructor
  · apply ((conversions_survive Json.compact).1 (oneColumn .int64) [⟨['t'], .int64⟩] rfl rfl ?_).2
    · intro field hfield
      rw [hint field hfield]
      exact ⟨9, rfl⟩
    · intro field hfield
      rw [hint field hfield]
      decide
  · apply (conversions_survive Json.compact).2 ⟨[(['t'], 9)], some [⟨['t'], .int64⟩]⟩ rfl
    intro field hfield
    cases List.mem_singleton.mp hfield
    exact ⟨.INT64, by decide, rfl⟩

/-- A column of nanoseconds comes back as one of milliseconds. -/
theorem not_survives_nano : ¬ Survives Json.compact (oneColumn (.timestamp .NANO [])) := by
  intro h
  obtain ⟨text, after, htext, hread, hafter, -⟩ := h (oneColumn .int64)
  have hstored := fromJSON_metaValue Json.compact (oneColumn (.timestamp .NANO []))
    (oneColumn .int64) [⟨['t'], .timestamp .NANO []⟩]
  cases htext
  rw [show (oneColumn .int64).fromJSON Json.compact _ = _ from hstored, hafter] at hread
  have hschema := congrArg DatasetMeta.schema (Except.ok.inj hread)
  have hnew : NewDatasetSchema Json.compact .TABLE
      (TableSchema.toJSON Json.compact [⟨['t'], .timestamp .NANO []⟩]) =
        some [⟨['t'], .timestamp .MILLI []⟩] :=
    congrArg some (ofText_toJSON Json.compact [⟨['t'], .timestamp .NANO []⟩])
  have hcontra : some [Field.mk ['t'] (.timestamp .MILLI [])] =
      some [Field.mk ['t'] (.timestamp .NANO [])] := hnew.symm.trans hschema
  exact absurd hcontra (by decide)

end Fediux.Service
