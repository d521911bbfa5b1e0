import Fediux.Service.DatasetMeta

set_option autoImplicit false

/-! # Finding the metas of datasets

`FindPeerListFromDatasets` (`service/dataset/meta_service/grpc_impl.cc`) asks the meta service
for the metas of a list of datasets, each of which stands with the tag of its party, and hands
the list of metas and tags to a handler. The tags are kept in a map by dataset id.
-/

namespace Fediux.Service

open Node (Str Retcode)
open OrderedMap (Entries assignAll find?)

/-! ## Messages -/

/-- `rpc::MetaInfo`. -/
structure MetaInfo where
  id : Str
  driver : Str
  access_info : Str
  address : Str
  visibility : ℤ
  data_type : List FieldType
  deriving DecidableEq, Repr

inductive Status where
  | Available
  | Unavailable
  deriving DecidableEq, Repr

/-- `rpc::DatasetData`. -/
structure DatasetData where
  available : Status
  meta_info : MetaInfo
  deriving DecidableEq, Repr

/-- `rpc::GetDatasetResponse`. -/
structure GetDatasetResponse where
  ret_code : Retcode
  data_set : List DatasetData
  deriving DecidableEq, Repr

/-- The meta service: the reply to the ids of a request at each attempt, if the call comes
through. -/
abbrev MetaService := List Str → ℕ → Option GetDatasetResponse

/-! ## `GrpcDatasetMetaService` -/

abbrev DatasetWithParamTag := Str × Str

abbrev DatasetMetaWithParamTag := DatasetMeta × Str

/-- The meta `mate` is changed into the one of the message. -/
def PbMetaInfoToMeta (pb_meta_info : MetaInfo) (mate : DatasetMeta) : DatasetMeta :=
  { mate with
    server_meta := pb_meta_info.address
    access_meta := pb_meta_info.access_info
    visibility := .ofInt pb_meta_info.visibility
    id := pb_meta_info.id
    driver_type := pb_meta_info.driver
    data_type := .TABLE
    schema := some (TableSchema.FromFields pb_meta_info.data_type) }

/-- What the handler was called with, if it was, and how the call ended: with a return code or
with an exception. -/
structure Found where
  handled : Option (List DatasetMetaWithParamTag)
  result : Except Str Retcode

/-- The first reply from the attempt `retry_time` on, with `retries` attempts after it. -/
def getDataset (call : ℕ → Option GetDatasetResponse) :
    (retries retry_time : ℕ) → Option GetDatasetResponse
  | 0, retry_time => call retry_time
  | retries + 1, retry_time =>
      match call retry_time with
      | some reply => some reply
      | none => getDataset call retries (retry_time + 1)

/-- The entry for an answer, where a new meta is `blank` at first. -/
def findTag (blank : DatasetMeta) (id2tag : Entries Str Str) (dataset : DatasetData) :
    Option DatasetMetaWithParamTag :=
  if dataset.available = .Available then
    (find? id2tag dataset.meta_info.id).map fun dataset_tag =>
      (PbMetaInfoToMeta dataset.meta_info blank, dataset_tag)
  else none

def wrongSize (expected got : ℕ) : Str :=
  ("Failed to get all dataset's meta, no handler triggered. expected dataset size: " ++
    toString expected ++ ", but get: " ++ toString got).toList

def FindPeerListFromDatasets (service : MetaService) (retry_max_times : ℕ) (blank : DatasetMeta)
    (datasets_with_tag : List DatasetWithParamTag) : Found :=
  if datasets_with_tag = [] then { handled := none, result := .ok .FAIL }
  else
    let request := datasets_with_tag.map Prod.fst
    let id2tag : Entries Str Str := assignAll [] datasets_with_tag
    match getDataset (service request) retry_max_times 0 with
    | none => { handled := none, result := .ok .FAIL }
    | some reply =>
        if reply.ret_code ≠ .SUCCESS then { handled := none, result := .ok .FAIL }
        else
          let meta_list := reply.data_set.filterMap (findTag blank id2tag)
          if datasets_with_tag.length ≠ meta_list.length then
            { handled := none
              result := .error (wrongSize datasets_with_tag.length meta_list.length) }
          else { handled := some meta_list, result := .ok .SUCCESS }

/-! ## One entry for each pair -/

section

variable (stored : Str → MetaInfo) (pairs : List DatasetWithParamTag)

/-- The handler is called with exactly one entry for each pair, in some order: the stored meta of
the pair's dataset and the pair's tag. -/
def GivesEach (blank : DatasetMeta) (found : Found) : Prop :=
  ∃ meta_list, found.handled = some meta_list ∧
    meta_list.Perm (pairs.map fun p => (PbMetaInfoToMeta (stored p.1) blank, p.2))

/-- The service answers every id it is asked for, with its stored meta. -/
structure Answers (reply : GetDatasetResponse) : Prop where
  success : reply.ret_code = .SUCCESS
  complete : ∀ id ∈ pairs.map Prod.fst, ∃ dataset ∈ reply.data_set,
    dataset.available = .Available ∧ dataset.meta_info.id = id
  own : ∀ dataset ∈ reply.data_set, dataset.available = .Available →
    dataset.meta_info.id ∈ pairs.map Prod.fst → dataset.meta_info = stored dataset.meta_info.id

/-- The ids of the answers to the request. -/
def answeredIds (reply : GetDatasetResponse) : List Str :=
  (reply.data_set.filter fun dataset =>
    dataset.available = .Available && (pairs.map Prod.fst).contains dataset.meta_info.id).map
      fun dataset => dataset.meta_info.id

/-- Pairs with the same dataset have the same tag. -/
def OneTag : Prop := ∀ p ∈ pairs, ∀ q ∈ pairs, p.1 = q.1 → p.2 = q.2

end

section

variable {stored : Str → MetaInfo} {pairs : List DatasetWithParamTag} {reply : GetDatasetResponse}

/-- The tag that is kept for an id. -/
def tagOf (pairs : List DatasetWithParamTag) (id : Str) : Str :=
  (find? (assignAll [] pairs : Entries Str Str) id).getD []

theorem find?_id2tag (pairs : List DatasetWithParamTag) (id : Str) :
    find? (assignAll [] pairs : Entries Str Str) id = find? pairs.reverse id := by
  rw [OrderedMap.find?_assignAll, OrderedMap.find?_nil, Option.or_none]

theorem find?_id2tag_of_mem {id : Str} (h : id ∈ pairs.map Prod.fst) :
    find? (assignAll [] pairs : Entries Str Str) id = some (tagOf pairs id) := by
  have hsome : find? (assignAll [] pairs : Entries Str Str) id ≠ none := by
    rw [find?_id2tag, ne_eq, OrderedMap.find?_eq_none_iff, List.map_reverse, List.mem_reverse]
    exact not_not_intro h
  obtain ⟨tag, htag⟩ := Option.ne_none_iff_exists'.mp hsome
  rw [tagOf, htag, Option.getD_some]

theorem find?_id2tag_of_notMem {id : Str} (h : id ∉ pairs.map Prod.fst) :
    find? (assignAll [] pairs : Entries Str Str) id = none := by
  rwa [find?_id2tag, OrderedMap.find?_eq_none_iff, List.map_reverse, List.mem_reverse]

/-- The kept tag is the one of a pair with this id. -/
theorem tagOf_mem {id : Str} (h : id ∈ pairs.map Prod.fst) : (id, tagOf pairs id) ∈ pairs := by
  have hfind := find?_id2tag_of_mem h
  rw [find?_id2tag] at hfind
  exact List.mem_reverse.mp (OrderedMap.mem_of_find?_eq_some hfind)

/-- The entries of the handler's list are those of the answers to the request. -/
theorem metaList_eq (h : Answers stored pairs reply) (blank : DatasetMeta) :
    reply.data_set.filterMap (findTag blank (assignAll [] pairs)) =
      (answeredIds pairs reply).map fun id =>
        (PbMetaInfoToMeta (stored id) blank, tagOf pairs id) := by
  have hone : ∀ dataset ∈ reply.data_set, findTag blank (assignAll [] pairs) dataset =
      if dataset.available = .Available ∧ dataset.meta_info.id ∈ pairs.map Prod.fst then
        some (PbMetaInfoToMeta (stored dataset.meta_info.id) blank,
          tagOf pairs dataset.meta_info.id)
      else none := by
    intro dataset hdataset
    unfold findTag
    by_cases havailable : dataset.available = .Available
    · by_cases hid : dataset.meta_info.id ∈ pairs.map Prod.fst
      · rw [if_pos havailable, if_pos ⟨havailable, hid⟩, find?_id2tag_of_mem hid,
          ← h.own dataset hdataset havailable hid]
        rfl
      · rw [if_pos havailable, if_neg fun hboth => hid hboth.2, find?_id2tag_of_notMem hid]
        rfl
    · rw [if_neg havailable, if_neg fun hboth => havailable hboth.1]
  rw [answeredIds, List.map_map, ← List.filterMap_eq_map, List.filterMap_filter]
  refine List.filterMap_congr fun dataset hdataset => ?_
  rw [hone dataset hdataset]
  simp only [Bool.and_eq_true, decide_eq_true_eq, List.contains_iff_mem]
  rfl

theorem mem_keys_of_answered {id : Str} (h : id ∈ answeredIds pairs reply) :
    id ∈ pairs.map Prod.fst := by
  obtain ⟨dataset, hdataset, rfl⟩ := List.mem_map.mp h
  have htest := (List.mem_filter.mp hdataset).2
  rw [Bool.and_eq_true] at htest
  exact List.contains_iff_mem.mp htest.2

/-- The stored meta of an id that is asked for has this id. -/
theorem Answers.id_stored (h : Answers stored pairs reply) {id : Str}
    (hid : id ∈ pairs.map Prod.fst) : (stored id).id = id := by
  obtain ⟨dataset, hdataset, havailable, rfl⟩ := h.complete id hid
  rw [← h.own dataset hdataset havailable hid]

/-- The call hands the entries of the answers over, if there are as many as pairs. -/
theorem handled_eq {service : MetaService} {retry_max_times : ℕ}
    (hreply : getDataset (service (pairs.map Prod.fst)) retry_max_times 0 = some reply)
    (h : Answers stored pairs reply) (blank : DatasetMeta) (hne : pairs ≠ []) :
    (FindPeerListFromDatasets service retry_max_times blank pairs).handled =
      if pairs.length ≠ (answeredIds pairs reply).length then none
      else some ((answeredIds pairs reply).map fun id =>
        (PbMetaInfoToMeta (stored id) blank, tagOf pairs id)) := by
  unfold FindPeerListFromDatasets
  simp only [hne, hreply, h.success, metaList_eq h, List.length_map, if_false, ne_eq,
    not_true_eq_false]
  split <;> rfl

theorem perm_of_entries (h : Answers stored pairs reply) {blank : DatasetMeta}
    (hperm : ((answeredIds pairs reply).map fun id =>
      (PbMetaInfoToMeta (stored id) blank, tagOf pairs id)).Perm
        (pairs.map fun p => (PbMetaInfoToMeta (stored p.1) blank, p.2))) :
    (answeredIds pairs reply).Perm (pairs.map Prod.fst) := by
  have hids := hperm.map fun entry => entry.1.id
  rw [List.map_map, List.map_map] at hids
  have hanswered : (answeredIds pairs reply).map (fun id => (stored id).id) =
      answeredIds pairs reply := by
    have hsame : ∀ id ∈ answeredIds pairs reply, (stored id).id = id := fun id hid =>
      h.id_stored (mem_keys_of_answered hid)
    exact (List.map_congr_left hsame).trans (List.map_id _)
  have hasked : pairs.map (fun p => (stored p.1).id) = pairs.map Prod.fst :=
    List.map_congr_left fun p hp => h.id_stored (List.mem_map_of_mem hp)
  rw [← hanswered, ← hasked]
  exact hids

theorem oneTag_of_entries (h : Answers stored pairs reply) {blank : DatasetMeta}
    (hperm : ((answeredIds pairs reply).map fun id =>
      (PbMetaInfoToMeta (stored id) blank, tagOf pairs id)).Perm
        (pairs.map fun p => (PbMetaInfoToMeta (stored p.1) blank, p.2))) : OneTag pairs := by
  have hkept : ∀ p ∈ pairs, p.2 = tagOf pairs p.1 := by
    intro p hp
    have hmem := hperm.mem_iff.mpr (List.mem_map_of_mem (f := fun p : DatasetWithParamTag =>
      (PbMetaInfoToMeta (stored p.1) blank, p.2)) hp)
    obtain ⟨id, hid, hentry⟩ := List.mem_map.mp hmem
    have hsame : (stored id).id = (stored p.1).id :=
      congrArg (fun entry => entry.1.id) hentry
    rw [h.id_stored (mem_keys_of_answered hid), h.id_stored (List.mem_map_of_mem hp)] at hsame
    rw [← hsame]
    exact (congrArg Prod.snd hentry).symm
  intro p hp q hq hpq
  rw [hkept p hp, hkept q hq, hpq]

/-- **When each pair gets its entry**, if the service answers every id with its stored meta:
each pair has one answer, and no dataset stands with two tags. -/
theorem givesEach_iff {service : MetaService} {retry_max_times : ℕ}
    (hreply : getDataset (service (pairs.map Prod.fst)) retry_max_times 0 = some reply)
    (h : Answers stored pairs reply) (blank : DatasetMeta) :
    GivesEach stored pairs blank (FindPeerListFromDatasets service retry_max_times blank pairs) ↔
      pairs ≠ [] ∧ (answeredIds pairs reply).Perm (pairs.map Prod.fst) ∧ OneTag pairs := by
  constructor
  · rintro ⟨meta_list, hhandled, hperm⟩
    have hne : pairs ≠ [] := by
      rintro rfl
      cases hhandled
    rw [handled_eq hreply h blank hne] at hhandled
    split at hhandled
    · cases hhandled
    · rw [← Option.some.inj hhandled] at hperm
      exact ⟨hne, perm_of_entries h hperm, oneTag_of_entries h hperm⟩
  · rintro ⟨hne, hperm, htag⟩
    have hlen : pairs.length = (answeredIds pairs reply).length := by
      rw [hperm.length_eq, List.length_map]
    have hhandled := handled_eq hreply h blank hne
    rw [if_neg (not_not_intro hlen)] at hhandled
    refine ⟨_, hhandled, ?_⟩
    -- the kept tag of a pair's id is the pair's tag
    have hsame : ∀ p ∈ pairs, (PbMetaInfoToMeta (stored p.1) blank, tagOf pairs p.1) =
        (PbMetaInfoToMeta (stored p.1) blank, p.2) := by
      intro p hp
      have hkept : tagOf pairs p.1 = p.2 := htag _ (tagOf_mem (List.mem_map_of_mem hp)) p hp rfl
      rw [hkept]
    have hmap := hperm.map fun id => (PbMetaInfoToMeta (stored id) blank, tagOf pairs id)
    rw [List.map_map] at hmap
    exact hmap.trans (List.Perm.of_eq (List.map_congr_left hsame))

end

/-! ## A service that answers one by one -/

/-- The stored meta of a dataset without columns. -/
def plainMeta (id : Str) : MetaInfo where
  id := id
  driver := []
  access_info := []
  address := []
  visibility := 0
  data_type := []

/-- The service answers the ids in their order. -/
def inOrder : MetaService := fun ids _ => some
  { ret_code := .SUCCESS
    data_set := ids.map fun id => ⟨.Available, plainMeta id⟩ }

theorem answers_inOrder (pairs : List DatasetWithParamTag) :
    Answers plainMeta pairs
      { ret_code := .SUCCESS
        data_set := (pairs.map Prod.fst).map fun id => ⟨.Available, plainMeta id⟩ } where
  success := rfl
  complete id hid := ⟨_, List.mem_map_of_mem hid, rfl, rfl⟩
  own dataset hdataset _ _ := by
    obtain ⟨id, _, rfl⟩ := List.mem_map.mp hdataset
    rfl

theorem givesEach_two : GivesEach plainMeta [(['a'], ['x']), (['b'], ['x'])] (oneColumn .int64)
    (FindPeerListFromDatasets inOrder 3 (oneColumn .int64) [(['a'], ['x']), (['b'], ['x'])]) := by
  have hreply : getDataset (inOrder [['a'], ['b']]) 3 0 = some _ := rfl
  apply (givesEach_iff hreply (answers_inOrder [(['a'], ['x']), (['b'], ['x'])])
    (oneColumn .int64)).mpr
  refine ⟨by decide, by decide, ?_⟩
  unfold OneTag
  decide

/-- A dataset with two tags gives two entries with the second tag. -/
theorem not_givesEach_two_tags :
    ¬ GivesEach plainMeta [(['a'], ['x']), (['a'], ['y'])] (oneColumn .int64)
      (FindPeerListFromDatasets inOrder 3 (oneColumn .int64) [(['a'], ['x']), (['a'], ['y'])]) := by
  rintro ⟨meta_list, hhandled, hperm⟩
  cases hhandled
  have htags := hperm.map Prod.snd
  have hcontra : [['y'], ['y']].Perm [['x'], ['y']] := htags
  exact absurd hcontra (by decide)

end Fediux.Service
