import Fediux.Basic.Strto
import Fediux.Util.StrSplit

set_option autoImplicit false

/-! # The text of a node

`Node::to_string` joins the fields by colons, and `Node::fromString` splits the text and reads the
pieces by their position (`common/common.h`). `fromString_iff` says which nodes are read back and
which texts are read within their pieces.
-/

namespace Fediux.Util

open Strto (StoError)

structure Node where
  id_ : Str
  ip_ : Str
  port_ : {port : ℕ // port < 2 ^ 32}
  use_tls_ : Bool
  role_ : Str
  deriving DecidableEq

namespace Node

/-- `Node()`. -/
def default : Node where
  id_ := []
  ip_ := []
  port_ := ⟨0, Nat.two_pow_pos 32⟩
  use_tls_ := false
  role_ := []

def to_string (node : Node) : Str :=
  node.id_ ++ [':'] ++ node.ip_ ++ [':'] ++ Json.dumpInt node.port_.1 ++ [':'] ++
    [if node.use_tls_ then '1' else '0'] ++ [':'] ++ node.role_

/-- How `fromString` does not come to its end. -/
inductive Fault where
  | exception (e : StoError)
  | outOfBounds
  deriving DecidableEq

/-- `v[i]`. -/
def piece (v : List Str) (i : ℕ) : Except Fault Str :=
  match v[i]? with
  | some s => .ok s
  | none => .error .outOfBounds

/-- `std::stoi` with what is thrown. -/
def stoi (s : Str) : Except Fault ℤ :=
  match Strto.stoInt 32 s with
  | .ok (n, _) => .ok n
  | .error e => .error (.exception e)

/-- The conversion to `uint32_t`. -/
def toUInt32 (n : ℤ) : {port : ℕ // port < 2 ^ 32} :=
  ⟨(n % 2 ^ 32).toNat, by omega⟩

def fromString (node : Node) (node_info : Str) : Except Fault Node := do
  let v := str_split_char ':' node_info
  let id ← piece v 0
  let ip ← piece v 1
  let port ← stoi (← piece v 2)
  let use_tls ← piece v 3
  return {
    id_ := id
    ip_ := ip
    port_ := toUInt32 port
    use_tls_ := use_tls = ['1']
    role_ := if v.length = 5 then v.getD 4 [] else node.role_ }

/-! ## Nodes are read back -/

/-- No colon in a field that is a text, and a port that `stoi` can read. -/
structure ReadBack (node : Node) : Prop where
  id_ : ':' ∉ node.id_
  ip_ : ':' ∉ node.ip_
  role_ : ':' ∉ node.role_
  port_ : node.port_.1 < 2 ^ 31

/-- The pieces of a text of a node. -/
def pieces (node : Node) : List Str :=
  [node.id_, node.ip_, Json.dumpInt node.port_.1, [if node.use_tls_ then '1' else '0'],
    node.role_]

theorem to_string_eq (node : Node) : node.to_string = List.intercalate [':'] node.pieces := by
  simp [to_string, pieces, List.intercalate_cons_cons, List.intercalate_singleton]

theorem str_split_to_string {node : Node} (hid : ':' ∉ node.id_) (hip : ':' ∉ node.ip_)
    (hrole : ':' ∉ node.role_) : str_split_char ':' node.to_string = node.pieces := by
  rw [to_string_eq]
  apply str_split_char_intercalate
  · exact List.cons_ne_nil _ _
  · intro v hv
    simp only [pieces, List.mem_cons, List.not_mem_nil, or_false] at hv
    rcases hv with rfl | rfl | rfl | rfl | rfl
    · exact hid
    · exact hip
    · exact Json.notMem_dumpInt rfl (by decide) _
    · cases node.use_tls_ <;> decide
    · exact hrole

theorem stoi_dumpInt (n : ℕ) : stoi (Json.dumpInt n) =
    if n < 2 ^ 31 then .ok (n : ℤ) else .error (.exception .out_of_range) := by
  have hread := Strto.readInt_dumpInt n (r := []) (fun c hc => by cases hc)
  rw [List.append_nil] at hread
  unfold stoi
  rw [Strto.stoInt_of_readInt hread]
  by_cases h : n < 2 ^ 31
  · rw [if_pos h, if_pos (by omega)]
  · rw [if_neg h, if_neg (by omega)]

theorem fromString_of_pieces {node_info : Str} {node : Node}
    (h : str_split_char ':' node_info = node.pieces) : default.fromString node_info =
      if node.port_.1 < 2 ^ 31 then .ok node else .error (.exception .out_of_range) := by
  have hport := stoi_dumpInt node.port_.1
  unfold fromString
  rw [h]
  by_cases hlt : node.port_.1 < 2 ^ 31
  · rw [if_pos hlt] at hport ⊢
    show (stoi (Json.dumpInt node.port_.1)).bind _ = _
    rw [hport]
    have hback : toUInt32 node.port_.1 = node.port_ := by
      apply Subtype.ext
      show ((node.port_.1 : ℤ) % 2 ^ 32).toNat = node.port_.1
      omega
    have htls : (decide ([if node.use_tls_ then '1' else '0'] = ['1'])) = node.use_tls_ := by
      cases node.use_tls_ <;> rfl
    show Except.ok (Node.mk node.id_ node.ip_ (toUInt32 node.port_.1)
      (decide ([if node.use_tls_ then '1' else '0'] = ['1'])) node.role_) = _
    rw [hback, htls]
  · rw [if_neg hlt] at hport ⊢
    show (stoi (Json.dumpInt node.port_.1)).bind _ = _
    rw [hport]
    rfl

/-! ## What is read -/

/-- The pieces that are read are there, or the text of the port is not one. -/
def Readable (node_info : Str) : Prop :=
  4 ≤ (str_split_char ':' node_info).length ∨
    ∃ a b c, str_split_char ':' node_info = [a, b, c] ∧ ∀ n, stoi c ≠ .ok n

/-- What `fromString` makes of the pieces. -/
def fromPieces (node : Node) : List Str → Except Fault Node
  | a :: b :: c :: v =>
      (stoi c).bind fun port =>
        (piece v 0).bind fun use_tls =>
          .ok {
            id_ := a
            ip_ := b
            port_ := toUInt32 port
            use_tls_ := use_tls = ['1']
            role_ := if v.length = 2 then v.getD 1 [] else node.role_ }
  | _ => .error .outOfBounds

theorem fromString_eq (node : Node) (node_info : Str) :
    node.fromString node_info = node.fromPieces (str_split_char ':' node_info) := by
  unfold fromString
  rcases str_split_char ':' node_info with _ | ⟨a, _ | ⟨b, _ | ⟨c, v⟩⟩⟩
  · rfl
  · rfl
  · rfl
  · have hlen : (a :: b :: c :: v).length = 5 ↔ v.length = 2 := by simp
    simp only [hlen]
    rfl

theorem stoi_cases (s : Str) : (∃ n, stoi s = .ok n) ∨ ∃ e, stoi s = .error (.exception e) := by
  unfold stoi
  cases Strto.stoInt 32 s with
  | error e => exact Or.inr ⟨e, rfl⟩
  | ok x => exact Or.inl ⟨x.1, rfl⟩

/-- **What is read of a text** is there, if and only if the text is readable. -/
theorem fromString_ne_outOfBounds_iff (target : Node) (node_info : Str) :
    target.fromString node_info ≠ .error .outOfBounds ↔ Readable node_info := by
  rw [fromString_eq]
  unfold Readable
  rcases str_split_char ':' node_info with _ | ⟨a, _ | ⟨b, _ | ⟨c, v⟩⟩⟩
  · simp [fromPieces]
  · simp [fromPieces]
  · simp [fromPieces]
  · cases v with
    | nil =>
        -- the text of the port decides
        rcases stoi_cases c with ⟨n, hn⟩ | ⟨e, he⟩
        · simp [fromPieces, piece, hn, Except.bind]
        · simp [fromPieces, he, Except.bind]
    | cons d v =>
        rcases stoi_cases c with ⟨n, hn⟩ | ⟨e, he⟩
        · simp [fromPieces, piece, hn, Except.bind]
        · simp [fromPieces, he, Except.bind]

theorem readBack_of_fromString {node : Node}
    (h : default.fromString node.to_string = .ok node) : ReadBack node := by
  have hpieces : ∀ s ∈ str_split_char ':' node.to_string, ':' ∉ s := by
    intro s hs
    rw [str_split_char_eq] at hs
    exact Separator.not_mem_of_mem_splitOn hs
  have hback := h
  rw [fromString_eq] at h
  have hfields : ':' ∉ node.id_ ∧ ':' ∉ node.ip_ ∧ ':' ∉ node.role_ := by
    rcases hv : str_split_char ':' node.to_string with _ | ⟨a, _ | ⟨b, _ | ⟨c, _ | ⟨d, v⟩⟩⟩⟩
    · rw [hv] at h
      cases h
    · rw [hv] at h
      cases h
    · rw [hv] at h
      cases h
    · rw [hv] at h
      rcases stoi_cases c with ⟨n, hn⟩ | ⟨e, he⟩
      · simp [fromPieces, piece, hn, Except.bind] at h
      · simp [fromPieces, he, Except.bind] at h
    · rw [hv] at h hpieces
      rcases stoi_cases c with ⟨n, hn⟩ | ⟨e, he⟩
      · simp only [fromPieces, hn] at h
        have hnode := Except.ok.inj h
        refine ⟨?_, ?_, ?_⟩
        · rw [← hnode]
          exact hpieces a (by simp)
        · rw [← hnode]
          exact hpieces b (by simp)
        · rw [← hnode]
          -- the role is the last of five pieces, or empty
          cases v with
          | nil => exact List.not_mem_nil
          | cons e v =>
              cases v with
              | nil => exact hpieces e (by simp)
              | cons e' v => exact List.not_mem_nil
      · simp [fromPieces, he, Except.bind] at h
  obtain ⟨hid, hip, hrole⟩ := hfields
  rw [fromString_of_pieces (str_split_to_string hid hip hrole)] at hback
  refine ⟨hid, hip, hrole, ?_⟩
  by_contra hport
  rw [if_neg hport] at hback
  cases hback

/-- **When nodes and texts are read**: a node is read back from its text exactly when no field has
a colon and `stoi` can read the port, and a text is read within its pieces exactly when there are
four of them or the third of three is not a port. -/
theorem fromString_iff (node : Node) (node_info : Str) :
    (default.fromString node.to_string = .ok node ↔ ReadBack node) ∧
      (default.fromString node_info ≠ .error .outOfBounds ↔ Readable node_info) := by
  refine ⟨⟨readBack_of_fromString, fun h => ?_⟩, fromString_ne_outOfBounds_iff default node_info⟩
  rw [fromString_of_pieces (str_split_to_string h.id_ h.ip_ h.role_), if_pos h.port_]

/-- A node with an IPv6 address. -/
def loopback : Node where
  id_ := ['n']
  ip_ := [':', ':', '1']
  port_ := ⟨50050, by omega⟩
  use_tls_ := false
  role_ := "default".toList

/-- The node is not read back, and the text of a part of an address is read past its end. -/
theorem not_fromString_loopback :
    ¬ ((∀ node : Node, default.fromString node.to_string = .ok node) ∧
      ∀ node_info, default.fromString node_info ≠ .error .outOfBounds) := by
  rintro ⟨h, _⟩
  exact (readBack_of_fromString (h loopback)).ip_ (by decide)

end Node

end Fediux.Util
