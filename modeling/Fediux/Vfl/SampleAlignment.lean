import Fediux.Basic.CommonOrder
import Fediux.Util.StrSplit
import Fediux.Basic.Fallible

set_option autoImplicit false

/-! # Aligning the samples of two parties

`sample_alignment` of `FL/psi/psi.py`: each party filters its own table to the ids that the
private set intersection returns. Vertical training adds the contributions of the parties row by
row, so the rows that are left have to stand in the same order on both sides
(`sample_alignment_aligned_iff`).
-/

namespace Fediux.Vfl

open Fediux.Util CommonOrder

/-- The types of an id column that are told apart. -/
inductive Dtype where
  | integer
  | string
  | other (dtype : Str)
  deriving DecidableEq, Repr

inductive PsiType where
  | ECDH
  | KKRT
  deriving DecidableEq, Repr

inductive DataType where
  | Interger
  | String
  deriving DecidableEq, Repr

inductive AlignError where
  /-- "The current PSI only support two parties." -/
  | twoParties
  /-- "Invalid PSI protocol ..., use {"ECDH", "KKRT"} instead." -/
  | invalidProtocol (protocol : Str)
  /-- "Unsupported data type: ..." -/
  | unsupportedDataType (dtype : Str)
  deriving DecidableEq, Repr

/-- `roles["guest"]`: a name, or a list of names. -/
inductive Guest where
  | one (name : Str)
  | many (names : List Str)
  deriving DecidableEq, Repr

structure Roles where
  host : Str
  guest : Guest
  deriving DecidableEq, Repr

def Guest.toList : Guest → List Str
  | .one name => [name]
  | .many names => names

/-- `guest.append(host)`: a list in the roles of the caller grows, as only the dictionary was
copied. -/
def Guest.append (host : Str) : Guest → Guest
  | .one name => .one name
  | .many names => .many (names ++ [host])

/-- A table beside its id column. -/
structure Frame (I R : Type) where
  dtype : Dtype
  rows : List (I × R)
  deriving DecidableEq, Repr

def Frame.ids {I R : Type} (X : Frame I R) : List I := X.rows.map Prod.fst

/-- What is handed to the PSI executor. -/
structure PsiCall (I : Type) where
  input : List I
  parties : List Str
  receiver : Str
  broadcast : Bool
  protocol : PsiType
  data_type : DataType
  deriving DecidableEq, Repr

/-- `TwoPartyPsi.run`: nothing is run on an empty input. -/
def TwoPartyPsi.run {I : Type} (psi_executor : PsiCall I → List I) (call : PsiCall I) : List I :=
  if call.input.length = 0 then [] else psi_executor call

def psiType (protocol : Str) : Except AlignError PsiType :=
  let protocol := protocol.map Char.toUpper
  if protocol = "ECDH".toList then .ok .ECDH
  else if protocol = "KKRT".toList then .ok .KKRT
  else .error (.invalidProtocol protocol)

def dataType : Dtype → Except AlignError DataType
  | .integer => .ok .Interger
  | .string => .ok .String
  | .other dtype => .error (.unsupportedDataType dtype)

/-- `X[input.isin(intersection)]`. -/
def Frame.isin {I R : Type} [DecidableEq I] (X : Frame I R) (intersection : List I) :
    Frame I R :=
  { X with rows := X.rows.filter fun row => decide (row.1 ∈ intersection) }

/-- `sample_alignment` of one party, and what becomes of the roles of the caller. -/
def sample_alignment {I R : Type} [DecidableEq I] (psi_executor : PsiCall I → List I)
    (X : Frame I R) (roles : Roles) (protocol : Str) : Except AlignError (Frame I R × Roles) :=
  let guest := roles.guest.toList
  if 1 < guest.length then .error .twoParties
  else do
    let protocol ← psiType protocol
    let data_type ← dataType X.dtype
    let intersection := TwoPartyPsi.run psi_executor
      { input := X.ids
        parties := guest ++ [roles.host]
        receiver := roles.host
        broadcast := true
        protocol := protocol
        data_type := data_type }
    return (X.isin intersection, { roles with guest := roles.guest.append roles.host })

/-- The PSI of one party on the ids `mine` returns exactly the ids that the other one has too. -/
def PsiExact {I : Type} (psi_executor : PsiCall I → List I) (mine other : List I) : Prop :=
  ∀ call, call.input = mine → ∀ i, i ∈ psi_executor call ↔ i ∈ mine ∧ i ∈ other

/-- The tables have the same number of rows, and row `i` carries the same id in both. -/
def RowsAligned {I R R' : Type} (X : Frame I R) (Y : Frame I R') : Prop :=
  X.rows.length = Y.rows.length ∧
    ∀ (i : ℕ) (row : I × R) (row' : I × R'), X.rows[i]? = some row → Y.rows[i]? = some row' →
      row.1 = row'.1

theorem rowsAligned_iff {I R R' : Type} {X : Frame I R} {Y : Frame I R'} :
    RowsAligned X Y ↔ X.ids = Y.ids := by
  constructor
  · rintro ⟨hlen, hrows⟩
    refine List.ext_getElem (by simp [Frame.ids, hlen]) fun i hi hi' => ?_
    simp only [Frame.ids, List.length_map] at hi hi'
    simpa [Frame.ids] using hrows i _ _ (List.getElem?_eq_getElem hi)
      (List.getElem?_eq_getElem hi')
  · intro h
    refine ⟨by simpa [Frame.ids] using congrArg List.length h, fun i row row' hrow hrow' => ?_⟩
    have hi := congrArg (fun ids => ids[i]?) h
    simpa [Frame.ids, hrow, hrow'] using hi

variable {I R R' : Type} [DecidableEq I] {psi_executor psi_executor' : PsiCall I → List I}
  {X X' : Frame I R} {Y Y' : Frame I R'} {roles roles' : Roles} {protocol : Str}

/-- What a party is left with when its call succeeds. -/
theorem sample_alignment_eq_ok
    (h : sample_alignment psi_executor X roles protocol = .ok (X', roles')) :
    (∃ call, call.input = X.ids ∧ X' = X.isin (TwoPartyPsi.run psi_executor call)) ∧
      roles' = { roles with guest := roles.guest.append roles.host } := by
  have hguest : ¬ 1 < roles.guest.toList.length := by
    intro hlt
    simp [sample_alignment, hlt] at h
  simp only [sample_alignment, hguest, if_false] at h
  obtain ⟨type, _, h⟩ := Fallible.bind_eq_ok.mp h
  obtain ⟨data_type, _, h⟩ := Fallible.bind_eq_ok.mp h
  cases h
  exact ⟨⟨_, rfl, rfl⟩, rfl⟩

/-- The rows that are left are those with a common id, in the party's own order. -/
theorem ids_of_sample_alignment {other : List I} (hpsi : PsiExact psi_executor X.ids other)
    (h : sample_alignment psi_executor X roles protocol = .ok (X', roles')) :
    X'.ids = common X.ids other := by
  obtain ⟨⟨call, hcall, rfl⟩, _⟩ := sample_alignment_eq_ok h
  have hmem : ∀ row ∈ X.rows,
      (row.1 ∈ TwoPartyPsi.run psi_executor call ↔ row.1 ∈ other) := by
    intro row hrow
    have hid : row.1 ∈ X.ids := List.mem_map_of_mem hrow
    have hne : call.input.length ≠ 0 := by
      rw [hcall]
      exact (List.length_pos_of_mem hid).ne'
    rw [TwoPartyPsi.run, if_neg hne, hpsi call hcall]
    simp [hid]
  simp only [Frame.ids, Frame.isin, common, List.filter_map]
  congr 1
  exact List.filter_congr fun row hrow => by simpa using hmem row hrow

/-- An alignment leaves the host in the guest list of the caller, so the next one fails. -/
theorem sample_alignment_again {names : List Str} {S : Type} {Z : Frame I S} {protocol' : Str}
    (h : sample_alignment psi_executor X roles protocol = .ok (X', roles'))
    (hnames : roles.guest = .many names) (hne : names ≠ []) :
    sample_alignment psi_executor' Z roles' protocol' = .error .twoParties := by
  obtain ⟨_, rfl⟩ := sample_alignment_eq_ok h
  have hpos : 0 < names.length := List.length_pos_of_ne_nil hne
  simp [sample_alignment, hnames, Guest.append, Guest.toList, hpos]

/-- **The rows of the two aligned tables match exactly when the common ids stand in the same
order in both tables.** Nothing but the order of the parties' own rows decides it. -/
theorem sample_alignment_aligned_iff (hpsi : PsiExact psi_executor X.ids Y.ids)
    (hpsi' : PsiExact psi_executor' Y.ids X.ids) (hx : X.ids.Nodup) (hy : Y.ids.Nodup)
    {host guest : Roles}
    (hhost : sample_alignment psi_executor X roles protocol = .ok (X', host))
    (hguest : sample_alignment psi_executor' Y roles protocol = .ok (Y', guest)) :
    RowsAligned X' Y' ↔ SameOrder X.ids Y.ids := by
  rw [rowsAligned_iff, ids_of_sample_alignment hpsi hhost, ids_of_sample_alignment hpsi' hguest]
  exact common_eq_iff hx hy

/-- The roles of a task with one guest. -/
def hostAndGuest : Roles := { host := ['a'], guest := .many [['b']] }

/-- Two rows with integer ids. -/
def twoIds (i j : ℕ) : Frame ℕ Unit := { dtype := .integer, rows := [(i, ()), (j, ())] }

/-- The PSI between two parties of which the other one has `other`. -/
def exactPsi (other : List ℕ) (call : PsiCall ℕ) : List ℕ :=
  call.input.filter fun i => decide (i ∈ other)

theorem psiExact_exactPsi (mine other : List ℕ) : PsiExact (exactPsi other) mine other := by
  rintro call rfl i
  simp [exactPsi]

/-- Two parties whose rows stand in the same order. -/
theorem sample_alignment_aligned_iff_sameOrder :
    RowsAligned (twoIds 1 2) (twoIds 1 2) ↔ SameOrder (twoIds 1 2).ids (twoIds 1 2).ids := by
  have hcall : sample_alignment (exactPsi (twoIds 1 2).ids) (twoIds 1 2) hostAndGuest
      ['k', 'k', 'r', 't'] = .ok (twoIds 1 2, { host := ['a'], guest := .many [['b'], ['a']] }) :=
    by decide
  exact sample_alignment_aligned_iff (psiExact_exactPsi _ _) (psiExact_exactPsi _ _) (by decide)
    (by decide) hcall hcall

/-- The rows of the guest stand the other way round. -/
theorem not_rowsAligned_swapped :
    ∃ X' Y' host guest,
      sample_alignment (exactPsi (twoIds 2 1).ids) (twoIds 1 2) hostAndGuest ['E', 'C', 'D', 'H'] =
        .ok (X', host) ∧
      sample_alignment (exactPsi (twoIds 1 2).ids) (twoIds 2 1) hostAndGuest ['E', 'C', 'D', 'H'] =
        .ok (Y', guest) ∧
      ¬ RowsAligned X' Y' := by
  refine ⟨twoIds 1 2, twoIds 2 1, _, _, rfl, rfl, ?_⟩
  rw [rowsAligned_iff]
  decide

end Fediux.Vfl
