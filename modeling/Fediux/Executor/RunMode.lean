import Fediux.Executor.Columns

set_option autoImplicit false

/-! # Columns and constants of an expression

`resolveRunMode` takes an operand for a constant when `getColumnDtype` returns an error. That
function raises an exception instead, so that an expression with a constant is never resolved
(`resolves_iff`). The configuration here is any one with an owner and a type for each column, of
either type.
-/

namespace Fediux.Express

open OrderedMap (Entries find? emplace insertAll)
open Replicated (Party)

namespace ColumnConfig

/-- Each column has an owner and a type, and the localities are not resolved yet. -/
structure Consistent (c : ColumnConfig) : Prop where
  nodup_owner : (c.colOwner.map Prod.fst).Nodup
  nodup_dtype : (c.colDtype.map Prod.fst).Nodup
  same_columns : ∀ name, name ∈ c.colOwner.map Prod.fst ↔ name ∈ c.colDtype.map Prod.fst

def configured (c : ColumnConfig) (token : Str) : Bool := (find? c.colDtype token).isSome

/-- The configuration with the localities. -/
def resolved (c : ColumnConfig) : ColumnConfig :=
  { c with localCol := insertAll c.localCol (c.colOwner.map fun e => (e.1, e.2 == c.partyId)) }

theorem resolveLocalColumn_eq {c : ColumnConfig} (h : c.Consistent) :
    c.resolveLocalColumn = .ok c.resolved := by
  have hlen : c.colDtype.length = c.colOwner.length := by
    have hperm := (List.perm_ext_iff_of_nodup h.nodup_dtype h.nodup_owner).mpr fun name =>
      (h.same_columns name).symm
    simpa using hperm.length_eq
  have hdtype : c.colOwner.find? (fun e => (find? c.colDtype e.1).isNone) = none := by
    rw [List.find?_eq_none]
    intro e he hnone
    have hmem := (h.same_columns e.1).mp (List.mem_map_of_mem he)
    exact OrderedMap.find?_eq_none_iff.mp (Option.isNone_iff_eq_none.mp hnone) hmem
  rw [resolveLocalColumn, if_neg (not_not.mpr hlen), hdtype]
  rfl

theorem getColumnDtype_of_configured {c : ColumnConfig} {token : Str}
    (h : c.configured token = true) : ∃ dtype, c.getColumnDtype token = .ok (0, dtype) := by
  obtain ⟨dtype, hdtype⟩ := Option.isSome_iff_exists.mp h
  exact ⟨dtype, by rw [getColumnDtype, hdtype]⟩

theorem getColumnDtype_of_not_configured {c : ColumnConfig} {token : Str}
    (h : c.configured token = false) : ∃ e, c.getColumnDtype token = .error e := by
  have hnone : find? c.colDtype token = none := by simpa [configured] using h
  rw [getColumnDtype, hnone]
  exact ⟨_, rfl⟩

end ColumnConfig

/-! ## The tokens -/

/-- An operand of a postfix expression. -/
def OperandToken (token : Str) : Prop := isOperatorStr token = false

/-- What a token is. -/
def typeOf (c : ColumnConfig) (token : Str) : TokenType :=
  if c.configured token then .COLUMN else .VALUE

/-- A literal with a fractional part. -/
def IsFractional (c : ColumnConfig) (token : Str) : Prop :=
  OperandToken token ∧ typeOf c token = .VALUE ∧ '.' ∈ token

/-- `resolveRunMode` returns, its map has the type of each operand, and the mode is the one of the
expression and the configuration. -/
def Resolves (c : ColumnConfig) (suffixStk : List Str) : Prop :=
  ∃ c' tokenTypeMap fp64Run, resolveRunMode c suffixStk = .ok (c', tokenTypeMap, fp64Run) ∧
    (∀ token ∈ suffixStk, OperandToken token →
      find? tokenTypeMap token = some (typeOf c token)) ∧
    (fp64Run = true ↔ ['/'] ∈ suffixStk ∨ (∃ token ∈ suffixStk, IsFractional c token) ∨
      ∃ e ∈ c.colDtype, e.2 = .FP64)

variable {c : ColumnConfig}

theorem configured_of_resolveToken {m m' : RunMode} {token : Str} (hop : OperandToken token)
    (h : resolveToken c m token = .ok m') : c.configured token = true := by
  by_contra hnot
  obtain ⟨e, he⟩ := ColumnConfig.getColumnDtype_of_not_configured (by simpa using hnot)
  rw [resolveToken, if_neg (by simpa [OperandToken] using hop), he] at h
  cases h

/-- A column is entered under its name. -/
theorem resolveToken_of_configured {token : Str} (hop : OperandToken token)
    (hc : c.configured token = true) (m : RunMode) :
    resolveToken c m token =
      .ok { m with tokenTypeMap := emplace m.tokenTypeMap token .COLUMN } := by
  obtain ⟨dtype, hdtype⟩ := ColumnConfig.getColumnDtype_of_configured hc
  rw [resolveToken, if_neg (by simpa [OperandToken] using hop), hdtype]
  rfl

theorem resolveToken_of_operator {token : Str} (hop : isOperatorStr token = true) (m : RunMode) :
    resolveToken c m token = .ok { m with hasDivOp := m.hasDivOp || token == ['/'] } := by
  rw [resolveToken, if_pos hop]

/-- Only columns are entered in the map. -/
def EntersColumns (m : RunMode) : Prop :=
  ∀ token v, find? m.tokenTypeMap token = some v → v = .COLUMN

/-- **The loop over the tokens**, where every operand is a column. -/
theorem foldlM_resolveToken (tokens : List Str)
    (hcols : ∀ token ∈ tokens, OperandToken token → c.configured token = true) (m : RunMode)
    (hm : EntersColumns m) :
    ∃ m', tokens.foldlM (resolveToken c) m = .ok m' ∧ EntersColumns m' ∧
      m'.hasFp64Val = m.hasFp64Val ∧
      (m'.hasDivOp = true ↔ m.hasDivOp = true ∨ ['/'] ∈ tokens) ∧
      ∀ token, (find? m'.tokenTypeMap token).isSome = true ↔
        (find? m.tokenTypeMap token).isSome = true ∨ (token ∈ tokens ∧ OperandToken token) := by
  induction tokens generalizing m with
  | nil => exact ⟨m, rfl, hm, rfl, by simp, by simp⟩
  | cons t tokens ih =>
      have hrest := fun token htoken => hcols token (List.mem_cons_of_mem t htoken)
      cases hop : isOperatorStr t with
      | true =>
          obtain ⟨m', h, hm', hval, hdiv, hmap⟩ :=
            ih hrest { m with hasDivOp := m.hasDivOp || t == ['/'] } hm
          refine ⟨m', ?_, hm', hval, ?_, ?_⟩
          · exact Fallible.foldlM_cons_eq_ok.mpr ⟨_, resolveToken_of_operator hop m, h⟩
          · rw [hdiv, List.mem_cons]
            simp only [Bool.or_eq_true, beq_iff_eq, or_assoc, eq_comm (a := t)]
          · intro token
            rw [hmap, List.mem_cons]
            refine or_congr_right (and_congr_left fun htoken => ?_)
            have hne : token ≠ t := by
              rintro rfl
              exact Bool.false_ne_true (htoken.symm.trans hop)
            simp [hne]
      | false =>
          have hm₁ : EntersColumns { m with tokenTypeMap := emplace m.tokenTypeMap t .COLUMN } := by
            intro token v hv
            rw [OrderedMap.find?_emplace] at hv
            split_ifs at hv with htoken
            · cases hfind : find? m.tokenTypeMap t with
              | none => simpa [hfind] using hv.symm
              | some w =>
                  rw [hfind, Option.getD_some, Option.some.injEq] at hv
                  exact hv ▸ hm t w hfind
            · exact hm token v hv
          obtain ⟨m', h, hm', hval, hdiv, hmap⟩ := ih hrest _ hm₁
          refine ⟨m', ?_, hm', hval, ?_, ?_⟩
          · exact Fallible.foldlM_cons_eq_ok.mpr ⟨_, resolveToken_of_configured hop
              (hcols t List.mem_cons_self hop) m, h⟩
          · have hne : ['/'] ≠ t := by
              rintro rfl
              exact absurd hop (by decide)
            rw [hdiv, List.mem_cons]
            simp [hne]
          · intro token
            rw [hmap, OrderedMap.find?_emplace, List.mem_cons]
            by_cases htoken : token = t
            · subst htoken
              simp [OperandToken, hop]
            · simp [htoken]

theorem hasFP64Column_iff (c : ColumnConfig) :
    c.hasFP64Column = true ↔ ∃ e ∈ c.colDtype, e.2 = .FP64 := by
  simp [ColumnConfig.hasFP64Column]

/-- Where every operand is a column, the expression is resolved. -/
theorem resolves_of_configured (hc : c.Consistent) {suffixStk : List Str}
    (hcols : ∀ token ∈ suffixStk, OperandToken token → c.configured token = true) :
    Resolves c suffixStk := by
  obtain ⟨m, hm, honly, hval, hdiv, hmap⟩ :=
    foldlM_resolveToken (c := c.resolved) suffixStk hcols ⟨false, false, []⟩
      fun token v hv => by cases hv
  have hrun : resolveRunMode c suffixStk =
      .ok (c.resolved, m.tokenTypeMap, m.hasDivOp || c.resolved.hasFP64Column || m.hasFp64Val) := by
    rw [resolveRunMode, ColumnConfig.resolveLocalColumn_eq hc]
    show (suffixStk.foldlM (resolveToken c.resolved) _ >>= _) = _
    rw [hm]
    rfl
  refine ⟨_, _, _, hrun, ?_, ?_⟩
  · intro token htoken hop
    obtain ⟨v, hv⟩ := Option.isSome_iff_exists.mp ((hmap token).mpr (Or.inr ⟨htoken, hop⟩))
    rw [hv, honly token v hv, typeOf, if_pos (hcols token htoken hop)]
  · have hnone : ¬ ∃ token ∈ suffixStk, IsFractional c token := by
      rintro ⟨token, htoken, hop, hvalue, _⟩
      rw [typeOf, if_pos (hcols token htoken hop)] at hvalue
      cases hvalue
    have hcol := hasFP64Column_iff c.resolved
    simp only [Bool.false_eq_true, false_or] at hdiv
    rw [Bool.or_eq_true, Bool.or_eq_true, hdiv, hcol, hval]
    simp only [Bool.false_eq_true, or_false, hnone, false_or]
    rfl

theorem configured_of_resolves (hc : c.Consistent) {suffixStk : List Str}
    (h : Resolves c suffixStk) :
    ∀ token ∈ suffixStk, OperandToken token → c.configured token = true := by
  obtain ⟨c', tokenTypeMap, fp64Run, hrun, _⟩ := h
  rw [resolveRunMode, ColumnConfig.resolveLocalColumn_eq hc] at hrun
  obtain ⟨_, hresolved, hrun⟩ := Fallible.bind_eq_ok.mp hrun
  cases hresolved
  obtain ⟨m, hm, _⟩ := Fallible.bind_eq_ok.mp hrun
  intro token htoken hop
  -- a fold that ends has resolved every one of the tokens
  obtain ⟨s, s', hs⟩ := Fallible.ok_of_foldlM hm htoken
  exact configured_of_resolveToken (c := c.resolved) hop hs

/-- **The postfix of an expression is resolved exactly when all of its operands are columns.** -/
theorem resolves_iff (hc : c.Consistent) (suffixStk : List Str) :
    Resolves c suffixStk ↔
      ∀ token ∈ suffixStk, OperandToken token → c.configured token = true :=
  ⟨configured_of_resolves hc, resolves_of_configured hc⟩

/-! ## One column -/

/-- The column `A` of the party itself. -/
def columnA : ColumnConfig where
  partyId := 0
  colOwner := [(['A'], 0)]
  colDtype := [(['A'], .INT64)]
  localCol := []

theorem consistent_columnA : columnA.Consistent where
  nodup_owner := by decide
  nodup_dtype := by decide
  same_columns _ := Iff.rfl

theorem resolves_iff_sum :
    Resolves columnA [['A'], ['A'], ['+']] ↔
      ∀ token ∈ [['A'], ['A'], ['+']], OperandToken token → columnA.configured token = true :=
  resolves_iff consistent_columnA [['A'], ['A'], ['+']]

/-- `A+1` is accepted, and its run mode is not resolved. -/
theorem not_resolves_literal :
    importExpress .new ['A', '+', '1'] = some (0, ⟨[['A'], ['1'], ['+']], ['A', '+', '1']⟩) ∧
      ¬ Resolves columnA [['A'], ['1'], ['+']] := by
  refine ⟨by decide, ?_⟩
  intro h
  have hone := configured_of_resolves consistent_columnA h ['1'] (by decide) rfl
  exact absurd hone (by decide)

end Fediux.Express
