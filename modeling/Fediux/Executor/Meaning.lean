import Fediux.Executor.Agreement
import Fediux.Executor.Grammar

set_option autoImplicit false

/-! # From the text of an expression to the revealed rows

`importExpress` and the three executors together are a compiler and a machine for infix
expressions. The meaning of an expression over a table is its value in every row, in 64-bit
arithmetic. `reveals_meaning` says that the parties reveal exactly that: the parser's tokens drive
the token loop like a stack machine (`evaluate_follows`), and every value on the stacks of the
three parties stands for the rows of a subexpression.
-/

namespace Fediux.Express

open Replicated (Party)
open Fallible (bind_eq_ok)

/-! ## The meaning of an expression -/

/-- The operators on one row. The integer run mode has no division. -/
def arith : Op → I64 → I64 → I64
  | .add, x, y => x + y
  | .sub, x, y => x - y
  | .mul, x, y => x * y
  | .div, x, y => x.sdiv y

/-- The value of a column in a row. -/
def Table.cell (t : Table) (name : Str) (row : Nat) : I64 :=
  match t.column? name with
  | none => 0
  | some c => c.values.getD row 0

/-- The rows of an expression. -/
def meaning (t : Table) (e : Infix) : List I64 :=
  (List.range t.rows).map fun row => e.eval arith fun name => t.cell name row

/-- An expression is evaluated row by row or as a whole. -/
theorem Infix.eval_rows {α : Type} (f : Op → α → α → α) (v : Str → Nat → α) (e : Infix) :
    e.eval (fun o (x y : Nat → α) row => f o (x row) (y row)) v =
      fun row => e.eval f fun name => v name row := by
  induction e with
  | operand name => rfl
  | paren e ih => exact ih
  | binary o l r ihl ihr => simp only [Infix.eval, ihl, ihr]

theorem Table.map_cell {t : Table} {name : Str} {c : Column} (hc : t.column? name = some c) :
    (List.range t.rows).map (t.cell name) = c.values := by
  have hlen : c.values.length = t.rows := t.length_eq c (Table.column?_some hc).1
  refine List.ext_getElem (by simp [hlen]) fun i h₁ h₂ => ?_
  simp [Table.cell, hc, h₂]

/-! ## The token loop as a stack machine -/

section Loop

variable {ρ ν α : Type} {e : Evaluator ρ ν} {f : Op → α → α → α} {v : Str → α}
  {R : α → ν → Prop} {toks : List Str}

/-- Where operands and operators keep `R`, the value stack of the loop is the stack of the machine
seen through `R`. -/
theorem evaluate_follows
    (hcreate : ∀ token ∈ toks, opOf token = none →
      ∃ x, e.createTokenValue token = .ok x ∧ R (v token) x)
    (happly : ∀ token ∈ toks, ∀ op, opOf token = some op → ∀ r a b x y, R a x → R b y →
      ∃ z r', e.apply r op x y = .ok (z, r') ∧ R (f op a b) z)
    {s : Loop ν × ρ} {st st' : List α} (hs : List.Forall₂ R st s.1.valStk)
    (hlen : s.1.stk1.length = st.length)
    (hrun : Postfix.run f v (toks.map symOf) st = some st') :
    ∃ s', evaluate e s toks = .ok s' ∧ List.Forall₂ R st' s'.1.valStk ∧
      s'.1.stk1.length = st'.length := by
  induction toks generalizing s st with
  | nil =>
      cases hrun
      exact ⟨s, rfl, hs, hlen⟩
  | cons token toks ih =>
      obtain ⟨l, r⟩ := s
      have hcreate' := fun t ht => hcreate t (List.mem_cons_of_mem token ht)
      have happly' := fun t ht => happly t (List.mem_cons_of_mem token ht)
      cases hop : opOf token with
      | none =>
          obtain ⟨x, hx, hR⟩ := hcreate token List.mem_cons_self hop
          rw [List.map_cons, symOf, hop] at hrun
          obtain ⟨s', h', hs'⟩ := ih hcreate' happly' (s := (l.AfterMPCRun token x, r))
            (.cons hR hs) (congrArg (· + 1) hlen) hrun
          exact ⟨s', Fallible.foldlM_cons_eq_ok.mpr ⟨_, evalToken_operand hop hx, h'⟩, hs'⟩
      | some op =>
          rw [List.map_cons, symOf, hop] at hrun
          -- the machine finds two values, and so does the loop
          cases st with
          | nil => cases hrun
          | cons b st =>
            cases st with
            | nil => cases hrun
            | cons a st =>
              obtain ⟨y, vals, hy, hs, hvals⟩ := List.forall₂_cons_left_iff.mp hs
              obtain ⟨x, vals', hx, hst, rfl⟩ := List.forall₂_cons_left_iff.mp hs
              obtain ⟨nb, names, hnames⟩ := List.exists_cons_of_length_eq_add_one hlen
              rw [hnames] at hlen
              obtain ⟨na, names', rfl⟩ :=
                List.exists_cons_of_length_eq_add_one (Nat.succ.inj hlen)
              obtain ⟨z, r', hz, hR⟩ := happly token List.mem_cons_self op hop r a b x y hx hy
              have hstep := evalToken_operator (e := e) hop hnames hvals hz
              have hlen' : names'.length = st.length := Nat.succ.inj (Nat.succ.inj hlen)
              obtain ⟨s', h', hs'⟩ := ih hcreate' happly'
                (s := (Loop.AfterMPCRun { l with stk1 := names', valStk := vals' } _ z, r'))
                (.cons hR hst) (congrArg (· + 1) hlen') hrun
              exact ⟨s', Fallible.foldlM_cons_eq_ok.mpr ⟨_, hstep, h'⟩, hs'⟩

/-- Where one name is left, the final value is the value that the last token has put on the
stack. -/
theorem finalValue_eq_top {s s' : Loop ν × ρ} {token : Str}
    (h : evaluate e s (toks ++ [token]) = .ok s') (hlen : s'.1.stk1.length = 1) :
    ∃ x vals, s'.1.valStk = x :: vals ∧ s'.1.finalValue = .ok (x, []) := by
  rw [evaluate, List.foldlM_append] at h
  obtain ⟨s₁, _, h⟩ := bind_eq_ok.mp h
  obtain ⟨s₂, h, h'⟩ := Fallible.foldlM_cons_eq_ok.mp h
  cases h'
  obtain ⟨l, name, x, hl⟩ : ∃ l name x, s'.1 = Loop.AfterMPCRun l name x := by
    rcases evalToken_cases h with ⟨_, _, _, rfl⟩ | ⟨_, _, _, _, _, _, _, _, _, _, _, _, _, _, _, rfl⟩
    · exact ⟨_, _, _, rfl⟩
    · exact ⟨_, _, _, rfl⟩
  rw [hl] at hlen ⊢
  have hnil : l.stk1 = [] := List.eq_nil_of_length_eq_zero (Nat.succ.inj hlen)
  have hfind : OrderedMap.find? (OrderedMap.assign l.tokenValMap name x) name = some x := by
    rw [OrderedMap.find?_assign, if_pos rfl]
  refine ⟨x, l.valStk, rfl, ?_⟩
  simp only [Loop.finalValue, Loop.AfterMPCRun, hnil, List.reverse_singleton, hfind]

end Loop

/-! ## Tokens of a well-formed expression -/

namespace Infix

/-- The names of the operands. -/
def names : Infix → List Str
  | operand name => [name]
  | paren e => e.names
  | binary _ l r => l.names ++ r.names

/-- The operators, in postfix order. -/
def ops : Infix → List Op
  | operand _ => []
  | paren e => e.ops
  | binary o l r => l.ops ++ r.ops ++ [o]

end Infix

theorem opOf_char (o : Op) : opOf [o.char] = some o := by
  cases o <;> rfl

theorem opOf_operand {name : Str} (h : IsOperand name) : opOf name = none := by
  have hsym := symOf_operand h
  unfold symOf at hsym
  split at hsym
  · cases hsym
  · assumption

theorem filterMap_opOf_tokens {e : Infix} (h : e.WellFormed) : e.tokens.filterMap opOf = e.ops := by
  induction e with
  | operand name => simp [Infix.tokens, Infix.ops, opOf_operand h]
  | paren e ih => exact ih h
  | binary o l r ihl ihr =>
      obtain ⟨hl, hr, -, -⟩ := h
      simp [Infix.tokens, Infix.ops, ihl hl, ihr hr, opOf_char]

theorem mem_names_of_mem_tokens {e : Infix} (h : e.WellFormed) {token : Str}
    (htoken : token ∈ e.tokens) (hop : opOf token = none) : token ∈ e.names := by
  induction e with
  | operand name => exact htoken
  | paren e ih => exact ih h htoken
  | binary o l r ihl ihr =>
      obtain ⟨hl, hr, -, -⟩ := h
      rw [Infix.tokens, List.mem_append, List.mem_append, List.mem_singleton] at htoken
      rcases htoken with (htoken | htoken) | rfl
      · exact List.mem_append_left _ (ihl hl htoken)
      · exact List.mem_append_right _ (ihr hr htoken)
      · rw [opOf_char] at hop
        cases hop

/-! ## Accepted expressions -/

theorem hasParen_operand {name : Str} (h : IsOperand name) : hasParen name = false :=
  hasParen_eq_false fun c hc => ((isOperandChar_iff c).mp (h.2 c hc)).2

theorem hasParen_tokens {e : Infix} (h : e.WellFormed) : ∀ t ∈ e.tokens, hasParen t = false := by
  intro token htoken
  induction e with
  | operand name =>
      rw [List.mem_singleton.mp htoken]
      exact hasParen_operand h
  | paren e ih => exact ih h htoken
  | binary o l r ihl ihr =>
      obtain ⟨hl, hr, -, -⟩ := h
      rw [Infix.tokens, List.mem_append, List.mem_append, List.mem_singleton] at htoken
      rcases htoken with (htoken | htoken) | rfl
      · exact ihl hl htoken
      · exact ihr hr htoken
      · exact hasParen_char o

theorem height_tokens {e : Infix} (h : e.WellFormed) :
    Postfix.height (e.tokens.map symOf) 0 = some 1 :=
  (Postfix.height_eq_one_iff _).mpr ⟨e.tree, (map_symOf_tokens e h).symm⟩

theorem countP_tokens {e : Infix} (h : e.WellFormed) :
    e.tokens.countP isOperatorStr = e.ops.length := by
  rw [← filterMap_opOf_tokens h, List.length_filterMap_eq_countP]
  refine List.countP_congr fun token _ => ?_
  cases hop : opOf token with
  | none => simp [(opOf_eq_none_iff token).mp hop]
  | some op => simp [(isOperatorStr_iff token).mpr ⟨op, opOf_eq_some hop⟩]

/-- `importExpress` takes the expressions with fewer than `2 ^ 16` operators. -/
theorem importExpress_render {e : Infix} (h : e.WellFormed) (hops : e.ops.length < 2 ^ 16) :
    importExpress .new e.render = some (0, ⟨e.tokens, e.render⟩) := by
  have hparse : parseExpress Import.new.suffixStk e.render = some e.tokens :=
    parseExpress_render e h
  have hcheck : checkExpress e.tokens = true := by
    have hcount := height_count (height_tokens h)
    rw [countP_tokens h] at hcount
    refine (checkExpress_iff _).mpr ⟨hasParen_tokens h, ?_⟩
    rw [numOp, countP_tokens h, Nat.mod_eq_of_lt hops]
    omega
  rw [importExpress, hparse, Option.map_some, if_pos hcheck]

/-! ## The task -/

/-- What the task needs of the table: columns for the names, and the right row count at every
party. A party without a column counts `(uint32_t)-1` rows. -/
structure Computable (t : Table) (e : Infix) : Prop where
  wellFormed : e.WellFormed
  operator : e.ops ≠ []
  few : e.ops.length < 2 ^ 16
  noDivision : Op.div ∉ e.ops
  columns : ∀ name ∈ e.names, ∃ c ∈ t.columns, c.name = name
  counts : ∀ p, if ∃ c ∈ t.columns, c.owner = p then t.rows < 2 ^ 32 else t.rows = 2 ^ 32 - 1

section Task

variable {sh3 : Sh3} {t : Table} {e : Infix} {tms : Party → OrderedMap.Entries Str TokenType}

/-- A row function of an operation on row functions. -/
def arithRows (o : Op) (x y : Nat → I64) (row : Nat) : I64 := arith o (x row) (y row)

/-- The parties hold the rows of a function, as a column or as shares. -/
def Holds (n : Nat) (x : Nat → I64) (v : Party → TokenValue) : Prop :=
  Represents n (.i64Vec ((List.range n).map x)) v

/-- An operator of the three parties works row by row. -/
theorem apply_holds {exs : Party → Executor} {n : Nat}
    (hrows : ∀ p, (exs p).feedDict.getColumnValuesCount = n) {op : Op} (hop : op ≠ .div)
    (r : sh3.Runtime) {x y : Nat → I64} {v w : Party → TokenValue} (hx : Holds n x v)
    (hy : Holds n y w) :
    ∃ z r', (mpcEvaluator sh3 exs).apply r op v w = .ok (z, r') ∧ Holds n (arithRows op x y) z := by
  have hzip (g : I64 → I64 → I64) : List.zipWith g ((List.range n).map x) ((List.range n).map y) =
      (List.range n).map fun row => g (x row) (y row) := by
    rw [List.zipWith_map, List.zipWith_self]
  have hlocal : (localEvaluator (exs 0) (exs 0).feedDict).apply () op
      (.i64Vec ((List.range n).map x)) (.i64Vec ((List.range n).map y)) =
      .ok (.i64Vec ((List.range n).map (arithRows op x y)), ()) := by
    have hvec (f g h : I64 → I64 → I64) := localI64_vecs f g h
      (show ((List.range n).map x).length ≤ ((List.range n).map y).length by simp)
    cases op with
    | add => simp [localEvaluator, localAdd, hvec, hzip, bind, Except.bind]; rfl
    | sub => simp [localEvaluator, localSub, hvec, hzip, bind, Except.bind]; rfl
    | mul => simp [localEvaluator, localMul, hvec, hzip, bind, Except.bind]; rfl
    | div => exact absurd rfl hop
  exact apply_represents hrows r hlocal hx hy

/-- The token loop of the three parties ends with the rows of the expression. -/
theorem evaluate_holds (r : sh3.Runtime) (h : Computable t e) (m : Import)
    (honly : ∀ p, OnlyColumns (tms p)) :
    ∃ s v, evaluate (mpcEvaluator sh3 fun p => executor t m (tms p) p) (.new, r) e.tokens = .ok s ∧
      s.1.stk1.length = 1 ∧ s.1.valStk = [v] ∧
      Holds t.rows (fun row => e.eval arith fun name => t.cell name row) v := by
  have hrun : Postfix.run arithRows t.cell (e.tokens.map symOf) [] =
      some [e.eval arithRows t.cell] := by
    have hword := Postfix.run_word_append arithRows t.cell e.tree [] []
    rw [List.append_nil, Infix.eval_tree] at hword
    rw [map_symOf_tokens e h.wellFormed, hword]
    rfl
  have hcreate : ∀ token ∈ e.tokens, opOf token = none →
      ∃ x, (mpcEvaluator sh3 fun p => executor t m (tms p) p).createTokenValue token = .ok x ∧
        Holds t.rows (t.cell token) x := by
    intro token htoken hop
    obtain ⟨c, hc⟩ := Option.isSome_iff_exists.mp ((t.column?_isSome_iff token).mpr
      (h.columns token (mem_names_of_mem_tokens h.wellFormed htoken hop)))
    obtain ⟨v, hv, hcol⟩ := mpc_createTokenValue sh3 m honly hc
    refine ⟨v, hv, ?_⟩
    rw [Holds, Table.map_cell hc]
    exact .column hcol
  have happly : ∀ token ∈ e.tokens, ∀ op, opOf token = some op → ∀ r x y v w,
      Holds t.rows x v → Holds t.rows y w →
      ∃ z r', (mpcEvaluator sh3 fun p => executor t m (tms p) p).apply r op v w = .ok (z, r') ∧
        Holds t.rows (arithRows op x y) z := by
    intro token htoken op hop r x y v w hx hy
    have hmem : op ∈ e.ops := by
      rw [← filterMap_opOf_tokens h.wellFormed]
      exact List.mem_filterMap.mpr ⟨token, htoken, hop⟩
    have hne : op ≠ .div := fun heq => h.noDivision (heq ▸ hmem)
    exact apply_holds ((counts_iff t).mpr h.counts) hne r hx hy
  obtain ⟨s, hs, hvals, hlen⟩ := evaluate_follows hcreate happly (s := (.new, r)) .nil rfl hrun
  obtain ⟨v, rest, hv, hrest, hstk⟩ := List.forall₂_cons_left_iff.mp hvals
  rw [List.forall₂_nil_left_iff.mp hrest] at hstk
  rw [← Infix.eval_rows arith t.cell e]
  exact ⟨s, v, hs, hlen, hstk, hv⟩

end Task

end Fediux.Express
