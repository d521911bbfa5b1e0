import Mathlib

set_option autoImplicit false

/-! # `MPCExpressExecutor::importExpress`

The infix expression of an arithmetic task is turned into a postfix token stack by
`parseExpress` and checked by `checkExpress` (`executor/express.cc`). A stack is a list with
its top first. The two `while` loops that collect a negative number advance the index of the
enclosing `for` loop; here they are two scan modes of one pass over the characters. Both
loops index the string without a bound, so an expression that ends in one of these modes is
read past its end and has no result (`none`).
-/

namespace Fediux.Express

/-- `std::string`. -/
abbrev Str := List Char

/-! ## Operators -/

def isOperator (op : Char) : Bool :=
  op == '+' || op == '-' || op == '*' || op == '/'

/-- `isOperator(const std::string &)`. -/
def isOperatorStr (op : Str) : Bool :=
  op == ['+'] || op == ['-'] || op == ['*'] || op == ['/']

def Priority : Char → Nat
  | '+' => 1
  | '-' => 1
  | '*' => 2
  | '/' => 2
  | _ => 0

/-- `s.c_str()[0]`; an empty string yields its terminator. -/
def cStr0 (s : Str) : Char := s.headD (Char.ofNat 0)

/-! ## The parser -/

/-- The loop that reads the next character: the `for` loop, or one of the `while` loops that
collect a negative number up to an operator (at the start) or up to `)` (after `(`). -/
inductive Scan where
  | plain
  | toOperator
  | toParen
  deriving DecidableEq, Repr

/-- The local state of `parseExpress`; `prev` is `expr[i - 1]`, `none` at `i = 0`. -/
structure Parser where
  scan : Scan
  prev : Option Char
  temp : Str
  suffixStk : List Str
  stk2 : List Str
  deriving DecidableEq, Repr

/-- `if (!temp.empty()) stk2.push(temp)`. -/
def flush (temp : Str) (stk2 : List Str) : List Str :=
  if temp.isEmpty then stk2 else temp :: stk2

/-- The `while (1)` loop of the operator branch: pop operators that bind at least as tightly
onto `stk2`, then push the operator. -/
def pushOperator (c : Char) : List Str → List Str → List Str × List Str
  | [], stk2 => ([[c]], stk2)
  | top :: rest, stk2 =>
      if cStr0 top = '(' then ([c] :: top :: rest, stk2)
      else if Priority c > Priority (cStr0 top) then ([c] :: top :: rest, stk2)
      else pushOperator c rest (top :: stk2)

/-- The `)` branch: pop operators down to the opening bracket, then drop the bracket. The
pending operand is pushed inside the loop, so only when there is an operator to pop. -/
def unwindParen : Str → List Str → List Str → Str × List Str × List Str
  | temp, [], stk2 => (temp, [], stk2)
  | temp, top :: rest, stk2 =>
      if cStr0 top = '(' then (temp, rest, stk2)
      else unwindParen [] rest (top :: flush temp stk2)

/-- One pass of the `for` loop. -/
def readPlain (p : Parser) (c : Char) : Parser :=
  if c = '-' ∧ p.prev = none then
    -- a negative number at the start of the text
    { p with scan := .toOperator, temp := p.temp ++ [c] }
  else if c = '-' ∧ p.prev = some '(' then
    -- a negative number after an opening bracket
    { p with scan := .toParen, temp := p.temp ++ [c] }
  else if isOperator c then
    let r := pushOperator c p.suffixStk (flush p.temp p.stk2)
    { p with temp := [], suffixStk := r.1, stk2 := r.2 }
  else if c = '(' then
    { p with suffixStk := [c] :: p.suffixStk }
  else if c = ')' then
    -- no new operand begins: characters behind a bracket are appended to `temp`
    let r := unwindParen p.temp p.suffixStk p.stk2
    { p with temp := r.1, suffixStk := r.2.1, stk2 := r.2.2 }
  else
    { p with temp := p.temp ++ [c] }

/-- Read one character in the current loop. A `while` loop leaves its end character to the
`for` loop (`i--; continue`). -/
def read (p : Parser) (c : Char) : Parser :=
  let q :=
    match p.scan with
    | .plain => readPlain p c
    | .toOperator =>
        if isOperator c then readPlain { p with scan := .plain } c
        else { p with temp := p.temp ++ [c] }
    | .toParen =>
        if c = ')' then readPlain { p with scan := .plain } c
        else { p with temp := p.temp ++ [c] }
  { q with prev := some c }

/-- The state at `i = 0`. -/
def start (suffixStk : List Str) : Parser :=
  { scan := .plain, prev := none, temp := [], suffixStk := suffixStk, stk2 := [] }

/-- What `parseExpress` leaves in `suffix_stk_`: the operands and operators of `stk2` in the
order they were pushed, then the operators still on `suffix_stk_`. -/
def Parser.result (p : Parser) : List Str :=
  (flush p.temp p.stk2).reverse ++ p.suffixStk

/-- `parseExpress` on a given `suffix_stk_`; `none` when it indexes past the end of `expr`. -/
def parseExpress (suffixStk : List Str) (expr : Str) : Option (List Str) :=
  let p := expr.foldl read (start suffixStk)
  match p.scan with
  | .plain => some p.result
  | .toOperator => none
  | .toParen => none

/-! ## The check -/

/-- `uint16_t num_op` after the counting loop. -/
def numOp (suffixVec : List Str) : Nat := suffixVec.countP isOperatorStr % 2 ^ 16

def checkExpress (suffixStk : List Str) : Bool :=
  if suffixStk.any (fun str => str == ['('] || str == [')']) then false
  else if suffixStk.length - numOp suffixStk ≠ numOp suffixStk + 1 then false
  else if suffixStk.any (fun str => str.contains '(' || str.contains ')') then false
  else true

/-- The members of the executor that `importExpress` writes. -/
structure Import where
  suffixStk : List Str
  expr : Str
  deriving DecidableEq, Repr

/-- `importExpress` with its return code; the token stack is left in place also on failure. -/
def importExpress (m : Import) (expr : Str) : Option (Int × Import) :=
  (parseExpress m.suffixStk expr).map fun s =>
    if checkExpress s then (0, { suffixStk := s, expr := expr })
    else (-1, { m with suffixStk := s })

/-- A new executor. -/
def Import.new : Import := { suffixStk := [], expr := [] }

/-- `importExpress` of a new executor returns success. -/
def Accepts (expr : Str) : Prop := ∃ m, importExpress .new expr = some (0, m)

theorem accepts_iff (expr : Str) :
    Accepts expr ↔ ∃ s, parseExpress [] expr = some s ∧ checkExpress s = true := by
  constructor
  · rintro ⟨m, hm⟩
    obtain ⟨s, hs, he⟩ := Option.map_eq_some_iff.mp hm
    refine ⟨s, hs, ?_⟩
    by_contra hc
    rw [if_neg hc] at he
    have h0 : (-1 : Int) = 0 := congrArg Prod.fst he
    omega
  · rintro ⟨s, hs, hc⟩
    refine ⟨{ suffixStk := s, expr := expr }, ?_⟩
    have hs' : parseExpress Import.new.suffixStk expr = some s := hs
    rw [importExpress, hs', Option.map_some, if_pos hc]

/-! ## Reading a single character

The equations below say what `read` does in plain mode with each kind of character. -/

/-- A character of a column name or a constant. -/
def isOperandChar (c : Char) : Bool := !isOperator c && c != '(' && c != ')'

theorem isOperandChar_iff (c : Char) :
    isOperandChar c = true ↔ isOperator c = false ∧ c ≠ '(' ∧ c ≠ ')' := by
  simp [isOperandChar, and_assoc]

theorem isOperator_iff (c : Char) :
    isOperator c = true ↔ c = '+' ∨ c = '-' ∨ c = '*' ∨ c = '/' := by
  simp [isOperator, or_assoc]

theorem ne_parens_of_isOperator {c : Char} (h : isOperator c = true) : c ≠ '(' ∧ c ≠ ')' := by
  rcases (isOperator_iff c).mp h with rfl | rfl | rfl | rfl <;> decide

theorem read_operandChar (p : Parser) (hp : p.scan = .plain) {c : Char}
    (hc : isOperandChar c = true) :
    read p c = { p with temp := p.temp ++ [c], prev := some c } := by
  obtain ⟨hop, hl, hr⟩ := (isOperandChar_iff c).mp hc
  have hm : c ≠ '-' := by rintro rfl; exact absurd hop (by decide)
  simp [read, hp, readPlain, hm, hop, hl, hr]

/-- A `-` that is neither first nor after `(` is a binary operator. -/
theorem read_operator (p : Parser) (hp : p.scan = .plain) {c : Char}
    (hc : isOperator c = true)
    (hneg : c = '-' → p.prev ≠ none ∧ p.prev ≠ some '(') :
    read p c =
      { p with
        temp := []
        suffixStk := (pushOperator c p.suffixStk (flush p.temp p.stk2)).1
        stk2 := (pushOperator c p.suffixStk (flush p.temp p.stk2)).2
        prev := some c } := by
  have h1 : ¬ (c = '-' ∧ p.prev = none) := fun h => (hneg h.1).1 h.2
  have h2 : ¬ (c = '-' ∧ p.prev = some '(') := fun h => (hneg h.1).2 h.2
  simp [read, hp, readPlain, h1, h2, hc]

theorem read_open (p : Parser) (hp : p.scan = .plain) :
    read p '(' = { p with suffixStk := ['('] :: p.suffixStk, prev := some '(' } := by
  simp [read, hp, readPlain, isOperator]

theorem read_close (p : Parser) (hp : p.scan = .plain) :
    read p ')' =
      { p with
        temp := (unwindParen p.temp p.suffixStk p.stk2).1
        suffixStk := (unwindParen p.temp p.suffixStk p.stk2).2.1
        stk2 := (unwindParen p.temp p.suffixStk p.stk2).2.2
        prev := some ')' } := by
  simp [read, hp, readPlain, isOperator]

end Fediux.Express
