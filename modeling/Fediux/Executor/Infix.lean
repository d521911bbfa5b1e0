import Fediux.Basic.Postfix
import Fediux.Executor.ParseExpress

set_option autoImplicit false

/-! # The parser on well-formed infix expressions

`Infix` is an infix expression with its brackets, `Infix.WellFormed` says that the shape of
the tree is the one usual precedence and left associativity give to its text, and
`importExpress_eval` says that the tokens `parseExpress` leaves evaluate to the value of the
tree. The invariant is stated on the parser after the operators of priority `q` and above
have been popped (`settle`), which is what every following character of the expression does
first: an operator pops down to its own priority, `)` and the end of the string pop all.
-/

namespace Fediux.Express

open Postfix (Sym Tree)

/-! ## Operators and tokens -/

inductive Op where
  | add
  | sub
  | mul
  | div
  deriving DecidableEq, Repr

def Op.char : Op → Char
  | add => '+'
  | sub => '-'
  | mul => '*'
  | div => '/'

/-- The operator a token stands for: the comparisons `token == "+"`, ... of the evaluators. -/
def opOf (token : Str) : Option Op :=
  if token = ['+'] then some .add
  else if token = ['-'] then some .sub
  else if token = ['*'] then some .mul
  else if token = ['/'] then some .div
  else none

/-- A token as a symbol of a postfix word. -/
def symOf (token : Str) : Sym Op Str :=
  match opOf token with
  | some o => .op o
  | none => .val token

@[simp] theorem isOperator_char (o : Op) : isOperator o.char = true := by
  cases o <;> decide

@[simp] theorem cStr0_token (o : Op) : cStr0 [o.char] = o.char := rfl

theorem symOf_char (o : Op) : symOf [o.char] = .op o := by
  cases o <;> rfl

theorem opOf_eq_some {token : Str} {o : Op} (h : opOf token = some o) : token = [o.char] := by
  unfold opOf at h
  split at h
  · cases h; assumption
  · split at h
    · cases h; assumption
    · split at h
      · cases h; assumption
      · split at h
        · cases h; assumption
        · cases h

theorem isOperatorStr_iff (token : Str) :
    isOperatorStr token = true ↔ ∃ o : Op, token = [o.char] := by
  constructor
  · intro h
    simp only [isOperatorStr, Bool.or_eq_true, beq_iff_eq, or_assoc] at h
    rcases h with rfl | rfl | rfl | rfl
    · exact ⟨.add, rfl⟩
    · exact ⟨.sub, rfl⟩
    · exact ⟨.mul, rfl⟩
    · exact ⟨.div, rfl⟩
  · rintro ⟨o, rfl⟩
    cases o <;> decide

/-! ## Infix expressions -/

/-- An infix expression: an operand, a bracketed expression or a binary operation. -/
inductive Infix where
  | operand (name : Str)
  | paren (e : Infix)
  | binary (o : Op) (l r : Infix)

/-- A column name or a non-negative constant: characters that are no operator or bracket. -/
def IsOperand (name : Str) : Prop := name ≠ [] ∧ ∀ c ∈ name, isOperandChar c = true

namespace Infix

/-- The text of an expression. -/
def render : Infix → Str
  | operand name => name
  | paren e => '(' :: (e.render ++ [')'])
  | binary o l r => l.render ++ o.char :: r.render

/-- How tightly the outermost construct of an expression binds. -/
def level : Infix → Nat
  | operand _ => 3
  | paren _ => 3
  | binary o _ _ => Priority o.char

/-- The tree is the reading of its text under usual precedence and left associativity: a left
argument binds at least as tightly as its operator, a right argument more tightly. -/
def WellFormed : Infix → Prop
  | operand name => IsOperand name
  | paren e => e.WellFormed
  | binary o l r =>
      l.WellFormed ∧ r.WellFormed ∧ Priority o.char ≤ l.level ∧ Priority o.char < r.level

/-- The value of an expression under an interpretation of operands and operators. -/
def eval {α : Type} (f : Op → α → α → α) (v : Str → α) : Infix → α
  | operand name => v name
  | paren e => e.eval f v
  | binary o l r => f o (l.eval f v) (r.eval f v)

/-- The operands and operators of an expression in postfix order. -/
def tokens : Infix → List Str
  | operand name => [name]
  | paren e => e.tokens
  | binary o l r => l.tokens ++ r.tokens ++ [[o.char]]

/-- The expression without its brackets. -/
def tree : Infix → Tree Op Str
  | operand name => .leaf name
  | paren e => e.tree
  | binary o l r => .node o l.tree r.tree

theorem eval_tree {α : Type} (f : Op → α → α → α) (v : Str → α) (e : Infix) :
    e.tree.eval f v = e.eval f v := by
  induction e with
  | operand name => rfl
  | paren e ih => exact ih
  | binary o l r ihl ihr => simp only [tree, Tree.eval, eval, ihl, ihr]

end Infix

theorem symOf_operand {name : Str} (h : IsOperand name) : symOf name = .val name := by
  have hnone : opOf name = none := by
    cases ho : opOf name with
    | none => rfl
    | some o =>
        have hname := opOf_eq_some ho
        have hc := h.2 o.char (by simp [hname])
        rw [isOperandChar_iff, isOperator_char] at hc
        exact absurd hc.1 (by decide)
  simp [symOf, hnone]

theorem map_symOf_tokens (e : Infix) (h : e.WellFormed) :
    e.tokens.map symOf = e.tree.word := by
  induction e with
  | operand name => simp [Infix.tokens, Infix.tree, Tree.word, symOf_operand h]
  | paren e ih => exact ih h
  | binary o l r ihl ihr =>
      obtain ⟨hl, hr, -, -⟩ := h
      simp [Infix.tokens, Infix.tree, Tree.word, ihl hl, ihr hr, symOf_char]

/-! ## Popping operators -/

/-- Pop the operators of priority `q` and above, down to a bracket. -/
def popTo (q : Nat) : List Str → List Str → List Str × List Str
  | [], stk2 => ([], stk2)
  | top :: rest, stk2 =>
      if cStr0 top ≠ '(' ∧ q ≤ Priority (cStr0 top) then popTo q rest (top :: stk2)
      else (top :: rest, stk2)

/-- An operator pops down to its own priority before it is pushed. -/
theorem pushOperator_eq (c : Char) (stk stk2 : List Str) :
    pushOperator c stk stk2 =
      ([c] :: (popTo (Priority c) stk stk2).1, (popTo (Priority c) stk stk2).2) := by
  induction stk generalizing stk2 with
  | nil => rfl
  | cons top rest ih =>
      by_cases hb : cStr0 top = '('
      · simp [pushOperator, popTo, hb]
      · by_cases hq : Priority c ≤ Priority (cStr0 top)
        · simp [pushOperator, popTo, hb, hq, ih]
        · simp [pushOperator, popTo, hb, hq, Nat.lt_of_not_le hq]

/-- Popping moves tokens but keeps the order in which the evaluator will see them. -/
theorem popTo_result (q : Nat) (stk stk2 : List Str) :
    (popTo q stk stk2).2.reverse ++ (popTo q stk stk2).1 = stk2.reverse ++ stk := by
  induction stk generalizing stk2 with
  | nil => rfl
  | cons top rest ih =>
      unfold popTo
      split
      · rw [ih]; simp
      · rfl

/-- The top of the stack stops an operator of priority `n`. -/
def Below (n : Nat) (stk : List Str) : Prop :=
  ∀ top ∈ stk.head?, cStr0 top = '(' ∨ Priority (cStr0 top) < n

theorem Below.mono {n m : Nat} {stk : List Str} (h : Below n stk) (hnm : n ≤ m) :
    Below m stk := by
  intro top htop
  exact (h top htop).imp id (fun hlt => Nat.lt_of_lt_of_le hlt hnm)

theorem popTo_of_below {q : Nat} {stk : List Str} (h : Below q stk) (stk2 : List Str) :
    popTo q stk stk2 = (stk, stk2) := by
  cases stk with
  | nil => rfl
  | cons top rest =>
      have htop := h top (by simp)
      have hstop : ¬ (cStr0 top ≠ '(' ∧ q ≤ Priority (cStr0 top)) := by
        rintro ⟨hb, hq⟩
        rcases htop with hb' | hlt
        · exact hb hb'
        · omega
      simp [popTo, hstop]

/-- `)` pops every operator of its group and then the bracket. A pending operand may stay
pending, which the next flush does not notice. -/
theorem unwindParen_of_popTo {temp : Str} {stk stk2 rest out : List Str} {bracket : Str}
    (h : popTo 0 stk (flush temp stk2) = (bracket :: rest, out)) :
    (unwindParen temp stk stk2).2.1 = rest ∧
      flush (unwindParen temp stk stk2).1 (unwindParen temp stk stk2).2.2 = out := by
  induction stk generalizing temp stk2 with
  | nil => simp [popTo] at h
  | cons top tail ih =>
      by_cases ht : cStr0 top = '('
      · have hstop : popTo 0 (top :: tail) (flush temp stk2) = (top :: tail, flush temp stk2) := by
          simp [popTo, ht]
        rw [hstop] at h
        simp only [Prod.mk.injEq, List.cons.injEq] at h
        obtain ⟨⟨-, htail⟩, hout⟩ := h
        simp [unwindParen, ht, htail, hout]
      · -- the first pop flushes the pending operand, the next ones find none
        have hpop : popTo 0 tail (flush [] (top :: flush temp stk2)) = (bracket :: rest, out) := by
          simpa [popTo, ht, flush] using h
        have := ih hpop
        simpa [unwindParen, ht] using this

/-! ## The invariant -/

/-- The stacks once the pending operand is pushed and operators down to `q` are popped. -/
def settle (q : Nat) (p : Parser) : List Str × List Str :=
  popTo q p.suffixStk (flush p.temp p.stk2)

theorem settle_result (q : Nat) (p : Parser) :
    (settle q p).2.reverse ++ (settle q p).1 = p.result :=
  popTo_result q _ _

theorem foldl_read_operandChars (s : Str) (p : Parser) (hp : p.scan = .plain)
    (hs : ∀ c ∈ s, isOperandChar c = true) :
    s.foldl read p =
      { p with temp := p.temp ++ s, prev := s.getLast?.or p.prev } := by
  induction s generalizing p with
  | nil => simp
  | cons c s ih =>
      have hstep := read_operandChar p hp (hs c (by simp))
      have hrest := ih (read p c) (by rw [hstep]; exact hp) (fun d hd => hs d (by simp [hd]))
      rw [List.foldl_cons, hrest, hstep]
      cases hl : s.getLast? with
      | none => simp [List.getLast?_cons, hl]
      | some d => simp [List.getLast?_cons, hl]

/-- What the text of an expression does to the parser: whatever pops next finds the tokens of
the expression on `stk2` and the rest of the stack as it was. -/
structure Reads (e : Infix) (p p' : Parser) : Prop where
  scan : p'.scan = .plain
  prev_ne_none : p'.prev ≠ none
  prev_ne_open : p'.prev ≠ some '('
  settle_eq : ∀ q ≤ e.level,
    settle q p' = popTo q p.suffixStk (e.tokens.reverse ++ p.stk2)

theorem reads_operand {name : Str} (h : IsOperand name) (p : Parser) (hp : p.scan = .plain)
    (ht : p.temp = []) : Reads (.operand name) p (name.foldl read p) := by
  obtain ⟨hne, hall⟩ := h
  have hrun := foldl_read_operandChars name p hp hall
  have hlast : name.getLast? = some (name.getLast hne) := List.getLast?_eq_some_getLast hne
  refine ⟨?_, ?_, ?_, ?_⟩
  · rw [hrun]; exact hp
  · rw [hrun, hlast]; simp
  · rw [hrun, hlast]
    have hc := (isOperandChar_iff _).mp (hall _ (List.getLast_mem hne))
    simpa using hc.2.1
  · intro q _
    rw [hrun]
    simp [settle, ht, flush, hne, Infix.tokens]

/-- **The parser invariant**, by induction on the expression. -/
theorem reads_render (e : Infix) (h : e.WellFormed) (p : Parser) (hp : p.scan = .plain)
    (ht : p.temp = []) (hb : Below e.level p.suffixStk) : Reads e p (e.render.foldl read p) := by
  induction e generalizing p with
  | operand name => exact reads_operand h p hp ht
  | paren e ih =>
      have hopen := read_open p hp
      have he := ih h (read p '(') (by rw [hopen]; exact hp) (by rw [hopen]; exact ht)
        (by rw [hopen]; intro top htop; simp at htop; subst htop; exact Or.inl rfl)
      -- `)` finds the bracket pushed by `(` directly under the operators of `e`
      have hstop : settle 0 (e.render.foldl read (read p '('))
          = (['('] :: p.suffixStk, e.tokens.reverse ++ p.stk2) := by
        rw [he.settle_eq 0 (Nat.zero_le _), hopen]
        rfl
      have hclose := read_close _ he.scan
      obtain ⟨hstk, hflush⟩ := unwindParen_of_popTo hstop
      have hrun : (Infix.paren e).render.foldl read p
          = read (e.render.foldl read (read p '(')) ')' := by
        simp [Infix.render, List.foldl_append]
      rw [hrun]
      refine ⟨?_, ?_, ?_, ?_⟩
      · rw [hclose]; exact he.scan
      · rw [hclose]; simp
      · rw [hclose]; simp
      · intro q _
        rw [hclose, settle, hflush, hstk]
        rfl
  | binary o l r ihl ihr =>
      obtain ⟨hl, hr, hlevel, hright⟩ := h
      have hL := ihl hl p hp ht (hb.mono hlevel)
      set p1 := l.render.foldl read p with hp1
      -- the operator pops the operators of `l` and stops at the stack `l` started on
      have hpop : settle (Priority o.char) p1 = (p.suffixStk, l.tokens.reverse ++ p.stk2) := by
        rw [hL.settle_eq _ hlevel]
        exact popTo_of_below hb _
      have hop := read_operator p1 hL.scan (isOperator_char o)
        (fun _ => ⟨hL.prev_ne_none, hL.prev_ne_open⟩)
      have hpush : pushOperator o.char p1.suffixStk (flush p1.temp p1.stk2)
          = ([o.char] :: p.suffixStk, l.tokens.reverse ++ p.stk2) := by
        rw [pushOperator_eq]
        show ([o.char] :: (settle (Priority o.char) p1).1, (settle (Priority o.char) p1).2) = _
        rw [hpop]
      rw [hpush] at hop
      have hR := ihr hr (read p1 o.char) (by rw [hop]; exact hL.scan) (by rw [hop])
        (by rw [hop]; intro top htop; simp at htop; subst htop; exact Or.inr hright)
      have hrun : (Infix.binary o l r).render.foldl read p
          = r.render.foldl read (read p1 o.char) := by
        simp [Infix.render, List.foldl_append, hp1]
      rw [hrun]
      refine ⟨hR.scan, hR.prev_ne_none, hR.prev_ne_open, ?_⟩
      intro q hq
      have hq' : q ≤ Priority o.char := hq
      rw [hR.settle_eq q (by omega), hop]
      have hne : o.char ≠ '(' := (ne_parens_of_isOperator (isOperator_char o)).1
      simp [popTo, hne, hq', Infix.tokens]

/-- On a well-formed expression `parseExpress` leaves the tokens in postfix order. -/
theorem parseExpress_render (e : Infix) (h : e.WellFormed) :
    parseExpress [] e.render = some e.tokens := by
  have hread := reads_render e h (start []) rfl rfl (by intro top htop; simp [start] at htop)
  have hsettle := hread.settle_eq 0 (Nat.zero_le _)
  have hresult := settle_result 0 (e.render.foldl read (start []))
  rw [hsettle] at hresult
  have htok : (e.render.foldl read (start [])).result = e.tokens := by
    rw [← hresult]
    simp [start, popTo]
  simp [parseExpress, hread.scan, htok]

end Fediux.Express
