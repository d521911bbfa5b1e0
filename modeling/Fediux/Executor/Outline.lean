import Fediux.Executor.Infix

set_option autoImplicit false

/-! # What acceptance depends on

`importExpress` compares counts and looks for brackets, so it does not depend on the order in
which the two stacks of `parseExpress` release their tokens. `Outline` is a pass over the
expression without these stacks: it keeps the tokens in the order of the text and, for each
open group, whether an operator waits in it. `accepts_iff_wellCounted` says that
`importExpress` succeeds exactly on the texts whose outline is complete and well counted.
-/

namespace Fediux.Express

/-! ## The outline of a text -/

/-- The state of the pass. `pending` says whether an operator waits in the innermost group,
`outer` the same for the groups around it. -/
structure Outline where
  scan : Scan
  prev : Option Char
  temp : Str
  pending : Bool
  outer : List Bool
  toks : List Str
  deriving DecidableEq, Repr

namespace Outline

/-- A character outside a negative number. A bracket does not end an operand, unless an
operator waits in the group that `)` closes. -/
def readPlain (o : Outline) (c : Char) : Outline :=
  if c = '-' ∧ o.prev = none then
    { o with scan := .toOperator, temp := o.temp ++ [c] }
  else if c = '-' ∧ o.prev = some '(' then
    { o with scan := .toParen, temp := o.temp ++ [c] }
  else if isOperator c then
    { o with temp := [], pending := true, toks := [c] :: flush o.temp o.toks }
  else if c = '(' then
    { o with pending := false, outer := o.pending :: o.outer }
  else if c = ')' then
    { o with
      temp := if o.pending then [] else o.temp
      toks := if o.pending then flush o.temp o.toks else o.toks
      pending := o.outer.headD false
      outer := o.outer.tail }
  else
    { o with temp := o.temp ++ [c] }

def read (o : Outline) (c : Char) : Outline :=
  let q :=
    match o.scan with
    | .plain => o.readPlain c
    | .toOperator =>
        if isOperator c then readPlain { o with scan := .plain } c
        else { o with temp := o.temp ++ [c] }
    | .toParen =>
        if c = ')' then readPlain { o with scan := .plain } c
        else { o with temp := o.temp ++ [c] }
  { q with prev := some c }

def start : Outline :=
  { scan := .plain, prev := none, temp := [], pending := false, outer := [], toks := [] }

/-- The tokens of the text read so far, the last one first. -/
def tokens (o : Outline) : List Str := flush o.temp o.toks

end Outline

/-- The outline of a whole text. -/
def outline (s : Str) : Outline := s.foldl Outline.read Outline.start

/-- A token that holds a bracket. -/
def hasParen (str : Str) : Bool := str.contains '(' || str.contains ')'

/-- The outline of a text is complete and well counted: both kinds of negative number are
closed, every group is closed, no token holds a bracket, and the tokens are one more than
twice the 16-bit count of the operators among them. -/
def WellCounted (s : Str) : Prop :=
  (outline s).scan = .plain ∧ (outline s).outer = [] ∧
    (∀ t ∈ (outline s).tokens, hasParen t = false) ∧
    (outline s).tokens.length - numOp (outline s).tokens = numOp (outline s).tokens + 1

instance (s : Str) : Decidable (WellCounted s) := by
  unfold WellCounted
  exact inferInstance

/-! ## The check as a count -/

theorem hasParen_char (o : Op) : hasParen [o.char] = false := by
  cases o <;> decide

theorem numOp_perm {s t : List Str} (h : s.Perm t) : numOp s = numOp t := by
  rw [numOp, numOp, h.countP_eq]

theorem checkExpress_iff (s : List Str) :
    checkExpress s = true ↔
      (∀ t ∈ s, hasParen t = false) ∧ s.length - numOp s = numOp s + 1 := by
  have hany : s.any (fun str => str.contains '(' || str.contains ')') = false ↔
      ∀ t ∈ s, hasParen t = false := by
    simp [List.any_eq_false, hasParen]
  have hsingle : (∀ t ∈ s, hasParen t = false) →
      s.any (fun str => str == ['('] || str == [')']) = false := by
    intro h
    rw [List.any_eq_false]
    intro t ht hc
    have := h t ht
    simp only [Bool.or_eq_true, beq_iff_eq] at hc
    rcases hc with rfl | rfl
    · exact absurd this (by decide)
    · exact absurd this (by decide)
  unfold checkExpress
  constructor
  · intro h
    split at h
    · cases h
    · split at h
      · cases h
      · rename_i hcount
        split at h
        · cases h
        · rename_i hparen
          exact ⟨hany.mp (by simpa using hparen), by simpa using hcount⟩
  · rintro ⟨hparen, hcount⟩
    rw [if_neg (by rw [hsingle hparen]; decide), if_neg (by simpa using hcount),
      if_neg (by rw [hany.mpr hparen]; decide)]

theorem checkExpress_perm {s t : List Str} (h : s.Perm t) : checkExpress s = checkExpress t := by
  have hmem : (∀ x ∈ s, hasParen x = false) ↔ (∀ x ∈ t, hasParen x = false) :=
    forall_congr' fun x => by rw [h.mem_iff]
  rw [Bool.eq_iff_iff, checkExpress_iff, checkExpress_iff, hmem, h.length_eq, numOp_perm h]

/-! ## The operator stack as groups -/

/-- A token of `suffix_stk_` while the text is read: an operator or an opening bracket. -/
def IsStackToken (t : Str) : Prop := t = ['('] ∨ ∃ o : Op, t = [o.char]

/-- The groups a stack stands for: whether an operator waits in the innermost one, and the
same for the groups around it. -/
def groups : List Str → Bool × List Bool
  | [] => (false, [])
  | t :: rest =>
      if t = ['('] then (false, (groups rest).1 :: (groups rest).2)
      else (true, (groups rest).2)

/-- The operators of a stack. -/
def operators (stk : List Str) : List Str := stk.filter (fun t => t != ['('])

@[simp] theorem groups_char (o : Op) (stk : List Str) :
    groups ([o.char] :: stk) = (true, (groups stk).2) := by
  cases o <;> rfl

@[simp] theorem operators_char (o : Op) (stk : List Str) :
    operators ([o.char] :: stk) = [o.char] :: operators stk := by
  cases o <;> rfl

theorem operators_cons {t : Str} (h : t ≠ ['(']) (stk : List Str) :
    operators (t :: stk) = t :: operators stk := by
  simp [operators, h]

theorem groups_cons {t : Str} (h : t ≠ ['(']) (stk : List Str) :
    groups (t :: stk) = (true, (groups stk).2) := by
  simp [groups, h]

theorem isStackToken_cStr0 {t : Str} (h : IsStackToken t) : cStr0 t = '(' ↔ t = ['('] := by
  rcases h with rfl | ⟨o, rfl⟩
  · simp [cStr0]
  · cases o <;> decide

/-- An operator enters the group on top; tokens only move. -/
theorem pushOperator_groups (o : Op) (stk stk2 : List Str) (hstk : ∀ t ∈ stk, IsStackToken t) :
    (∀ t ∈ (pushOperator o.char stk stk2).1, IsStackToken t) ∧
      groups (pushOperator o.char stk stk2).1 = (true, (groups stk).2) ∧
      ((pushOperator o.char stk stk2).2 ++ operators (pushOperator o.char stk stk2).1).Perm
        ([o.char] :: (stk2 ++ operators stk)) := by
  induction stk generalizing stk2 with
  | nil =>
      refine ⟨fun t ht => Or.inr ⟨o, by simpa [pushOperator] using ht⟩, ?_, ?_⟩
      · simp [pushOperator]
      · simp only [pushOperator, operators_char]
        exact List.perm_middle
  | cons top rest ih =>
      have htop : IsStackToken top := hstk top (by simp)
      have hpush : ∀ t ∈ [o.char] :: top :: rest, IsStackToken t := by
        intro t ht
        rcases List.mem_cons.mp ht with rfl | ht'
        · exact Or.inr ⟨o, rfl⟩
        · exact hstk t ht'
      have hperm : (stk2 ++ operators ([o.char] :: top :: rest)).Perm
          ([o.char] :: (stk2 ++ operators (top :: rest))) := by
        rw [operators_char]
        exact List.perm_middle
      unfold pushOperator
      split
      · exact ⟨hpush, groups_char o _, hperm⟩
      · rename_i hb
        have hne : top ≠ ['('] := fun h => hb ((isStackToken_cStr0 htop).mpr h)
        split
        · exact ⟨hpush, groups_char o _, hperm⟩
        · obtain ⟨h1, h2, h3⟩ := ih (top :: stk2) (fun t ht => hstk t (by simp [ht]))
          refine ⟨h1, by rw [h2, groups_cons hne], h3.trans ?_⟩
          rw [operators_cons hne]
          exact List.Perm.cons _ (List.perm_middle.symm)

/-- `)` closes the innermost group and flushes the pending operand if an operator waits in
it. -/
theorem unwindParen_groups (temp : Str) (stk stk2 : List Str)
    (hstk : ∀ t ∈ stk, IsStackToken t) :
    (unwindParen temp stk stk2).1 = (if (groups stk).1 then [] else temp) ∧
      (∀ t ∈ (unwindParen temp stk stk2).2.1, IsStackToken t) ∧
      groups (unwindParen temp stk stk2).2.1 = ((groups stk).2.headD false, (groups stk).2.tail) ∧
      ((unwindParen temp stk stk2).2.2 ++ operators (unwindParen temp stk stk2).2.1).Perm
        ((if (groups stk).1 then flush temp stk2 else stk2) ++ operators stk) := by
  induction stk generalizing temp stk2 with
  | nil => simp [unwindParen, groups, operators]
  | cons top rest ih =>
      have htop : IsStackToken top := hstk top (by simp)
      have hrest : ∀ t ∈ rest, IsStackToken t := fun t ht => hstk t (by simp [ht])
      by_cases hb : cStr0 top = '('
      · have heq : top = ['('] := (isStackToken_cStr0 htop).mp hb
        subst heq
        refine ⟨by simp [unwindParen, hb, groups], by simpa [unwindParen, hb] using hrest, ?_, ?_⟩
        · simp [unwindParen, hb, groups]
        · simp [unwindParen, hb, groups, operators]
      · have hne : top ≠ ['('] := fun h => hb ((isStackToken_cStr0 htop).mpr h)
        obtain ⟨h1, h2, h3, h4⟩ := ih [] (top :: flush temp stk2) hrest
        have hstep : unwindParen temp (top :: rest) stk2
            = unwindParen [] rest (top :: flush temp stk2) := by
          simp [unwindParen, hb]
        rw [hstep, groups_cons hne]
        refine ⟨by rw [h1]; simp, h2, h3, h4.trans ?_⟩
        -- `temp` is flushed by the first pop; later ones have nothing to flush
        have hflush : (if (groups rest).1 = true then flush [] (top :: flush temp stk2)
            else top :: flush temp stk2) = top :: flush temp stk2 := by
          simp [flush]
        rw [operators_cons hne, hflush, if_pos rfl]
        exact List.perm_middle.symm

/-! ## The parser and the outline in step -/

/-- The parser and the outline have read the same text. -/
structure Follows (p : Parser) (o : Outline) : Prop where
  scan : p.scan = o.scan
  prev : p.prev = o.prev
  temp : p.temp = o.temp
  stack : ∀ t ∈ p.suffixStk, IsStackToken t
  groups : groups p.suffixStk = (o.pending, o.outer)
  perm : (p.stk2 ++ operators p.suffixStk).Perm o.toks

theorem flush_perm (temp : Str) {a b c : List Str} (h : (a ++ b).Perm c) :
    (flush temp a ++ b).Perm (flush temp c) := by
  unfold flush
  split
  · exact h
  · exact List.Perm.cons temp h

theorem exists_op_of_isOperator {c : Char} (h : isOperator c = true) : ∃ o : Op, o.char = c := by
  rcases (isOperator_iff c).mp h with rfl | rfl | rfl | rfl
  · exact ⟨.add, rfl⟩
  · exact ⟨.sub, rfl⟩
  · exact ⟨.mul, rfl⟩
  · exact ⟨.div, rfl⟩

theorem Follows.readPlain {p : Parser} {o : Outline} (h : Follows p o) (c : Char) :
    Follows (readPlain p c) (o.readPlain c) := by
  unfold Express.readPlain Outline.readPlain
  rw [h.prev]
  split
  · exact ⟨rfl, rfl, by simp [h.temp], h.stack, h.groups, h.perm⟩
  split
  · exact ⟨rfl, rfl, by simp [h.temp], h.stack, h.groups, h.perm⟩
  split
  · -- an operator
    rename_i hop
    obtain ⟨op, rfl⟩ := exists_op_of_isOperator hop
    obtain ⟨h1, h2, h3⟩ := pushOperator_groups op p.suffixStk (flush p.temp p.stk2) h.stack
    refine ⟨h.scan, rfl, rfl, h1, by rw [h2, h.groups], h3.trans ?_⟩
    rw [← h.temp]
    exact List.Perm.cons _ (flush_perm _ h.perm)
  split
  · -- an opening bracket
    rename_i hc
    subst hc
    refine ⟨h.scan, rfl, h.temp, ?_, ?_, ?_⟩
    · intro t ht
      rcases List.mem_cons.mp ht with rfl | ht'
      · exact Or.inl rfl
      · exact h.stack t ht'
    · simp [Express.groups, h.groups]
    · simpa [operators] using h.perm
  split
  · -- a closing bracket
    obtain ⟨h1, h2, h3, h4⟩ := unwindParen_groups p.temp p.suffixStk p.stk2 h.stack
    rw [h.groups] at h1 h3 h4
    refine ⟨h.scan, rfl, by rw [← h.temp]; exact h1, h2, h3, h4.trans ?_⟩
    rw [← h.temp]
    cases o.pending with
    | true => exact flush_perm _ h.perm
    | false => exact h.perm
  · exact ⟨h.scan, rfl, by simp [h.temp], h.stack, h.groups, h.perm⟩

theorem Follows.read {p : Parser} {o : Outline} (h : Follows p o) (c : Char) :
    Follows (read p c) (o.read c) := by
  have hprev : ∀ {p' : Parser} {o' : Outline}, Follows p' o' →
      Follows { p' with prev := some c } { o' with prev := some c } :=
    fun h' => ⟨h'.scan, rfl, h'.temp, h'.stack, h'.groups, h'.perm⟩
  have hplain : Follows { p with scan := .plain } { o with scan := .plain } :=
    ⟨rfl, h.prev, h.temp, h.stack, h.groups, h.perm⟩
  have hcollect : ∀ sc, Follows { p with scan := sc, temp := p.temp ++ [c] }
      { o with scan := sc, temp := o.temp ++ [c] } :=
    fun sc => ⟨rfl, h.prev, by simp [h.temp], h.stack, h.groups, h.perm⟩
  unfold Express.read Outline.read
  rw [← h.scan]
  cases p.scan with
  | plain => exact hprev (h.readPlain c)
  | toOperator =>
      by_cases hc : isOperator c = true
      · simp only [hc, if_true]
        exact hprev (hplain.readPlain c)
      · simp only [hc, Bool.false_eq_true, if_false]
        exact hprev (hcollect .toOperator)
  | toParen =>
      by_cases hc : c = ')'
      · simp only [hc, if_true]
        exact hc ▸ hprev (hplain.readPlain c)
      · simp only [hc, if_false]
        exact hprev (hcollect .toParen)

theorem Follows.foldl {p : Parser} {o : Outline} (h : Follows p o) (s : Str) :
    Follows (s.foldl Express.read p) (s.foldl Outline.read o) := by
  induction s generalizing p o with
  | nil => exact h
  | cons c s ih => exact ih (h.read c)

theorem follows_outline (s : Str) : Follows (s.foldl read (start [])) (outline s) := by
  have h0 : Follows (start []) Outline.start :=
    ⟨rfl, rfl, rfl, by simp [start], rfl, by simp [start, operators, Outline.start]⟩
  exact h0.foldl s

theorem outer_eq_nil_iff {stk : List Str} (hstk : ∀ t ∈ stk, IsStackToken t) :
    (groups stk).2 = [] ↔ ['('] ∉ stk := by
  induction stk with
  | nil => simp [groups]
  | cons t rest ih =>
      have hrest := ih (fun t ht => hstk t (by simp [ht]))
      by_cases ht : t = ['(']
      · simp [groups, ht]
      · simp [groups, ht, hrest, Ne.symm ht]

/-- **`importExpress` succeeds exactly on well-counted texts.** -/
theorem accepts_iff_wellCounted (s : Str) : Accepts s ↔ WellCounted s := by
  have hf := follows_outline s
  set p := s.foldl read (start []) with hp
  have hparse : parseExpress [] s =
      match p.scan with
      | .plain => some p.result
      | .toOperator => none
      | .toParen => none := rfl
  rw [accepts_iff, hparse, WellCounted, ← hf.scan]
  cases hscan : p.scan with
  | toOperator => simp
  | toParen => simp
  | plain =>
      simp only [Option.some.injEq, exists_eq_left', true_and]
      have hout := outer_eq_nil_iff hf.stack
      rw [hf.groups] at hout
      simp only at hout
      by_cases hopen : ['('] ∈ p.suffixStk
      · -- an open group leaves its bracket among the tokens
        have hne : (outline s).outer ≠ [] := fun h => hout.mp h hopen
        have hfail : checkExpress p.result = false := by
          rw [Bool.eq_false_iff]
          intro h
          have := ((checkExpress_iff _).mp h).1 ['('] (by simp [Parser.result, hopen])
          exact absurd this (by decide)
        simp [hfail, hne]
      · have houter : (outline s).outer = [] := hout.mpr hopen
        have hops : operators p.suffixStk = p.suffixStk := by
          rw [operators, List.filter_eq_self]
          intro t ht
          simp only [bne_iff_ne, ne_eq]
          rintro rfl
          exact hopen ht
        -- without brackets the result is the outline's tokens in another order
        have hperm : p.result.Perm (outline s).tokens := by
          have h1 : p.result.Perm (flush p.temp p.stk2 ++ p.suffixStk) :=
            (List.reverse_perm _).append_right _
          have h2 := flush_perm p.temp hf.perm
          rw [hops] at h2
          rw [Outline.tokens, ← hf.temp]
          exact h1.trans h2
        rw [checkExpress_perm hperm, checkExpress_iff]
        simp [houter]

end Fediux.Express
