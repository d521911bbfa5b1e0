import Fediux.Executor.Outline

set_option autoImplicit false

/-! # `importExpress` and the infix grammar

`InGrammar` is the language the checker aims at. `wellCounted_of_grammar` says which texts of
the grammar `importExpress` accepts: those that do not end in a leading negative number, hold
no further group inside a group that starts with a negative number, and have fewer than
`2 ^ 16` operators. `accepts_iff_grammar_iff` gives the texts on which `importExpress` and the
grammar agree.
-/

namespace Fediux.Express

/-! ## The grammar -/

/-- Decimal digits with at most one point, which digits follow. -/
def IsNumber (s : Str) : Prop :=
  ∃ i : Str, i ≠ [] ∧ (∀ c ∈ i, c.isDigit = true) ∧
    (s = i ∨ ∃ f : Str, f ≠ [] ∧ (∀ c ∈ f, c.isDigit = true) ∧ s = i ++ '.' :: f)

/-- Infix expressions over names, numbers, `+ - * /` and brackets. The index says whether the
text stands at the start or directly after `(`, where a negative number is allowed. -/
inductive InGrammar : Bool → Str → Prop where
  | operand {b : Bool} {s : Str} : IsOperand s → InGrammar b s
  | negative {s : Str} : IsNumber s → InGrammar true ('-' :: s)
  | paren {b : Bool} {s : Str} : InGrammar true s → InGrammar b ('(' :: (s ++ [')']))
  | binary {b : Bool} {l r : Str} (o : Op) :
      InGrammar b l → InGrammar false r → InGrammar b (l ++ o.char :: r)

theorem isOperandChar_of_number {s : Str} (h : IsNumber s) :
    ∀ c ∈ s, isOperandChar c = true := by
  have hdigit : ∀ c : Char, c.isDigit = true → isOperandChar c = true := by
    intro c hc
    have hne : ∀ d : Char, d.isDigit = false → c ≠ d := by
      rintro d hd rfl
      rw [hc] at hd
      cases hd
    simp [isOperandChar, isOperator, hne '+' (by decide), hne '-' (by decide),
      hne '*' (by decide), hne '/' (by decide), hne '(' (by decide), hne ')' (by decide)]
  obtain ⟨i, -, hi, rfl | ⟨f, -, hf, rfl⟩⟩ := h
  · exact fun c hc => hdigit c (hi c hc)
  · intro c hc
    rcases List.mem_append.mp hc with hc | hc
    · exact hdigit c (hi c hc)
    · rcases List.mem_cons.mp hc with rfl | hc
      · decide
      · exact hdigit c (hf c hc)

theorem ne_nil_of_number {s : Str} (h : IsNumber s) : s ≠ [] := by
  obtain ⟨i, hi, -, rfl | ⟨f, -, -, rfl⟩⟩ := h
  · exact hi
  · simp

theorem InGrammar.ne_nil {b : Bool} {s : Str} (h : InGrammar b s) : s ≠ [] := by
  cases h with
  | operand h => exact h.1
  | negative _ => simp
  | paren _ => simp
  | binary o _ _ => simp

/-- A name, a number or a group does not start with `-`. -/
theorem operand_head {s : Str} (h : IsOperand s) : s.head? ≠ some '-' := by
  intro hd
  have hmem : '-' ∈ s := List.mem_of_mem_head? hd
  exact absurd (h.2 '-' hmem) (by decide)

theorem InGrammar.head_of_false {b : Bool} {s : Str} (h : InGrammar b s) (hb : b = false) :
    s.head? ≠ some '-' := by
  induction h with
  | operand h => exact operand_head h
  | negative _ => cases hb
  | paren _ _ => simp
  | binary o hl hr ihl _ =>
      rw [List.head?_append_of_ne_nil _ hl.ne_nil]
      exact ihl hb

theorem InGrammar.two_le_length {b : Bool} {s : Str} (h : InGrammar b s)
    (hd : s.head? = some '-') : 2 ≤ s.length := by
  cases h with
  | operand h => exact absurd hd (operand_head h)
  | negative h =>
      have := List.length_pos_iff.mpr (ne_nil_of_number h)
      simp only [List.length_cons]
      omega
  | paren _ => simp
  | binary o hl hr =>
      have h1 := List.length_pos_iff.mpr hl.ne_nil
      simp only [List.length_append, List.length_cons]
      omega

/-- The first bracket of a text of the grammar, if there is one, is an opening one. -/
theorem InGrammar.open_first {b : Bool} {s : Str} (h : InGrammar b s) :
    (∀ c ∈ s, c ≠ '(' ∧ c ≠ ')') ∨
      ∃ y z : Str, s = y ++ '(' :: z ∧ ∀ c ∈ y, c ≠ '(' ∧ c ≠ ')' := by
  induction h with
  | operand h => exact Or.inl fun c hc => ((isOperandChar_iff c).mp (h.2 c hc)).2
  | negative h =>
      refine Or.inl fun c hc => ?_
      rcases List.mem_cons.mp hc with rfl | hc
      · decide
      · exact ((isOperandChar_iff c).mp (isOperandChar_of_number h c hc)).2
  | @paren _ s _ _ => exact Or.inr ⟨[], s ++ [')'], rfl, by simp⟩
  | @binary _ l r o _ _ ihl ihr =>
      rcases ihl with hl | ⟨y, z, rfl, hy⟩
      · -- no bracket in `l`, so the first one is in `r`
        have hpre : ∀ (c : Char) (r : Str), (∀ d ∈ r, d ≠ '(' ∧ d ≠ ')') →
            isOperator c = true → ∀ d ∈ c :: r, d ≠ '(' ∧ d ≠ ')' := by
          intro c r hr hc d hd
          rcases List.mem_cons.mp hd with rfl | hd
          · exact ne_parens_of_isOperator hc
          · exact hr d hd
        rcases ihr with hr | ⟨y, z, rfl, hy⟩
        · refine Or.inl fun c hc => ?_
          rcases List.mem_append.mp hc with hc | hc
          · exact hl c hc
          · exact hpre o.char _ hr (isOperator_char o) c hc
        · refine Or.inr ⟨l ++ o.char :: y, z, by simp, fun c hc => ?_⟩
          rcases List.mem_append.mp hc with hc | hc
          · exact hl c hc
          · exact hpre o.char _ hy (isOperator_char o) c hc
      · exact Or.inr ⟨y, z ++ o.char :: r, by simp, hy⟩

/-! ## The texts of the grammar that are not accepted -/

/-- A leading `-` with no operator after it: the scan for the operator runs off the text. -/
def EndsInNegative (s : Str) : Prop := ∃ t : Str, s = '-' :: t ∧ ∀ c ∈ t, isOperator c = false

/-- A group that starts with `-` and holds another `(` before its first `)`: the scan for `)`
collects the inner bracket into the number. -/
def NestedNegative (s : Str) : Prop :=
  ∃ x y z : Str, s = x ++ '(' :: '-' :: (y ++ '(' :: z) ∧ ')' ∉ y

/-- The operators of a text outside its negative numbers. -/
def operatorCount (s : Str) : Nat := (outline s).tokens.countP isOperatorStr

theorem NestedNegative.mono {s : Str} (h : NestedNegative s) (u v : Str) :
    NestedNegative (u ++ s ++ v) := by
  obtain ⟨x, y, z, rfl, hy⟩ := h
  exact ⟨u ++ x, y, z ++ v, by simp, hy⟩

/-! ## Reading with the outline -/

namespace Outline

/-- The characters a loop appends to the pending operand. -/
def Collects : Scan → Char → Prop
  | .plain, c => isOperandChar c = true
  | .toOperator, c => isOperator c = false
  | .toParen, c => c ≠ ')'

theorem read_collects (o : Outline) {c : Char} (hc : Collects o.scan c) :
    o.read c = { o with temp := o.temp ++ [c], prev := some c } := by
  cases hs : o.scan with
  | plain =>
      rw [hs] at hc
      obtain ⟨hop, hl, hr⟩ := (isOperandChar_iff c).mp hc
      have hm : c ≠ '-' := by rintro rfl; exact absurd hop (by decide)
      simp [read, hs, readPlain, hm, hop, hl, hr]
  | toOperator =>
      rw [hs] at hc
      have hop : isOperator c = false := hc
      simp [read, hs, hop]
  | toParen =>
      rw [hs] at hc
      have hr : c ≠ ')' := hc
      simp [read, hs, hr]

theorem foldl_collects (s : Str) (o : Outline) (hs : ∀ c ∈ s, Collects o.scan c) :
    s.foldl read o = { o with temp := o.temp ++ s, prev := s.getLast?.or o.prev } := by
  induction s generalizing o with
  | nil => simp
  | cons c s ih =>
      have hstep := read_collects o (hs c (by simp))
      have hrest := ih (o.read c) (by rw [hstep]; exact fun d hd => hs d (by simp [hd]))
      rw [List.foldl_cons, hrest, hstep]
      cases hl : s.getLast? with
      | none => simp [List.getLast?_cons, hl]
      | some d => simp [List.getLast?_cons, hl]

/-- An operator ends the pending operand, also the one a leading `-` started. -/
theorem read_op (o : Outline) (op : Op) (hs : o.scan ≠ .toParen) (h1 : o.prev ≠ none)
    (h2 : o.prev ≠ some '(') :
    o.read op.char =
      { o with
        scan := .plain, temp := [], pending := true, prev := some op.char
        toks := [op.char] :: o.tokens } := by
  have hop := isOperator_char op
  cases hsc : o.scan with
  | plain => simp [read, hsc, readPlain, h1, h2, hop, tokens]
  | toOperator => simp [read, hsc, readPlain, h1, h2, hop, tokens]
  | toParen => exact absurd hsc hs

theorem read_open (o : Outline) (hs : o.scan = .plain) :
    o.read '(' =
      { o with pending := false, outer := o.pending :: o.outer, prev := some '(' } := by
  simp [read, hs, readPlain, isOperator]

theorem read_close (o : Outline) (hs : o.scan ≠ .toOperator) :
    (o.read ')').scan = .plain ∧ (o.read ')').prev = some ')' ∧
      (o.read ')').outer = o.outer.tail ∧ (o.read ')').tokens = o.tokens := by
  have hflush : flush (if o.pending = true then [] else o.temp)
      (if o.pending = true then flush o.temp o.toks else o.toks) = flush o.temp o.toks := by
    cases o.pending with
    | true => rfl
    | false => rfl
  cases hsc : o.scan with
  | plain => simp [read, hsc, readPlain, isOperator, tokens, hflush]
  | toOperator => exact absurd hsc hs
  | toParen => simp [read, hsc, readPlain, isOperator, tokens, hflush]

/-- Reading from `o` to `o'` adds `k` operators and `k + 1` operands. -/
structure Spans (k : Nat) (o o' : Outline) : Prop where
  scan : o'.scan = .plain
  prev_ne_none : o'.prev ≠ none
  prev_ne_open : o'.prev ≠ some '('
  outer : o'.outer = o.outer
  length : o'.tokens.length = o.toks.length + (2 * k + 1)
  count : o'.tokens.countP isOperatorStr = o.toks.countP isOperatorStr + k
  clean : (∀ t ∈ o.toks, hasParen t = false) → ∀ t ∈ o'.tokens, hasParen t = false

/-- A single operand spans. -/
theorem Spans.of_token {o o' : Outline} {t : Str} (hs : o'.scan = .plain)
    (h1 : o'.prev ≠ none) (h2 : o'.prev ≠ some '(') (ho : o'.outer = o.outer)
    (ht : o'.tokens = t :: o.toks) (hop : isOperatorStr t = false) (hp : hasParen t = false) :
    Spans 0 o o' := by
  refine ⟨hs, h1, h2, ho, by simp [ht], by simp [ht, hop], ?_⟩
  intro hclean u hu
  rw [ht] at hu
  rcases List.mem_cons.mp hu with rfl | hu
  · exact hp
  · exact hclean u hu

/-- An operator between two spans. -/
theorem Spans.binary {k k' : Nat} {o o1 o2 : Outline} (op : Op) (h : Spans k o o1)
    (h' : Spans k' (o1.read op.char) o2) : Spans (k + k' + 1) o o2 := by
  have hread := read_op o1 op (by rw [h.scan]; decide) h.prev_ne_none h.prev_ne_open
  have hopStr : isOperatorStr [op.char] = true := (isOperatorStr_iff _).mpr ⟨op, rfl⟩
  rw [hread] at h'
  refine ⟨h'.scan, h'.prev_ne_none, h'.prev_ne_open, h'.outer.trans h.outer, ?_, ?_, ?_⟩
  · rw [h'.length, List.length_cons, h.length]
    omega
  · rw [h'.count, List.countP_cons, h.count, hopStr, if_pos rfl]
    omega
  · intro hclean
    refine h'.clean fun t ht => ?_
    rcases List.mem_cons.mp ht with rfl | ht
    · exact hasParen_char op
    · exact h.clean hclean t ht

/-- A bracket around a span. -/
theorem Spans.paren {k : Nat} {o o1 : Outline} (hs : o.scan = .plain)
    (h : Spans k (o.read '(') o1) : Spans k o (o1.read ')') := by
  obtain ⟨hscan, hprev, houter, htoks⟩ := read_close o1 (by rw [h.scan]; decide)
  have hopen := read_open o hs
  have ho : o1.outer = o.pending :: o.outer := by rw [h.outer, hopen]
  have ht : (o.read '(').toks = o.toks := by rw [hopen]
  refine ⟨hscan, by simp [hprev], by simp [hprev], by simp [houter, ho], ?_, ?_, ?_⟩
  · rw [htoks, h.length, ht]
  · rw [htoks, h.count, ht]
  · rw [htoks]
    have hc := h.clean
    rw [ht] at hc
    exact hc

end Outline

open Outline (Spans Collects)

theorem isOperatorStr_eq_false {s : Str} (h : ∀ o : Op, s ≠ [o.char]) :
    isOperatorStr s = false := by
  rw [Bool.eq_false_iff]
  intro hs
  obtain ⟨o, rfl⟩ := (isOperatorStr_iff s).mp hs
  exact h o rfl

theorem hasParen_eq_false {s : Str} (h : ∀ c ∈ s, c ≠ '(' ∧ c ≠ ')') : hasParen s = false := by
  have h1 : '(' ∉ s := fun hm => (h _ hm).1 rfl
  have h2 : ')' ∉ s := fun hm => (h _ hm).2 rfl
  simp [hasParen, h1, h2]

/-- A bracketed text that starts with a negative number and holds no bracket is collected into
one operand. -/
theorem spans_negative_group {t : Str} (ht : t ≠ []) (hp : ∀ c ∈ t, c ≠ '(' ∧ c ≠ ')')
    (o : Outline) (hs : o.scan = .plain) (htemp : o.temp = []) :
    Spans 0 o (('(' :: ('-' :: t ++ [')'])).foldl Outline.read o) := by
  have hopen := Outline.read_open o hs
  have hminus : (o.read '(').read '-' =
      { o with
        scan := .toParen, temp := ['-'], prev := some '-', pending := false
        outer := o.pending :: o.outer } := by
    rw [hopen]
    simp [Outline.read, Outline.readPlain, hs, htemp]
  have hcollect := Outline.foldl_collects t ((o.read '(').read '-')
    (by rw [hminus]; exact fun c hc => (hp c hc).2)
  have hrun : ('(' :: ('-' :: t ++ [')'])).foldl Outline.read o
      = (t.foldl Outline.read ((o.read '(').read '-')).read ')' := by
    simp [List.foldl_append]
  rw [hrun, hcollect, hminus]
  obtain ⟨hscan, hprev, houter, htoks⟩ := Outline.read_close
    { o with
      scan := .toParen, temp := ['-'] ++ t, prev := t.getLast?.or (some '-'), pending := false
      outer := o.pending :: o.outer } (by simp)
  refine Spans.of_token (t := '-' :: t) hscan (by rw [hprev]; simp) (by rw [hprev]; simp) houter
    (htoks.trans rfl) ?_ ?_
  · refine isOperatorStr_eq_false fun op h => ht ?_
    simpa using congrArg List.tail h
  · refine hasParen_eq_false fun c hc => ?_
    rcases List.mem_cons.mp hc with rfl | hc
    · decide
    · exact hp c hc

/-- **A text of the grammar that does not start with a negative number spans**, by induction
on its derivation. -/
theorem spans_of_grammar {b : Bool} {s : Str} (h : InGrammar b s) (hd : s.head? ≠ some '-')
    (hn : ¬ NestedNegative s) (o : Outline) (hs : o.scan = .plain) (ht : o.temp = []) :
    ∃ k, Spans k o (s.foldl Outline.read o) := by
  induction h generalizing o with
  | @operand _ s h =>
      have hrun := Outline.foldl_collects s o (by rw [hs]; exact h.2)
      have hlast : s.getLast? = some (s.getLast h.1) := List.getLast?_eq_some_getLast h.1
      have hc := (isOperandChar_iff _).mp (h.2 _ (List.getLast_mem h.1))
      refine ⟨0, ?_⟩
      rw [hrun, hlast]
      refine Spans.of_token (t := s) hs (by simp) (by simpa using hc.2.1) rfl ?_ ?_ ?_
      · simp [Outline.tokens, flush, ht, h.1]
      · refine isOperatorStr_eq_false fun op hop => ?_
        have := (isOperandChar_iff _).mp (h.2 op.char (by simp [hop]))
        rw [isOperator_char] at this
        exact absurd this.1 (by decide)
      · exact hasParen_eq_false fun c hc => ((isOperandChar_iff c).mp (h.2 c hc)).2
  | negative _ => simp at hd
  | @paren _ s hin ih =>
      have hrun : ('(' :: (s ++ [')'])).foldl Outline.read o
          = (s.foldl Outline.read (o.read '(')).read ')' := by
        simp [List.foldl_append]
      by_cases hneg : s.head? = some '-'
      · -- the scan for `)` takes the whole group, which by `hn` holds no bracket
        obtain ⟨t, rfl⟩ : ∃ t, s = '-' :: t := by
          cases s with
          | nil => simp at hneg
          | cons c t =>
              have hc : c = '-' := by simpa using hneg
              exact ⟨t, by rw [hc]⟩
        have hlen := hin.two_le_length hneg
        have hp : ∀ c ∈ t, c ≠ '(' ∧ c ≠ ')' := by
          rcases hin.open_first with hp | ⟨y, z, hyz, hy⟩
          · exact fun c hc => hp c (by simp [hc])
          · exfalso
            apply hn
            cases y with
            | nil => simp at hyz
            | cons c y =>
                simp only [List.cons_append, List.cons.injEq] at hyz
                obtain ⟨-, rfl⟩ := hyz
                exact ⟨[], y, z ++ [')'], by simp, fun hm => (hy _ (by simp [hm])).2 rfl⟩
        have htne : t ≠ [] := by
          rintro rfl
          simp at hlen
        exact ⟨0, spans_negative_group htne hp o hs ht⟩
      · have hopen := Outline.read_open o hs
        have hn' : ¬ NestedNegative s := fun hns => hn (by simpa using hns.mono ['('] [')'])
        obtain ⟨k, hk⟩ := ih hneg hn' (o.read '(') (by rw [hopen]; exact hs)
          (by rw [hopen]; exact ht)
        exact ⟨k, by rw [hrun]; exact hk.paren hs⟩
  | @binary _ l r op hl hr ihl ihr =>
      have hdl : l.head? ≠ some '-' := by
        rwa [List.head?_append_of_ne_nil _ hl.ne_nil] at hd
      have hnl : ¬ NestedNegative l := fun hns => hn (by simpa using hns.mono [] (op.char :: r))
      have hnr : ¬ NestedNegative r := fun hns => hn (by simpa using hns.mono (l ++ [op.char]) [])
      obtain ⟨k, hk⟩ := ihl hdl hnl o hs ht
      have hread := Outline.read_op _ op (by rw [hk.scan]; decide) hk.prev_ne_none hk.prev_ne_open
      obtain ⟨k', hk'⟩ := ihr (hr.head_of_false rfl) hnr
        ((l.foldl Outline.read o).read op.char) (by rw [hread]) (by rw [hread])
      exact ⟨k + k' + 1, by simpa [List.foldl_append] using hk.binary op hk'⟩

/-- After a leading negative number the first operator brings the scan back. -/
theorem outline_of_leading {b : Bool} {s : Str} (h : InGrammar b s) (hd : s.head? = some '-')
    (hn : ¬ NestedNegative s) :
    (∃ num, IsNumber num ∧ s = '-' :: num) ∨ ∃ k, Spans k Outline.start (outline s) := by
  induction h with
  | operand h => exact absurd hd (operand_head h)
  | @negative num h => exact Or.inl ⟨num, h, rfl⟩
  | paren _ _ => simp at hd
  | @binary _ l r op hl hr ihl ihr =>
      -- a leading negative number is the first operand of the leftmost operator
      have hdl : l.head? = some '-' := by
        rwa [List.head?_append_of_ne_nil _ hl.ne_nil] at hd
      have hnl : ¬ NestedNegative l := fun hns => hn (by simpa using hns.mono [] (op.char :: r))
      have hnr : ¬ NestedNegative r := fun hns => hn (by simpa using hns.mono (l ++ [op.char]) [])
      have hrun : outline (l ++ op.char :: r)
          = r.foldl Outline.read ((outline l).read op.char) := by
        simp [outline, List.foldl_append]
      right
      -- `o1`: the outline of `l`, with the scan the operator brings back
      obtain ⟨o1, k, hk, hop⟩ : ∃ o1 k, Spans k Outline.start o1 ∧
          (outline l).read op.char = o1.read op.char := by
        rcases ihl hdl hnl with ⟨num, hnum, rfl⟩ | ⟨k, hk⟩
        · have hchar := isOperandChar_of_number hnum
          have hne := ne_nil_of_number hnum
          have hminus : Outline.start.read '-' =
              { Outline.start with scan := .toOperator, temp := ['-'], prev := some '-' } := rfl
          have hcollect := Outline.foldl_collects num (Outline.start.read '-')
            (by rw [hminus]; exact fun c hc => ((isOperandChar_iff c).mp (hchar c hc)).1)
          have hlast : num.getLast? = some (num.getLast hne) :=
            List.getLast?_eq_some_getLast hne
          have hc := (isOperandChar_iff _).mp (hchar _ (List.getLast_mem hne))
          have hl' : outline ('-' :: num) =
              { Outline.start with
                scan := .toOperator, temp := '-' :: num
                prev := some (num.getLast hne) } := by
            rw [outline, List.foldl_cons, hcollect, hminus, hlast]
            rfl
          refine ⟨{ outline ('-' :: num) with scan := .plain }, 0, ?_, ?_⟩
          · refine Spans.of_token (t := '-' :: num) rfl (by simp [hl'])
              (by simpa [hl'] using hc.2.1) (by simp [hl']) (by simp [hl', Outline.tokens, flush])
              ?_ ?_
            · refine isOperatorStr_eq_false fun op h => hne ?_
              simpa using congrArg List.tail h
            · refine hasParen_eq_false fun c hc => ?_
              rcases List.mem_cons.mp hc with rfl | hc
              · decide
              · exact ((isOperandChar_iff c).mp (hchar c hc)).2
          · -- the operator is read the same way from the scan for it and from the plain one
            rw [Outline.read_op _ op (by simp [hl']) (by simp [hl']) (by simpa [hl'] using hc.2.1),
              Outline.read_op _ op (by simp) (by simp [hl']) (by simpa [hl'] using hc.2.1)]
            rfl
        · exact ⟨outline l, k, hk, rfl⟩
      have hread := Outline.read_op o1 op (by rw [hk.scan]; decide) hk.prev_ne_none
        hk.prev_ne_open
      obtain ⟨k', hk'⟩ := spans_of_grammar hr (hr.head_of_false rfl) hnr (o1.read op.char)
        (by rw [hread]) (by rw [hread])
      exact ⟨k + k' + 1, by rw [hrun, hop]; exact hk.binary op hk'⟩

/-! ## Negative numbers that spoil the outline -/

/-- Some token read so far holds a bracket. -/
def Outline.Tainted (o : Outline) : Prop := ∃ t ∈ o.tokens, hasParen t = true

theorem Outline.tainted_iff (o : Outline) :
    o.Tainted ↔ hasParen o.temp = true ∨ ∃ t ∈ o.toks, hasParen t = true := by
  unfold Tainted tokens flush
  split
  · rename_i h
    have htemp : o.temp = [] := by simpa using h
    simp [htemp, hasParen]
  · simp

theorem hasParen_append_left {s : Str} (t : Str) (h : hasParen s = true) :
    hasParen (s ++ t) = true := by
  simp only [hasParen, List.contains_eq_mem, Bool.or_eq_true, decide_eq_true_eq,
    List.mem_append] at h ⊢
  rcases h with h | h
  · exact Or.inl (Or.inl h)
  · exact Or.inr (Or.inl h)

/-- A character that is collected does not take the bracket out of its token. -/
theorem Outline.Tainted.collect {o : Outline} (h : o.Tainted) (sc : Scan) (c : Char) :
    Tainted { o with scan := sc, temp := o.temp ++ [c] } := by
  rw [tainted_iff] at h ⊢
  exact h.imp (hasParen_append_left [c]) id

theorem Outline.Tainted.readPlain {o : Outline} (h : o.Tainted) (c : Char) :
    (o.readPlain c).Tainted := by
  have htok : ∃ t ∈ flush o.temp o.toks, hasParen t = true := h
  unfold Outline.readPlain
  split
  · exact h.collect _ c
  split
  · exact h.collect _ c
  split
  · -- an operator
    obtain ⟨t, ht, hp⟩ := htok
    exact (tainted_iff _).mpr (Or.inr ⟨t, by simp [ht], hp⟩)
  split
  · exact h
  split
  · -- a closing bracket flushes the operand or leaves it pending
    cases hpend : o.pending with
    | true => exact (tainted_iff _).mpr (Or.inr (by simpa using htok))
    | false => simpa [Tainted, tokens] using htok
  · exact h.collect o.scan c

theorem Outline.Tainted.read {o : Outline} (h : o.Tainted) (c : Char) : (o.read c).Tainted := by
  have hplain : Tainted { o with scan := .plain } := h
  unfold Outline.read
  cases hs : o.scan with
  | plain => exact h.readPlain c
  | toOperator =>
      by_cases hc : isOperator c = true
      · simp only [hc, if_true]
        exact hplain.readPlain c
      · simp only [hc]
        exact h.collect .toOperator c
  | toParen =>
      by_cases hc : c = ')'
      · simp only [hc, if_true]
        exact hc ▸ hplain.readPlain c
      · simp only [hc, if_false]
        exact h.collect .toParen c

theorem Outline.Tainted.foldl {o : Outline} (h : o.Tainted) (s : Str) :
    (s.foldl Outline.read o).Tainted := by
  induction s generalizing o with
  | nil => exact h
  | cons c s ih => exact ih (h.read c)

/-- A bracket read by one of the `while` loops ends up inside a token. -/
theorem Outline.tainted_of_open (o : Outline) (hs : o.scan ≠ .plain) : (o.read '(').Tainted := by
  -- both `while` loops take a bracket for a part of the number
  have hcol : Collects o.scan '(' := by
    cases hsc : o.scan with
    | plain => exact absurd hsc hs
    | toOperator => exact (by decide : isOperator '(' = false)
    | toParen => exact (by decide : '(' ≠ ')')
  rw [read_collects o hcol, tainted_iff]
  left
  simp [hasParen]

theorem not_wellCounted_of_nested {s : Str} (h : NestedNegative s) : ¬ WellCounted s := by
  obtain ⟨x, y, z, rfl, hy⟩ := h
  have htaint : (outline (x ++ '(' :: '-' :: (y ++ '(' :: z))).Tainted := by
    rw [outline, List.foldl_append]
    set o := x.foldl Outline.read Outline.start
    rw [List.foldl_cons]
    -- a number that is still being read takes in the bracket that opens the group
    by_cases hs : o.scan = .plain
    · rw [List.foldl_cons, List.foldl_append, List.foldl_cons]
      have hscan : ((o.read '(').read '-').scan = .toParen := by
        rw [Outline.read_open o hs]
        simp [Outline.read, Outline.readPlain, hs]
      have hcollect := Outline.foldl_collects y ((o.read '(').read '-')
        (by rw [hscan]; exact fun c hc => fun h => hy (h ▸ hc))
      refine Outline.Tainted.foldl (Outline.tainted_of_open _ ?_) z
      rw [hcollect]
      simp [hscan]
    · exact Outline.Tainted.foldl (Outline.tainted_of_open o hs) _
  obtain ⟨t, ht, hp⟩ := htaint
  intro hw
  rw [hw.2.2.1 t ht] at hp
  cases hp

theorem not_wellCounted_of_endsInNegative {s : Str} (h : EndsInNegative s) : ¬ WellCounted s := by
  obtain ⟨t, rfl, ht⟩ := h
  have hcollect := Outline.foldl_collects t (Outline.start.read '-')
    (by simpa [Outline.start, Outline.read, Outline.readPlain, Collects] using ht)
  intro hw
  have hscan : (outline ('-' :: t)).scan = .toOperator := by
    rw [outline, List.foldl_cons, hcollect]
    rfl
  rw [WellCounted, hscan] at hw
  exact absurd hw.1 (by decide)

/-! ## Agreement with the grammar -/

theorem wellCounted_of_spans {k : Nat} {s : Str} (h : Spans k Outline.start (outline s)) :
    WellCounted s ↔ operatorCount s < 2 ^ 16 := by
  -- `k` operators and `k + 1` operands, against a 16-bit count of the operators
  have hlen : (outline s).tokens.length = 2 * k + 1 := by simpa [Outline.start] using h.length
  have hcount : (outline s).tokens.countP isOperatorStr = k := by
    simpa [Outline.start] using h.count
  have hnum : numOp (outline s).tokens = k % 2 ^ 16 := by rw [numOp, hcount]
  have hclean := h.clean (by simp [Outline.start])
  rw [operatorCount, hcount]
  constructor
  · intro hw
    have := hw.2.2.2
    rw [hlen, hnum] at this
    omega
  · intro hk
    refine ⟨h.scan, h.outer.trans rfl, hclean, ?_⟩
    rw [hlen, hnum]
    omega

/-- **The texts of the grammar that are well counted.** -/
theorem wellCounted_of_grammar {s : Str} (h : InGrammar true s) :
    WellCounted s ↔
      ¬ EndsInNegative s ∧ ¬ NestedNegative s ∧ operatorCount s < 2 ^ 16 := by
  have hspan : ¬ EndsInNegative s → ¬ NestedNegative s →
      ∃ k, Spans k Outline.start (outline s) := by
    intro he hn
    by_cases hd : s.head? = some '-'
    · rcases outline_of_leading h hd hn with ⟨num, hnum, rfl⟩ | hk
      · exact absurd ⟨num, rfl, fun c hc =>
          ((isOperandChar_iff c).mp (isOperandChar_of_number hnum c hc)).1⟩ he
      · exact hk
    · exact spans_of_grammar h hd hn Outline.start rfl rfl
  constructor
  · intro hw
    have he : ¬ EndsInNegative s := fun he => not_wellCounted_of_endsInNegative he hw
    have hn : ¬ NestedNegative s := fun hn => not_wellCounted_of_nested hn hw
    obtain ⟨k, hk⟩ := hspan he hn
    exact ⟨he, hn, (wellCounted_of_spans hk).mp hw⟩
  · rintro ⟨he, hn, hc⟩
    obtain ⟨k, hk⟩ := hspan he hn
    exact (wellCounted_of_spans hk).mpr hc

/-- **Where `importExpress` and the grammar agree**: on a text of the grammar, when it does not
end in a leading negative number, nests no group in a negative one and has fewer than `2 ^ 16`
operators; on any other text, when its outline is not well counted. -/
theorem accepts_iff_grammar_iff (s : Str) :
    (Accepts s ↔ InGrammar true s) ↔
      (InGrammar true s →
        ¬ EndsInNegative s ∧ ¬ NestedNegative s ∧ operatorCount s < 2 ^ 16) ∧
      (¬ InGrammar true s → ¬ WellCounted s) := by
  rw [accepts_iff_wellCounted]
  by_cases hg : InGrammar true s
  · rw [← wellCounted_of_grammar hg]
    simp [hg]
  · simp [hg]

/-- `(-2*(A+B))` is in the grammar but fails the check for brackets. -/
theorem not_accepts_iff_grammar : ¬ ∀ s : Str, Accepts s ↔ InGrammar true s := by
  intro h
  have hs := h ['(', '-', '2', '*', '(', 'A', '+', 'B', ')', ')']
  have hname : ∀ c, isOperandChar c = true → [c] ≠ [] ∧ ∀ c' ∈ [c], isOperandChar c' = true :=
    fun c hc => ⟨List.cons_ne_nil c [], List.forall_mem_singleton.mpr hc⟩
  have hA : InGrammar false ['(', 'A', '+', 'B', ')'] :=
    .paren (s := ['A', '+', 'B'])
      (.binary (l := ['A']) .add (.operand (hname 'A' rfl)) (.operand (hname 'B' rfl)))
  have h2 : IsNumber ['2'] := ⟨['2'], by simp, List.forall_mem_singleton.mpr rfl, Or.inl rfl⟩
  have hg : InGrammar true ['(', '-', '2', '*', '(', 'A', '+', 'B', ')', ')'] :=
    .paren (s := ['-', '2', '*', '(', 'A', '+', 'B', ')'])
      (.binary (l := ['-', '2']) .mul (.negative h2) hA)
  have hw := (accepts_iff_wellCounted _).mp (hs.mpr hg)
  exact absurd hw (by decide)

end Fediux.Express
