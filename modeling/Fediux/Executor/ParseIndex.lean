import Fediux.Executor.ParseExpress

set_option autoImplicit false

/-! # The index of `parseExpress`

`parseExpress` walks over the text with an index that its inner loops move on: behind a minus
sign at the start up to an operator, behind a minus sign after `(` up to `)`. Neither loop
compares the index with the length of the text. The index is modelled here, an access behind the
terminator has no result, and the walk is compared with the pass over the characters
(`passes_eq`). It stays within the text exactly when the two kinds of numbers are ended in the
text (`walks_iff`).
-/

namespace Fediux.Express

/-! ## The walk -/

/-- `expr[i]`. Behind the text is its terminator, and nothing behind that. -/
def charAt (expr : Str) (i : ℕ) : Option Char :=
  if i = expr.length then some (Char.ofNat 0) else expr[i]?

theorem le_of_charAt {expr : Str} {i : ℕ} {c : Char} (h : charAt expr i = some c) :
    i ≤ expr.length := by
  unfold charAt at h
  split_ifs at h with hi
  · exact hi.le
  · obtain ⟨hlt, _⟩ := List.getElem?_eq_some_iff.mp h
    omega

/-- The inner loops: `temp += expr[i]; i++` until `stop` holds of `expr[i]`. -/
def scanWhile (expr : Str) (stop : Char → Bool) (i : ℕ) (temp : Str) : Option (ℕ × Str) :=
  match _h : charAt expr i with
  | none => none
  | some c => if stop c then some (i, temp) else scanWhile expr stop (i + 1) (temp ++ [c])
termination_by expr.length + 1 - i
decreasing_by
  have := le_of_charAt _h
  omega

/-- The variables of the `for` loop. -/
structure Walk where
  i : ℕ
  temp : Str
  suffixStk : List Str
  stk2 : List Str
  deriving DecidableEq, Repr

/-- The branches that look at a single character, and `i++`. -/
def Walk.plain (s : Walk) (c : Char) : Walk :=
  if isOperator c then
    let r := pushOperator c s.suffixStk (flush s.temp s.stk2)
    { i := s.i + 1, temp := [], suffixStk := r.1, stk2 := r.2 }
  else if c = '(' then { s with i := s.i + 1, suffixStk := [c] :: s.suffixStk }
  else if c = ')' then
    let r := unwindParen s.temp s.suffixStk s.stk2
    { i := s.i + 1, temp := r.1, suffixStk := r.2.1, stk2 := r.2.2 }
  else { s with i := s.i + 1, temp := s.temp ++ [c] }

/-- One pass of the `for` loop with the `i++` behind it, where `i <= expr.length()`. -/
def pass (expr : Str) (s : Walk) : Option Walk :=
  if s.i = expr.length then some { s with i := s.i + 1, temp := [], stk2 := flush s.temp s.stk2 }
  else do
    let c ← charAt expr s.i
    if c = '-' ∧ s.i = 0 then
      let (i, temp) ← scanWhile expr isOperator (s.i + 1) (s.temp ++ [c])
      return { s with i := i - 1 + 1, temp := temp }
    else if c = '-' ∧ charAt expr (s.i - 1) = some '(' then
      let (i, temp) ← scanWhile expr (· == ')') s.i s.temp
      return { s with i := i - 1 + 1, temp := temp }
    else return s.plain c

/-- At most `n` passes. -/
def passes (expr : Str) : ℕ → Walk → Option Walk
  | 0, s => some s
  | n + 1, s => if s.i ≤ expr.length then (pass expr s).bind (passes expr n) else some s

def Walk.start (suffixStk : List Str) : Walk :=
  { i := 0, temp := [], suffixStk := suffixStk, stk2 := [] }

/-! ## The inner loops -/

theorem charAt_of_drop {expr rest : Str} {i : ℕ} {c : Char} (h : expr.drop i = c :: rest) :
    charAt expr i = some c ∧ expr.drop (i + 1) = rest := by
  have hget : expr[i]? = some c := by
    rw [← List.head?_drop, h, List.head?_cons]
  obtain ⟨hlt, _⟩ := List.getElem?_eq_some_iff.mp hget
  constructor
  · rw [charAt, if_neg hlt.ne, hget]
  · rw [← List.tail_drop, h, List.tail_cons]

/-- An inner loop goes on to the first place where it may stop, or past the end of the text. -/
theorem scanWhile_eq {expr : Str} {stop : Char → Bool} (hstop : stop (Char.ofNat 0) = false)
    {rest : Str} {i : ℕ} (hrest : expr.drop i = rest) (hi : i ≤ expr.length) (temp : Str) :
    scanWhile expr stop i temp =
      if rest.any stop then
        some (i + (rest.takeWhile fun c => !stop c).length,
          temp ++ rest.takeWhile fun c => !stop c)
      else none := by
  induction rest generalizing i temp with
  | nil =>
      have hlen : i = expr.length := by
        have hle := List.drop_eq_nil_iff.mp hrest
        omega
      have hend : charAt expr (i + 1) = none := by
        rw [charAt, if_neg (by omega), List.getElem?_eq_none (by omega)]
      rw [scanWhile, charAt, if_pos hlen]
      simp only [hstop, Bool.false_eq_true, if_false]
      rw [scanWhile, hend]
      rfl
  | cons c rest ih =>
      obtain ⟨hc, hdrop⟩ := charAt_of_drop hrest
      have hlt : i < expr.length := by
        by_contra hge
        rw [List.drop_eq_nil_of_le (by omega)] at hrest
        cases hrest
      rw [scanWhile, hc]
      simp only
      cases hs : stop c with
      | true => simp [hs]
      | false =>
          rw [if_neg Bool.false_ne_true, ih hdrop hlt]
          simp [hs, Nat.add_assoc, Nat.add_comm 1]

/-! ## The walk and the pass over the characters -/

/-- `expr[i - 1]` -/
def prevAt (expr : Str) : ℕ → Option Char
  | 0 => none
  | i + 1 => expr[i]?

/-- The parser that has read the text up to the index. -/
def Walk.parser (expr : Str) (s : Walk) : Parser :=
  { scan := .plain, prev := prevAt expr s.i, temp := s.temp, suffixStk := s.suffixStk,
    stk2 := s.stk2 }

/-- The parser behind the minus sign of a number. -/
def Walk.collecting (s : Walk) (scan : Scan) : Parser :=
  { scan := scan, prev := some '-', temp := s.temp ++ ['-'], suffixStk := s.suffixStk,
    stk2 := s.stk2 }

theorem prevAt_eq {expr : Str} {i : ℕ} (hpos : 0 < i) (hi : i ≤ expr.length) :
    prevAt expr i = charAt expr (i - 1) := by
  obtain ⟨j, rfl⟩ : ∃ j, i = j + 1 := ⟨i - 1, by omega⟩
  rw [prevAt, Nat.add_sub_cancel, charAt, if_neg (by omega)]

/-- A character that is no minus sign of a number. -/
theorem readPlain_eq {expr : Str} {s : Walk} {c : Char} (hi : s.i < expr.length)
    (hc : expr[s.i]? = some c) (hfirst : ¬ (c = '-' ∧ s.i = 0))
    (hopen : ¬ (c = '-' ∧ charAt expr (s.i - 1) = some '(')) :
    read (s.parser expr) c = (s.plain c).parser expr := by
  have hprev : ¬ (c = '-' ∧ prevAt expr s.i = none) := by
    rintro ⟨hminus, hnone⟩
    rcases Nat.eq_zero_or_pos s.i with hzero | hpos
    · exact hfirst ⟨hminus, hzero⟩
    · rw [prevAt_eq hpos hi.le, charAt, if_neg (by omega),
        List.getElem?_eq_none_iff] at hnone
      omega
  have hparen : ¬ (c = '-' ∧ prevAt expr s.i = some '(') := by
    rintro ⟨hminus, hsome⟩
    rcases Nat.eq_zero_or_pos s.i with hzero | hpos
    · exact hfirst ⟨hminus, hzero⟩
    · exact hopen ⟨hminus, prevAt_eq hpos hi.le ▸ hsome⟩
  unfold read readPlain Walk.plain Walk.parser
  simp only [hprev, hparen, if_false]
  split_ifs <;> simp [prevAt, hc]

/-- While a number is collected its characters are appended. -/
theorem foldl_read_collects {w : Str} {p : Parser} (hread : ∀ c ∈ w, ∀ q : Parser,
    q.scan = p.scan → read q c = { q with temp := q.temp ++ [c], prev := some c }) :
    w.foldl read p = { p with temp := p.temp ++ w, prev := w.getLast?.or p.prev } := by
  induction w generalizing p with
  | nil => simp
  | cons c w ih =>
      obtain ⟨hc, hw⟩ := List.forall_mem_cons.mp hread
      rw [List.foldl_cons, hc p rfl]
      refine (ih (p := { p with temp := p.temp ++ [c], prev := some c }) hw).trans ?_
      cases hlast : w.getLast? <;> simp [List.getLast?_cons, hlast]

theorem read_toOperator {c : Char} (hc : isOperator c = false) (q : Parser)
    (hq : q.scan = .toOperator) : read q c = { q with temp := q.temp ++ [c], prev := some c } := by
  simp [read, hq, hc]

theorem read_toParen {c : Char} (hc : (c == ')') = false) (q : Parser)
    (hq : q.scan = .toParen) : read q c = { q with temp := q.temp ++ [c], prev := some c } := by
  simp [read, hq, by simpa using hc]

/-- **An inner loop** that collects a number from the index `i` on: it ends at a stop that leaves
the mode of the loop, or it leaves the text and the parser is still in that mode. -/
theorem scanWhile_spec {expr : Str} {stop : Char → Bool} {p : Parser} {i : ℕ}
    (hzero : stop (Char.ofNat 0) = false) (hi : i ≤ expr.length)
    (hprev : p.prev = prevAt expr i)
    (hcollect : ∀ c, stop c = false → ∀ q : Parser, q.scan = p.scan →
      read q c = { q with temp := q.temp ++ [c], prev := some c })
    (hstop : ∀ c, stop c = true → ∀ q : Parser, q.scan = p.scan →
      read q c = read { q with scan := .plain } c) :
    (scanWhile expr stop i p.temp = none → ((expr.drop i).foldl read p).scan = p.scan) ∧
      ∀ j temp, scanWhile expr stop i p.temp = some (j, temp) →
        i ≤ j ∧ j < expr.length ∧ (expr.drop i).foldl read p =
          (expr.drop j).foldl read
            { p with scan := .plain, prev := prevAt expr j, temp := temp } := by
  rw [scanWhile_eq hzero rfl hi]
  set w := (expr.drop i).takeWhile fun c => !stop c with hw
  have hmem : ∀ c ∈ w, stop c = false := by
    intro c hc
    simpa using List.mem_takeWhile_imp hc
  have hfold := foldl_read_collects (w := w) (p := p) fun c hc => hcollect c (hmem c hc)
  have hsplit := List.takeWhile_append_dropWhile (p := fun c => !stop c) (l := expr.drop i)
  rw [← hw] at hsplit
  have hrest : expr.drop (i + w.length) = (expr.drop i).dropWhile fun c => !stop c := by
    rw [← List.drop_drop, ← hsplit, List.drop_left]
    exact congrArg _ hsplit.symm
  have hlast : w.getLast?.or p.prev = prevAt expr (i + w.length) := by
    rcases List.eq_nil_or_concat w with hnil | ⟨v, c, hconcat⟩
    · simp [hnil, hprev]
    · have hget : (expr.drop i)[v.length]? = some c := by
        rw [← hsplit, hconcat, List.getElem?_append_left (by simp)]
        simp
      rw [List.getElem?_drop] at hget
      rw [hconcat, List.length_concat, ← Nat.add_assoc, prevAt, hget]
      simp
  cases hcase : (expr.drop i).dropWhile fun c => !stop c with
  | nil =>
      have hall : expr.drop i = w := by
        rw [hcase, List.append_nil] at hsplit
        exact hsplit.symm
      have hany : (expr.drop i).any stop = false := by
        rw [hall, List.any_eq_false]
        intro c hc
        simp [hmem c hc]
      rw [if_neg (by simp [hany])]
      refine ⟨fun _ => ?_, fun j temp h => nomatch h⟩
      rw [hall, hfold]
  | cons c rest =>
      have hc : stop c = true := by
        have hhead := List.head?_dropWhile_not (fun c => !stop c) (expr.drop i)
        rw [hcase] at hhead
        simpa using hhead
      have hany : (expr.drop i).any stop = true := by
        rw [← hsplit, hcase]
        simp [hc]
      have hlt : i + w.length < expr.length := by
        by_contra hge
        rw [hcase, List.drop_eq_nil_of_le (by omega)] at hrest
        cases hrest
      rw [if_pos hany]
      refine ⟨(fun h => nomatch h), ?_⟩
      intro j temp h
      obtain ⟨rfl, rfl⟩ := Prod.mk.inj (Option.some.inj h)
      refine ⟨Nat.le_add_right i _, hlt, ?_⟩
      -- the end of the number is read by the `for` loop
      rw [hrest, hcase, ← hsplit, hcase, List.foldl_append, hfold, List.foldl_cons, List.foldl_cons,
        ← hlast]
      exact congrArg (fun q => rest.foldl read q) (hstop c hc _ rfl)

theorem readStop_toOperator (c : Char) (hc : isOperator c = true) (q : Parser)
    (hq : q.scan = .toOperator) : read q c = read { q with scan := .plain } c := by
  simp [read, hq, hc]

theorem readStop_toParen (c : Char) (hc : (c == ')') = true) (q : Parser)
    (hq : q.scan = .toParen) : read q c = read { q with scan := .plain } c := by
  simp [read, hq, by simpa using hc]

/-- A number that is collected with an inner loop, and the `i--` and `i++` behind it. -/
theorem number_spec {expr : Str} {s : Walk} {p : Parser} {i k : ℕ} {stop : Char → Bool}
    {temp : Str} (hsuffix : p.suffixStk = s.suffixStk) (hstk2 : p.stk2 = s.stk2)
    (h : (scanWhile expr stop i temp = none → ((expr.drop i).foldl read p).scan = p.scan) ∧
      ∀ j temp', scanWhile expr stop i temp = some (j, temp') →
        i ≤ j ∧ j < expr.length ∧ (expr.drop i).foldl read p =
          (expr.drop j).foldl read
            { p with scan := .plain, prev := prevAt expr j, temp := temp' })
    (hmode : p.scan ≠ .plain) (hk : k < i) :
    ((scanWhile expr stop i temp).bind (fun r => some { s with i := r.1 - 1 + 1, temp := r.2 }) =
        none → ((expr.drop i).foldl read p).scan ≠ .plain) ∧
      ∀ s', (scanWhile expr stop i temp).bind
          (fun r => some { s with i := r.1 - 1 + 1, temp := r.2 }) = some s' →
        k < s'.i ∧ s'.i ≤ expr.length ∧
          (expr.drop i).foldl read p = (expr.drop s'.i).foldl read (s'.parser expr) := by
  cases hscan : scanWhile expr stop i temp with
  | none =>
      refine ⟨fun _ => ?_, fun s' hs' => nomatch hs'⟩
      rw [h.1 hscan]
      exact hmode
  | some r =>
      refine ⟨(fun hout => nomatch hout), ?_⟩
      intro s' hs'
      obtain rfl := Option.some.inj hs'
      obtain ⟨hle, hlt, hreads⟩ := h.2 r.1 r.2 hscan
      have hindex : r.1 - 1 + 1 = r.1 := by omega
      refine ⟨by dsimp only; omega, by dsimp only; omega, ?_⟩
      rw [hreads]
      simp only [hindex, Walk.parser, hsuffix, hstk2]

/-- A pass within the text leaves it, or the walk goes on as the parser does. -/
theorem pass_spec {expr : Str} {s : Walk} (hi : s.i < expr.length) :
    (pass expr s = none → ((expr.drop s.i).foldl read (s.parser expr)).scan ≠ .plain) ∧
      ∀ s', pass expr s = some s' → s.i < s'.i ∧ s'.i ≤ expr.length ∧
        (expr.drop s.i).foldl read (s.parser expr) =
          (expr.drop s'.i).foldl read (s'.parser expr) := by
  obtain ⟨c, hc⟩ : ∃ c, expr[s.i]? = some c := ⟨_, List.getElem?_eq_getElem hi⟩
  have hat : charAt expr s.i = some c := by
    rw [charAt, if_neg hi.ne, hc]
  have hdrop : expr.drop s.i = c :: expr.drop (s.i + 1) := by
    rw [List.drop_eq_getElem_cons hi, (List.getElem?_eq_some_iff.mp hc).2]
  have hnext : prevAt expr (s.i + 1) = some c := hc
  have hminus : isOperator (Char.ofNat 0) = false := by decide
  have hparen : (Char.ofNat 0 == ')') = false := by decide
  rw [pass, if_neg hi.ne, hat]
  simp only [Option.bind_eq_bind, Option.bind_some, Option.pure_def]
  by_cases hfirst : c = '-' ∧ s.i = 0
  · -- a number at the start
    obtain ⟨rfl, hzero⟩ := hfirst
    have hread : read (s.parser expr) '-' = s.collecting .toOperator := by
      simp [read, readPlain, Walk.parser, Walk.collecting, hzero, prevAt]
    rw [if_pos ⟨rfl, hzero⟩, hdrop, List.foldl_cons, hread]
    exact number_spec (s := s) rfl rfl
      (scanWhile_spec (p := s.collecting .toOperator) hminus hi hnext.symm
        (fun c hc q => read_toOperator hc q) readStop_toOperator)
      Scan.noConfusion (Nat.lt_succ_self _)
  · rw [if_neg hfirst]
    by_cases hopen : c = '-' ∧ charAt expr (s.i - 1) = some '('
    · -- a number behind a bracket; the loop begins with its sign
      obtain ⟨rfl, hbracket⟩ := hopen
      have hpos : 0 < s.i := Nat.pos_of_ne_zero fun hzero => hfirst ⟨rfl, hzero⟩
      have hread : read (s.parser expr) '-' = s.collecting .toParen := by
        simp [read, readPlain, Walk.parser, Walk.collecting, prevAt_eq hpos hi.le, hbracket]
      have hsign : scanWhile expr (· == ')') s.i s.temp =
          scanWhile expr (· == ')') (s.i + 1) (s.temp ++ ['-']) := by
        rw [scanWhile, hat]
        rfl
      rw [if_pos ⟨rfl, hbracket⟩, hsign, hdrop, List.foldl_cons, hread]
      exact number_spec (s := s) rfl rfl
        (@scanWhile_spec expr (· == ')') (s.collecting .toParen) _ hparen hi hnext.symm
          (fun c hc q => read_toParen hc q) readStop_toParen)
        Scan.noConfusion (Nat.lt_succ_self _)
    · rw [if_neg hopen]
      refine ⟨fun h => absurd h (Option.some_ne_none _), ?_⟩
      intro s' hs'
      obtain rfl := Option.some.inj hs'
      have hindex : (s.plain c).i = s.i + 1 := by
        unfold Walk.plain
        split_ifs <;> rfl
      refine ⟨by omega, by omega, ?_⟩
      rw [hindex, hdrop, List.foldl_cons, readPlain_eq hi hc hfirst hopen]

/-- **The walk** from an index within the text: it leaves the text, or it ends behind it with
the operands and operators that the parser has collected. -/
theorem passes_spec {expr : Str} {n : ℕ} {s : Walk} (hi : s.i ≤ expr.length)
    (hn : expr.length + 1 - s.i ≤ n) {p : Parser}
    (hp : (expr.drop s.i).foldl read (s.parser expr) = p) :
    passes expr n s =
      if p.scan = .plain then
        some { i := expr.length + 1, temp := [], suffixStk := p.suffixStk,
               stk2 := flush p.temp p.stk2 }
      else none := by
  induction n generalizing s with
  | zero => omega
  | succ n ih =>
      rw [passes, if_pos hi]
      rcases hi.eq_or_lt with hend | hlt
      · -- the last pass takes what is left in `temp`
        rw [hend, List.drop_length, List.foldl_nil] at hp
        subst hp
        have hbehind : ∀ (m : ℕ) (t : Walk), expr.length < t.i → passes expr m t = some t := by
          intro m t ht
          cases m with
          | zero => rfl
          | succ m => rw [passes, if_neg (by omega)]
        rw [pass, if_pos hend, Option.bind_some, hbehind n _ (by dsimp only; omega)]
        simp [Walk.parser, hend]
      · obtain ⟨hnone, hsome⟩ := pass_spec hlt
        cases hpass : pass expr s with
        | none =>
            have hscan := hnone hpass
            rw [hp] at hscan
            rw [if_neg hscan]
            rfl
        | some t =>
            obtain ⟨hlt', hle, hreads⟩ := hsome t hpass
            exact ih hle (by omega) (hreads.symm.trans hp)

theorem passes_start (suffixStk : List Str) (expr : Str) :
    passes expr (expr.length + 1) (.start suffixStk) =
      if (expr.foldl read (start suffixStk)).scan = .plain then
        some { i := expr.length + 1, temp := [],
               suffixStk := (expr.foldl read (start suffixStk)).suffixStk,
               stk2 := flush (expr.foldl read (start suffixStk)).temp
                 (expr.foldl read (start suffixStk)).stk2 }
      else none :=
  passes_spec (s := .start suffixStk) (Nat.zero_le _) (by simp [Walk.start]) rfl

/-- The walk with the index computes what the pass over the characters does. -/
theorem passes_eq (suffixStk : List Str) (expr : Str) :
    (passes expr (expr.length + 1) (.start suffixStk)).map
      (fun s => s.stk2.reverse ++ s.suffixStk) = parseExpress suffixStk expr := by
  rw [passes_start, parseExpress]
  cases hscan : (expr.foldl read (start suffixStk)).scan with
  | plain => simp [Parser.result]
  | toOperator => simp
  | toParen => simp

/-! ## Texts that end their numbers -/

/-- A minus sign at the start is followed by an operator, and every minus sign behind an opening
bracket by a closing one. -/
structure Closed (expr : Str) : Prop where
  toOperator : ∀ rest, expr = '-' :: rest → rest.any isOperator = true
  toParen : ∀ u v, expr = u ++ '(' :: '-' :: v → v.any (· == ')') = true

/-- What the text read so far says about the loop that the parser is in. -/
def Reached (expr : Str) : Scan → Prop
  | .plain => Closed expr
  | .toOperator => ∃ rest, expr = '-' :: rest ∧ rest.any isOperator = false
  | .toParen => ∃ u v, expr = u ++ '(' :: '-' :: v ∧ v.any (· == ')') = false

theorem concat_eq_append {w u v : Str} {a b c : Char} (h : w ++ [c] = u ++ a :: b :: v) :
    (c = b ∧ w = u ++ [a] ∧ v = []) ∨ ∃ v', v = v' ++ [c] ∧ w = u ++ a :: b :: v' := by
  rcases List.eq_nil_or_concat v with rfl | ⟨v', d, rfl⟩
  · left
    have hsplit : w ++ [c] = (u ++ [a]) ++ [b] := by simpa using h
    obtain ⟨hw, hc⟩ := List.append_inj' hsplit rfl
    exact ⟨List.singleton_inj.mp hc, hw, rfl⟩
  · right
    have hsplit : w ++ [c] = (u ++ a :: b :: v') ++ [d] := by simpa using h
    obtain ⟨hw, hc⟩ := List.append_inj' hsplit rfl
    obtain rfl := List.singleton_inj.mp hc
    exact ⟨v', by simp, hw⟩

/-- A minus sign behind a first character is an operator behind it. -/
theorem any_of_minus {u v rest : Str} (h : u ++ '(' :: '-' :: v = '-' :: rest) :
    rest.any isOperator = true := by
  cases u with
  | nil => simp at h
  | cons a u =>
      obtain ⟨_, rfl⟩ := List.cons.inj h
      simp [isOperator]

/-- A character that begins no number leaves a text that ends its numbers as it is. -/
theorem Closed.concat {w : Str} {c : Char} (h : Closed w) (hfirst : ¬ (c = '-' ∧ w = []))
    (hopen : ¬ (c = '-' ∧ w.getLast? = some '(')) : Closed (w ++ [c]) := by
  constructor
  · intro rest hrest
    cases w with
    | nil => exact absurd ⟨(List.cons.inj hrest).1, rfl⟩ hfirst
    | cons a w =>
        obtain ⟨rfl, htail⟩ := List.cons.inj hrest
        have happend : w ++ [c] = rest := htail
        rw [← happend, List.any_append, h.toOperator w rfl, Bool.true_or]
  · intro u v huv
    rcases concat_eq_append huv with ⟨rfl, rfl, _⟩ | ⟨v', rfl, hw⟩
    · exact absurd ⟨rfl, by simp⟩ hopen
    · rw [List.any_append, h.toParen u v' hw, Bool.true_or]

theorem readPlain_scan (p : Parser) (c : Char) (hp : p.scan = .plain) :
    (readPlain p c).scan =
      if c = '-' ∧ p.prev = none then .toOperator
      else if c = '-' ∧ p.prev = some '(' then .toParen else .plain := by
  unfold readPlain
  split_ifs <;> simp [hp]

/-- One more character, read by the `for` loop. -/
theorem Reached.readPlain {w : Str} {p : Parser} {c : Char} (hp : p.scan = .plain)
    (hprev : p.prev = w.getLast?)
    (hclosed : ¬ (c = '-' ∧ w = []) → ¬ (c = '-' ∧ w.getLast? = some '(') →
      Closed (w ++ [c])) :
    Reached (w ++ [c]) (readPlain p c).scan := by
  rw [readPlain_scan p c hp, hprev]
  split_ifs with hfirst hopen
  · obtain ⟨rfl, hnil⟩ := hfirst
    obtain rfl := List.getLast?_eq_none_iff.mp hnil
    exact ⟨[], rfl, rfl⟩
  · obtain ⟨rfl, hlast⟩ := hopen
    obtain ⟨u, rfl⟩ := List.getLast?_eq_some_iff.mp hlast
    exact ⟨u, [], by simp, rfl⟩
  · exact hclosed (fun h => hfirst ⟨h.1, by simp [h.2]⟩) hopen

/-- The loop that the parser is in after any text. -/
theorem reached (suffixStk : List Str) (expr : Str) :
    (expr.foldl read (start suffixStk)).prev = expr.getLast? ∧
      Reached expr (expr.foldl read (start suffixStk)).scan := by
  induction expr using List.reverseRecOn with
  | nil =>
      refine ⟨rfl, ?_, ?_⟩
      · intro rest h
        cases h
      · intro u v h
        simp at h
  | append_singleton w c ih =>
      rw [List.foldl_append, List.foldl_cons, List.foldl_nil]
      generalize w.foldl read (start suffixStk) = p at ih
      obtain ⟨hprev, hreached⟩ := ih
      refine ⟨by simp [read], ?_⟩
      unfold read
      cases hscan : p.scan with
      | plain =>
          rw [hscan] at hreached
          exact Reached.readPlain hscan hprev hreached.concat
      | toOperator =>
          rw [hscan] at hreached
          obtain ⟨rest, rfl, hrest⟩ := hreached
          cases hc : isOperator c with
          | false =>
              simp only [Bool.false_eq_true, if_false]
              exact ⟨rest ++ [c], rfl, by simp [hrest, hc]⟩
          | true =>
              simp only [if_true]
              refine Reached.readPlain rfl hprev fun _ hopen => ⟨?_, ?_⟩
              · intro rest' h
                obtain ⟨_, rfl⟩ := List.cons.inj h
                simp [hc]
              · intro u v huv
                rcases concat_eq_append huv with ⟨rfl, hw, _⟩ | ⟨v', rfl, hw⟩
                · exact absurd ⟨rfl, by simp [hw]⟩ hopen
                · -- a minus sign would have ended the number before
                  rw [any_of_minus hw.symm] at hrest
                  cases hrest
      | toParen =>
          rw [hscan] at hreached
          obtain ⟨u, v, rfl, hv⟩ := hreached
          by_cases hc : c = ')'
          · subst hc
            simp only [if_true]
            refine Reached.readPlain rfl hprev fun _ _ => ⟨?_, ?_⟩
            · intro rest h
              exact any_of_minus (u := u) (v := v ++ [')']) (by simpa using h)
            · intro u' v' huv
              rcases concat_eq_append huv with ⟨h, _⟩ | ⟨v'', rfl, _⟩
              · cases h
              · simp
          · simp only [if_neg hc]
            exact ⟨u, v ++ [c], by simp, by simp [hv, hc]⟩

theorem scan_plain_iff (suffixStk : List Str) (expr : Str) :
    (expr.foldl read (start suffixStk)).scan = .plain ↔ Closed expr := by
  have hreached := (reached suffixStk expr).2
  constructor
  · intro hplain
    rwa [hplain] at hreached
  · intro hclosed
    cases hscan : (expr.foldl read (start suffixStk)).scan with
    | plain => rfl
    | toOperator =>
        rw [hscan] at hreached
        obtain ⟨rest, h, hrest⟩ := hreached
        simp [hclosed.toOperator rest h] at hrest
    | toParen =>
        rw [hscan] at hreached
        obtain ⟨u, v, h, hv⟩ := hreached
        simp [hclosed.toParen u v h] at hv

/-! ## The claim about every text -/

/-- From one pass of the `for` loop to the next the index moves on. -/
theorem pass_advances {expr : Str} {s t : Walk} (hi : s.i ≤ expr.length)
    (hpass : pass expr s = some t) : s.i < t.i := by
  rcases hi.eq_or_lt with hend | hlt
  · rw [pass, if_pos hend] at hpass
    obtain rfl := Option.some.inj hpass
    exact Nat.lt_succ_self _
  · exact ((pass_spec hlt).2 t hpass).1

/-- Every access is within the text or at its terminator, the walk ends behind the text after at
most as many passes as there are indices, and each pass moves the index on. -/
def Walks (suffixStk : List Str) (expr : Str) : Prop :=
  (∃ s, passes expr (expr.length + 1) (.start suffixStk) = some s ∧ expr.length < s.i) ∧
    ∀ (n : ℕ) (s t : Walk), passes expr n (.start suffixStk) = some s → s.i ≤ expr.length →
      pass expr s = some t → s.i < t.i

/-- **`parseExpress` stays within its text and terminates** exactly for the texts that end their
numbers. -/
theorem walks_iff (suffixStk : List Str) (expr : Str) :
    Walks suffixStk expr ↔ Closed expr := by
  rw [← scan_plain_iff suffixStk expr]
  constructor
  · rintro ⟨⟨s, hs, _⟩, _⟩
    by_contra hscan
    rw [passes_start, if_neg hscan] at hs
    cases hs
  · intro hplain
    constructor
    · rw [passes_start, if_pos hplain]
      exact ⟨_, rfl, Nat.lt_succ_self expr.length⟩
    · intro n s t _ hi hpass
      exact pass_advances hi hpass

/-- `-5`: the loop behind the sign looks for an operator and leaves the text. -/
theorem not_walks_negative : ¬ Walks [] ['-', '5'] := by
  rintro ⟨⟨s, hs, _⟩, _⟩
  rw [passes_start] at hs
  have hnone : (['-', '5'].foldl read (start [])).scan ≠ .plain := by decide
  rw [if_neg hnone] at hs
  cases hs

end Fediux.Express
