import Fediux.Basic.OrderedMap
import Mathlib.Data.List.Lex

set_option autoImplicit false

/-! # JSON texts

Values without fractional numbers, their compact text, and a parser of such texts.
`parse_dump`: a value whose objects have their keys in order is read back from its text.
-/

namespace Json

open OrderedMap (assignAll assignAll_of_sorted Sorted)

inductive Value where
  | null
  | bool (b : Bool)
  | num (n : Int)
  | str (s : List Char)
  | arr (vs : List Value)
  | obj (ms : List (List Char × Value))

/-- Every object in the value has its keys in strictly increasing order. -/
inductive Ordered : Value → Prop
  | null : Ordered .null
  | bool (b : Bool) : Ordered (.bool b)
  | num (n : Int) : Ordered (.num n)
  | str (s : List Char) : Ordered (.str s)
  | arr (vs : List Value) : (∀ v ∈ vs, Ordered v) → Ordered (.arr vs)
  | obj (ms : List (List Char × Value)) :
      Sorted ms → (∀ m ∈ ms, Ordered m.2) → Ordered (.obj ms)

/-! ## The text of a value -/

def hexDigit (n : Nat) : Char :=
  if n < 10 then Char.ofNat (48 + n) else Char.ofNat (87 + n)

/-- A character inside a string. -/
def escape (c : Char) : List Char :=
  if c = '"' then ['\\', '"']
  else if c = '\\' then ['\\', '\\']
  else if c.toNat = 8 then ['\\', 'b']
  else if c.toNat = 9 then ['\\', 't']
  else if c.toNat = 10 then ['\\', 'n']
  else if c.toNat = 12 then ['\\', 'f']
  else if c.toNat = 13 then ['\\', 'r']
  else if c.toNat < 32 then
    ['\\', 'u', '0', '0', hexDigit (c.toNat / 16), hexDigit (c.toNat % 16)]
  else [c]

/-- The string with its closing quotation mark. -/
def dumpStr (s : List Char) : List Char := s.flatMap escape ++ ['"']

def dumpInt : Int → List Char
  | .ofNat n => Nat.toDigits 10 n
  | .negSucc n => '-' :: Nat.toDigits 10 (n + 1)

/-- Each text after a comma. -/
def commaEach (texts : List (List Char)) : List Char := texts.flatMap (',' :: ·)

def separated : List (List Char) → List Char
  | [] => []
  | text :: texts => text ++ commaEach texts

mutual
def dump : Value → List Char
  | .null => ['n', 'u', 'l', 'l']
  | .bool true => ['t', 'r', 'u', 'e']
  | .bool false => ['f', 'a', 'l', 's', 'e']
  | .num n => dumpInt n
  | .str s => '"' :: dumpStr s
  | .arr vs => '[' :: separated (dumpElements vs) ++ [']']
  | .obj ms => '\x7b' :: separated (dumpMembers ms) ++ ['\x7d']

def dumpElements : List Value → List (List Char)
  | [] => []
  | v :: vs => dump v :: dumpElements vs

def dumpMembers : List (List Char × Value) → List (List Char)
  | [] => []
  | (k, v) :: ms => ('"' :: dumpStr k ++ ':' :: dump v) :: dumpMembers ms
end

/-! ## The parser

A parser takes its part off the front of the text. -/

abbrev Parser (α : Type) := List Char → Option (α × List Char)

def hexValue (c : Char) : Nat :=
  if c.toNat < 58 then c.toNat - 48 else c.toNat - 87

/-- The character after a backslash. -/
def unescape : Parser Char
  | 'b' :: r => some (Char.ofNat 8, r)
  | 't' :: r => some (Char.ofNat 9, r)
  | 'n' :: r => some (Char.ofNat 10, r)
  | 'f' :: r => some (Char.ofNat 12, r)
  | 'r' :: r => some (Char.ofNat 13, r)
  | 'u' :: a :: b :: c :: d :: r =>
      some (Char.ofNat (hexValue a * 4096 + hexValue b * 256 + hexValue c * 16 + hexValue d), r)
  | c :: r => some (c, r)
  | [] => none

/-- A string after its opening quotation mark. -/
def parseStr : Nat → Parser (List Char)
  | 0, _ => none
  | _, [] => none
  | n + 1, c :: r =>
      if c = '"' then some ([], r)
      else do
        let (c, r) ← if c = '\\' then unescape r else some (c, r)
        let (s, r) ← parseStr n r
        return (c :: s, r)

/-- The rest of a literal after its first character. -/
def parseLiteral (rest : List Char) (v : Value) : Parser Value := fun r =>
  if rest <+: r then some (v, r.drop rest.length) else none

def parseNat (cs : List Char) : Nat × List Char :=
  (Nat.ofDigitChars 10 (cs.takeWhile Char.isDigit) 0, cs.dropWhile Char.isDigit)

def parseMember (p : Parser Value) : Parser (List Char × Value)
  | '"' :: r => do
      let (k, r) ← parseStr r.length r
      match r with
      | ':' :: r => do
          let (v, r) ← p r
          return ((k, v), r)
      | _ => none
  | _ => none

section

variable {α : Type} (p : Parser α) (close : Char)

/-- The items after the first one. -/
def parseMore : Nat → Parser (List α)
  | 0, _ => none
  | _, [] => none
  | n + 1, c :: r =>
      if c = close then some ([], r)
      else if c = ',' then do
        let (a, r) ← p r
        let (as, r) ← parseMore n r
        return (a :: as, r)
      else none

/-- The items of an array or an object after the opening bracket. -/
def parseItems : Parser (List α)
  | [] => none
  | c :: r =>
      if c = close then some ([], r)
      else do
        let (a, r) ← p (c :: r)
        let (as, r) ← parseMore p close r.length r
        return (a :: as, r)

end

def parseValue : Nat → Parser Value
  | 0, _ => none
  | _, [] => none
  | n + 1, c :: r =>
      if c = 'n' then parseLiteral ['u', 'l', 'l'] .null r
      else if c = 't' then parseLiteral ['r', 'u', 'e'] (.bool true) r
      else if c = 'f' then parseLiteral ['a', 'l', 's', 'e'] (.bool false) r
      else if c = '"' then (parseStr r.length r).map fun x => (.str x.1, x.2)
      else if c = '[' then (parseItems (parseValue n) ']' r).map fun x => (.arr x.1, x.2)
      else if c = '\x7b' then
        (parseItems (parseMember (parseValue n)) '\x7d' r).map fun x =>
          (.obj (assignAll [] x.1), x.2)
      else if c = '-' then some (.num (-(parseNat r).1), (parseNat r).2)
      else if c.isDigit then some (.num (parseNat (c :: r)).1, (parseNat (c :: r)).2)
      else none

def parse (text : List Char) : Option Value :=
  match parseValue text.length text with
  | some (v, []) => some v
  | _ => none

/-! ## Strings and numbers are read back -/

theorem hexValue_hexDigit : ∀ n < 16, hexValue (hexDigit n) = n := by decide

/-- A character is written as an escape that `unescape` reads, or as itself. -/
theorem escape_cases (c : Char) :
    (∃ e, escape c = '\\' :: e ∧ ∀ r, unescape (e ++ r) = some (c, r)) ∨
      (escape c = [c] ∧ c ≠ '"' ∧ c ≠ '\\') := by
  have hchar : ∀ n, c.toNat = n → Char.ofNat n = c := by
    rintro n rfl
    exact Char.ofNat_toNat c
  unfold escape
  split_ifs with h₁ h₂ h₃ h₄ h₅ h₆ h₇ h₈
  · exact Or.inl ⟨['"'], rfl, fun r => by rw [h₁]; rfl⟩
  · exact Or.inl ⟨['\\'], rfl, fun r => by rw [h₂]; rfl⟩
  · exact Or.inl ⟨['b'], rfl, fun r => by rw [← hchar 8 h₃]; rfl⟩
  · exact Or.inl ⟨['t'], rfl, fun r => by rw [← hchar 9 h₄]; rfl⟩
  · exact Or.inl ⟨['n'], rfl, fun r => by rw [← hchar 10 h₅]; rfl⟩
  · exact Or.inl ⟨['f'], rfl, fun r => by rw [← hchar 12 h₆]; rfl⟩
  · exact Or.inl ⟨['r'], rfl, fun r => by rw [← hchar 13 h₇]; rfl⟩
  · refine Or.inl ⟨_, rfl, fun r => ?_⟩
    have hhigh := hexValue_hexDigit (c.toNat / 16) (by omega)
    have hlow := hexValue_hexDigit (c.toNat % 16) (by omega)
    have hzero : hexValue '0' = 0 := rfl
    show some (Char.ofNat (hexValue '0' * 4096 + hexValue '0' * 256 +
      hexValue (hexDigit (c.toNat / 16)) * 16 + hexValue (hexDigit (c.toNat % 16))), r) = some (c, r)
    rw [hhigh, hlow, hzero, hchar _ (by omega)]
  · exact Or.inr ⟨rfl, h₁, h₂⟩

theorem parseStr_dumpStr (s : List Char) (n : Nat) (r : List Char)
    (hn : (dumpStr s).length ≤ n) : parseStr n (dumpStr s ++ r) = some (s, r) := by
  induction s generalizing n with
  | nil =>
      cases n with
      | zero => simp [dumpStr] at hn
      | succ n => rfl
  | cons c s ih =>
      have hsplit : dumpStr (c :: s) = escape c ++ dumpStr s := by
        rw [dumpStr, List.flatMap_cons, List.append_assoc]
        rfl
      rw [hsplit, List.length_append] at hn
      rw [hsplit, List.append_assoc]
      cases n with
      | zero =>
          rcases escape_cases c with ⟨e, he, -⟩ | ⟨he, -⟩ <;> simp [he] at hn
      | succ n =>
          rcases escape_cases c with ⟨e, he, hread⟩ | ⟨he, hquote, hback⟩
          · rw [he, List.length_cons] at hn
            have hrest := ih n (by omega)
            rw [he, List.cons_append, parseStr]
            simp [hread, hrest]
          · rw [he, List.length_singleton] at hn
            have hrest := ih n (by omega)
            rw [he, List.singleton_append, parseStr]
            simp [hquote, hback, hrest]

/-- The text does not go on with a digit. -/
def Stops (r : List Char) : Prop := ∀ c ∈ r.head?, c.isDigit = false

theorem parseNat_toDigits (n : Nat) {r : List Char} (hr : Stops r) :
    parseNat (Nat.toDigits 10 n ++ r) = (n, r) := by
  have hdigits : ∀ c ∈ Nat.toDigits 10 n, c.isDigit = true := fun c hc =>
    Nat.isDigit_of_mem_toDigits (b := 10) (by decide) (by decide) hc
  have htake : r.takeWhile Char.isDigit = [] := by
    cases r with
    | nil => rfl
    | cons c r => simp [hr c rfl]
  have hdrop : r.dropWhile Char.isDigit = r := by
    cases r with
    | nil => rfl
    | cons c r => simp [hr c rfl]
  rw [parseNat, List.takeWhile_append_of_pos hdigits, List.dropWhile_append_of_pos hdigits,
    htake, hdrop, List.append_nil, Nat.ofDigitChars_ten_toDigits]

/-! ## Items are read back -/

section

variable {α : Type} {p : Parser α} {d : α → List Char} {close : Char}

theorem stops_commaEach (texts : List (List Char)) (hclose : close.isDigit = false)
    (r : List Char) : Stops (commaEach texts ++ close :: r) := by
  cases texts with
  | nil =>
      intro c hc
      cases hc
      exact hclose
  | cons text texts =>
      intro c hc
      cases hc
      rfl

theorem length_le_commaEach (texts : List (List Char)) :
    texts.length ≤ (commaEach texts).length := by
  induction texts with
  | nil => exact Nat.zero_le _
  | cons text texts ih =>
      rw [commaEach, List.flatMap_cons, List.length_append, ← commaEach]
      simp only [List.length_cons]
      omega

theorem parseMore_commaEach (hcomma : close ≠ ',') (hclose : close.isDigit = false) (as : List α)
    (hp : ∀ a ∈ as, ∀ r, Stops r → p (d a ++ r) = some (a, r)) (n : Nat) (r : List Char)
    (hn : as.length < n) :
    parseMore p close n (commaEach (as.map d) ++ close :: r) = some (as, r) := by
  induction as generalizing n with
  | nil =>
      cases n with
      | zero => cases hn
      | succ n => exact if_pos rfl
  | cons a as ih =>
      cases n with
      | zero => cases hn
      | succ n =>
          have hfirst : p (d a ++ (commaEach (as.map d) ++ close :: r)) =
              some (a, commaEach (as.map d) ++ close :: r) :=
            hp a List.mem_cons_self _ (stops_commaEach _ hclose r)
          have hrest := ih (fun b hb => hp b (List.mem_cons_of_mem a hb)) n
            (Nat.lt_of_succ_lt_succ hn)
          have hsplit : commaEach ((a :: as).map d) ++ close :: r =
              ',' :: (d a ++ (commaEach (as.map d) ++ close :: r)) := by
            simp [commaEach]
          rw [hsplit, parseMore, if_neg hcomma.symm, if_pos rfl, hfirst]
          simp [hrest]

theorem parseItems_separated (hcomma : close ≠ ',') (hclose : close.isDigit = false) (as : List α)
    (hp : ∀ a ∈ as, ∀ r, Stops r → p (d a ++ r) = some (a, r))
    (hhead : ∀ a ∈ as, ∃ c r, d a = c :: r ∧ c ≠ close) (r : List Char) :
    parseItems p close (separated (as.map d) ++ close :: r) = some (as, r) := by
  cases as with
  | nil => exact if_pos rfl
  | cons a as =>
      obtain ⟨c, t, ht, hne⟩ := hhead a List.mem_cons_self
      have hfirst : p (d a ++ (commaEach (as.map d) ++ close :: r)) =
          some (a, commaEach (as.map d) ++ close :: r) :=
        hp a List.mem_cons_self _ (stops_commaEach _ hclose r)
      have hlen : as.length < (commaEach (as.map d) ++ close :: r).length := by
        have hcount := length_le_commaEach (as.map d)
        rw [List.length_map] at hcount
        rw [List.length_append, List.length_cons]
        omega
      have hrest := parseMore_commaEach hcomma hclose as
        (fun b hb => hp b (List.mem_cons_of_mem a hb)) _ r hlen
      have hsplit : separated ((a :: as).map d) ++ close :: r =
          d a ++ (commaEach (as.map d) ++ close :: r) := by
        simp [separated]
      rw [hsplit]
      rw [ht, List.cons_append] at hfirst ⊢
      rw [parseItems, if_neg hne, hfirst]
      show ((parseMore p close _ _).bind fun x => some (a :: x.1, x.2)) = _
      rw [hrest]
      rfl

end

/-! ## Values are read back -/

theorem dumpElements_eq_map (vs : List Value) : dumpElements vs = vs.map dump := by
  induction vs with
  | nil => rfl
  | cons v vs ih => rw [dumpElements, ih, List.map_cons]

def dumpMember (m : List Char × Value) : List Char := '"' :: dumpStr m.1 ++ ':' :: dump m.2

theorem dumpMembers_eq_map (ms : List (List Char × Value)) :
    dumpMembers ms = ms.map dumpMember := by
  induction ms with
  | nil => rfl
  | cons m ms ih =>
      obtain ⟨k, v⟩ := m
      rw [dumpMembers, ih]
      rfl

/-- A number is a minus sign and digits, or digits. -/
theorem dumpInt_cases (n : Int) :
    (∃ m : Nat, n = -m ∧ dumpInt n = '-' :: Nat.toDigits 10 m) ∨
      ∃ m : Nat, ∃ c cs, n = m ∧ dumpInt n = Nat.toDigits 10 m ∧ dumpInt n = c :: cs ∧
        c.isDigit = true := by
  cases n with
  | negSucc n => exact Or.inl ⟨n + 1, Int.negSucc_eq n, rfl⟩
  | ofNat n =>
      obtain ⟨c, cs, h⟩ := List.exists_cons_of_ne_nil (Nat.toDigits_ne_nil (b := 10) (n := n))
      refine Or.inr ⟨n, c, cs, rfl, rfl, h, ?_⟩
      exact Nat.isDigit_of_mem_toDigits (b := 10) (n := n) (by decide) (by decide)
        (h ▸ List.mem_cons_self)

theorem notMem_dumpInt {c : Char} (hdigit : c.isDigit = false) (hsign : c ≠ '-') (n : Int) :
    c ∉ dumpInt n := by
  have hdigits : ∀ m : Nat, c ∉ Nat.toDigits 10 m := by
    intro m hmem
    rw [Nat.isDigit_of_mem_toDigits (by decide) (by decide) hmem] at hdigit
    cases hdigit
  cases n with
  | ofNat m => exact hdigits m
  | negSucc m => exact fun hmem => (List.mem_cons.mp hmem).elim hsign (hdigits (m + 1))

theorem dumpInt_injective : Function.Injective dumpInt := by
  have hdigits : ∀ m k : Nat, Nat.toDigits 10 m = Nat.toDigits 10 k → m = k := by
    intro m k h
    rw [← Nat.ofDigitChars_ten_toDigits (n := m), h, Nat.ofDigitChars_ten_toDigits]
  have hsign : ∀ m : Nat, '-' ∉ Nat.toDigits 10 m := by
    intro m hmem
    cases Nat.isDigit_of_mem_toDigits (by decide) (by decide) hmem
  intro m k h
  cases m with
  | ofNat m =>
      cases k with
      | ofNat k => exact congrArg Int.ofNat (hdigits m k h)
      | negSucc k =>
          have hcons : Nat.toDigits 10 m = '-' :: Nat.toDigits 10 (k + 1) := h
          refine absurd ?_ (hsign m)
          rw [hcons]
          exact List.mem_cons_self
  | negSucc m =>
      cases k with
      | ofNat k =>
          have hcons : Nat.toDigits 10 k = '-' :: Nat.toDigits 10 (m + 1) := h.symm
          refine absurd ?_ (hsign k)
          rw [hcons]
          exact List.mem_cons_self
      | negSucc k =>
          have hsucc := hdigits _ _ (List.cons.inj h).2
          rw [Nat.succ_injective hsucc]

/-- No text of a value starts with the end of an array. -/
theorem dump_head (v : Value) : ∃ c r, dump v = c :: r ∧ c ≠ ']' := by
  cases v with
  | null => exact ⟨_, _, rfl, by decide⟩
  | bool b => cases b <;> exact ⟨_, _, rfl, by decide⟩
  | num n =>
      rcases dumpInt_cases n with ⟨m, -, h⟩ | ⟨m, c, cs, -, -, h, hdigit⟩
      · exact ⟨_, _, h, by decide⟩
      · refine ⟨c, cs, h, ?_⟩
        rintro rfl
        exact absurd hdigit (by decide)
  | str s => exact ⟨_, _, rfl, by decide⟩
  | arr vs => exact ⟨_, _, rfl, by decide⟩
  | obj ms => exact ⟨_, _, rfl, by decide⟩

theorem exists_succ_of_dump {v : Value} {n : Nat} (hn : (dump v).length ≤ n) :
    ∃ m, n = m + 1 := by
  obtain ⟨c, r, h, -⟩ := dump_head v
  rw [h, List.length_cons] at hn
  exact Nat.exists_eq_succ_of_ne_zero (by omega)

theorem length_le_separated {texts : List (List Char)} {text : List Char} (h : text ∈ texts) :
    text.length ≤ (separated texts).length := by
  cases texts with
  | nil => cases h
  | cons first texts =>
      rw [separated, List.length_append]
      rcases List.mem_cons.mp h with rfl | h
      · omega
      · have hsub : (',' :: text).Sublist (commaEach texts) := by
          rw [commaEach, List.flatMap_def]
          exact List.sublist_flatten_of_mem (List.mem_map_of_mem h)
        have hle := hsub.length_le
        rw [List.length_cons] at hle
        omega

theorem parseValue_digit {c : Char} (hdigit : c.isDigit = true) (n : Nat) (r : List Char) :
    parseValue (n + 1) (c :: r) =
      some (.num (parseNat (c :: r)).1, (parseNat (c :: r)).2) := by
  have hne : ∀ c', c'.isDigit = false → c ≠ c' := by
    rintro c' h rfl
    rw [hdigit] at h
    cases h
  rw [parseValue, if_neg (hne 'n' (by decide)), if_neg (hne 't' (by decide)),
    if_neg (hne 'f' (by decide)), if_neg (hne '"' (by decide)), if_neg (hne '[' (by decide)),
    if_neg (hne '\x7b' (by decide)), if_neg (hne '-' (by decide)), if_pos hdigit]

theorem parseMember_dumpMember {p : Parser Value} {m : List Char × Value} {r : List Char}
    (hp : p (dump m.2 ++ r) = some (m.2, r)) : parseMember p (dumpMember m ++ r) = some (m, r) := by
  have hkey := parseStr_dumpStr m.1 (dumpStr m.1 ++ ':' :: (dump m.2 ++ r)).length
    (':' :: (dump m.2 ++ r)) (by rw [List.length_append]; omega)
  have hsplit : dumpMember m ++ r = '"' :: (dumpStr m.1 ++ ':' :: (dump m.2 ++ r)) := by
    simp [dumpMember]
  rw [hsplit, parseMember, hkey]
  show ((p (dump m.2 ++ r)).bind fun x => some ((m.1, x.1), x.2)) = _
  rw [hp]
  rfl

theorem parseValue_dump {v : Value} (hv : Ordered v) (n : Nat) (r : List Char)
    (hn : (dump v).length ≤ n) (hr : Stops r) : parseValue n (dump v ++ r) = some (v, r) := by
  induction hv generalizing n r with
  | null =>
      obtain ⟨n, rfl⟩ := exists_succ_of_dump hn
      simp [dump, parseValue, parseLiteral]
  | bool b =>
      obtain ⟨n, rfl⟩ := exists_succ_of_dump hn
      cases b <;> simp [dump, parseValue, parseLiteral]
  | num m =>
      obtain ⟨n, rfl⟩ := exists_succ_of_dump hn
      rcases dumpInt_cases m with ⟨k, hm, h⟩ | ⟨k, c, cs, hm, h, hcons, hdigit⟩
      · rw [dump, h, List.cons_append, parseValue]
        simp [parseNat_toDigits k hr, hm]
      · rw [dump, hcons, List.cons_append, parseValue_digit hdigit, ← List.cons_append,
          ← hcons, h, parseNat_toDigits k hr, hm]
  | str s =>
      obtain ⟨n, rfl⟩ := exists_succ_of_dump hn
      have hread : parseStr (dumpStr s ++ r).length (dumpStr s ++ r) = some (s, r) :=
        parseStr_dumpStr s _ r (by rw [List.length_append]; omega)
      show (parseStr (dumpStr s ++ r).length (dumpStr s ++ r)).map
        (fun x => (Value.str x.1, x.2)) = _
      rw [hread]
      rfl
  | arr vs _ ih =>
      obtain ⟨n, rfl⟩ := exists_succ_of_dump hn
      rw [dump, dumpElements_eq_map, List.length_append, List.length_cons] at hn
      have hp : ∀ v ∈ vs, ∀ r, Stops r → parseValue n (dump v ++ r) = some (v, r) := by
        intro v hv r hr
        have hle := length_le_separated (List.mem_map_of_mem (f := dump) hv)
        exact ih v hv n r (by omega) hr
      have hitems := parseItems_separated (by decide : ']' ≠ ',') (by decide) vs hp
        (fun v _ => dump_head v) r
      rw [dump, dumpElements_eq_map, List.append_assoc]
      show (parseItems (parseValue n) ']' (separated (vs.map dump) ++ ']' :: r)).map
        (fun x => (Value.arr x.1, x.2)) = _
      rw [hitems]
      rfl
  | obj ms hsorted _ ih =>
      obtain ⟨n, rfl⟩ := exists_succ_of_dump hn
      rw [dump, dumpMembers_eq_map, List.length_append, List.length_cons] at hn
      have hp : ∀ m ∈ ms, ∀ r, Stops r →
          parseMember (parseValue n) (dumpMember m ++ r) = some (m, r) := by
        intro m hm r hr
        have hle := length_le_separated (List.mem_map_of_mem (f := dumpMember) hm)
        simp only [dumpMember, List.length_append, List.length_cons] at hle
        exact parseMember_dumpMember (ih m hm n r (by omega) hr)
      have hitems := parseItems_separated (by decide : '\x7d' ≠ ',') (by decide) ms hp
        (fun m _ => ⟨'"', _, rfl, by decide⟩) r
      rw [dump, dumpMembers_eq_map, List.append_assoc]
      show (parseItems (parseMember (parseValue n)) '\x7d'
        (separated (ms.map dumpMember) ++ '\x7d' :: r)).map
          (fun x => (Value.obj (assignAll [] x.1), x.2)) = _
      rw [hitems]
      show some (Value.obj (assignAll [] ms), r) = _
      rw [assignAll_of_sorted (m := []) hsorted]
      rfl

/-- A value whose objects have their keys in order is read back from its text. -/
theorem parse_dump {v : Value} (hv : Ordered v) : parse (dump v) = some v := by
  have h := parseValue_dump hv (dump v).length [] le_rfl (fun c hc => by cases hc)
  rw [List.append_nil] at h
  rw [parse, h]

/-! ## Libraries for JSON -/

/-- What a library for JSON texts provides. -/
structure Codec where
  dump : Value → List Char
  parse : List Char → Option Value
  parse_dump : ∀ v, Ordered v → parse (dump v) = some v

def compact : Codec where
  dump := dump
  parse := parse
  parse_dump _ hv := parse_dump hv

end Json
