import Fediux.Basic.Strto

set_option autoImplicit false

/-! # Floating-point numbers and their texts

The binary formats are those of Lean's own model of floating-point numbers: a value is a bit
pattern, and all NaN are one value. `readNumber` reads a number as `strtod` does, exactly.
`stoFloat` is the family of `stod`, which rounds it and checks the range, and `toFixed` is the
text that `std::to_string` makes.
-/

namespace FloatText

open Float.Model (Format UnpackedFloat)
open Strto (StoError)

/-! ## Values -/

structure Binary (spec : Format) where
  bits : BitVec spec.numBits
  valid : spec.Valid bits
  deriving DecidableEq

abbrev Single : Type := Binary .binary32

abbrev Double : Type := Binary .binary64

def pack (spec : Format) (u : UnpackedFloat) : Binary spec :=
  ⟨u.pack spec, UnpackedFloat.valid_pack⟩

def Binary.unpack {spec : Format} (v : Binary spec) : UnpackedFloat :=
  UnpackedFloat.unpack spec v.bits

/-- The integer, rounded. -/
def ofInt (spec : Format) (n : ℤ) : Binary spec := pack spec (UnpackedFloat.ofInt spec n)

/-- The conversion to another format, which rounds where it has to. -/
def Binary.convert {spec : Format} (spec' : Format) (v : Binary spec) : Binary spec' :=
  match v.unpack with
  | .finite sign m e _ => pack spec' (UnpackedFloat.round spec' sign m e)
  | u => pack spec' u

/-! ## Reading -/

/-- A number in a text, before it is rounded. -/
inductive Number where
  /-- `m * 10 ^ e`. -/
  | decimal (neg : Bool) (m : ℕ) (e : ℤ)
  /-- `m * 2 ^ e`. -/
  | binary (neg : Bool) (m : ℕ) (e : ℤ)
  | infinite (neg : Bool)
  | nan
  deriving DecidableEq, Repr

/-- The digits before and behind a point, and the rest. -/
def splitPoint (isDigit : Char → Bool) (s : List Char) : List Char × List Char × List Char :=
  match s.dropWhile isDigit with
  | '.' :: t => (s.takeWhile isDigit, t.takeWhile isDigit, t.dropWhile isDigit)
  | t => (s.takeWhile isDigit, [], t)

/-- The exponent, if there is one behind the letter. -/
def readExponent (letter : Char) (s : List Char) : ℤ × List Char :=
  match s with
  | [] => (0, [])
  | c :: t =>
      let u := Strto.takeSign t
      if c.toLower = letter && !(u.2.takeWhile Char.isDigit).isEmpty then
        (Strto.applySign u.1 (Json.parseNat u.2).1, (Json.parseNat u.2).2)
      else (0, s)

def hexValue (c : Char) : ℕ :=
  if c.isDigit then c.toNat - 48 else c.toLower.toNat - 87

def isHexDigit (c : Char) : Bool := c.isDigit || ('a' ≤ c.toLower && c.toLower ≤ 'f')

def readDecimal (neg : Bool) (s : List Char) : Option (Number × List Char) :=
  let p := splitPoint Char.isDigit s
  let x := readExponent 'e' p.2.2
  if (p.1 ++ p.2.1).isEmpty then none
  else some (.decimal neg (Nat.ofDigitChars 10 (p.1 ++ p.2.1) 0) (x.1 - p.2.1.length), x.2)

/-- What stands behind `0x`. -/
def readHex (neg : Bool) (s : List Char) : Option (Number × List Char) :=
  let p := splitPoint isHexDigit s
  let x := readExponent 'p' p.2.2
  if (p.1 ++ p.2.1).isEmpty then none
  else
    some (.binary neg ((p.1 ++ p.2.1).foldl (fun m c => 16 * m + hexValue c) 0)
      (x.1 - 4 * p.2.1.length), x.2)

/-- What stands behind the word, in small or capital letters. -/
def stripWord (word : String) (s : List Char) : Option (List Char) :=
  if (s.take word.length).map Char.toLower = word.toList then some (s.drop word.length) else none

/-- The characters in brackets that may stand behind `nan`. -/
def stripBrackets (s : List Char) : List Char :=
  match s with
  | '(' :: t =>
      match t.dropWhile fun c => c.isAlphanum || c = '_' with
      | ')' :: u => u
      | _ => s
  | _ => s

/-- The number at the start of the text, behind white space, and the rest. -/
def readNumber (s : List Char) : Option (Number × List Char) :=
  let t := Strto.takeSign (s.dropWhile Strto.isSpace)
  match stripWord "0x" t.2 with
  | some u => (readHex t.1 u).orElse fun _ => readDecimal t.1 t.2
  | none =>
      match stripWord "inf" t.2 with
      | some u => some (.infinite t.1, (stripWord "inity" u).getD u)
      | none =>
          match stripWord "nan" t.2 with
          | some u => some (.nan, stripBrackets u)
          | none => readDecimal t.1 t.2

/-! ## Rounding -/

def withSign (neg : Bool) (u : UnpackedFloat) : UnpackedFloat := if neg then u.neg else u

def Number.round (spec : Format) : Number → Binary spec
  | .decimal neg m e => pack spec (withSign neg (UnpackedFloat.ofScientific spec m e))
  | .binary neg m e => pack spec (withSign neg (UnpackedFloat.round spec .positive m e))
  | .infinite neg => pack spec (withSign neg (.infinity .positive))
  | .nan => pack spec .notANumber

/-- The absolute value of a finite number. -/
def Number.abs? : Number → Option ℚ
  | .decimal _ m e => some (m * 10 ^ e)
  | .binary _ m e => some (m * 2 ^ e)
  | .infinite _ => none
  | .nan => none

def Binary.abs? {spec : Format} (v : Binary spec) : Option ℚ :=
  match v.unpack with
  | .finite _ m e _ => some (m * 2 ^ e)
  | .zero _ => some 0
  | .infinity _ => none
  | .notANumber => none

/-- A number is too large, or so small that bits are lost, when it is rounded: `ERANGE`. Small are
the numbers that are below the normal ones even when they are rounded to all bits. -/
def Number.outOfRange (spec : Format) (x : Number) : Bool :=
  match x.abs? with
  | none => false
  | some q =>
      match (x.round spec).abs? with
      | none => true
      | some r =>
          let least : ℚ := 2 ^ (spec.minExponent + spec.mantissaBits - 1)
          q ≠ r && q < least - 2 ^ (spec.minExponent - 2)

/-- `stod` and its family. -/
def stoFloat (spec : Format) (s : List Char) : Except StoError (Binary spec × List Char) :=
  match readNumber s with
  | none => .error .invalid_argument
  | some (x, rest) =>
      if x.outOfRange spec then .error .out_of_range else .ok (x.round spec, rest)

/-- `strtod`, without the value where there is no number. -/
def strtod (s : List Char) : Option (Double × List Char) :=
  (readNumber s).map fun x => (x.1.round .binary64, x.2)

/-! ## Writing -/

def roundEven (n k : ℕ) : ℕ :=
  if 2 * (n % k) < k then n / k
  else if k < 2 * (n % k) then n / k + 1
  else n / k + n / k % 2

/-- `m * 2 ^ e * 10 ^ places` as an integer. -/
def scaled (m : ℕ) (e : ℤ) (places : ℕ) : ℕ :=
  if 0 ≤ e then m * 2 ^ e.toNat * 10 ^ places
  else roundEven (m * 10 ^ places) (2 ^ (-e).toNat)

def signText (sign : Float.Model.UnpackedFloat.Sign) : List Char :=
  match sign with
  | .negative => ['-']
  | .positive => []

/-- The text with six places behind the point. -/
def fixedText (n : ℕ) : List Char :=
  Nat.toDigits 10 (n / 10 ^ 6) ++ '.' :: (Nat.toDigits 10 (10 ^ 6 + n % 10 ^ 6)).tail

/-- `std::to_string` of a floating-point number. -/
def toFixed {spec : Format} (v : Binary spec) : List Char :=
  match v.unpack with
  | .finite sign m e _ => signText sign ++ fixedText (scaled m e 6)
  | .zero sign => signText sign ++ fixedText 0
  | .infinity sign => signText sign ++ ['i', 'n', 'f']
  | .notANumber => ['n', 'a', 'n']

/-- The digits of a fraction rounded to so many, and the exponent of the first one. -/
def significant (digits num den : ℕ) : ℕ × ℤ :=
  let x : ℤ :=
    if den ≤ num then Nat.log 10 (num / den) else -(Nat.clog 10 ((num + den - 1) / num) : ℕ)
  let shift := digits - 1 - x
  let d :=
    if 0 ≤ shift then roundEven (num * 10 ^ shift.toNat) den
    else roundEven num (den * 10 ^ (-shift).toNat)
  -- rounding may carry into a new digit
  if d = 10 ^ digits then (10 ^ (digits - 1), x + 1) else (d, x)

/-- A point stands only before digits, and zeros at the end are left out. -/
def withFraction (whole fraction : List Char) : List Char :=
  match (fraction.reverse.dropWhile (· = '0')).reverse with
  | [] => whole
  | fraction => whole ++ '.' :: fraction

/-- `%g` of a fraction: without an exponent where it is small. -/
def generalText (digits num den : ℕ) : List Char :=
  let p := significant digits num den
  let ds := Nat.toDigits 10 p.1
  if -4 ≤ p.2 ∧ p.2 < digits then
    if 0 ≤ p.2 then withFraction (ds.take (p.2.toNat + 1)) (ds.drop (p.2.toNat + 1))
    else withFraction ['0'] (List.replicate (-p.2 - 1).toNat '0' ++ ds)
  else
    withFraction (ds.take 1) (ds.drop 1) ++ 'e' :: (if p.2 < 0 then '-' else '+') ::
      (if p.2.natAbs < 10 then ['0'] else []) ++ Nat.toDigits 10 p.2.natAbs

/-- What a stream with so many digits of precision writes. -/
def toGeneral (digits : ℕ) {spec : Format} (v : Binary spec) : List Char :=
  match v.unpack with
  | .finite sign m e _ =>
      signText sign ++ generalText digits (m * 2 ^ e.toNat) (2 ^ (-e).toNat)
  | .zero sign => signText sign ++ ['0']
  | .infinity sign => signText sign ++ ['i', 'n', 'f']
  | .notANumber => ['n', 'a', 'n']

end FloatText
