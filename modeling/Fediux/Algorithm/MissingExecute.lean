import Fediux.Algorithm.ReplaceValue
import Fediux.Operator.Compare

set_option autoImplicit false

/-! # `MissingProcess::execute`

The three parties go through their columns at the same time
(`algorithm/missing_val_processing.cc`). Each one scans its column for the extremes, the sum and
the number of the valid cells and notes the abnormal ones. Together the parties find the maximum or
the minimum by two secure comparisons, or the average by a secure sum, and each replaces its
missing and abnormal cells by it. Integers and doubles take the same steps (`Number`); a double is
shared as an integer with 16 binary places. The operations of aby3 are parameters.
-/

namespace Fediux.Algorithm.MissingProcess

open Util (Str)
open FloatText (Double pack)
open Float.Model (UnpackedFloat)
open Replicated (Party Share)
open Compare (Sh3Bin MPC_Compare atParties)

/-- The ways a run stops without a result. -/
inductive Stop where
  | column (e : Fault)
  | mpc (e : Fediux.Fault)
  | division_by_zero
  deriving DecidableEq

/-! ## Integers and doubles -/

def Column.chunk_num : Column → ℕ
  | .string chunks => chunks.length
  | .int64 chunks => chunks.length
  | .float64 chunks => chunks.length

/-- What the code needs of the numbers of a column besides their texts. -/
structure Number (T : Type) where
  scalar : Scalar T
  /-- The initial values of the maximum and of the minimum. -/
  lowest : T
  highest : T
  zero : T
  add : T → T → T
  lt : T → T → Bool
  ofCount : ℕ → T
  /-- The integer that is shared; `none` is a conversion that C++ does not define. -/
  encode : T → Option I64
  decode : I64 → T
  div : T → T → Option T
  /-- How many chunks are scanned, by the table and the column. -/
  chunk_num : Table → Column → ℕ

/-- The chunks of an integer column are counted in the first column of the table. -/
def int64Number : Number Int64 where
  scalar := int64
  lowest := Int64.minValue
  highest := Int64.maxValue
  zero := 0
  add x y := x + y
  lt x y := decide (x < y)
  ofCount n := Int64.ofNat n
  encode x := some x.toBitVec
  decode x := Int64.ofBitVec x
  div x y := if y = 0 then none else some (x / y)
  chunk_num table _ := (table.columns.head?.map fun c => c.2.chunk_num).getD 0

/-- The double `m * 2 ^ e`, rounded. -/
def double (m : ℕ) (e : ℤ) : Double := pack .binary64 (UnpackedFloat.round .binary64 .positive m e)

/-- `f64<D16>` of a double: `2 ^ 16` times the number, cut toward zero. -/
def toFixed16 (x : Double) : Option I64 :=
  let fits (n : ℤ) : Option I64 :=
    if -2 ^ 63 ≤ n ∧ n < 2 ^ 63 then some (BitVec.ofInt 64 n) else none
  match x.unpack with
  | .finite sign m e _ => fits (sign.apply ⌊(m * 2 ^ (e + 16) : ℚ)⌋₊)
  | .zero _ => some 0
  | .infinity _ => none
  | .notANumber => none

/-- The double of an `f64<D16>`. -/
def ofFixed16 (x : I64) : Double :=
  let sign := if x.toInt < 0 then .negative else .positive
  pack .binary64 (UnpackedFloat.round .binary64 sign x.toInt.natAbs (-16))

/-- `DBL_MIN` is the initial value of the maximum. -/
def float64Number : Number Double where
  scalar := float64
  lowest := double 1 (-1022)
  highest := double (2 ^ 53 - 1) 971
  zero := FloatText.ofInt .binary64 0
  add x y := pack .binary64 (UnpackedFloat.add .binary64 x.unpack y.unpack)
  lt x y := x.unpack.compare y.unpack == some .lt
  ofCount n := FloatText.ofInt .binary64 n
  encode := toFixed16
  decode := ofFixed16
  div x y := some (pack .binary64 (UnpackedFloat.div .binary64 x.unpack y.unpack))
  chunk_num _ column := column.chunk_num

/-! ## A party scans its column -/

/-- What a party has before the joint run. `col_and_dtype_` is in the order of the names. -/
structure Local where
  col_and_dtype : List (Str × ℕ)
  use_db : Bool
  db_both_index : Str → List ℕ
  table : Table

structure Totals (T : Type) where
  max : T
  min : T
  sum : T

/-- What is known of a column after the scan. -/
structure Scan (T : Type) where
  totals : Totals T
  count : ℕ
  abnormal_index : List (List ℕ)

/-- A conversion to `uint32_t`. -/
def uint32 (n : ℤ) : ℕ := (n % 2 ^ 32).toNat

section Scanning

variable {T : Type} (N : Number T)

def initial : Totals T := { max := N.lowest, min := N.highest, sum := N.zero }

def Totals.take (t : Totals T) (x : T) : Totals T :=
  { max := if N.lt t.max x then x else t.max
    min := if N.lt x t.min then x else t.min
    sum := N.add t.sum x }

/-- A cell of a chunk of texts, with its index. -/
def scanCell (acc : Totals T × List ℕ) (cell : Option Str × ℕ) : Totals T × List ℕ :=
  match cell.1 with
  | none => acc
  | some text =>
      match strTo N.scalar text with
      | none => (acc.1, acc.2 ++ [cell.2])
      | some x => (acc.1.take N x, acc.2)

def scanChunk (t : Totals T) (chunk : List (Option Str)) : Totals T × List ℕ :=
  chunk.zipIdx.foldl (scanCell N) (t, [])

def scanChunks : Totals T → List (List (Option Str)) → Totals T × List (List ℕ)
  | t, [] => (t, [])
  | t, chunk :: chunks =>
      let (t, abnormal) := scanChunk N t chunk
      let (t, abnormal_index) := scanChunks t chunks
      (t, abnormal :: abnormal_index)

/-- The chunks that are scanned have to be there. -/
def firstChunks {α : Type} (chunk_num : ℕ) (chunks : List α) : Except Fault (List α) :=
  if chunk_num ≤ chunks.length then .ok (chunks.take chunk_num) else .error .undefined

/-- The scan of a column of a database, or of one from a CSV file. -/
def scan (L : Local) (name : Str) (column : Column) : Except Fault (Scan T) :=
  let chunk_num := N.chunk_num L.table column
  if L.use_db then
    match N.scalar.ofColumn column with
    | none => .error .undefined
    | some chunks => do
        let chunks ← firstChunks chunk_num chunks
        return {
          totals := chunks.flatten.foldl (fun t slot => t.take N slot.value) (initial N)
          count := uint32 (L.table.num_rows - (L.db_both_index name).length)
          abnormal_index := List.replicate chunk_num [] }
  else
    match column with
    | .string chunks => do
        let chunks ← firstChunks chunk_num chunks
        let scanned := scanChunks N (initial N) chunks
        let null_num := chunks.flatten.countP Option.isNone
        let abnormal_num := scanned.2.flatten.length
        return {
          totals := scanned.1
          count := uint32 (L.table.num_rows - null_num - abnormal_num)
          abnormal_index := scanned.2 }
    | _ => .error .undefined

/-- `std::find` in the names of the table. -/
def Table.find (table : Table) (name : Str) : Option ℕ :=
  table.columns.findIdx? fun c => c.1 = name

/-- The place of the column and its scan, if the table has the column. -/
def scanNamed (L : Local) (name : Str) : Except Fault (Option (ℕ × Scan T)) :=
  match L.table.find name with
  | none => .ok none
  | some i =>
      match L.table.columns[i]? with
      | none => .ok none
      | some c => do
          let s ← scan N L name c.2
          return some (i, s)

end Scanning

/-! ## The joint steps -/

structure Engine where
  sh3 : Sh3
  bin : Sh3Bin

abbrev Engine.Runtime (E : Engine) : Type := E.sh3.Runtime × E.bin.Runtime

/-- The same step at the three parties. -/
def forParties {ε α : Type} (f : Party → Except ε α) : Except ε (Party → α) := do
  return atParties (← f 0) (← f 1) (← f 2)

section Joint

variable (E : Engine)

/-- A matrix of one row and one column. -/
def single (x : I64) : Compare.I64Matrix where
  shape := ⟨1, 1⟩
  data := [x]
  size_eq := rfl
  rows_lt := by norm_num
  cols_lt := by norm_num
  size_lt := by norm_num

/-- The first row of what is revealed, as a `bool`. -/
def firstBool : List I64 → Except Fediux.Fault Bool
  | [] => .error .outOfRange
  | x :: _ => .ok (x != 0)

/-- `MPC_Compare` and `enc.revealAll` of its result. -/
def compareAndReveal (r : E.Runtime) (m : Party → Option I64) :
    Except Fediux.Fault ((Party → Bool) × E.Runtime) := do
  let out ← MPC_Compare E.bin r.2 fun p => (m p).map single
  let (x0, r0) := E.bin.reveal out.runtime 0 out.shRes
  let (x1, r1) := E.bin.reveal r0 1 out.shRes
  let (x2, r2) := E.bin.reveal r1 2 out.shRes
  let res ← forParties fun p => firstBool (atParties x0 x1 x2 p)
  return (res, r.1, r2)

/-- `revealAll` of integer shares. -/
def revealAll (r : E.Runtime) (m : Party → Si64Matrix) : (Party → List I64) × E.Runtime :=
  let (x0, r0) := E.sh3.reveal r.1 0 m
  let (x1, r1) := E.sh3.reveal r0 1 m
  let (x2, r2) := E.sh3.reveal r1 2 m
  (atParties x0 x1 x2, r2, r.2)

def firstRow : List I64 → Except Fediux.Fault I64
  | [] => .error .outOfRange
  | x :: _ => .ok x

/-- `createShares` at the party with a value, and `revealAll`. -/
def shareAndReveal (r : E.Runtime) (m : Party → Option I64) :
    Except Fediux.Fault ((Party → I64) × E.Runtime) := do
  let (sh, s) ← E.sh3.createShares r.1 (fun p => (m p).map fun x => [x]) fun _ => 1
  let (plain, r) := revealAll E (s, r.2) sh
  return (← forParties fun p => firstRow (plain p), r)

/-- The two rounds of comparisons. `wins` says for a revealed bit whether the second party of the
comparison goes on; `flag` is the party that does. -/
def tournament (wins : Bool → Bool) (r : E.Runtime) (m : Party → I64) :
    Except Fediux.Fault ((Party → I64) × E.Runtime) := do
  -- first compare: p0 - p1
  let (res, r) ← compareAndReveal E r fun p => if p ≠ 2 then some (m p) else none
  let flag (p : Party) : Party := if wins (res p) then 1 else 0
  -- p1 - p2 or p0 - p2
  let (res2, r) ← compareAndReveal E r fun p =>
    if p ≠ (if flag p = 1 then 0 else 1) then some (m p) else none
  let flag (p : Party) : Party := if wins (res2 p) then 2 else flag p
  shareAndReveal E r fun p => if p = flag p then some (m p) else none

/-- The step of the sum in which party `i` provides its column. -/
def shareRound (r : E.sh3.Runtime) (xs : Party → List I64) (i : Party) :
    Except Fediux.Fault ((Party → Si64Matrix) × E.sh3.Runtime) :=
  E.sh3.createShares r (fun p => if p = i then some (xs p) else none) fun _ => 2

/-- The sums over the parties of the two rows. -/
def sumAndReveal (r : E.Runtime) (xs : Party → List I64) :
    Except Fediux.Fault ((Party → List I64) × E.Runtime) := do
  let (m0, s) ← shareRound E r.1 xs 0
  let (m1, s) ← shareRound E s xs 1
  let (m2, s) ← shareRound E s xs 2
  let sh_sum ← forParties fun p => do
    let sum ← zipRows Share.add (m0 p) (m1 p)
    zipRows Share.add sum (m2 p)
  return revealAll E (s, r.2) sh_sum

end Joint

/-! ## The run -/

section Run

variable (E : Engine) {T : Type} (N : Number T)

def inMpc {α : Type} (x : Except Fediux.Fault α) : Except Stop α := x.mapError .mpc

def inColumn {α : Type} (x : Except Fault α) : Except Stop α := x.mapError .column

def encodeAll (x : Party → T) : Except Stop (Party → I64) :=
  forParties fun p =>
    match N.encode (x p) with
    | some m => .ok m
    | none => .error (.column .undefined)

/-- `MAX` and `MIN`. -/
def extreme (wins : Bool → Bool) (r : E.Runtime) (x : Party → T) :
    Except Stop ((Party → T) × E.Runtime) := do
  let m ← encodeAll N x
  let (v, r) ← inMpc (tournament E wins r m)
  return (fun p => N.decode (v p), r)

def quotient (plain_sum : List I64) : Except Stop T :=
  match plain_sum with
  | sum :: count :: _ =>
      match N.div (N.decode sum) (N.decode count) with
      | some x => .ok x
      | none => .error .division_by_zero
  | _ => .error (.mpc .outOfRange)

/-- `AVG`. -/
def average (r : E.Runtime) (s : Party → Scan T) : Except Stop ((Party → T) × E.Runtime) := do
  let sums ← encodeAll N fun p => (s p).totals.sum
  let counts ← encodeAll N fun p => N.ofCount (s p).count
  let (plain_sum, r) ← inMpc (sumAndReveal E r fun p => [sums p, counts p])
  return (← forParties fun p => quotient N (plain_sum p), r)

/-- The value that replaces the missing and abnormal cells; none for another `Replace_Type`. -/
def columnValue (replace_type : Str) (r : E.Runtime) (s : Party → Scan T) :
    Except Stop (Option (Party → T) × E.Runtime) :=
  if replace_type = "MAX".toList then do
    let (v, r) ← extreme E N id r fun p => (s p).totals.max
    return (some v, r)
  else if replace_type = "MIN".toList then do
    let (v, r) ← extreme E N not r fun p => (s p).totals.min
    return (some v, r)
  else if replace_type = "AVG".toList then do
    let (v, r) ← average E N r s
    return (some v, r)
  else .ok (none, r)

/-- `replaceValue` at a party. -/
def Local.replace (L : Local) (name : Str) (col_index : ℕ) (s : Scan T) (v : T) :
    Except Fault Local := do
  let table ← replaceValue N.scalar name L.table col_index v s.abnormal_index L.use_db
    (L.db_both_index name)
  return { L with table := table }

/-- One column of each party. The joint steps need all of them. -/
def processColumn (replace_type : Str) (name : Party → Str) (L : Party → Local) (r : E.Runtime) :
    Except Stop ((Party → Local) × E.Runtime) := do
  let scans ← forParties fun p => inColumn (scanNamed N (L p) (name p))
  match scans 0, scans 1, scans 2 with
  | none, none, none => return (L, r)
  | some s0, some s1, some s2 =>
      let s := atParties s0 s1 s2
      match ← columnValue E N replace_type r fun p => (s p).2 with
      | (none, r) => return (L, r)
      | (some v, r) =>
          let L ← forParties fun p =>
            inColumn ((L p).replace N (name p) (s p).1 (s p).2 (v p))
          return (L, r)
  | _, _, _ =>
      if ["MAX", "MIN", "AVG"].any fun type => replace_type = type.toList then
        .error (.mpc .diverged)
      else return (L, r)

/-- The loop over the columns of the three parties, which have the same types. -/
def processColumns (replace_type : Str) :
    List (Str × ℕ) → List (Str × ℕ) → List (Str × ℕ) → (Party → Local) → E.Runtime →
    Except Stop ((Party → Local) × E.Runtime)
  | c0 :: cs0, c1 :: cs1, c2 :: cs2, L, r => do
      let name := atParties c0.1 c1.1 c2.1
      let (L, r) ←
        if c0.2 = 1 ∨ c0.2 = 3 then processColumn E int64Number replace_type name L r
        else if c0.2 = 2 then processColumn E float64Number replace_type name L r
        else .ok (L, r)
      processColumns replace_type cs0 cs1 cs2 L r
  | _, _, _, L, r => .ok (L, r)

/-- `execute` at the three parties. Each one prefixes the text of an exception with its number. -/
def execute (replace_type : Str) (L : Party → Local) (r : E.Runtime) :
    Except Stop ((Party → Local) × E.Runtime) :=
  let types (p : Party) : List ℕ := (L p).col_and_dtype.map Prod.snd
  if (types 0).length ≠ (types 1).length ∨ (types 0).length ≠ (types 2).length then
    .error (.mpc (.exception "The target data columns of the three parties are inconsistent!"))
  else if types 0 ≠ types 1 ∨ types 0 ≠ types 2 then
    .error (.mpc (.exception "The data column types of the three parties are inconsistent!"))
  else
    processColumns E replace_type (L 0).col_and_dtype (L 1).col_and_dtype (L 2).col_and_dtype L r

end Run

/-! ## What the joint steps compute -/

section Specs

open Compare (third twoValues addMsb bitWord third_ne eq_third MPC_Compare_shares atParties_self)

theorem forParties_ok {ε α : Type} {f : Party → Except ε α} {g : Party → α}
    (h : ∀ p, f p = .ok (g p)) : forParties f = .ok g := by
  simp only [forParties, h, bind, Except.bind, pure, Except.pure, atParties_self]

theorem atParties_const {α : Type} (x : α) (p : Party) : atParties x x x p = x := by
  simp [atParties]

variable (E : Engine)

theorem revealAll_eq {r : E.Runtime} {m : Party → Si64Matrix} {xs : List I64}
    (h : Replicated.Shares m xs) (p : Party) : (revealAll E r m).1 p = xs := by
  simp [revealAll, E.sh3.reveal_shares _ _ _ _ h, atParties_const]

theorem twoValues_single {lo hi : Party} (h : lo < hi) (m : Party → I64) :
    (fun p => (if p ≠ third lo hi then some (m p) else none).map single) =
      twoValues lo hi (single (m lo)) (single (m hi)) := by
  obtain ⟨hlo, hhi⟩ := third_ne h
  funext p
  unfold twoValues
  by_cases hplo : p = lo
  · simp [hplo, hlo.symm]
  · by_cases hphi : p = hi
    · simp [hphi, hhi.symm, h.ne']
    · have hp : p = third lo hi := eq_third h hplo hphi
      simp [hplo, hphi, ← hp]

/-- Everybody learns the sign bit of the difference. -/
theorem compareAndReveal_eq (r : E.Runtime) {lo hi : Party} (h : lo < hi) (m : Party → I64) :
    ∃ r', compareAndReveal E r (fun p => if p ≠ third lo hi then some (m p) else none) =
      .ok (fun _ => (m lo - m hi).msb, r') := by
  obtain ⟨out, hout, -, hshares⟩ := MPC_Compare_shares E.bin r.2 h
    (A := single (m lo)) (B := single (m hi)) rfl (by simp [single]) (by simp [single])
  have hword : addMsb (single (m lo)).data ((single (m hi)).data.map (· * -1)) =
      [bitWord (m lo - m hi).msb] := by
    have hsub : m lo + m hi * -1 = m lo - m hi := by ring
    simp [addMsb, single, ← hsub]
  rw [hword] at hshares
  have hreveal : ∀ r' p, (E.bin.reveal r' p out.shRes).1 = [bitWord (m lo - m hi).msb] :=
    fun r' p => E.bin.reveal_shares r' p _ _ hshares
  have hbool : ∀ b, firstBool [bitWord b] = .ok b := by decide
  have hall : ∀ x0 x1 x2 : List I64, (∀ x ∈ [x0, x1, x2], x = [bitWord (m lo - m hi).msb]) →
      forParties (fun p => firstBool (atParties x0 x1 x2 p)) =
        .ok fun _ => (m lo - m hi).msb := by
    intro x0 x1 x2 hx
    simp only [List.forall_mem_cons, List.not_mem_nil, false_implies, implies_true,
      and_true] at hx
    obtain ⟨rfl, rfl, rfl⟩ := hx
    exact forParties_ok fun p => by rw [atParties_const, hbool]
  unfold compareAndReveal
  rw [twoValues_single h, hout]
  simp only [bind, Except.bind, pure, Except.pure]
  rw [hall _ _ _ (by simp [hreveal])]
  exact ⟨_, rfl⟩

/-- Everybody learns the value of the party that has one. -/
theorem shareAndReveal_eq (r : E.Runtime) (q : Party) (m : Party → I64) :
    ∃ r', shareAndReveal E r (fun p => if p = q then some (m p) else none) =
      .ok (fun _ => m q, r') := by
  obtain ⟨sh, s, hsh, hshares⟩ := E.sh3.createShares_shares r.1
    (fun p => (if p = q then some (m p) else none).map fun x => [x]) (fun _ => 1) q [m q]
    (by simp) (fun p hp => by simp [hp]) (fun _ => rfl)
  unfold shareAndReveal
  rw [hsh]
  simp only [bind, Except.bind, pure, Except.pure]
  rw [forParties_ok (g := fun _ => m q) fun p => by rw [revealAll_eq E hshares, firstRow]]
  exact ⟨_, rfl⟩

/-- The party whose value the tournament reveals. -/
def champion (wins : Bool → Bool) (m : Party → I64) : Party :=
  let flag : Party := if wins (m 0 - m 1).msb then 1 else 0
  if wins (m flag - m 2).msb then 2 else flag

theorem tournament_eq (wins : Bool → Bool) (r : E.Runtime) (m : Party → I64) :
    ∃ r', tournament E wins r m = .ok (fun _ => m (champion wins m), r') := by
  have hrounds : ∀ (r : E.Runtime) (lo hi skip : Party), lo < hi → skip = third lo hi → ∃ r',
      compareAndReveal E r (fun p => if p ≠ skip then some (m p) else none) =
        .ok (fun _ => (m lo - m hi).msb, r') := by
    rintro r lo hi skip h rfl
    exact compareAndReveal_eq E r h m
  obtain ⟨r₁, h₁⟩ := hrounds r 0 1 2 (by decide) (by decide)
  unfold tournament champion
  rw [h₁]
  simp only [bind, Except.bind]
  by_cases hwin : wins (m 0 - m 1).msb = true
  · obtain ⟨r₂, h₂⟩ := hrounds r₁ 1 2 0 (by decide) (by decide)
    simp only [hwin, if_true, h₂]
    exact shareAndReveal_eq E r₂ _ m
  · obtain ⟨r₂, h₂⟩ := hrounds r₁ 0 2 1 (by decide) (by decide)
    have hne : (0 : Party) ≠ 1 := by decide
    simp only [hwin, Bool.false_eq_true, if_false, hne, h₂]
    exact shareAndReveal_eq E r₂ _ m

theorem shareRound_shares (r : E.sh3.Runtime) {xs : Party → List I64}
    (hlen : ∀ p, (xs p).length = 2) (i : Party) :
    ∃ m r', shareRound E r xs i = .ok (m, r') ∧ Replicated.Shares m (xs i) :=
  E.sh3.createShares_shares r _ _ i (xs i) (if_pos rfl) (fun _ hq => if_neg hq) fun _ =>
    (hlen i).symm

/-- Everybody learns the sums over the parties. -/
theorem sumAndReveal_eq (r : E.Runtime) (a b : Party → I64) :
    ∃ r', sumAndReveal E r (fun p => [a p, b p]) =
      .ok (fun _ => [a 0 + a 1 + a 2, b 0 + b 1 + b 2], r') := by
  have hlen : ∀ p, [a p, b p].length = 2 := fun _ => rfl
  obtain ⟨m0, r0, h0, hm0⟩ := shareRound_shares E r.1 hlen 0
  obtain ⟨m1, r1, h1, hm1⟩ := shareRound_shares E r0 hlen 1
  obtain ⟨m2, r2, h2, hm2⟩ := shareRound_shares E r1 hlen 2
  have hsum := forParties_ok (ε := Fediux.Fault) (f := fun p => do
      let sum ← zipRows Share.add (m0 p) (m1 p)
      zipRows Share.add sum (m2 p)) (g := fun p => List.zipWith Share.add
        (List.zipWith Share.add (m0 p) (m1 p)) (m2 p)) fun p => by
    rw [zipRows_of_shares _ hm0 hm1 rfl]
    exact zipRows_of_shares _ (hm0.add hm1) hm2 rfl p
  have hreveal := fun p => revealAll_eq E (r := (r2, r.2)) ((hm0.add hm1).add hm2) p
  unfold sumAndReveal
  simp only [h0, h1, h2, bind, Except.bind, pure, Except.pure] at hsum ⊢
  rw [hsum]
  exact ⟨_, congrArg Except.ok (Prod.ext (funext hreveal) rfl)⟩

end Specs

end Fediux.Algorithm.MissingProcess
