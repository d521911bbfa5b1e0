import Mathlib

set_option autoImplicit false

/-! # Blocks with a length in front

Numbers as bytes, reads that stay inside a memory or not, and a list of blocks, each
after eight bytes with its length. The reader of such a list trusts the lengths:
`parse_ne_outside_iff` says on which bytes it still stays inside the memory.
-/

namespace Framing

/-! ## Big-endian bytes -/

/-- The last `k` bytes of a number, the highest first. -/
def bigEndian : ℕ → ℕ → List UInt8
  | 0, _ => []
  | k + 1, n => UInt8.ofNat (n / 256 ^ k) :: bigEndian k n

def value : List UInt8 → ℕ
  | [] => 0
  | b :: bytes => b.toNat * 256 ^ bytes.length + value bytes

@[simp] theorem length_bigEndian (k n : ℕ) : (bigEndian k n).length = k := by
  induction k with
  | zero => rfl
  | succ k ih => rw [bigEndian, List.length_cons, ih]

theorem value_bigEndian (k n : ℕ) : value (bigEndian k n) = n % 256 ^ k := by
  induction k with
  | zero => rw [pow_zero, Nat.mod_one, bigEndian, value]
  | succ k ih =>
      have hbyte : (UInt8.ofNat (n / 256 ^ k)).toNat = n / 256 ^ k % 256 := UInt8.toNat_ofNat'
      rw [bigEndian, value, ih, length_bigEndian, hbyte, pow_succ, Nat.mod_mul]
      ring

theorem value_lt (bytes : List UInt8) : value bytes < 256 ^ bytes.length := by
  induction bytes with
  | nil => exact Nat.one_pos
  | cons b bytes ih =>
      have hb : b.toNat < 256 := b.toNat_lt
      calc value (b :: bytes)
          = b.toNat * 256 ^ bytes.length + value bytes := rfl
        _ < b.toNat * 256 ^ bytes.length + 256 ^ bytes.length := by omega
        _ = (b.toNat + 1) * 256 ^ bytes.length := by ring
        _ ≤ 256 * 256 ^ bytes.length := Nat.mul_le_mul_right _ hb
        _ = 256 ^ (b :: bytes).length := by rw [List.length_cons, pow_succ, mul_comm]

/-- The last bytes of a number do not see multiples of `256 ^ k`. -/
theorem bigEndian_add (k a n : ℕ) : bigEndian k (a * 256 ^ k + n) = bigEndian k n := by
  induction k generalizing a with
  | zero => rfl
  | succ k ih =>
      have hsplit : a * 256 ^ (k + 1) + n = a * 256 * 256 ^ k + n := by ring
      have hhigh : (a * 256 * 256 ^ k + n) / 256 ^ k = a * 256 + n / 256 ^ k := by
        rw [Nat.add_comm, Nat.add_mul_div_right _ _ (by positivity), Nat.add_comm]
      have hbyte : UInt8.ofNat (a * 256 + n / 256 ^ k) = UInt8.ofNat (n / 256 ^ k) := by
        apply UInt8.toNat_inj.mp
        rw [UInt8.toNat_ofNat', UInt8.toNat_ofNat']
        omega
      rw [bigEndian, hsplit, hhigh, hbyte, ih, bigEndian]

theorem bigEndian_value (bytes : List UInt8) : bigEndian bytes.length (value bytes) = bytes := by
  induction bytes with
  | nil => rfl
  | cons b bytes ih =>
      have hhigh : (b.toNat * 256 ^ bytes.length + value bytes) / 256 ^ bytes.length = b.toNat := by
        rw [Nat.add_comm, Nat.add_mul_div_right _ _ (by positivity),
          Nat.div_eq_of_lt (value_lt bytes), Nat.zero_add]
      rw [List.length_cons, bigEndian, value, hhigh, bigEndian_add, ih, UInt8.ofNat_toNat]

/-! ## Little-endian bytes -/

/-- The last `k` bytes of a number, the lowest first. -/
def littleEndian (k n : ℕ) : List UInt8 := (bigEndian k n).reverse

def littleValue (bytes : List UInt8) : ℕ := value bytes.reverse

@[simp] theorem length_littleEndian (k n : ℕ) : (littleEndian k n).length = k := by
  rw [littleEndian, List.length_reverse, length_bigEndian]

theorem littleValue_littleEndian (k n : ℕ) : littleValue (littleEndian k n) = n % 256 ^ k := by
  rw [littleValue, littleEndian, List.reverse_reverse, value_bigEndian]

/-- The first bytes are those of a narrower number. -/
theorem littleEndian_add (j k n : ℕ) :
    ∃ high, littleEndian (k + j) n = littleEndian k n ++ high := by
  induction j with
  | zero => exact ⟨[], (List.append_nil _).symm⟩
  | succ j ih =>
      obtain ⟨high, hhigh⟩ := ih
      refine ⟨high ++ [UInt8.ofNat (n / 256 ^ (k + j))], ?_⟩
      calc littleEndian (k + (j + 1)) n
          = littleEndian (k + j) n ++ [UInt8.ofNat (n / 256 ^ (k + j))] := List.reverse_cons
        _ = littleEndian k n ++ (high ++ [UInt8.ofNat (n / 256 ^ (k + j))]) := by
            rw [hhigh, List.append_assoc]

/-! ## Reading memory -/

/-- The `n` bytes from `offset` on, if they are all inside. -/
def readAt (memory : List UInt8) (offset n : ℕ) : Option (List UInt8) :=
  if offset + n ≤ memory.length then some ((memory.drop offset).take n) else none

theorem readAt_eq_some {memory bytes : List UInt8} {offset n : ℕ}
    (h : readAt memory offset n = some bytes) :
    offset + n ≤ memory.length ∧ bytes.length = n ∧
      memory.drop offset = bytes ++ memory.drop (offset + n) := by
  unfold readAt at h
  split at h
  · rename_i hle
    cases h
    refine ⟨hle, ?_, ?_⟩
    · rw [List.length_take, List.length_drop]
      omega
    · rw [← List.drop_drop, List.take_append_drop]
  · cases h

/-! ## Blocks -/

def block (item : List UInt8) : List UInt8 := bigEndian 8 item.length ++ item

def blocks (items : List (List UInt8)) : List UInt8 := items.flatMap block

/-- How a reader of blocks can end early: at a length for which no block can be made, or with a
read outside the memory. -/
inductive Fault where
  | tooLong
  | outside
  deriving DecidableEq, Repr

/-- The blocks from `offset` on, where the memory goes on with `tail` after the data and `limit`
is the greatest length for which a block can be made. -/
def parseFrom (limit : ℕ) (tail data : List UInt8) (offset : ℕ) :
    Except Fault (List (List UInt8)) :=
  if offset < data.length then
    match readAt (data ++ tail) offset 8 with
    | none => .error .outside
    | some bytes =>
        let len := value bytes
        if limit < len then .error .tooLong
        else
          match readAt (data ++ tail) (offset + 8) len with
          | none => .error .outside
          | some item => (parseFrom limit tail data (offset + 8 + len)).map (item :: ·)
  else .ok []
termination_by data.length - offset
decreasing_by omega

def parse (limit : ℕ) (tail data : List UInt8) : Except Fault (List (List UInt8)) :=
  parseFrom limit tail data 0

theorem length_block (item : List UInt8) : (block item).length = 8 + item.length := by
  rw [block, List.length_append, length_bigEndian]

theorem blocks_cons (item : List UInt8) (items : List (List UInt8)) :
    blocks (item :: items) = block item ++ blocks items := rfl

/-- A read that starts where `bytes` stand. -/
theorem readAt_of_drop {memory bytes more : List UInt8} {offset : ℕ}
    (h : memory.drop offset = bytes ++ more) (hoffset : offset ≤ memory.length) :
    readAt memory offset bytes.length = some bytes := by
  have hlen := congrArg List.length h
  rw [List.length_drop, List.length_append] at hlen
  rw [readAt, if_pos (by omega), h, List.take_left]

section

variable {limit : ℕ} {tail data : List UInt8}

theorem parseFrom_of_le {offset : ℕ} (h : data.length ≤ offset) :
    parseFrom limit tail data offset = .ok [] := by
  rw [parseFrom, if_neg (not_lt.mpr h)]

/-- The length leads outside. -/
theorem parseFrom_of_item_outside {offset : ℕ} (hlt : offset < data.length) {bytes : List UInt8}
    (hread : readAt (data ++ tail) offset 8 = some bytes) (hlen : ¬ limit < value bytes)
    (hitem : readAt (data ++ tail) (offset + 8) (value bytes) = none) :
    parseFrom limit tail data offset = .error .outside := by
  rw [parseFrom, if_pos hlt, hread]
  simp only [if_neg hlen, hitem]

/-- One step over a block that stands in the memory. -/
theorem parseFrom_block (hlimit : limit < 256 ^ 8) {offset : ℕ} (hoffset : offset < data.length)
    {item more : List UInt8} (hitem : item.length ≤ limit)
    (h : (data ++ tail).drop offset = block item ++ more) :
    parseFrom limit tail data offset =
      (parseFrom limit tail data (offset + 8 + item.length)).map (item :: ·) := by
  have hin : offset ≤ (data ++ tail).length := by
    rw [List.length_append]
    omega
  have hlength : readAt (data ++ tail) offset 8 = some (bigEndian 8 item.length) := by
    rw [block, List.append_assoc] at h
    have hread := readAt_of_drop h hin
    rwa [length_bigEndian] at hread
  have hitemRead : readAt (data ++ tail) (offset + 8) item.length = some item := by
    have hdrop : (data ++ tail).drop (offset + 8) = item ++ more := by
      rw [← List.drop_drop, h, block, List.append_assoc]
      exact List.drop_left' (length_bigEndian 8 item.length)
    have hlen := congrArg List.length h
    rw [List.length_drop, @List.length_append _ (block item), length_block] at hlen
    exact readAt_of_drop hdrop (by omega)
  have hvalue : value (bigEndian 8 item.length) = item.length := by
    rw [value_bigEndian, Nat.mod_eq_of_lt (by omega)]
  rw [parseFrom, if_pos hoffset, hlength]
  simp only [hvalue, if_neg (not_lt.mpr hitem), hitemRead]

theorem parseFrom_blocks (hlimit : limit < 256 ^ 8) (pre : List UInt8)
    (items : List (List UInt8)) (hitems : ∀ item ∈ items, item.length ≤ limit) :
    parseFrom limit tail (pre ++ blocks items) pre.length = .ok items := by
  induction items generalizing pre with
  | nil =>
      apply parseFrom_of_le
      rw [blocks, List.flatMap_nil, List.append_nil]
  | cons item items ih =>
      have hrest := ih (pre ++ block item) fun x hx => hitems x (List.mem_cons_of_mem item hx)
      rw [List.append_assoc, List.length_append, length_block, ← Nat.add_assoc,
        ← blocks_cons] at hrest
      rw [parseFrom_block hlimit _ (hitems item List.mem_cons_self), hrest]
      · rfl
      · rw [List.append_assoc, List.drop_left, blocks_cons, List.append_assoc]
      · rw [List.length_append, blocks_cons, List.length_append, length_block]
        omega

/-- **What was written is read back.** -/
theorem parse_blocks (hlimit : limit < 256 ^ 8) {items : List (List UInt8)}
    (hitems : ∀ item ∈ items, item.length ≤ limit) :
    parse limit tail (blocks items) = .ok items :=
  parseFrom_blocks hlimit [] items hitems

/-! ## Staying inside -/

/-- Blocks that end with the data or in the tail, or blocks and then a length for which no block
can be made. -/
def Readable (limit : ℕ) (tail rest : List UInt8) : Prop :=
  ∃ items, (∀ item ∈ items, item.length ≤ limit) ∧
    ((∃ t, t <+: tail ∧ blocks items = rest ++ t) ∨
      ∃ more, rest = blocks items ++ more ∧ more ≠ [] ∧ 8 ≤ (more ++ tail).length ∧
        limit < value ((more ++ tail).take 8))

theorem readable_nil : Readable limit tail [] :=
  ⟨[], by simp, Or.inl ⟨[], List.nil_prefix, rfl⟩⟩

/-- A block before readable bytes, when it ends inside the data. -/
theorem Readable.cons {rest : List UInt8} (h : Readable limit tail rest) {item : List UInt8}
    (hitem : item.length ≤ limit) : Readable limit tail (block item ++ rest) := by
  obtain ⟨items, hitems, hend⟩ := h
  refine ⟨item :: items, List.forall_mem_cons.mpr ⟨hitem, hitems⟩, ?_⟩
  rw [blocks_cons]
  rcases hend with ⟨t, ht, heq⟩ | ⟨more, heq, hmore⟩
  · exact Or.inl ⟨t, ht, by rw [heq, List.append_assoc]⟩
  · exact Or.inr ⟨more, by rw [heq, List.append_assoc], hmore⟩

theorem readable_of_parseFrom (offset : ℕ)
    (h : parseFrom limit tail data offset ≠ .error .outside) :
    Readable limit tail (data.drop offset) := by
  induction offset using parseFrom.induct limit tail data with
  | case1 offset hlt hread =>
      rw [parseFrom, if_pos hlt, hread] at h
      exact absurd rfl h
  | case2 offset hlt bytes hread len hlen =>
      -- the length is too great
      obtain ⟨hin, hcount, hdrop⟩ := readAt_eq_some hread
      rw [List.drop_append_of_le_length hlt.le] at hdrop
      refine ⟨[], by simp, Or.inr ⟨data.drop offset, rfl, ?_, ?_, ?_⟩⟩
      · rw [ne_eq, List.drop_eq_nil_iff]
        omega
      · rw [hdrop, List.length_append]
        omega
      · rw [hdrop, List.take_left' hcount]
        exact hlen
  | case3 offset hlt bytes hread len hlen hitem =>
      exact absurd (parseFrom_of_item_outside hlt hread hlen hitem) h
  | case4 offset hlt bytes hread len hlen item hitem ih =>
      obtain ⟨-, hcount, hdrop⟩ := readAt_eq_some hread
      obtain ⟨-, hcountItem, hdropItem⟩ := readAt_eq_some hitem
      have hblock : bytes ++ item = block item := by
        rw [block, hcountItem, ← hcount, bigEndian_value]
      rw [hdropItem, ← List.append_assoc, hblock, List.drop_append_of_le_length hlt.le] at hdrop
      have hle : item.length ≤ limit := by omega
      have hrest : parseFrom limit tail data (offset + 8 + len) ≠ .error .outside := by
        intro hout
        refine h ?_
        rw [parseFrom, if_pos hlt, hread]
        show (if limit < len then _ else match readAt (data ++ tail) (offset + 8) len with
          | none => _
          | some item => Except.map (item :: ·) (parseFrom limit tail data (offset + 8 + len))) = _
        rw [if_neg hlen, hitem, hout]
        rfl
      by_cases hend : offset + 8 + len ≤ data.length
      · rw [List.drop_append_of_le_length hend, ← List.append_assoc] at hdrop
        rw [List.append_cancel_right hdrop]
        exact Readable.cons (ih hrest) hle
      · -- the block ends in the tail
        refine ⟨[item], by simpa using hle, Or.inl ?_⟩
        rw [blocks_cons, blocks, List.flatMap_nil, List.append_nil]
        rcases List.append_eq_append_iff.mp hdrop with ⟨t, hitemEnd, htail⟩ | ⟨t, hdata, -⟩
        · exact ⟨t, ⟨_, htail.symm⟩, hitemEnd⟩
        · have hlong := congrArg List.length hdata
          rw [List.length_drop, List.length_append, length_block] at hlong
          omega
  | case5 offset hge =>
      rw [List.drop_eq_nil_of_le (not_lt.mp hge)]
      exact readable_nil

theorem map_ne_outside {x : Except Fault (List (List UInt8))} (hx : x ≠ .error .outside)
    (item : List UInt8) : x.map (item :: ·) ≠ .error .outside := by
  cases x with
  | ok items => exact fun h => by cases h
  | error e =>
      intro h
      exact hx (congrArg Except.error (Except.error.inj h))

theorem parseFrom_of_readable (hlimit : limit < 256 ^ 8) (htail : tail.length < 8) (offset : ℕ)
    (h : Readable limit tail (data.drop offset)) :
    parseFrom limit tail data offset ≠ .error .outside := by
  obtain ⟨items, hitems, hend⟩ := h
  induction items generalizing offset with
  | nil =>
      rcases hend with ⟨t, -, heq⟩ | ⟨more, heq, hne, hcount, hvalue⟩
      · have hnil : data.drop offset = [] := (List.append_eq_nil_iff.mp heq.symm).1
        rw [parseFrom_of_le (List.drop_eq_nil_iff.mp hnil)]
        exact fun h => by cases h
      · have hmore : data.drop offset = more := heq
        have hlt : offset < data.length := by
          rw [← hmore, ne_eq, List.drop_eq_nil_iff] at hne
          omega
        have hdrop : (data ++ tail).drop offset =
            (more ++ tail).take 8 ++ (more ++ tail).drop 8 := by
          rw [List.take_append_drop, ← hmore, List.drop_append_of_le_length hlt.le]
        have hread := readAt_of_drop hdrop (by rw [List.length_append]; omega)
        rw [List.length_take, min_eq_left hcount] at hread
        rw [parseFrom, if_pos hlt, hread]
        simp only [if_pos hvalue]
        exact fun h => by cases h
  | cons item items ih =>
      obtain ⟨hitem, hitems⟩ := List.forall_mem_cons.mp hitems
      rcases hend with ⟨t, ⟨t', ht⟩, heq⟩ | ⟨more, heq, hmore⟩
      · have hlt : offset < data.length := by
          by_contra hge
          rw [List.drop_eq_nil_of_le (not_lt.mp hge), List.nil_append, blocks_cons] at heq
          have hlen := congrArg List.length heq
          rw [List.length_append, length_block] at hlen
          have hle : t.length ≤ tail.length := by
            rw [← ht, List.length_append]
            omega
          omega
        have hdrop : (data ++ tail).drop offset = block item ++ (blocks items ++ t') := by
          rw [List.drop_append_of_le_length hlt.le, ← ht, ← List.append_assoc, ← heq, blocks_cons,
            List.append_assoc]
        rw [parseFrom_block hlimit hlt hitem hdrop]
        apply map_ne_outside
        rw [blocks_cons] at heq
        rcases List.append_eq_append_iff.mp heq with ⟨c, hdata, hblocks⟩ | ⟨c, hblock, -⟩
        · refine ih _ hitems (Or.inl ⟨t, ⟨t', ht⟩, ?_⟩)
          rw [Nat.add_assoc, ← List.drop_drop, hdata, List.drop_left' (length_block item)]
          exact hblocks
        · -- the block reaches the end of the data
          have hlen := congrArg List.length hblock
          rw [length_block, List.length_append, List.length_drop] at hlen
          rw [parseFrom_of_le (by omega)]
          exact fun h => by cases h
      · rw [blocks_cons, List.append_assoc] at heq
        have hlt : offset < data.length := by
          have hlen := congrArg List.length heq
          rw [List.length_drop, List.length_append, length_block] at hlen
          omega
        have hdrop : (data ++ tail).drop offset = block item ++ (blocks items ++ more ++ tail) := by
          rw [List.drop_append_of_le_length hlt.le, heq, List.append_assoc]
        rw [parseFrom_block hlimit hlt hitem hdrop]
        apply map_ne_outside
        refine ih _ hitems (Or.inr ⟨more, ?_, hmore⟩)
        rw [Nat.add_assoc, ← List.drop_drop, heq, List.drop_left' (length_block item)]

/-- **When the reader stays inside the memory**, if less than eight bytes follow the data. -/
theorem parse_ne_outside_iff (hlimit : limit < 256 ^ 8) (htail : tail.length < 8)
    (data : List UInt8) :
    parse limit tail data ≠ .error .outside ↔ Readable limit tail data := by
  constructor
  · intro h
    exact readable_of_parseFrom 0 h
  · intro h
    exact parseFrom_of_readable hlimit htail 0 h

end

end Framing
