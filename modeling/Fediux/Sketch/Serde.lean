import Mathlib
import Fediux.Basic.Fallible
import Fediux.Basic.Framing

set_option autoImplicit false

/-! # Items of a frequency sketch as bytes

`PyMixedItemsSerDe` of `python/fediux/FL/sketch/serde.py` writes an item as one byte with its type
and its value behind it. A string is written as its length in four bytes and one byte for each
character, but read with a length of three bytes and as UTF-8. `readsBack_iff` says which lists of
items are read back.
-/

namespace Fediux.Sketch

open Fallible Framing

/-! ## The code -/

@[ext] structure CodePoint where
  ord : ℕ
  valid : ord < 0x110000
  deriving DecidableEq

/-- An item by the type that `type_map` gives it: every class with `int` in its name is an `int`,
and of the others every class with `float` in its name is a `float`, here with its 64 bits. -/
inductive Item where
  | str (chars : List CodePoint)
  | int (n : Int64)
  | float (bits : UInt64)
  | other (item_type : String)
  deriving DecidableEq

inductive Error where
  | value
  | overflow
  | index (text : String)
  | struct
  | unicodeDecode
  | exception (text : String)
  deriving DecidableEq

def get_size : Item → ℕ
  | .str chars => 5 + chars.length
  | _ => 9

/-- `bytearray.extend` takes numbers below 256. -/
def byteOf (c : CodePoint) : Except Error UInt8 :=
  if c.ord < 256 then .ok (UInt8.ofNat c.ord) else .error .value

/-- `n.to_bytes(4, "little")`. -/
def lengthBytes (n : ℕ) : Except Error (List UInt8) :=
  if n < 256 ^ 4 then .ok (littleEndian 4 n) else .error .overflow

def to_bytes : Item → Except Error (List UInt8)
  | .str chars => do
      let len ← lengthBytes chars.length
      let bytes ← chars.mapM byteOf
      return 0x73 :: (len ++ bytes)
  | .int n => .ok (0x71 :: littleEndian 8 n.toUInt64.toNat)
  | .float bits => .ok (0x64 :: littleEndian 8 bits.toNat)
  | .other item_type =>
      .error (.exception s!"Only str, int, and float are supported. Found {item_type}")

/-- `data[start:stop]`. -/
def slice (data : List UInt8) (start stop : ℕ) : List UInt8 := (data.drop start).take (stop - start)

def CodePoint.ofChar (c : Char) : CodePoint where
  ord := c.toNat
  valid := by
    have h := c.valid
    rcases h with h | ⟨_, h⟩
    · exact h.trans (by decide)
    · exact h

/-- `data.decode()`. -/
def decode (data : List UInt8) : Except Error (List CodePoint) :=
  match data.toByteArray.utf8Decode? with
  | some chars => .ok (chars.toList.map CodePoint.ofChar)
  | none => .error .unicodeDecode

/-- `struct.unpack_from` of eight bytes. -/
def unpack_from (data : List UInt8) (offset : ℕ) : Except Error ℕ :=
  match readAt data offset 8 with
  | some bytes => .ok (littleValue bytes)
  | none => .error .struct

def from_bytes (data : List UInt8) (offset : ℕ) : Except Error (Item × ℕ) :=
  match data[offset]? with
  | none => .error (.index "index out of range")
  | some item_type =>
      if item_type = 0x73 then
        let num_chars := littleValue (slice data (offset + 1) (offset + 4))
        if offset + data.length < num_chars then
          .error (.index ("num_chars read must be non-negative and not larger than the buffer. " ++
            s!"Found {num_chars}"))
        else do
          let val ← decode (slice data (offset + 5) (offset + 5 + num_chars))
          return (.str val, 5 + num_chars)
      else if item_type = 0x71 then do
        let val ← unpack_from data (offset + 1)
        return (.int (UInt64.ofNat val).toInt64, 9)
      else if item_type = 0x64 then do
        let val ← unpack_from data (offset + 1)
        return (.float (UInt64.ofNat val), 9)
      else .error (.exception "Unknown item type found")

/-! ## Reading a list of items -/

/-- The next `n` items with the bytes that each of them took. -/
def readItems (data : List UInt8) : ℕ → ℕ → Except Error (List (Item × ℕ))
  | 0, _ => .ok []
  | n + 1, offset => do
      let item ← from_bytes data offset
      let items ← readItems data n (offset + item.2)
      return item :: items

/-- The items are written, each in `get_size` bytes, and read back with these sizes. -/
def ReadsBack (items : List Item) : Prop :=
  ∃ chunks, items.mapM to_bytes = .ok chunks ∧
    chunks.map List.length = items.map get_size ∧
    readItems chunks.flatten items.length 0 = .ok (items.map fun item => (item, get_size item))

/-- A string of ASCII characters that has a length of three bytes, or a number. -/
def Item.Plain : Item → Prop
  | .str chars => (∀ c ∈ chars, c.ord < 128) ∧ chars.length < 2 ^ 24
  | .int _ => True
  | .float _ => True
  | .other _ => False

/-! ## UTF-8 and single bytes -/

theorem decode_eq_ok {data : List UInt8} {s : List CodePoint} (h : decode data = .ok s) :
    ∃ chars : List Char, s = chars.map CodePoint.ofChar ∧
      data = chars.flatMap String.utf8EncodeChar := by
  unfold decode at h
  split at h
  · rename_i chars hchars
    obtain ⟨l, hl⟩ := ByteArray.isSome_utf8Decode?_iff.mp (Option.isSome_of_eq_some hchars)
    rw [hl, List.utf8Decode?_utf8Encode] at hchars
    cases hchars
    refine ⟨l, (Except.ok.inj h).symm, ?_⟩
    calc data
        = data.toByteArray.data.toList := List.toList_data_toByteArray.symm
      _ = (l.flatMap String.utf8EncodeChar).toByteArray.data.toList := by rw [hl]; rfl
      _ = l.flatMap String.utf8EncodeChar := List.toList_data_toByteArray
  · cases h

theorem decode_encoded (chars : List Char) :
    decode (chars.flatMap String.utf8EncodeChar) = .ok (chars.map CodePoint.ofChar) := by
  have hencode : (chars.flatMap String.utf8EncodeChar).toByteArray = chars.utf8Encode := rfl
  unfold decode
  rw [hencode, List.utf8Decode?_utf8Encode]

/-- A character whose UTF-8 form is one byte. -/
theorem encoded_eq_singleton {c : Char} (h : c.toNat < 128) :
    String.utf8EncodeChar c = [UInt8.ofNat c.toNat] := by
  have hval : c.val ≤ 0x7f := UInt32.le_iff_toNat_le.mpr (Nat.le_of_lt_succ h)
  have hsize : c.utf8Size = 1 := Char.utf8Size_eq_one_iff.mpr hval
  rw [String.utf8EncodeChar_eq_singleton hsize]
  rfl

theorem toNat_lt_of_utf8Size {c : Char} (h : c.utf8Size = 1) : c.toNat < 128 := by
  have hval : c.val ≤ 0x7f := Char.utf8Size_eq_one_iff.mp h
  exact Nat.lt_succ_of_le (UInt32.le_iff_toNat_le.mp hval)

/-- A string has no more characters than bytes, and as many only if it is ASCII. -/
theorem length_encoded (chars : List Char) :
    chars.length ≤ (chars.flatMap String.utf8EncodeChar).length ∧
      (chars.length = (chars.flatMap String.utf8EncodeChar).length →
        ∀ c ∈ chars, c.toNat < 128) := by
  induction chars with
  | nil => exact ⟨le_rfl, fun _ c hc => absurd hc List.not_mem_nil⟩
  | cons c chars ih =>
      have hpos : 1 ≤ c.utf8Size := c.utf8Size_pos
      rw [List.flatMap_cons, List.length_append, String.length_utf8EncodeChar, List.length_cons]
      refine ⟨by omega, fun heq => ?_⟩
      have hone : c.utf8Size = 1 := by omega
      have hrest : chars.length = (chars.flatMap String.utf8EncodeChar).length := by omega
      exact List.forall_mem_cons.mpr ⟨toNat_lt_of_utf8Size hone, ih.2 hrest⟩

/-- **What is read as UTF-8** from as many bytes as there are characters is ASCII. -/
theorem ascii_of_decode {data : List UInt8} {s : List CodePoint} (h : decode data = .ok s)
    (hlen : data.length ≤ s.length) : data.length = s.length ∧ ∀ c ∈ s, c.ord < 128 := by
  obtain ⟨chars, rfl, rfl⟩ := decode_eq_ok h
  rw [List.length_map] at hlen ⊢
  have heq := le_antisymm (length_encoded chars).1 hlen
  refine ⟨heq.symm, fun c hc => ?_⟩
  obtain ⟨char, hchar, rfl⟩ := List.mem_map.mp hc
  exact (length_encoded chars).2 heq char hchar

/-- The byte that stands for a character. -/
def CodePoint.byte (c : CodePoint) : UInt8 := UInt8.ofNat c.ord

theorem decode_ascii {s : List CodePoint} (h : ∀ c ∈ s, c.ord < 128) :
    decode (s.map CodePoint.byte) = .ok s := by
  have hord : ∀ c ∈ s, (Char.ofNat c.ord).toNat = c.ord := by
    intro c hc
    have hvalid : c.ord.isValidChar := Or.inl ((h c hc).trans (by decide))
    rw [Char.toNat_ofNat, if_pos hvalid]
  have hchars : (s.map fun c => Char.ofNat c.ord).map CodePoint.ofChar = s := by
    have hback : ∀ c ∈ s, CodePoint.ofChar (Char.ofNat c.ord) = c :=
      fun c hc => CodePoint.ext (hord c hc)
    rw [List.map_map]
    exact (List.map_congr_left hback).trans (List.map_id s)
  have hbytes : s.map CodePoint.byte =
      (s.map fun c => Char.ofNat c.ord).flatMap String.utf8EncodeChar := by
    rw [List.flatMap_map, List.map_eq_flatMap]
    refine List.flatMap_congr fun c hc => ?_
    rw [encoded_eq_singleton ((hord c hc).trans_lt (h c hc)), hord c hc]
    rfl
  rw [hbytes, decode_encoded, hchars]

/-! ## What is written -/

theorem mapM_byteOf {chars : List CodePoint} {bytes : List UInt8}
    (h : chars.mapM byteOf = .ok bytes) : bytes = chars.map CodePoint.byte := by
  have hbyte : ∀ c ∈ chars, byteOf c = .ok c.byte := by
    intro c hc
    obtain ⟨b, hb⟩ := ok_of_mapM h hc
    unfold byteOf at hb ⊢
    split at hb
    · rename_i hlt
      exact if_pos hlt
    · cases hb
  rw [mapM_of_ok hbyte] at h
  exact (Except.ok.inj h).symm

theorem to_bytes_str {chars : List CodePoint} {chunk : List UInt8}
    (h : to_bytes (.str chars) = .ok chunk) :
    chunk = 0x73 :: (littleEndian 4 chars.length ++ chars.map CodePoint.byte) := by
  obtain ⟨len, hlen, h⟩ := bind_eq_ok.mp h
  obtain ⟨bytes, hbytes, h⟩ := bind_eq_ok.mp h
  rw [← Except.ok.inj h, mapM_byteOf hbytes]
  unfold lengthBytes at hlen
  split at hlen
  · rw [← Except.ok.inj hlen]
  · cases hlen

theorem length_to_bytes {item : Item} {chunk : List UInt8} (h : to_bytes item = .ok chunk) :
    chunk.length = get_size item := by
  cases item with
  | str chars =>
      rw [to_bytes_str h, List.length_cons, List.length_append, length_littleEndian,
        List.length_map, get_size]
      omega
  | int n =>
      rw [← Except.ok.inj h, List.length_cons, length_littleEndian]
      rfl
  | float bits =>
      rw [← Except.ok.inj h, List.length_cons, length_littleEndian]
      rfl
  | other item_type => cases h

theorem Item.Plain.written {item : Item} (h : item.Plain) : ∃ chunk, to_bytes item = .ok chunk := by
  cases item with
  | str chars =>
      obtain ⟨hascii, hlen⟩ := h
      have hbytes : chars.mapM byteOf = .ok (chars.map CodePoint.byte) := by
        refine mapM_of_ok fun c hc => ?_
        exact if_pos ((hascii c hc).trans (by decide))
      have hlength : lengthBytes chars.length = .ok (littleEndian 4 chars.length) :=
        if_pos (hlen.trans (by decide))
      refine ⟨0x73 :: (littleEndian 4 chars.length ++ chars.map CodePoint.byte), ?_⟩
      rw [to_bytes, hlength, hbytes]
      rfl
  | int n => exact ⟨_, rfl⟩
  | float bits => exact ⟨_, rfl⟩
  | other item_type => exact h.elim

/-! ## What is read -/

section Read

variable {data bytes more : List UInt8} {offset : ℕ}

theorem getElem?_of_drop {b : UInt8} (h : data.drop offset = b :: more) :
    data[offset]? = some b := by
  have h0 := congrArg (·[0]?) h
  rwa [List.getElem?_drop] at h0

theorem slice_of_drop {k : ℕ} (hk : bytes.length = k) (h : data.drop offset = bytes ++ more)
    (n : ℕ) : slice data (offset + k) (offset + k + n) = more.take n := by
  rw [slice, ← List.drop_drop, h, List.drop_left' hk, Nat.add_sub_cancel_left]

/-- Eight bytes behind the type. -/
theorem unpack_from_of_drop {b : UInt8} {v : ℕ} (hv : v < 256 ^ 8)
    (h : data.drop offset = b :: littleEndian 8 v ++ more) :
    unpack_from data (offset + 1) = .ok v := by
  have hlen := congrArg List.length h
  rw [List.length_drop, List.length_append, List.length_cons, length_littleEndian] at hlen
  have hdrop : data.drop (offset + 1) = littleEndian 8 v ++ more := by
    rw [← List.drop_drop, h]
    rfl
  have hread := readAt_of_drop hdrop (by omega)
  rw [length_littleEndian] at hread
  have hvalue : littleValue (littleEndian 8 v) = v := by
    rw [littleValue_littleEndian, Nat.mod_eq_of_lt hv]
  rw [unpack_from, hread]
  exact congrArg Except.ok hvalue

/-- A string is read with the lowest three bytes of its length. -/
theorem from_bytes_str {chars : List CodePoint}
    (h : data.drop offset =
      0x73 :: (littleEndian 4 chars.length ++ chars.map CodePoint.byte) ++ more) :
    from_bytes data offset = (do
      let val ← decode ((chars.map CodePoint.byte).take (chars.length % 2 ^ 24))
      return (.str val, 5 + chars.length % 2 ^ 24)) := by
  have hmod : chars.length % 2 ^ 24 ≤ chars.length := Nat.mod_le _ _
  have hlen := congrArg List.length h
  simp only [List.length_drop, List.length_append, List.length_cons, length_littleEndian,
    List.length_map] at hlen
  have hnum : littleValue (slice data (offset + 1) (offset + 4)) = chars.length % 2 ^ 24 := by
    obtain ⟨high, hhigh⟩ := littleEndian_add 1 3 chars.length
    have h' : data.drop offset =
        [0x73] ++ (littleEndian 4 chars.length ++ chars.map CodePoint.byte ++ more) := h
    have hslice : slice data (offset + 1) (offset + 4) = littleEndian 3 chars.length := by
      rw [slice_of_drop (k := 1) rfl h' 3, hhigh, List.append_assoc, List.append_assoc]
      exact List.take_left' (length_littleEndian 3 _)
    rw [hslice, littleValue_littleEndian]
    rfl
  have hval : slice data (offset + 5) (offset + 5 + chars.length % 2 ^ 24) =
      (chars.map CodePoint.byte).take (chars.length % 2 ^ 24) := by
    have hfront : (0x73 :: littleEndian 4 chars.length).length = 5 := by
      rw [List.length_cons, length_littleEndian]
    have hdrop : data.drop offset =
        (0x73 :: littleEndian 4 chars.length) ++ (chars.map CodePoint.byte ++ more) := by
      rw [h, List.cons_append, List.cons_append, List.append_assoc]
    rw [slice_of_drop hfront hdrop, List.take_append_of_le_length (by rwa [List.length_map])]
  have hinside : ¬ offset + data.length < chars.length % 2 ^ 24 := by omega
  rw [from_bytes, getElem?_of_drop h]
  simp only [if_true, hnum, hval, if_neg hinside]

theorem from_bytes_int {n : Int64}
    (h : data.drop offset = 0x71 :: littleEndian 8 n.toUInt64.toNat ++ more) :
    from_bytes data offset = .ok (.int n, 9) := by
  have hread := unpack_from_of_drop n.toUInt64.toNat_lt h
  rw [from_bytes, getElem?_of_drop h]
  show (do
    let val ← unpack_from data (offset + 1)
    return (Item.int (UInt64.ofNat val).toInt64, 9)) = _
  rw [hread]
  show Except.ok (Item.int (UInt64.ofNat n.toUInt64.toNat).toInt64, 9) = _
  rw [UInt64.ofNat_toNat]
  rfl

theorem from_bytes_float {bits : UInt64}
    (h : data.drop offset = 0x64 :: littleEndian 8 bits.toNat ++ more) :
    from_bytes data offset = .ok (.float bits, 9) := by
  have hread := unpack_from_of_drop bits.toNat_lt h
  rw [from_bytes, getElem?_of_drop h]
  show (do
    let val ← unpack_from data (offset + 1)
    return (Item.float (UInt64.ofNat val), 9)) = _
  rw [hread]
  show Except.ok (Item.float (UInt64.ofNat bits.toNat), 9) = _
  rw [UInt64.ofNat_toNat]

/-- **A string comes back** when its length fits three bytes and it is ASCII, and only then. -/
theorem from_bytes_str_iff {chars : List CodePoint}
    (h : data.drop offset =
      0x73 :: (littleEndian 4 chars.length ++ chars.map CodePoint.byte) ++ more) :
    from_bytes data offset = .ok (.str chars, 5 + chars.length) ↔ (Item.str chars).Plain := by
  rw [from_bytes_str h]
  constructor
  · intro hread
    obtain ⟨val, hval, hitem⟩ := bind_eq_ok.mp hread
    obtain ⟨hstr, -⟩ := Prod.mk.inj (Except.ok.inj hitem)
    obtain rfl := Item.str.inj hstr
    have htake := List.length_take (i := val.length % 2 ^ 24) (l := val.map CodePoint.byte)
    rw [List.length_map] at htake
    have hmod := Nat.mod_lt val.length (show 0 < 2 ^ 24 by decide)
    obtain ⟨hcount, hascii⟩ := ascii_of_decode hval (by omega)
    exact ⟨hascii, by omega⟩
  · rintro ⟨hascii, hlen⟩
    have hall : (chars.map CodePoint.byte).take chars.length = chars.map CodePoint.byte :=
      List.take_of_length_le (List.length_map _).le
    rw [Nat.mod_eq_of_lt hlen, hall, decode_ascii hascii]
    rfl

/-- One item, wherever it stands in the data. -/
theorem from_bytes_iff {item : Item} {chunk : List UInt8} (h : to_bytes item = .ok chunk)
    (hdrop : data.drop offset = chunk ++ more) :
    from_bytes data offset = .ok (item, get_size item) ↔ item.Plain := by
  cases item with
  | str chars =>
      rw [to_bytes_str h] at hdrop
      exact from_bytes_str_iff hdrop
  | int n =>
      rw [← Except.ok.inj h] at hdrop
      exact iff_of_true (from_bytes_int hdrop) trivial
  | float bits =>
      rw [← Except.ok.inj h] at hdrop
      exact iff_of_true (from_bytes_float hdrop) trivial
  | other item_type => cases h

end Read

/-! ## Lists of items -/

theorem length_chunks {items : List Item} {chunks : List (List UInt8)}
    (h : items.mapM to_bytes = .ok chunks) : chunks.map List.length = items.map get_size := by
  induction items generalizing chunks with
  | nil =>
      rw [← Except.ok.inj h]
      rfl
  | cons item items ih =>
      rw [List.mapM_cons] at h
      obtain ⟨chunk, hchunk, h⟩ := bind_eq_ok.mp h
      obtain ⟨rest, hrest, h⟩ := bind_eq_ok.mp h
      rw [← Except.ok.inj h, List.map_cons, List.map_cons, length_to_bytes hchunk, ih hrest]

theorem readItems_iff {items : List Item} {chunks : List (List UInt8)} {data : List UInt8}
    {offset : ℕ} (h : items.mapM to_bytes = .ok chunks)
    (hdrop : data.drop offset = chunks.flatten) :
    readItems data items.length offset = .ok (items.map fun item => (item, get_size item)) ↔
      ∀ item ∈ items, item.Plain := by
  induction items generalizing chunks offset with
  | nil => exact iff_of_true rfl fun item hitem => absurd hitem List.not_mem_nil
  | cons item items ih =>
      rw [List.mapM_cons] at h
      obtain ⟨chunk, hchunk, h⟩ := bind_eq_ok.mp h
      obtain ⟨rest, hrest, h⟩ := bind_eq_ok.mp h
      rw [← Except.ok.inj h, List.flatten_cons] at hdrop
      have hnext : data.drop (offset + get_size item) = rest.flatten := by
        rw [← List.drop_drop, hdrop, ← length_to_bytes hchunk, List.drop_left]
      rw [List.forall_mem_cons, ← from_bytes_iff hchunk hdrop, ← ih hrest hnext]
      constructor
      · intro hread
        obtain ⟨first, hfirst, hread⟩ := bind_eq_ok.mp hread
        obtain ⟨later, hlater, hread⟩ := bind_eq_ok.mp hread
        obtain ⟨rfl, rfl⟩ := List.cons.inj (Except.ok.inj hread)
        exact ⟨hfirst, hlater⟩
      · rintro ⟨hfirst, hlater⟩
        rw [List.length_cons, readItems, hfirst]
        show (do
          let later ← readItems data items.length (offset + get_size item)
          return (item, get_size item) :: later) = _
        rw [hlater]
        rfl

/-- **Which items are read back**: numbers, and ASCII strings whose length fits three bytes. -/
theorem readsBack_iff (items : List Item) : ReadsBack items ↔ ∀ item ∈ items, item.Plain := by
  constructor
  · rintro ⟨chunks, hchunks, -, hread⟩
    exact (readItems_iff hchunks rfl).mp hread
  · intro hplain
    obtain ⟨chunks, hchunks⟩ := mapM_succeeds fun item hitem => (hplain item hitem).written
    exact ⟨chunks, hchunks, length_chunks hchunks, (readItems_iff hchunks rfl).mpr hplain⟩

/-- The one character `é`. -/
def eAcute : Item := .str [⟨0xE9, by decide⟩]

/-- It is written as a byte that is not UTF-8. -/
theorem not_readsBack_eAcute : ¬ ReadsBack [eAcute] := by
  rintro ⟨chunks, hchunks, -, hread⟩
  have hplain := (readItems_iff hchunks rfl).mp hread eAcute List.mem_cons_self
  exact absurd (hplain.1 _ List.mem_cons_self) (by decide)

end Fediux.Sketch
