import Fediux.Paillier.CrtDatapack
import Fediux.Basic.Fallible

set_option autoImplicit false

/-! # Packed ciphertexts

The wrappers of `pybind_warpper/algorithm/opt_paillier_c2py.cc` that encrypt, decrypt and add
lists of numbers, and the Python functions in front of them
(`primitive/opt_paillier_pack_c2py_warpper.py`). A list is cut into chunks of up to
`CRT_MOD_MAX_DIMENSION` numbers; each chunk is packed into one number, and that is encrypted.
-/

namespace Fediux.Paillier

abbrev CRT_MOD_MAX_DIMENSION : ℕ := 28

abbrev CRT_MOD_SIZE : ℕ := 70

/-- `Opt_paillier_pack_ciphertext`. -/
structure PackCiphertext where
  ciphertexts : List ℤ
  pack_size : ℕ
  crtMod : CrtMod
  deriving DecidableEq

/-- The loop of the encrypting wrappers from the chunk `i` on. -/
def packLoop (encrypt : ℤ → ℕ → ℤ) (crtmod : CrtMod) (i : ℕ) (plain_texts : List ℤ) :
    Except String (List ℤ) :=
  if plain_texts.length = 0 then .ok []
  else do
    let pack ← data_packing_crt (plain_texts.take CRT_MOD_MAX_DIMENSION) crtmod
    let ciphertexts ← packLoop encrypt crtmod (i + 1) (plain_texts.drop CRT_MOD_MAX_DIMENSION)
    return encrypt pack i :: ciphertexts
termination_by plain_texts.length
decreasing_by
  rw [List.length_drop]
  unfold CRT_MOD_MAX_DIMENSION
  omega

/-- The moduli that are used: those given, or those that `init_crt` draws. -/
def chosenMod (crt_mod : Option CrtMod) (draw : Draw CRT_MOD_SIZE) : CrtMod :=
  match crt_mod with
  | none => init_crt CRT_MOD_MAX_DIMENSION CRT_MOD_SIZE draw
  | some crtmod => crtmod

/-- `opt_paillier_pack_encrypt`; `rs i` is drawn for the chunk `i`. -/
def opt_paillier_pack_encrypt (pub : PublicKey) (plain_texts : List ℤ) (crt_mod : Option CrtMod)
    (draw : Draw CRT_MOD_SIZE) (rs : ℕ → Draw pub.lbits) : Except String PackCiphertext := do
  let crtmod := chosenMod crt_mod draw
  let ciphertexts ←
    packLoop (fun pack i => opt_paillier_encrypt pub pack (rs i)) crtmod 0 plain_texts
  return { ciphertexts := ciphertexts, pack_size := plain_texts.length, crtMod := crtmod }

/-- `opt_paillier_pack_encrypt_crt`. -/
def opt_paillier_pack_encrypt_crt (pub : PublicKey) (prv : SecretKey) (plain_texts : List ℤ)
    (crt_mod : Option CrtMod) (draw : Draw CRT_MOD_SIZE) (rs : ℕ → Draw pub.lbits) :
    Except String PackCiphertext := do
  let crtmod := chosenMod crt_mod draw
  let ciphertexts ←
    packLoop (fun pack i => opt_paillier_encrypt_crt pub prv pack (rs i)) crtmod 0 plain_texts
  return { ciphertexts := ciphertexts, pack_size := plain_texts.length, crtMod := crtmod }

/-- The subtraction of two numbers of the type `size_t`. -/
def sizeSub (a b : ℕ) : ℕ := if a < b then a + 2 ^ 64 - b else a - b

/-- The loop of `opt_paillier_pack_decrypt_crt_warpper`. -/
def packDecryptLoop (pub : PublicKey) (prv : SecretKey) (crtmod : CrtMod) :
    List ℤ → ℕ → Except String (List ℤ)
  | [], _ => .ok []
  | ciphertext :: ciphertexts, cipher_text_num => do
      let data_size := min CRT_MOD_MAX_DIMENSION cipher_text_num
      let nums ← data_retrieve_crt (opt_paillier_decrypt_crt pub prv ciphertext) crtmod data_size
      let rest ← packDecryptLoop pub prv crtmod ciphertexts
        (sizeSub cipher_text_num CRT_MOD_MAX_DIMENSION)
      return nums ++ rest

def opt_paillier_pack_decrypt_crt (pub : PublicKey) (prv : SecretKey)
    (pack_cipher_text : PackCiphertext) : Except String (List ℤ) :=
  packDecryptLoop pub prv pack_cipher_text.crtMod pack_cipher_text.ciphertexts
    pack_cipher_text.pack_size

/-- The loop of `opt_paillier_pack_add_warpper`: it goes through the ciphertexts of the first
operand. -/
def packAddLoop (pub : PublicKey) : List ℤ → List ℤ → Except String (List ℤ)
  | [], _ => .ok []
  | _ :: _, [] => .error "list index out of range"
  | op1 :: ops1, op2 :: ops2 => do
      let rest ← packAddLoop pub ops1 ops2
      return opt_paillier_add op1 op2 pub :: rest

def opt_paillier_pack_add_warpper (op1 op2 : PackCiphertext) (pub : PublicKey) :
    Except String PackCiphertext := do
  let ciphertexts ← packAddLoop pub op1.ciphertexts op2.ciphertexts
  return { ciphertexts := ciphertexts, pack_size := op1.pack_size, crtMod := op1.crtMod }

/-- `opt_paillier_pack_add`, which checks the operands before the wrapper adds them. -/
def opt_paillier_pack_add (pub : PublicKey) (op1 op2 : PackCiphertext) :
    Except String PackCiphertext :=
  if op1.pack_size ≠ op2.pack_size then
    .error "two pack ciphertext is not in the same pack size"
  else if op1.crtMod ≠ op2.crtMod then
    .error "two pack ciphertext is not in the same pack crtmod"
  else opt_paillier_pack_add_warpper op1 op2 pub

/-! ## Chunks -/

section Chunks

variable {α β : Type}

/-- The chunk `j` of a list. -/
def chunk (j : ℕ) (xs : List α) : List α :=
  (xs.drop (j * CRT_MOD_MAX_DIMENSION)).take CRT_MOD_MAX_DIMENSION

theorem chunk_zero (xs : List α) : chunk 0 xs = xs.take CRT_MOD_MAX_DIMENSION := by
  rw [chunk, Nat.zero_mul, List.drop_zero]

theorem chunk_succ (j : ℕ) (xs : List α) :
    chunk (j + 1) xs = chunk j (xs.drop CRT_MOD_MAX_DIMENSION) := by
  rw [chunk, chunk, List.drop_drop]
  congr 2
  ring

theorem chunk_nil (j : ℕ) : chunk j ([] : List α) = [] := by
  rw [chunk, List.drop_nil, List.take_nil]

theorem chunk_map (f : α → β) (j : ℕ) (xs : List α) : chunk j (xs.map f) = (chunk j xs).map f := by
  rw [chunk, chunk, List.map_take, List.map_drop]

theorem forall_chunk_iff {A : List α → Prop} (xs : List α) :
    (∀ j, A (chunk j xs)) ↔
      A (xs.take CRT_MOD_MAX_DIMENSION) ∧ ∀ j, A (chunk j (xs.drop CRT_MOD_MAX_DIMENSION)) := by
  constructor
  · intro h
    refine ⟨?_, fun j => ?_⟩
    · rw [← chunk_zero]
      exact h 0
    · rw [← chunk_succ]
      exact h (j + 1)
  · rintro ⟨h0, hs⟩ j
    cases j with
    | zero =>
        rw [chunk_zero]
        exact h0
    | succ j =>
        rw [chunk_succ]
        exact hs j

/-- There is one number for each chunk of the list, in the relation `R` to it. -/
inductive Chunked (R : ℤ → List α → Prop) : List ℤ → List α → Prop where
  | nil : Chunked R [] []
  | cons {v : ℤ} {vs : List ℤ} {xs : List α} : xs.length ≠ 0 →
      R v (xs.take CRT_MOD_MAX_DIMENSION) →
      Chunked R vs (xs.drop CRT_MOD_MAX_DIMENSION) → Chunked R (v :: vs) xs

/-- A relation that is decided by the chunk alone holds of the numbers when it holds of the
chunks. -/
theorem Chunked.iff_forall {R S : ℤ → List α → Prop} {A : List α → Prop} (hnil : A [])
    (hiff : ∀ v ch, R v ch → (S v ch ↔ A ch)) {vs : List ℤ} {xs : List α} (h : Chunked R vs xs) :
    Chunked S vs xs ↔ ∀ j, A (chunk j xs) := by
  induction h with
  | nil =>
      refine ⟨fun _ j => ?_, fun _ => .nil⟩
      rw [chunk_nil]
      exact hnil
  | @cons v vs xs hne hR _ ih =>
      rw [forall_chunk_iff]
      constructor
      · intro hS
        cases hS with
        | cons _ hv hvs => exact ⟨(hiff v _ hR).mp hv, ih.mp hvs⟩
      · rintro ⟨hv, hvs⟩
        exact .cons hne ((hiff v _ hR).mpr hv) (ih.mpr hvs)

theorem Chunked.mono {R S : ℤ → List α → Prop} (hRS : ∀ v ch, R v ch → S v ch) {vs : List ℤ}
    {xs : List α} (h : Chunked R vs xs) : Chunked S vs xs := by
  induction h with
  | nil => exact .nil
  | cons hne hR _ ih => exact .cons hne (hRS _ _ hR) ih

/-- A list that is one chunk. -/
theorem forall_chunk_of_short {A : List α → Prop} {xs : List α}
    (hlen : xs.length ≤ CRT_MOD_MAX_DIMENSION) (h : A xs) (hnil : A []) : ∀ j, A (chunk j xs) := by
  rw [forall_chunk_iff, List.take_of_length_le hlen, List.drop_of_length_le hlen]
  refine ⟨h, fun j => ?_⟩
  rw [chunk_nil]
  exact hnil

theorem Chunked.and_forall {R : ℤ → List α → Prop} {A : List α → Prop} {vs : List ℤ}
    {xs : List α} (h : Chunked R vs xs) (hA : ∀ j, A (chunk j xs)) :
    Chunked (fun v ch => R v ch ∧ A ch) vs xs := by
  induction h with
  | nil => exact .nil
  | cons hne hR _ ih =>
      obtain ⟨h0, hs⟩ := (forall_chunk_iff _).mp hA
      exact .cons hne ⟨hR, h0⟩ (ih hs)

theorem length_chunk_le (j : ℕ) (xs : List α) : (chunk j xs).length ≤ CRT_MOD_MAX_DIMENSION := by
  rw [chunk, List.length_take]
  exact min_le_left _ _

theorem chunked_map_iff {R : ℤ → List β → Prop} (f : α → β) {vs : List ℤ} {xs : List α} :
    Chunked R vs (xs.map f) ↔ Chunked (fun v ch => R v (ch.map f)) vs xs := by
  induction vs generalizing xs with
  | nil =>
      constructor
      · intro h
        cases xs with
        | nil => exact .nil
        | cons x xs => cases h
      · intro h
        cases h
        exact .nil
  | cons v vs ih =>
      constructor
      · intro h
        cases h with
        | cons hne hv hvs =>
            rw [← List.map_take] at hv
            rw [← List.map_drop] at hvs
            rw [List.length_map] at hne
            exact .cons hne hv (ih.mp hvs)
      · intro h
        cases h with
        | cons hne hv hvs =>
            rw [List.map_take] at hv
            have hvs := ih.mpr hvs
            rw [List.map_drop] at hvs
            exact .cons (by rwa [List.length_map]) hv hvs

end Chunks

/-! ## The loops, chunk by chunk -/

section Loops

variable {k : KeyShape} {c : CrtMod}

/-- What `packLoop` makes of a list: one ciphertext for each chunk. -/
theorem packLoop_chunked {encrypt : ℤ → ℕ → ℤ} {xs : List ℤ} (i : ℕ)
    (hpack : ∀ j, ∃ pack, data_packing_crt (chunk j xs) c = .ok pack)
    (henc : ∀ pack i, Encrypts k pack (encrypt pack i)) :
    ∃ cs, packLoop encrypt c i xs = .ok cs ∧
      Chunked (fun ct ch => ∃ pack, data_packing_crt ch c = .ok pack ∧ Encrypts k pack ct)
        cs xs := by
  induction i, xs using packLoop.induct with
  | case1 i xs hlen =>
      refine ⟨[], ?_, ?_⟩
      · rw [packLoop, if_pos hlen]
      · rw [List.length_eq_zero_iff.mp hlen]
        exact .nil
  | case2 i xs hlen ih =>
      obtain ⟨⟨pack, hp⟩, hrest⟩ :=
        (forall_chunk_iff (A := fun ch => ∃ pack, data_packing_crt ch c = .ok pack) xs).mp hpack
      obtain ⟨cs, hcs, hch⟩ := ih hrest
      refine ⟨encrypt pack i :: cs, ?_, .cons hlen ⟨pack, hp, henc pack i⟩ hch⟩
      rw [packLoop, if_neg hlen]
      exact Fallible.bind_eq_ok.mpr ⟨pack, hp, Fallible.bind_eq_ok.mpr ⟨cs, hcs, rfl⟩⟩

theorem length_of_retrieve {dimension : ℕ} {n : ℤ} (hc : c.Usable dimension n) {v : ℤ}
    {size : ℕ} {nums : List ℤ} (h : data_retrieve_crt v c size = .ok nums) :
    nums.length = size := by
  unfold data_retrieve_crt at h
  split_ifs at h with hsize
  · injection h with h
    rw [← h, List.length_map, List.length_take, List.length_zip, hc.half_eq, List.length_map,
      hc.length_eq]
    omega

/-- The number of ciphertexts left matches the rest of the list. -/
theorem packDecryptLoop_rest {R : ℤ → List ℤ → Prop} {cs xs : List ℤ}
    (h : Chunked R cs (xs.drop CRT_MOD_MAX_DIMENSION)) (pub : PublicKey) (prv : SecretKey) :
    packDecryptLoop pub prv c cs (sizeSub xs.length CRT_MOD_MAX_DIMENSION) =
      packDecryptLoop pub prv c cs (xs.drop CRT_MOD_MAX_DIMENSION).length := by
  unfold sizeSub
  by_cases hlt : xs.length < CRT_MOD_MAX_DIMENSION
  · -- the size wraps around only behind the last chunk
    rw [List.drop_of_length_le hlt.le] at h
    cases h with
    | nil => rfl
    | cons hne _ _ => exact absurd rfl hne
  · rw [if_neg hlt, List.length_drop]

/-- **A list is read back when each of its chunks is.** -/
theorem packDecryptLoop_iff {dimension : ℕ} {n : ℤ} (hc : c.Usable dimension n)
    {R : ℤ → List ℤ → Prop} {cs xs : List ℤ} (h : Chunked R cs xs) (pub : PublicKey)
    (prv : SecretKey) :
    packDecryptLoop pub prv c cs xs.length = .ok xs ↔
      Chunked (fun ct ch =>
        data_retrieve_crt (opt_paillier_decrypt_crt pub prv ct) c ch.length = .ok ch) cs xs := by
  induction h with
  | nil =>
      constructor
      · intro _
        exact .nil
      · intro _
        rfl
  | @cons v vs xs hne hR hrest ih =>
      have hlen : (xs.take CRT_MOD_MAX_DIMENSION).length = min CRT_MOD_MAX_DIMENSION xs.length :=
        List.length_take
      rw [packDecryptLoop, Fallible.bind_eq_ok]
      constructor
      · rintro ⟨nums, hnums, hmore⟩
        obtain ⟨rest, hloop, heq⟩ := Fallible.bind_eq_ok.mp hmore
        injection heq with heq
        have hsplit : nums ++ rest =
            xs.take CRT_MOD_MAX_DIMENSION ++ xs.drop CRT_MOD_MAX_DIMENSION := by
          rw [List.take_append_drop]
          exact heq
        obtain ⟨htake, hdrop⟩ := List.append_inj hsplit
          ((length_of_retrieve hc hnums).trans hlen.symm)
        rw [packDecryptLoop_rest hrest, hdrop] at hloop
        rw [htake] at hnums
        refine .cons hne ?_ (ih.mp hloop)
        rw [hlen]
        exact hnums
      · intro hS
        cases hS with
        | cons _ hv hvs =>
            rw [hlen] at hv
            refine ⟨_, hv, Fallible.bind_eq_ok.mpr ⟨xs.drop CRT_MOD_MAX_DIMENSION, ?_, ?_⟩⟩
            · rw [packDecryptLoop_rest hrest]
              exact ih.mpr hvs
            · exact congrArg Except.ok (List.take_append_drop _ xs)

end Loops

/-! ## Encrypting and decrypting a list -/

/-- Moduli that are given can be used with the key; moduli that are drawn need a key of
2048 bits, the least that `mapTo_nbits_lbits` has. -/
def UsableChoice (k : KeyShape) (crt_mod : Option CrtMod) : Prop :=
  match crt_mod with
  | none => 2048 ≤ k.nbits
  | some crtmod => crtmod.Usable CRT_MOD_MAX_DIMENSION k.n

theorem two_pow_pow_le {a b e : ℕ} (h : a * b ≤ e) : (2 ^ a) ^ b ≤ 2 ^ e := by
  rw [← pow_mul]
  exact Nat.pow_le_pow_right (by norm_num) h

theorem usable_chosenMod {k : KeyShape} {crt_mod : Option CrtMod} (h : UsableChoice k crt_mod)
    (draw : Draw CRT_MOD_SIZE) : (chosenMod crt_mod draw).Usable CRT_MOD_MAX_DIMENSION k.n := by
  cases crt_mod with
  | some crtmod => exact h
  | none =>
      have hbits : 2048 ≤ k.nbits := h
      have hle : (2 ^ 73) ^ 28 ≤ 2 ^ (k.nbits / 2 + k.nbits / 2) := two_pow_pow_le (by omega)
      have hn : (((2 ^ 73) ^ 28 : ℕ) : ℤ) ≤ (k.n : ℤ) :=
        Nat.cast_le.mpr (le_trans hle k.two_pow_lt_n.le)
      push_cast at hn
      exact init_crt_usable draw hn

section Lists

variable {k : KeyShape} {c : CrtMod}

/-- A chunk that is packed and encrypted is read back unless it has half of a modulus. -/
theorem read_chunk_iff (hc : c.Usable CRT_MOD_MAX_DIMENSION k.n) {ct : ℤ} {ch : List ℤ}
    (hpack : ∃ pack, data_packing_crt ch c = .ok pack ∧ Encrypts k pack ct) (hch : c.Allows ch)
    (hlen : ch.length ≤ CRT_MOD_MAX_DIMENSION) :
    data_retrieve_crt (opt_paillier_decrypt_crt k.pub k.prv ct) c ch.length = .ok ch ↔
      c.AvoidsHalf ch := by
  obtain ⟨pack, hp, henc⟩ := hpack
  obtain ⟨pack', hp', hnonneg, hlt, hholds⟩ := data_packing_crt_holds hc hch.1
  obtain rfl : pack' = pack := by
    rw [hp'] at hp
    injection hp
  have hle := prod_take_le hc hlen
  rw [decrypt_crt_of_encrypts henc, Int.emod_eq_of_lt hnonneg (by omega)]
  exact retrieve_iff hc hholds hch

theorem pack_encrypt_chunked (hc : c.Usable CRT_MOD_MAX_DIMENSION k.n) {xs : List ℤ}
    (hlen : ∀ j, (chunk j xs).length ≤ c.crt_size) (rs : ℕ → Draw k.pub.lbits) :
    ∃ cs, packLoop (fun pack i => opt_paillier_encrypt k.pub pack (rs i)) c 0 xs = .ok cs ∧
      Chunked (fun ct ch => ∃ pack, data_packing_crt ch c = .ok pack ∧ Encrypts k pack ct)
        cs xs := by
  apply packLoop_chunked
  · intro j
    obtain ⟨pack, hpack, _⟩ := data_packing_crt_holds hc (hlen j)
    exact ⟨pack, hpack⟩
  · intro pack i
    exact encrypts_encrypt k pack (rs i)

end Lists

/-- Both wrappers that encrypt make the same pack. -/
theorem pack_encrypt_crt_eq (k : KeyShape) (xs : List ℤ) (crt_mod : Option CrtMod)
    (draw : Draw CRT_MOD_SIZE) (rs : ℕ → Draw k.pub.lbits) :
    opt_paillier_pack_encrypt_crt k.pub k.prv xs crt_mod draw rs =
      opt_paillier_pack_encrypt k.pub xs crt_mod draw rs := by
  unfold opt_paillier_pack_encrypt_crt opt_paillier_pack_encrypt
  have hsame : (fun pack i => opt_paillier_encrypt_crt k.pub k.prv pack (rs i)) =
      fun pack i => opt_paillier_encrypt k.pub pack (rs i) := by
    funext pack i
    exact k.encrypt_crt_eq pack (rs i)
  rw [hsame]

/-- When the pack of a list is read back. -/
theorem read_pack_iff {k : KeyShape} {crt_mod : Option CrtMod} (hmod : UsableChoice k crt_mod)
    (draw : Draw CRT_MOD_SIZE) {xs : List ℤ}
    (hrange : ∀ j, (chosenMod crt_mod draw).Allows (chunk j xs)) (rs : ℕ → Draw k.pub.lbits) :
    ∃ pc, opt_paillier_pack_encrypt k.pub xs crt_mod draw rs = .ok pc ∧
      (opt_paillier_pack_decrypt_crt k.pub k.prv pc = .ok xs ↔
        ∀ j, (chosenMod crt_mod draw).AvoidsHalf (chunk j xs)) := by
  have hc := usable_chosenMod hmod draw
  obtain ⟨cs, hcs, hch⟩ := pack_encrypt_chunked hc (fun j => (hrange j).1) rs
  refine ⟨_, Fallible.bind_eq_ok.mpr ⟨cs, hcs, rfl⟩, ?_⟩
  show packDecryptLoop k.pub k.prv (chosenMod crt_mod draw) cs xs.length = .ok xs ↔ _
  rw [packDecryptLoop_iff hc hch]
  have hall := (hch.and_forall hrange).and_forall
    (A := fun ch => ch.length ≤ CRT_MOD_MAX_DIMENSION) fun j => length_chunk_le j xs
  refine Chunked.iff_forall ?_ ?_ hall
  · intro p hp
    rw [List.zip_nil_right] at hp
    cases hp
  · rintro ct ch ⟨⟨hpack, hallows⟩, hlen⟩
    exact read_chunk_iff hc hpack hallows hlen

/-- **A list is packed, encrypted, decrypted and retrieved unchanged exactly when none of its
numbers is half of its modulus.** -/
theorem pack_decrypt_pack_encrypt (k : KeyShape) (crt_mod : Option CrtMod)
    (draw : Draw CRT_MOD_SIZE) (xs : List ℤ) (rs : ℕ → Draw k.pub.lbits)
    (hmod : UsableChoice k crt_mod)
    (hrange : ∀ j, (chosenMod crt_mod draw).Allows (chunk j xs)) :
    ∃ pc, opt_paillier_pack_encrypt k.pub xs crt_mod draw rs = .ok pc ∧
      opt_paillier_pack_encrypt_crt k.pub k.prv xs crt_mod draw rs = .ok pc ∧
      (opt_paillier_pack_decrypt_crt k.pub k.prv pc = .ok xs ↔
        ∀ j, (chosenMod crt_mod draw).AvoidsHalf (chunk j xs)) := by
  obtain ⟨pc, hpc, hread⟩ := read_pack_iff hmod draw hrange rs
  exact ⟨pc, hpc, by rw [pack_encrypt_crt_eq, hpc], hread⟩

/-- Two small moduli. -/
def smallMod : CrtMod where
  crt_half_mod := [3, 5]
  crt_mod := [7, 11]
  crt_size := 2
  mod_size := 2

theorem smallMod_usable : UsableChoice smallKey (some smallMod) where
  length_eq := rfl
  half_eq := by decide
  one_lt := by decide
  coprime := by
    refine List.pairwise_pair.mpr ?_
    exact_mod_cast Nat.isCoprime_iff_coprime.mpr (by norm_num : Nat.Coprime 7 11)
  below := by
    rw [← KeyShape.pub_n, smallKey_n]
    decide

theorem pack_decrypt_pack_encrypt_smallKey :
    ∃ pc, opt_paillier_pack_encrypt smallKey.pub [2, -5] (some smallMod) 0
        (fun _ => (1 : Fin 4)) = .ok pc ∧
      opt_paillier_pack_encrypt_crt smallKey.pub smallKey.prv [2, -5] (some smallMod) 0
        (fun _ => (1 : Fin 4)) = .ok pc ∧
      (opt_paillier_pack_decrypt_crt smallKey.pub smallKey.prv pc = .ok [2, -5] ↔
        ∀ j, smallMod.AvoidsHalf (chunk j [2, -5])) :=
  pack_decrypt_pack_encrypt smallKey (some smallMod) 0 [2, -5] (fun _ => (1 : Fin 4))
    smallMod_usable (forall_chunk_of_short (by decide) (by decide) (by decide))

/-- The list of half of a modulus is not read back. -/
theorem half_mod_misread :
    smallMod.Allows [3] ∧
      ∃ pc, opt_paillier_pack_encrypt smallKey.pub [3] (some smallMod) 0
          (fun _ => (1 : Fin 4)) = .ok pc ∧
        opt_paillier_pack_decrypt_crt smallKey.pub smallKey.prv pc ≠ .ok [3] := by
  have hallows : smallMod.Allows [3] := by decide
  have hrange : ∀ j, smallMod.Allows (chunk j [3]) :=
    forall_chunk_of_short (by decide) hallows (by decide)
  obtain ⟨pc, hpc, hread⟩ :=
    read_pack_iff smallMod_usable 0 hrange (fun _ => (1 : Fin 4))
  refine ⟨hallows, pc, hpc, fun h => ?_⟩
  have := hread.mp h 0 (7, 3) (by decide)
  norm_num at this

end Fediux.Paillier
