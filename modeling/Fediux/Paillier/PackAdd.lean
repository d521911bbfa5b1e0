import Fediux.Paillier.Pack

set_option autoImplicit false

/-! # Adding packed ciphertexts

`opt_paillier_pack_add` adds the ciphertexts of two packs one by one. The sum of two packed
numbers has the sums as residues as long as it stays below `n`; `sum_chunk_iff` says when a chunk
of sums is read from it, `pack_add_iff` when the whole list is.
-/

namespace Fediux.Paillier

/-- The sums of the pairs of a list. -/
def sums (zs : List (ℤ × ℤ)) : List ℤ := zs.map fun p => p.1 + p.2

theorem length_sums (zs : List (ℤ × ℤ)) : (sums zs).length = zs.length := List.length_map _

/-- The numbers that the two halves of a chunk of pairs are packed into, those below the product
of the moduli with the right residues, add up below `n`. With a product that is `n` itself, a sum
that wraps around has the same residues. -/
def Roomy (c : CrtMod) (n : ℤ) (zs : List (ℤ × ℤ)) : Prop :=
  ∀ v v', 0 ≤ v → v < (c.crt_mod.take zs.length).prod → c.Holds v (zs.map Prod.fst) →
    0 ≤ v' → v' < (c.crt_mod.take zs.length).prod → c.Holds v' (zs.map Prod.snd) →
      v + v' < n ∨ (c.crt_mod.take zs.length).prod = n

section Chunk

variable {k : KeyShape} {c : CrtMod}

/-- Sums of packed numbers hold the sums. -/
theorem holds_add {v v' : ℤ} {zs : List (ℤ × ℤ)} (h : c.Holds v (zs.map Prod.fst))
    (h' : c.Holds v' (zs.map Prod.snd)) : c.Holds (v + v') (sums zs) := by
  unfold CrtMod.Holds sums at *
  intro p hp
  rw [List.zip_map_right] at h h' hp
  obtain ⟨⟨m, z⟩, hmz, rfl⟩ := List.mem_map.mp hp
  exact (h (m, z.1) (List.mem_map.mpr ⟨(m, z), hmz, rfl⟩)).add
    (h' (m, z.2) (List.mem_map.mpr ⟨(m, z), hmz, rfl⟩))

/-- Residues modulo numbers that divide `n` do not change with a multiple of `n`. -/
theorem holds_sub {v n : ℤ} {seq : List ℤ} (h : c.Holds v seq)
    (hdvd : ∀ p ∈ c.crt_mod.zip seq, p.1 ∣ n) : c.Holds (v - n) seq := by
  intro p hp
  have h0 : n ≡ 0 [ZMOD p.1] := Int.modEq_zero_iff_dvd.mpr (hdvd p hp)
  calc v - n ≡ v - 0 [ZMOD p.1] := h0.sub_left v
    _ = v := sub_zero v
    _ ≡ p.2 [ZMOD p.1] := h p hp

/-- The number below the product of the moduli that has the residues of a list is unique. -/
theorem holds_unique {dimension : ℕ} {n : ℤ} (hc : c.Usable dimension n) {v v' : ℤ}
    {seq : List ℤ} (hlen : seq.length ≤ c.crt_size)
    (hv : 0 ≤ v ∧ v < (c.crt_mod.take seq.length).prod) (h : c.Holds v seq)
    (hv' : 0 ≤ v' ∧ v' < (c.crt_mod.take seq.length).prod) (h' : c.Holds v' seq) : v = v' := by
  obtain ⟨_, hfst⟩ := take_zip hc hlen
  obtain ⟨hcop, hmod⟩ := coprimes_of_fst hc hfst
  have hdvd : ∀ p ∈ c.crt_mod.zip seq, p.1 ∣ v' - v := fun p hp =>
    ((h p hp).trans (h' p hp).symm).dvd
  have hprod := Residue.modulus_dvd hcop hdvd
  rw [hmod] at hprod
  have hmodEq : v ≡ v' [ZMOD (c.crt_mod.take seq.length).prod] := Int.modEq_iff_dvd.mpr hprod
  calc v = v % (c.crt_mod.take seq.length).prod := (Int.emod_eq_of_lt hv.1 hv.2).symm
    _ = v' % (c.crt_mod.take seq.length).prod := hmodEq
    _ = v' := Int.emod_eq_of_lt hv'.1 hv'.2

/-- What two lists of residues differ by goes through the moduli. -/
theorem dvd_of_holds_sub {v n : ℤ} {seq : List ℤ} (h : c.Holds v seq)
    (h' : c.Holds (v - n) seq) : ∀ p ∈ c.crt_mod.zip seq, p.1 ∣ n := by
  intro p hp
  have hdiff := (h' p hp).trans (h p hp).symm
  rw [Int.modEq_iff_dvd, sub_sub_cancel] at hdiff
  exact hdiff

/-- Of a number there is only one multiple that is positive and less than twice as large. -/
theorem eq_of_dvd_of_lt_two_mul {a b : ℤ} (hdvd : a ∣ b) (ha : 0 < a) (hb : 0 < b)
    (hlt : b < 2 * a) : a = b := by
  obtain ⟨e, rfl⟩ := hdvd
  have hlow : 0 < e := pos_of_mul_pos_right hb ha.le
  have hhigh : e < 2 := by
    by_contra hbig
    have hmul := mul_le_mul_of_nonneg_left (not_lt.mp hbig) ha.le
    omega
  have he : e = 1 := by omega
  rw [he, mul_one]

/-- There is room for the sum of two lists when the numbers they are packed into have room. -/
theorem roomy_iff (hc : c.Usable CRT_MOD_MAX_DIMENSION k.n) {zs : List (ℤ × ℤ)} {v v' : ℤ}
    (hsize : zs.length ≤ c.crt_size)
    (hv : 0 ≤ v ∧ v < (c.crt_mod.take zs.length).prod) (hh : c.Holds v (zs.map Prod.fst))
    (hv' : 0 ≤ v' ∧ v' < (c.crt_mod.take zs.length).prod) (hh' : c.Holds v' (zs.map Prod.snd)) :
    Roomy c k.n zs ↔ v + v' < k.n ∨ (c.crt_mod.take zs.length).prod = k.n := by
  constructor
  · intro h
    exact h v v' hv.1 hv.2 hh hv'.1 hv'.2 hh'
  · intro h u u' hu0 hult hu hu0' hult' hu'
    have hfst : u = v := holds_unique hc (by rwa [List.length_map])
      (by rw [List.length_map]; exact ⟨hu0, hult⟩) hu (by rwa [List.length_map]) hh
    have hsnd : u' = v' := holds_unique hc (by rwa [List.length_map])
      (by rw [List.length_map]; exact ⟨hu0', hult'⟩) hu' (by rwa [List.length_map]) hh'
    rwa [hfst, hsnd]

/-- **When the sums of a chunk are read from the sum of two packs.** -/
theorem sum_chunk_iff (hc : c.Usable CRT_MOD_MAX_DIMENSION k.n) {ct : ℤ} {zs : List (ℤ × ℤ)}
    {v v' : ℤ} (hv : data_packing_crt (zs.map Prod.fst) c = .ok v)
    (hv' : data_packing_crt (zs.map Prod.snd) c = .ok v') (henc : Encrypts k (v + v') ct)
    (hsum : c.Allows (sums zs)) (hlen : zs.length ≤ CRT_MOD_MAX_DIMENSION) :
    data_retrieve_crt (opt_paillier_decrypt_crt k.pub k.prv ct) c (sums zs).length =
        .ok (sums zs) ↔
      c.AvoidsHalf (sums zs) ∧ Roomy c k.n zs := by
  have hsize : zs.length ≤ c.crt_size := by
    rw [← length_sums]
    exact hsum.1
  have hfstLen : (zs.map Prod.fst).length ≤ c.crt_size := by rwa [List.length_map]
  have hsndLen : (zs.map Prod.snd).length ≤ c.crt_size := by rwa [List.length_map]
  obtain ⟨w, hw, hw0, hwlt, hwh⟩ := data_packing_crt_holds hc hfstLen
  obtain ⟨w', hw', hw0', hwlt', hwh'⟩ := data_packing_crt_holds hc hsndLen
  obtain rfl : w = v := by
    rw [hw] at hv
    injection hv
  obtain rfl : w' = v' := by
    rw [hw'] at hv'
    injection hv'
  rw [List.length_map] at hwlt hwlt'
  have hle := prod_take_le hc hlen
  have hholds := holds_add hwh hwh'
  obtain ⟨_, hfst⟩ := take_zip hc hsum.1
  obtain ⟨hcop, hmod⟩ := coprimes_of_fst hc hfst
  rw [length_sums] at hmod
  rw [decrypt_crt_of_encrypts henc, roomy_iff hc hsize ⟨hw0, hwlt⟩ hwh ⟨hw0', hwlt'⟩ hwh']
  by_cases hlt : w + w' < k.n
  · rw [Int.emod_eq_of_lt (by omega) hlt, retrieve_iff hc hholds hsum]
    exact ⟨fun h => ⟨h, Or.inl hlt⟩, And.left⟩
  · -- the sum wraps around once
    have hwrap : (w + w') % k.n = w + w' - k.n := by
      rw [← Int.sub_emod_right, Int.emod_eq_of_lt (by omega) (by omega)]
    rw [hwrap]
    constructor
    · intro hread
      have hback := holds_of_retrieve hc hsum.1 hread
      have hdvd := Residue.modulus_dvd hcop (dvd_of_holds_sub hholds hback)
      rw [hmod] at hdvd
      -- `n` is less than twice the product, so it is the product
      have hprod := eq_of_dvd_of_lt_two_mul hdvd (by omega) k.n_pos (by omega)
      exact ⟨(retrieve_iff hc hback hsum).mp hread, Or.inr hprod⟩
    · rintro ⟨havoid, hcase⟩
      rcases hcase with hcase | hprod
      · exact absurd hcase hlt
      · have hdvd : ∀ p ∈ c.crt_mod.zip (sums zs), p.1 ∣ (k.n : ℤ) := by
          intro p hp
          have := Residue.dvd_modulus hp
          rwa [hmod, hprod] at this
        exact (retrieve_iff hc (holds_sub hholds hdvd) hsum).mpr havoid

end Chunk

/-! ## The whole list -/

section Lists

variable {k : KeyShape} {c : CrtMod}

/-- A pack that one of the two encrypting wrappers made of a list. -/
def PackEncrypts (k : KeyShape) (plain_texts : List ℤ) (crt_mod : Option CrtMod)
    (draw : Draw CRT_MOD_SIZE) (rs : ℕ → Draw k.pub.lbits) (pc : PackCiphertext) : Prop :=
  opt_paillier_pack_encrypt k.pub plain_texts crt_mod draw rs = .ok pc ∨
    opt_paillier_pack_encrypt_crt k.pub k.prv plain_texts crt_mod draw rs = .ok pc

theorem PackEncrypts.packLoop_eq {xs : List ℤ} {crt_mod : Option CrtMod}
    {draw : Draw CRT_MOD_SIZE} {rs : ℕ → Draw k.pub.lbits} {pc : PackCiphertext}
    (h : PackEncrypts k xs crt_mod draw rs pc) :
    packLoop (fun pack i => opt_paillier_encrypt k.pub pack (rs i)) (chosenMod crt_mod draw) 0 xs =
        .ok pc.ciphertexts ∧
      pc.pack_size = xs.length ∧ pc.crtMod = chosenMod crt_mod draw := by
  have hpc : opt_paillier_pack_encrypt k.pub xs crt_mod draw rs = .ok pc := by
    rcases h with h | h
    · exact h
    · rwa [pack_encrypt_crt_eq] at h
  obtain ⟨cs, hcs, heq⟩ := Fallible.bind_eq_ok.mp hpc
  injection heq with heq
  rw [← heq]
  exact ⟨hcs, rfl, rfl⟩

/-- Adding two packs chunk by chunk gives ciphertexts of the sums of the packed numbers. -/
theorem packAddLoop_chunked {cs cs' : List ℤ} {zs : List (ℤ × ℤ)}
    (h : Chunked (fun ct ch => ∃ pack, data_packing_crt (ch.map Prod.fst) c = .ok pack ∧
      Encrypts k pack ct) cs zs)
    (h' : Chunked (fun ct ch => ∃ pack, data_packing_crt (ch.map Prod.snd) c = .ok pack ∧
      Encrypts k pack ct) cs' zs) :
    ∃ ds, packAddLoop k.pub cs cs' = .ok ds ∧
      Chunked (fun ct ch => ∃ v v', data_packing_crt (ch.map Prod.fst) c = .ok v ∧
        data_packing_crt (ch.map Prod.snd) c = .ok v' ∧ Encrypts k (v + v') ct) ds zs := by
  induction h generalizing cs' with
  | nil => exact ⟨[], rfl, .nil⟩
  | @cons ct cts zs hne hR _ ih =>
      cases h' with
      | nil => exact absurd rfl hne
      | @cons ct' cts' _ _ hR' hrest' =>
          obtain ⟨v, hv, henc⟩ := hR
          obtain ⟨v', hv', henc'⟩ := hR'
          obtain ⟨ds, hds, hch⟩ := ih hrest'
          refine ⟨opt_paillier_add ct ct' k.pub :: ds, ?_,
            .cons hne ⟨v, v', hv, hv', encrypts_add henc henc'⟩ hch⟩
          rw [packAddLoop, hds]
          rfl

/-- Moduli that are drawn leave room for a sum. -/
theorem roomy_drawn (hbits : 2048 ≤ k.nbits) (draw : Draw CRT_MOD_SIZE) {zs : List (ℤ × ℤ)}
    (hlen : zs.length ≤ CRT_MOD_MAX_DIMENSION) : Roomy (chosenMod none draw) k.n zs := by
  have hc : (chosenMod none draw).Usable CRT_MOD_MAX_DIMENSION ((2 ^ 73) ^ 28) :=
    init_crt_usable draw le_rfl
  have hle := prod_take_le hc hlen
  have hpow : (2 ^ 73) ^ 28 * 2 ≤ 2 ^ (k.nbits / 2 + k.nbits / 2) := by
    obtain ⟨e, he⟩ : ∃ e, k.nbits / 2 + k.nbits / 2 = e + 1 :=
      ⟨k.nbits / 2 + k.nbits / 2 - 1, by omega⟩
    have hpow : (2 ^ 73) ^ 28 ≤ 2 ^ e := two_pow_pow_le (by omega)
    rw [he, pow_succ]
    exact Nat.mul_le_mul_right 2 hpow
  have hn : (((2 ^ 73) ^ 28 * 2 : ℕ) : ℤ) ≤ (k.n : ℤ) :=
    Nat.cast_le.mpr (le_trans hpow k.two_pow_lt_n.le)
  push_cast at hn
  intro v v' _ hv _ _ hv' _
  left
  omega

/-- When the sums are read from the sum of two packs. -/
theorem read_sums_iff {zs : List (ℤ × ℤ)} (hc : c.Usable CRT_MOD_MAX_DIMENSION k.n)
    (hrange : ∀ j, c.Allows (chunk j (sums zs))) {cs cs' : List ℤ} {rs rs' : ℕ → Draw k.pub.lbits}
    (hcs : packLoop (fun pack i => opt_paillier_encrypt k.pub pack (rs i)) c 0
      (zs.map Prod.fst) = .ok cs)
    (hcs' : packLoop (fun pack i => opt_paillier_encrypt k.pub pack (rs' i)) c 0
      (zs.map Prod.snd) = .ok cs') :
    ∃ ds, packAddLoop k.pub cs cs' = .ok ds ∧
      (packDecryptLoop k.pub k.prv c ds (sums zs).length = .ok (sums zs) ↔
        ∀ j, c.AvoidsHalf (chunk j (sums zs)) ∧ Roomy c k.n (chunk j zs)) := by
  have hsize : ∀ (f : ℤ × ℤ → ℤ) (j : ℕ), (chunk j (zs.map f)).length ≤ c.crt_size := by
    intro f j
    have hlen := (hrange j).1
    rw [sums, chunk_map, List.length_map] at hlen
    rwa [chunk_map, List.length_map]
  obtain ⟨ws, hws, hch⟩ := pack_encrypt_chunked hc (hsize Prod.fst) rs
  obtain rfl : ws = cs := by
    rw [hws] at hcs
    injection hcs
  obtain ⟨ws', hws', hch'⟩ := pack_encrypt_chunked hc (hsize Prod.snd) rs'
  obtain rfl : ws' = cs' := by
    rw [hws'] at hcs'
    injection hcs'
  rw [chunked_map_iff] at hch hch'
  obtain ⟨ds, hds, hsum⟩ := packAddLoop_chunked hch hch'
  refine ⟨ds, hds, ?_⟩
  have hmap : Chunked (fun ct ch => ∃ zs' : List (ℤ × ℤ), ch = sums zs' ∧ ∃ v v',
      data_packing_crt (zs'.map Prod.fst) c = .ok v ∧
        data_packing_crt (zs'.map Prod.snd) c = .ok v' ∧ Encrypts k (v + v') ct) ds (sums zs) :=
    chunked_map_iff _ |>.mpr (hsum.mono fun ct ch h => ⟨ch, rfl, h⟩)
  rw [packDecryptLoop_iff hc hmap]
  unfold sums
  rw [chunked_map_iff]
  have hshort : ∀ j, c.Allows (sums (chunk j zs)) ∧
      (chunk j zs).length ≤ CRT_MOD_MAX_DIMENSION := by
    intro j
    have := hrange j
    rw [sums, chunk_map] at this
    exact ⟨this, length_chunk_le j zs⟩
  have hall := hsum.and_forall
    (A := fun ch => c.Allows (sums ch) ∧ ch.length ≤ CRT_MOD_MAX_DIMENSION) hshort
  have hiff := hall.iff_forall (A := fun ch => c.AvoidsHalf (sums ch) ∧ Roomy c k.n ch)
    (S := fun ct ch => data_retrieve_crt (opt_paillier_decrypt_crt k.pub k.prv ct) c
      (sums ch).length = .ok (sums ch)) ?_ ?_
  · rw [show (∀ j, c.AvoidsHalf (chunk j (zs.map fun p => p.1 + p.2)) ∧ Roomy c k.n (chunk j zs)) ↔
      ∀ j, c.AvoidsHalf (sums (chunk j zs)) ∧ Roomy c k.n (chunk j zs) from by
        simp only [chunk_map, sums]]
    exact hiff
  · refine ⟨fun p hp => ?_, fun v v' hv0 hv _ hv0' hv' _ => ?_⟩
    · rw [sums, List.map_nil, List.zip_nil_right] at hp
      cases hp
    · have hn := k.n_pos
      have hone : (c.crt_mod.take ([] : List (ℤ × ℤ)).length).prod = 1 := rfl
      omega
  · rintro ct ch ⟨⟨v, v', hv, hv', henc⟩, hallows, hlen⟩
    exact sum_chunk_iff hc hv hv' henc hallows hlen

end Lists

/-- When the sums are read from the sum of two packs with the same moduli. -/
theorem read_pack_add_iff {k : KeyShape} {crt_mod crt_mod' : Option CrtMod}
    {draw draw' : Draw CRT_MOD_SIZE} {xs ys : List ℤ} {rs rs' : ℕ → Draw k.pub.lbits}
    {pc pc' : PackCiphertext} (hpc : PackEncrypts k xs crt_mod draw rs pc)
    (hpc' : PackEncrypts k ys crt_mod' draw' rs' pc') (hmod : UsableChoice k crt_mod)
    (hlen : xs.length = ys.length) (hsame : chosenMod crt_mod draw = chosenMod crt_mod' draw')
    (hrange : ∀ j, (chosenMod crt_mod draw).Allows (chunk j (sums (xs.zip ys)))) :
    ∃ pc'', opt_paillier_pack_add k.pub pc pc' = .ok pc'' ∧
      (opt_paillier_pack_decrypt_crt k.pub k.prv pc'' = .ok (sums (xs.zip ys)) ↔
        ∀ j, (chosenMod crt_mod draw).AvoidsHalf (chunk j (sums (xs.zip ys))) ∧
          Roomy (chosenMod crt_mod draw) k.n (chunk j (xs.zip ys))) := by
  obtain ⟨hloop, hsize, hcrt⟩ := hpc.packLoop_eq
  obtain ⟨hloop', hsize', hcrt'⟩ := hpc'.packLoop_eq
  have hfst : (xs.zip ys).map Prod.fst = xs := List.map_fst_zip hlen.le
  have hsnd : (xs.zip ys).map Prod.snd = ys := List.map_snd_zip hlen.ge
  rw [← hsame] at hloop'
  obtain ⟨ds, hds, hread⟩ := read_sums_iff (usable_chosenMod hmod draw) hrange
    (hfst.symm ▸ hloop) (hsnd.symm ▸ hloop')
  refine ⟨⟨ds, pc.pack_size, pc.crtMod⟩, ?_, ?_⟩
  · unfold opt_paillier_pack_add opt_paillier_pack_add_warpper
    rw [hsize, hsize', hcrt, hcrt', if_neg (not_not.mpr hlen), if_neg (not_not.mpr hsame), hds]
    rfl
  · have hlensum : (sums (xs.zip ys)).length = xs.length := by
      rw [length_sums, List.length_zip, hlen, min_self]
    rw [← hread, hlensum]
    show packDecryptLoop k.pub k.prv pc.crtMod ds pc.pack_size = _ ↔ _
    rw [hsize, hcrt]

/-- **Adding two packs reports different sizes and different moduli, and otherwise gives the sums
exactly when none is half of its modulus and the packed numbers have room.** -/
theorem pack_add_iff (k : KeyShape) (crt_mod crt_mod' : Option CrtMod)
    (draw draw' : Draw CRT_MOD_SIZE) (xs ys : List ℤ) (rs rs' : ℕ → Draw k.pub.lbits)
    (pc pc' : PackCiphertext) (hpc : PackEncrypts k xs crt_mod draw rs pc)
    (hpc' : PackEncrypts k ys crt_mod' draw' rs' pc') :
    (xs.length ≠ ys.length ∨ chosenMod crt_mod draw ≠ chosenMod crt_mod' draw' →
      ∃ e, opt_paillier_pack_add k.pub pc pc' = .error e) ∧
    (UsableChoice k crt_mod → xs.length = ys.length →
      chosenMod crt_mod draw = chosenMod crt_mod' draw' →
      (∀ j, (chosenMod crt_mod draw).Allows (chunk j (sums (xs.zip ys)))) →
      ∃ pc'', opt_paillier_pack_add k.pub pc pc' = .ok pc'' ∧
        (opt_paillier_pack_decrypt_crt k.pub k.prv pc'' = .ok (sums (xs.zip ys)) ↔
          ∀ j, (chosenMod crt_mod draw).AvoidsHalf (chunk j (sums (xs.zip ys))) ∧
            Roomy (chosenMod crt_mod draw) k.n (chunk j (xs.zip ys)))) := by
  refine ⟨?_, fun hmod hlen hsame hrange => read_pack_add_iff hpc hpc' hmod hlen hsame hrange⟩
  intro hdiff
  obtain ⟨_, hsize, hcrt⟩ := hpc.packLoop_eq
  obtain ⟨_, hsize', hcrt'⟩ := hpc'.packLoop_eq
  unfold opt_paillier_pack_add
  rw [hsize, hsize', hcrt, hcrt']
  by_cases hlen : xs.length = ys.length
  · rcases hdiff with hdiff | hdiff
    · exact absurd hlen hdiff
    · rw [if_neg (not_not.mpr hlen), if_pos hdiff]
      exact ⟨_, rfl⟩
  · rw [if_pos hlen]
    exact ⟨_, rfl⟩

/-- Short lists are packed under the small moduli. -/
theorem packEncrypts_smallMod (xs : List ℤ) (hlen : xs.length ≤ 2) :
    ∃ pc, PackEncrypts smallKey xs (some smallMod) 0 (fun _ => (1 : Fin 4)) pc := by
  have hsize : ∀ j, (chunk j xs).length ≤ smallMod.crt_size :=
    forall_chunk_of_short (A := fun ch => ch.length ≤ smallMod.crt_size)
      (le_trans hlen (by decide)) hlen (by decide)
  obtain ⟨cs, hcs, _⟩ :=
    pack_encrypt_chunked (k := smallKey) smallMod_usable hsize (fun _ => (1 : Fin 4))
  exact ⟨_, Or.inl (Fallible.bind_eq_ok.mpr ⟨cs, hcs, rfl⟩)⟩

theorem pack_add_iff_smallKey :
    ∃ pc pc' pc'', PackEncrypts smallKey [1, -2] (some smallMod) 0 (fun _ => (1 : Fin 4)) pc ∧
      PackEncrypts smallKey [1, -3] (some smallMod) 0 (fun _ => (1 : Fin 4)) pc' ∧
      opt_paillier_pack_add smallKey.pub pc pc' = .ok pc'' ∧
      (opt_paillier_pack_decrypt_crt smallKey.pub smallKey.prv pc'' = .ok [2, -5] ↔
        ∀ j, smallMod.AvoidsHalf (chunk j [2, -5]) ∧
          Roomy smallMod smallKey.n (chunk j [(1, 1), (-2, -3)])) := by
  obtain ⟨pc, hpc⟩ := packEncrypts_smallMod [1, -2] (by decide)
  obtain ⟨pc', hpc'⟩ := packEncrypts_smallMod [1, -3] (by decide)
  obtain ⟨pc'', hadd, hread⟩ := (pack_add_iff smallKey (some smallMod) (some smallMod) 0 0 [1, -2]
    [1, -3] _ _ pc pc' hpc hpc').2 smallMod_usable rfl rfl
      (forall_chunk_of_short (by decide) (by decide) (by decide))
  exact ⟨pc, pc', pc'', hpc, hpc', hadd, hread⟩

/-- The sum of two packs that is half of a modulus is not read back. -/
theorem half_sum_misread :
    smallMod.Allows [1 + 2] ∧
      ∃ pc pc' pc'', PackEncrypts smallKey [1] (some smallMod) 0 (fun _ => (1 : Fin 4)) pc ∧
        PackEncrypts smallKey [2] (some smallMod) 0 (fun _ => (1 : Fin 4)) pc' ∧
        opt_paillier_pack_add smallKey.pub pc pc' = .ok pc'' ∧
        opt_paillier_pack_decrypt_crt smallKey.pub smallKey.prv pc'' ≠ .ok [1 + 2] := by
  have hallows : smallMod.Allows [1 + 2] := by decide
  obtain ⟨pc, hpc⟩ := packEncrypts_smallMod [1] (by decide)
  obtain ⟨pc', hpc'⟩ := packEncrypts_smallMod [2] (by decide)
  obtain ⟨pc'', hadd, hread⟩ := read_pack_add_iff hpc hpc' smallMod_usable rfl rfl
    (forall_chunk_of_short (by decide) hallows (by decide))
  refine ⟨hallows, pc, pc', pc'', hpc, hpc', hadd, fun h => ?_⟩
  have := (hread.mp h 0).1 (7, 3) (by decide)
  norm_num at this

end Fediux.Paillier
