import Fediux.Hfl.Rounds

set_option autoImplicit false

/-! # The global model under Paillier

`client_model_aggregate` of `Plaintext_DPSGD_Server` and of `Paillier_Server` on the same client
models. The first one weights the models with the sizes of the clients, the second one does not.
-/

namespace Fediux.Hfl

/-- Additively homomorphic encryption, taken as exact. -/
structure Scheme (K : Type) [Field K] where
  Cipher : Type
  encrypt : K → Cipher
  decrypt : Cipher → K
  zero : Cipher
  add : Cipher → Cipher → Cipher
  mul : Cipher → K → Cipher
  decrypt_encrypt : ∀ v, decrypt (encrypt v) = v
  decrypt_zero : decrypt zero = 0
  decrypt_add : ∀ a b, decrypt (add a b) = decrypt a + decrypt b
  decrypt_mul : ∀ a v, decrypt (mul a v) = decrypt a * v

section

variable {K : Type} [Field K] {ι : Type}

namespace Scheme

variable (E : Scheme K)

/-- `np.mean(recv_models, axis=0)`. -/
def mean (recv_models : List (ι → E.Cipher)) : ι → E.Cipher :=
  fun c => E.mul ((recv_models.map fun m => m c).foldr E.add E.zero) (1 / recv_models.length)

/-- `client_model_aggregate` of `Paillier_Server`: the mean, encrypted anew. -/
def client_model_aggregate (recv_models : List (ι → E.Cipher)) : ι → E.Cipher :=
  fun c => E.encrypt (E.decrypt (E.mean recv_models c))

def decryptModel (m : ι → E.Cipher) : ι → K := fun c => E.decrypt (m c)

theorem decrypt_foldr (cs : List E.Cipher) :
    E.decrypt (cs.foldr E.add E.zero) = (cs.map E.decrypt).sum := by
  induction cs with
  | nil => exact E.decrypt_zero
  | cons a cs ih => rw [List.foldr_cons, E.decrypt_add, ih, List.map_cons, List.sum_cons]

/-- The broadcast decrypts to the mean of the decrypted models. -/
theorem decryptModel_aggregate (recv_models : List (ι → E.Cipher)) :
    E.decryptModel (E.client_model_aggregate recv_models) =
      meanModel (recv_models.map E.decryptModel) := by
  funext c
  rw [decryptModel, client_model_aggregate, E.decrypt_encrypt, mean, E.decrypt_mul,
    E.decrypt_foldr, meanModel, List.map_map, List.map_map, List.length_map, mul_one_div]
  rfl

end Scheme

theorem meanModel_finRange {N : ℕ} (m : Fin N → ι → K) (c : ι) :
    meanModel ((List.finRange N).map m) c = (∑ j, m j c) / N := by
  rw [meanModel, List.map_map, List.length_map, List.length_finRange, Fin.sum_univ_def]
  rfl

theorem averageModel_finRange (weights : List ℕ) (m : Fin weights.length → ι → K) (c : ι) :
    averageModel weights ((List.finRange weights.length).map m) c =
      (∑ j, (weights.get j : K) * m j c) / (weights.sum : ℕ) := by
  rw [← average_finRange, averageModel, List.map_map]
  rfl

end

section Rounds

variable {K : Type} [Field K] [LinearOrder K] [IsStrictOrderedRing K] {d : ℕ}
  (Z : Sizes) (E : Scheme K)

/-- The models the clients of a round send. -/
abbrev RoundModels (Z : Sizes) (features : ℕ) (V : Type) :=
  Fin Z.num_examples.length → Option (Fin features) × Fin 1 → V

/-- In every round the broadcast of the Paillier server decrypts to that of the plaintext server
for the decrypted models. -/
def SameBroadcasts (rounds : List (RoundModels Z d E.Cipher)) : Prop :=
  rounds.map (fun m => E.decryptModel (E.client_model_aggregate ((List.finRange _).map m))) =
    rounds.map fun m =>
      averageModel Z.num_examples ((List.finRange _).map fun j => E.decryptModel (m j))

/-- The clients' deviations from the mean size cancel in each coordinate of their models. -/
def Balanced (m : RoundModels Z d K) : Prop :=
  ∀ c, ∑ j, ((Z.num_examples.length : K) * (Z.num_examples.get j : K) -
    (Z.num_examples.sum : ℕ)) * m j c = 0

theorem mean_eq_average_iff (m : RoundModels Z d K) :
    meanModel ((List.finRange _).map m) =
        averageModel Z.num_examples ((List.finRange _).map m) ↔ Balanced Z m := by
  have hN : ((Z.num_examples.length : ℕ) : K) ≠ 0 :=
    Nat.cast_ne_zero.mpr fun h => Z.nonempty (List.length_eq_zero_iff.mp h)
  have hT : ((Z.num_examples.sum : ℕ) : K) ≠ 0 := Z.sum_cast_ne_zero
  rw [funext_iff, Balanced]
  refine forall_congr' fun c => ?_
  rw [meanModel_finRange, averageModel_finRange, div_eq_div_iff hN hT, eq_comm, ← sub_eq_zero]
  have hsum : (∑ j, (Z.num_examples.get j : K) * m j c) * (Z.num_examples.length : ℕ) -
      (∑ j, m j c) * (Z.num_examples.sum : ℕ) =
        ∑ j, ((Z.num_examples.length : K) * (Z.num_examples.get j : K) -
          (Z.num_examples.sum : ℕ)) * m j c := by
    rw [Finset.sum_mul, Finset.sum_mul, ← Finset.sum_sub_distrib]
    refine Finset.sum_congr rfl fun j _ => ?_
    ring
  rw [hsum]

theorem sameBroadcasts_iff_balanced (rounds : List (RoundModels Z d E.Cipher)) :
    SameBroadcasts Z E rounds ↔ ∀ m ∈ rounds, Balanced Z fun j => E.decryptModel (m j) := by
  rw [SameBroadcasts, List.map_inj_left]
  refine forall₂_congr fun m _ => ?_
  rw [E.decryptModel_aggregate, List.map_map]
  exact mean_eq_average_iff Z fun j => E.decryptModel (m j)

/-- With equal sizes every model is balanced, and otherwise the model of one client alone is
not. -/
theorem balanced_forall_iff :
    (∀ m : RoundModels Z d K, Balanced Z m) ↔
      ∀ i j, Z.num_examples.get i = Z.num_examples.get j := by
  have hsum : (Z.num_examples.sum : ℕ) = ∑ j, Z.num_examples.get j :=
    (sum_getElem Z.num_examples).symm
  constructor
  · intro hall
    have hmean : ∀ i, Z.num_examples.length * Z.num_examples.get i = Z.num_examples.sum := by
      intro i
      have hc := hall (fun j _ => if j = i then 1 else 0) (none, 0)
      simp only [mul_ite, mul_one, mul_zero, Finset.sum_ite_eq', Finset.mem_univ, if_true,
        sub_eq_zero] at hc
      exact_mod_cast hc
    intro i j
    have hN : 0 < Z.num_examples.length := List.length_pos_of_ne_nil Z.nonempty
    exact Nat.eq_of_mul_eq_mul_left hN ((hmean i).trans (hmean j).symm)
  · intro hsame m c
    refine Finset.sum_eq_zero fun j _ => ?_
    have htotal : Z.num_examples.sum = Z.num_examples.length * Z.num_examples.get j := by
      rw [hsum, Finset.sum_congr rfl fun i _ => hsame i j]
      simp
    rw [htotal, Nat.cast_mul, sub_self, zero_mul]

/-- **The broadcasts are the same just when the models of each round are balanced; they are so for
all models just when all clients have equally many examples.** -/
theorem sameBroadcasts_iff :
    (∀ rounds : List (RoundModels Z d E.Cipher),
      SameBroadcasts Z E rounds ↔ ∀ m ∈ rounds, Balanced Z fun j => E.decryptModel (m j)) ∧
    ((∀ rounds : List (RoundModels Z d E.Cipher), SameBroadcasts Z E rounds) ↔
      ∀ i j, Z.num_examples.get i = Z.num_examples.get j) := by
  refine ⟨sameBroadcasts_iff_balanced Z E, ?_⟩
  rw [← balanced_forall_iff (K := K) (d := d) Z]
  constructor
  · intro hall m
    have hround := (sameBroadcasts_iff_balanced Z E [fun j c => E.encrypt (m j c)]).mp (hall _)
      _ (List.mem_singleton.mpr rfl)
    have hm : (fun j => E.decryptModel fun c => E.encrypt (m j c)) = m := by
      funext j c
      exact E.decrypt_encrypt _
    rwa [hm] at hround
  · intro hall rounds
    exact (sameBroadcasts_iff_balanced Z E rounds).mpr fun m _ => hall _

end Rounds

/-- A scheme that hides nothing. -/
def Scheme.trivial (K : Type) [Field K] : Scheme K where
  Cipher := K
  encrypt := id
  decrypt := id
  zero := 0
  add := (· + ·)
  mul := (· * ·)
  decrypt_encrypt := fun _ => rfl
  decrypt_zero := rfl
  decrypt_add := fun _ _ => rfl
  decrypt_mul := fun _ _ => rfl

/-- Clients with two examples each. -/
theorem sameBroadcasts_two_two :
    SameBroadcasts (d := 0) ⟨[2, 2], by decide, by decide⟩ (Scheme.trivial ℚ)
      [fun j _ => if j.val = 0 then (0 : ℚ) else (4 : ℚ)] :=
  (sameBroadcasts_iff _ _).2.mpr (by decide) _

/-- Clients with one and with three examples, whose models are the biases 0 and 4: the mean is 2,
the weighted average 3. -/
theorem not_sameBroadcasts_one_three :
    ¬ SameBroadcasts (d := 0) ⟨[1, 3], by decide, by decide⟩ (Scheme.trivial ℚ)
      [fun j _ => if j.val = 0 then (0 : ℚ) else (4 : ℚ)] := by
  intro hsame
  have hround := (sameBroadcasts_iff_balanced _ _ _).mp hsame _ (List.mem_singleton.mpr rfl)
    (none, 0)
  have hsum : ∑ j : Fin 2, ((2 : ℚ) * (([1, 3].get j : ℕ) : ℚ) - ([1, 3].sum : ℕ)) *
      (if j.val = 0 then (0 : ℚ) else 4) = 0 := hround
  rw [Fin.sum_univ_two] at hsum
  norm_num at hsum

end Fediux.Hfl
