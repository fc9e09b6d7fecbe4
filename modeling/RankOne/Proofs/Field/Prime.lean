import RankOne.Field
import Mathlib.NumberTheory.LucasPrimality
import Mathlib.Tactic.NormNum.Prime
import Mathlib.Tactic.ReduceModChar

/-! The order of the field is prime. The proof exhibits a generator of the multiplicative group
for the order, and again for each large prime factor met on the way down. -/
namespace RankOne

/-- An element whose order is the full `p - 1` makes `p` a prime. The factorization of `p - 1`
is a list of primes with their exponents. -/
theorem prime_of_generator {p : ℕ} (g : ZMod p) (factors : List (ℕ × ℕ))
    (primes : ∀ f ∈ factors, f.1.Prime)
    (product : (factors.map fun f => f.1 ^ f.2).prod = p - 1)
    (full : g ^ (p - 1) = 1) (proper : ∀ f ∈ factors, g ^ ((p - 1) / f.1) ≠ 1) :
    p.Prime := by
  apply lucas_primality p g full
  intro q hq divides
  rw [← product] at divides
  obtain ⟨power, member, hpower⟩ := (Prime.dvd_prod_iff hq.prime).mp divides
  obtain ⟨f, hf, rfl⟩ := List.mem_map.mp member
  have same : q = f.1 :=
    (Nat.prime_dvd_prime_iff_eq hq (primes f hf)).mp (hq.dvd_of_dvd_pow hpower)
  rw [same]
  exact proper f hf

theorem prime_405928799 : Nat.Prime 405928799 := by
  apply prime_of_generator 22 [(2, 1), (11, 1), (3691, 1), (4999, 1)]
  · simp only [List.forall_mem_cons]; norm_num
  · norm_num
  · norm_num; reduce_mod_char
  · simp only [List.forall_mem_cons]
    refine ⟨?_, ?_, ?_, ?_, by simp⟩ <;> (norm_num; reduce_mod_char; decide +kernel)

theorem prime_12048837557 : Nat.Prime 12048837557 := by
  apply prime_of_generator 2 [(2, 2), (7, 2), (661, 1), (93001, 1)]
  · simp only [List.forall_mem_cons]; norm_num
  · norm_num
  · norm_num; reduce_mod_char
  · simp only [List.forall_mem_cons]
    refine ⟨?_, ?_, ?_, ?_, by simp⟩ <;> (norm_num; reduce_mod_char; decide +kernel)

theorem prime_5156902474397 : Nat.Prime 5156902474397 := by
  apply prime_of_generator 2 [(2, 2), (107, 1), (12048837557, 1)]
  · simp only [List.forall_mem_cons]
    exact ⟨by norm_num, by norm_num, prime_12048837557, by simp⟩
  · norm_num
  · norm_num; reduce_mod_char
  · simp only [List.forall_mem_cons]
    refine ⟨?_, ?_, ?_, by simp⟩ <;> (norm_num; reduce_mod_char; decide +kernel)

theorem prime_1670836401704629 : Nat.Prime 1670836401704629 := by
  apply prime_of_generator 2 [(2, 2), (3, 4), (5156902474397, 1)]
  · simp only [List.forall_mem_cons]
    exact ⟨by norm_num, by norm_num, prime_5156902474397, by simp⟩
  · norm_num
  · norm_num; reduce_mod_char
  · simp only [List.forall_mem_cons]
    refine ⟨?_, ?_, ?_, by simp⟩ <;> (norm_num; reduce_mod_char; decide +kernel)

theorem prime_639533339 : Nat.Prime 639533339 := by
  apply prime_of_generator 2 [(2, 1), (229, 1), (853, 1), (1637, 1)]
  · simp only [List.forall_mem_cons]; norm_num
  · norm_num
  · norm_num; reduce_mod_char
  · simp only [List.forall_mem_cons]
    refine ⟨?_, ?_, ?_, ?_, by simp⟩ <;> (norm_num; reduce_mod_char; decide +kernel)

theorem prime_65865678001877903 : Nat.Prime 65865678001877903 := by
  apply prime_of_generator 5 [(2, 1), (83, 1), (379, 1), (1637, 1), (639533339, 1)]
  · simp only [List.forall_mem_cons]
    exact ⟨by norm_num, by norm_num, by norm_num, by norm_num, prime_639533339, by simp⟩
  · norm_num
  · norm_num; reduce_mod_char
  · simp only [List.forall_mem_cons]
    refine ⟨?_, ?_, ?_, ?_, ?_, by simp⟩ <;> (norm_num; reduce_mod_char; decide +kernel)

theorem prime_13818364434197438864469338081 : Nat.Prime 13818364434197438864469338081 := by
  apply prime_of_generator 3 [(2, 5), (5, 1), (823, 1), (1593227, 1), (65865678001877903, 1)]
  · simp only [List.forall_mem_cons]
    exact ⟨by norm_num, by norm_num, by norm_num, by norm_num, prime_65865678001877903, by simp⟩
  · norm_num
  · norm_num; reduce_mod_char
  · simp only [List.forall_mem_cons]
    refine ⟨?_, ?_, ?_, ?_, ?_, by simp⟩ <;> (norm_num; reduce_mod_char; decide +kernel)

theorem prime_modulus : modulus.Prime := by
  unfold modulus
  apply prime_of_generator 5 [(2, 28), (3, 2), (13, 1), (29, 1), (983, 1), (11003, 1), (237073, 1),
    (405928799, 1), (1670836401704629, 1), (13818364434197438864469338081, 1)]
  · simp only [List.forall_mem_cons]
    exact ⟨by norm_num, by norm_num, by norm_num, by norm_num, by norm_num, by norm_num,
      by norm_num, prime_405928799, prime_1670836401704629, prime_13818364434197438864469338081,
      by simp⟩
  · norm_num
  · norm_num; reduce_mod_char
  · simp only [List.forall_mem_cons]
    refine ⟨?_, ?_, ?_, ?_, ?_, ?_, ?_, ?_, ?_, ?_, by simp⟩ <;>
      (norm_num; reduce_mod_char; decide +kernel)

instance : Fact modulus.Prime := ⟨prime_modulus⟩

end RankOne
