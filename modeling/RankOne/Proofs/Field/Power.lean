import Mathlib.FieldTheory.Finite.Basic
import Mathlib.GroupTheory.Perm.Cycle.Type
import RankOne.Proofs.Field.Ring

/-! Powers as maps of the field. The elements other than zero are a group, and a power can be undone
on it just when the exponent has no factor in common with the number of these elements. -/
namespace RankOne

section Finite
variable {K : Type} [Field K] {e : ℕ}

theorem pow_injective_of_coprime (positive : e ≠ 0) (coprime : e.Coprime (Nat.card K - 1)) :
    Function.Injective fun x : K => x ^ e := by
  rw [← Nat.card_units, Nat.coprime_comm] at coprime
  intro x y (same : x ^ e = y ^ e)
  by_cases zero : x = 0
  · rw [zero, zero_pow positive] at same
    rw [zero, eq_zero_of_pow_eq_zero same.symm]
  · have nonzero : y ≠ 0 := by
      rintro rfl
      rw [zero_pow positive] at same
      exact zero (eq_zero_of_pow_eq_zero same)
    have units : Units.mk0 x zero ^ e = Units.mk0 y nonzero ^ e := Units.ext same
    exact congrArg Units.val ((powCoprime coprime).injective units)

/-- A common factor makes the power send an element of that order where it sends one. -/
theorem coprime_of_pow_injective [Finite K] (injective : Function.Injective fun x : K => x ^ e) :
    e.Coprime (Nat.card K - 1) := by
  by_contra common
  obtain ⟨q, prime, divides, order⟩ := Nat.Prime.not_coprime_iff_dvd.mp common
  have := Fact.mk prime
  rw [← Nat.card_units] at order
  obtain ⟨u, full⟩ := exists_prime_orderOf_dvd_card' q order
  have trivial : u ^ e = 1 := orderOf_dvd_iff_pow_eq_one.mp (full ▸ divides)
  have one : u = 1 := by
    apply Units.ext
    apply injective
    change (u : K) ^ e = (1 : K) ^ e
    rw [← Units.val_pow_eq_pow_val, trivial, Units.val_one, one_pow]
  rw [one, orderOf_one] at full
  exact prime.one_lt.ne full

end Finite

namespace Fr

theorem toZMod_surjective : Function.Surjective toZMod := by
  intro z
  exact ⟨ofNat z.val, by rw [toZMod_ofNat, ZMod.natCast_zmod_val]⟩

instance : Finite Fr := Finite.of_injective toZMod toZMod_injective

theorem bijective_pow_iff (e : ℕ) :
    Function.Bijective (fun x : Fr => x.pow e) ↔ e.Coprime (modulus - 1) := by
  have residues : Function.Injective (fun x : Fr => x.pow e) ↔
      Function.Injective fun z : ZMod modulus => z ^ e := by
    have same : toZMod ∘ (fun x : Fr => x.pow e) = (fun z => z ^ e) ∘ toZMod :=
      funext fun x => toZMod_pow x e
    rw [← toZMod_injective.of_comp_iff, same]
    exact Function.Injective.of_comp_iff' _ ⟨toZMod_injective, toZMod_surjective⟩
  rw [← Finite.injective_iff_bijective, residues]
  have order : Nat.card (ZMod modulus) = modulus := Nat.card_zmod modulus
  constructor
  · intro injective
    rw [← order]
    exact coprime_of_pow_injective injective
  · intro coprime
    have positive : e ≠ 0 := by
      rintro rfl
      exact absurd (Nat.coprime_zero_left _ |>.mp coprime) (by decide)
    rw [← order] at coprime
    exact pow_injective_of_coprime positive coprime

end Fr
end RankOne
