import RankOne.Proofs.Field.Prime
import Mathlib.Algebra.Field.ZMod
import Mathlib.Algebra.Ring.Hom.InjSurj
import Mathlib.Tactic.LinearCombination
import Mathlib.Tactic.Ring

/-! The field elements form an integral domain. The laws are those of the residues modulo the
order, and powers are the ones computed by squaring. -/
namespace RankOne.Fr

def toZMod (x : Fr) : ZMod modulus := x.val

theorem toZMod_ofNat (n : ℕ) : toZMod (ofNat n) = n := by
  simp [toZMod]

theorem toZMod_injective : Function.Injective toZMod := by
  intro x y h
  have residues := (ZMod.natCast_eq_natCast_iff' x.val y.val modulus).mp h
  apply Fr.ext
  rwa [Nat.mod_eq_of_lt x.isLt, Nat.mod_eq_of_lt y.isLt] at residues

theorem toZMod_zero : toZMod 0 = 0 := by simp [toZMod]
theorem toZMod_one : toZMod 1 = 1 := by simp [toZMod]

theorem toZMod_add (x y : Fr) : toZMod (x + y) = toZMod x + toZMod y := by
  simp [toZMod, val_add]

theorem toZMod_mul (x y : Fr) : toZMod (x * y) = toZMod x * toZMod y := by
  simp [toZMod, val_mul]

theorem toZMod_neg (x : Fr) : toZMod (-x) = -toZMod x := by
  simp [toZMod, val_neg, Nat.cast_sub x.isLt.le]

theorem toZMod_sub (x y : Fr) : toZMod (x - y) = toZMod x - toZMod y := by
  simp [toZMod, val_sub, Nat.cast_sub y.isLt.le, sub_eq_add_neg]

/-- Squaring halves the exponent at each step. -/
theorem toZMod_pow (x : Fr) (n : ℕ) : toZMod (x.pow n) = toZMod x ^ n := by
  induction n using Nat.strongRecOn with
  | ind n ih =>
    rw [pow]
    by_cases zero : n = 0
    · simp [zero, toZMod_one]
    · have half := ih (n / 2) (by omega)
      have digits : n = n / 2 + n / 2 + n % 2 := by omega
      simp only [if_neg zero]
      by_cases even : n % 2 = 0
      · rw [if_pos even, toZMod_mul, half, ← pow_add]
        congr 1; omega
      · rw [if_neg even, toZMod_mul, toZMod_mul, half, ← pow_add, ← pow_succ]
        congr 1; omega

instance : SMul ℕ Fr := ⟨fun n x => ofNat n * x⟩
instance : SMul ℤ Fr := ⟨fun n x => ofInt n * x⟩
instance : Pow Fr ℕ := ⟨pow⟩
instance : IntCast Fr := ⟨ofInt⟩

theorem toZMod_ofInt (n : ℤ) : toZMod (ofInt n) = n := by
  have nonneg : 0 ≤ n % (modulus : ℤ) := Int.emod_nonneg _ (by decide)
  have residue := ZMod.intCast_mod n modulus
  rw [ofInt, toZMod_ofNat, ← Int.cast_natCast, Int.toNat_of_nonneg nonneg, residue]

instance : CommRing Fr :=
  toZMod_injective.commRing toZMod toZMod_zero toZMod_one toZMod_add toZMod_mul toZMod_neg
    toZMod_sub
    (fun n x => by
      change toZMod (ofNat n * x) = _
      rw [toZMod_mul, toZMod_ofNat, nsmul_eq_mul])
    (fun n x => by
      change toZMod (ofInt n * x) = _
      rw [toZMod_mul, toZMod_ofInt, zsmul_eq_mul])
    toZMod_pow toZMod_ofNat toZMod_ofInt

def toZModHom : Fr →+* ZMod modulus where
  toFun := toZMod
  map_one' := toZMod_one
  map_mul' := toZMod_mul
  map_zero' := toZMod_zero
  map_add' := toZMod_add

instance : IsDomain Fr := toZMod_injective.isDomain toZModHom

theorem pow_eq (x : Fr) (n : ℕ) : x.pow n = x ^ n := rfl

@[simp] theorem natCast_val (x : Fr) : (x.val : Fr) = x := ofNat_val x

theorem val_natCast_of_lt {n : ℕ} (h : n < modulus) : (n : Fr).val = n := Nat.mod_eq_of_lt h

@[simp] theorem ofBool_false : ofBool false = 0 := rfl
@[simp] theorem ofBool_true : ofBool true = 1 := rfl

theorem ofBool_eq_natCast (b : Bool) : ofBool b = (b.toNat : Fr) := by
  cases b <;> simp

@[simp] theorem ofBool_ne_zero (b : Bool) : ofBool b ≠ 0 ↔ b = true := by
  cases b <;> simp

theorem ofBool_not (a : Bool) : ofBool (!a) = 1 - ofBool a := by
  cases a <;> simp

theorem ofBool_xor (a b : Bool) :
    ofBool (a ^^ b) = ofBool a + ofBool b - (ofBool a + ofBool a) * ofBool b := by
  cases a <;> cases b <;> simp

theorem ofBool_and (a b : Bool) : ofBool (a && b) = ofBool a * ofBool b := by
  cases a <;> cases b <;> simp

theorem ofBool_decide {x : Fr} (h : x = 1 ∨ x = 0) : ofBool (decide (x ≠ 0)) = x := by
  rcases h with rfl | rfl <;> simp

theorem ofBool_isBit (b : Bool) : ofBool b = 1 ∨ ofBool b = 0 := by
  cases b <;> simp

/-- The field has no idempotents but zero and one. -/
theorem mul_self_eq_self {x : Fr} : x * x = x ↔ x = 1 ∨ x = 0 := by
  constructor
  · intro h
    have product : (x - 1) * x = 0 := by linear_combination h
    rcases mul_eq_zero.mp product with one | zero
    · exact Or.inl (sub_eq_zero.mp one)
    · exact Or.inr zero
  · rintro (rfl | rfl) <;> simp

end RankOne.Fr
