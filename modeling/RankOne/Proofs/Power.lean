import Mathlib.Data.Nat.Digits.Defs
import RankOne.Proofs.Cost
import RankOne.Proofs.Evaluates
import RankOne.Proofs.Mimc

/-! Raising to a power, in any session. Each digit of the exponent after the leading one costs a
squaring, and a product where it is set; powers of a constant are free. -/
namespace RankOne
open Circuit
variable {x res : Expr} {n k : ℕ}

namespace Layout

theorem count_natBits {width value : ℕ} (fits : value < 2 ^ width) :
    (natBits width value).count true = (Nat.digits 2 value).sum := by
  induction width generalizing value with
  | zero =>
    obtain rfl : value = 0 := by simpa using fits
    simp [natBits_zero]
  | succ width ih =>
    have half : value / 2 < 2 ^ width := by
      rw [pow_succ] at fits
      omega
    rw [natBits_succ, List.count_cons, ih half]
    rcases Nat.eq_zero_or_pos value with rfl | positive
    · simp
    · rw [Nat.digits_def' (by decide) positive, List.sum_cons, Nat.testBit_zero]
      rcases Nat.mod_two_eq_zero_or_one value with even | odd
      · simp [even]
      · simp [odd, Nat.add_comm]

theorem count_natBits_succ (width value : ℕ) : (natBits (width + 1) value).count true =
    (natBits width value).count true + (value.testBit width).toNat := by
  rw [natBits, List.range_succ, List.map_append, List.count_append]
  cases digit : value.testBit width <;> simp [digit, natBits]

end Layout

namespace Expr

theorem isConst_scaleBy (hx : x.isConst) (c : Fr) : (x.scaleBy c).isConst := by
  unfold scaleBy
  split
  · rfl
  split
  · exact hx
  · cases x <;> first | rfl | cases hx

theorem costs_powFrom_constant (hx : x.isConst) (hres : res.isConst) (e k : ℕ) (loc : String)
    (n : ℕ) : Costs (x.powFrom e loc k res) n 0 fun r => r.isConst := by
  induction k generalizing res with
  | zero => exact .pure hres
  | succ k ih =>
    cases res with
    | const c =>
      change Costs (if e.testBit k then _ else _) n 0 _
      split
      · exact ih (isConst_scaleBy hx _)
      · exact ih rfl
    | _ => cases hres

/-- Each of the digits still to come costs a squaring, and a product where it is set. -/
theorem costs_powFrom (hx : x.isConst = false) (hres : res.isConst = false) (e k : ℕ)
    (loc : String) (n : ℕ) :
    Costs (x.powFrom e loc k res) n (k + (Layout.natBits k e).count true)
      fun r => r.isConst = false := by
  induction k generalizing n res with
  | zero => exact .pure hres
  | succ k ih =>
    have digits : k + 1 + (Layout.natBits (k + 1) e).count true =
        1 + ((e.testBit k).toNat + (k + (Layout.natBits k e).count true)) := by
      rw [Layout.count_natBits_succ]
      omega
    rw [digits]
    refine (costs_square hres loc n).bind fun square fresh => ?_
    subst fresh
    have product := costs_mul (var n) x (some "mimc.pow") loc (n + 1)
    have opened : (var n).opens x = true := by rw [opens, hx]; rfl
    rw [opened] at product
    change Costs (if e.testBit k then _ else _) (n + 1) _ _
    split
    · rename_i one
      rw [one]
      refine product.bind fun r fresh => ?_
      obtain rfl := fresh rfl
      exact ih rfl _
    · rename_i zero
      rw [Bool.not_eq_true] at zero
      rw [zero, Bool.toNat_false, Nat.zero_add]
      exact ih rfl _

/-- A squaring for each digit after the leading one, and a product for each of these that is set:
less than all set digits by the leading one. Only the power of a constant is a constant. -/
theorem costs_pow (x : Expr) {e : ℕ} (positive : e ≠ 0) (loc : String) (n : ℕ) :
    Costs (x.pow e loc) n (if x.isConst then 0 else e.log2 + (Nat.digits 2 e).sum - 1)
      fun r => r.isConst = x.isConst := by
  rw [pow, if_neg positive]
  cases hx : x.isConst with
  | true => exact costs_powFrom_constant hx hx e _ loc n
  | false =>
    have cost := costs_powFrom hx hx e e.log2 loc n
    have leading : (Layout.natBits (e.log2 + 1) e).count true =
        (Layout.natBits e.log2 e).count true + 1 := by
      rw [Layout.count_natBits_succ, Nat.testBit_log2 positive]
      rfl
    rw [Layout.count_natBits Nat.lt_log2_self] at leading
    rwa [if_neg Bool.false_ne_true, leading, ← Nat.add_assoc, Nat.add_sub_cancel]

theorem takes_pow (x : Expr) (e : ℕ) (loc : String) :
    Takes (x.pow e loc)
      (if e ≤ 1 ∨ x.isConst then 0 else e.log2 + (Nat.digits 2 e).sum - 1) := by
  refine takes_of_costs (P := fun _ _ => True) fun n => ?_
  by_cases positive : e = 0
  · rw [if_pos (.inl (by omega)), pow, if_pos positive]
    exact .pure trivial
  · have cost : (if e ≤ 1 ∨ x.isConst then 0 else e.log2 + (Nat.digits 2 e).sum - 1) =
        if x.isConst then 0 else e.log2 + (Nat.digits 2 e).sum - 1 := by
      by_cases one : e = 1
      · simp [one, Nat.log2_def]
      · have large : ¬e ≤ 1 := by omega
        simp [large]
    rw [cost]
    exact (costs_pow x positive loc n).weaken fun _ _ => trivial

/-- The power by squaring and multiplying is the power, in any session and whatever the base is. -/
theorem power_of_pow (x : Expr) (e : ℕ) (loc : String) :
    (∀ v : Fr, Evaluates (x.pow e loc) [x] [v] (v ^ e)) ∧
    Takes (x.pow e loc)
      (if e ≤ 1 ∨ x.isConst then 0 else e.log2 + (Nat.digits 2 e).sum - 1) :=
  ⟨fun _ => evaluates_of_judges rfl fun _ _ carried =>
    judges_pow (List.forall₂_cons.mp carried).1 e loc, takes_pow x e loc⟩

end Expr
end RankOne
