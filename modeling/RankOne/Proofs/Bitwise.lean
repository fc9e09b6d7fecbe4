import RankOne.Proofs.Computes
import RankOne.Proofs.Cost

/-! Bitwise operations on vectors, in any session. A position at which a bit is a constant is
folded; every other one costs a variable and a row, also where the operands are one bit or depend
on no variable. -/
namespace RankOne
open Circuit
variable {n : ℕ}

namespace Bit
variable {a b : Bit}

theorem opens_iff : a.expr.opens b.expr ↔ a.constant? = none ∧ b.constant? = none := by
  obtain ⟨x⟩ := a
  obtain ⟨y⟩ := b
  cases x <;> cases y <;> simp [constant?, Expr.opens, Expr.isConst]

/-- The row of an exclusive or has a variable: if twice `a` and `b` depend on none, then their sum
less the new variable does. -/
theorem isConstant_xor (a b : Bit) (label loc : String) :
    (Row.ofConstraint (.product (a.expr + a.expr) b.expr (a.expr + b.expr - .var n))
      label loc).isConstant = false := by
  by_contra constant
  rw [Bool.not_eq_false] at constant
  have sides := Row.eval_of_isConstant constant 0 1
  simp only [Constraint.toProduct, Expr.eval_plus, Expr.eval_minus] at sides
  obtain ⟨twice, second, third⟩ := sides
  have absurd : (0 : Fr) = 2 := by
    have zero : (Expr.var n).eval 0 = 0 := rfl
    have one : (Expr.var n).eval 1 = 1 := rfl
    rw [zero, one] at third
    linear_combination twice + 2 * second - 2 * third
  cases absurd

theorem costs_xor (a b : Bit) (loc : String) (n : ℕ) :
    Costs (a.xor b loc) n (a.expr.opens b.expr).toNat fun c =>
      a.expr.opens b.expr → c = ⟨.var n⟩ := by
  unfold xor
  split
  case h_5 openA openB =>
    have opened : a.expr.opens b.expr := opens_iff.mpr ⟨openA, openB⟩
    rw [opened]
    exact (Costs.pinned (s := .bit)
      (k := fun c => .product (a.expr + a.expr) b.expr (a.expr + b.expr - c.expr)) rfl
      fun label => isConstant_xor a b label loc).weaken fun _ same _ => same
  all_goals
    have folded : a.expr.opens b.expr = false := by
      rw [← Bool.not_eq_true, opens_iff]
      simp_all
    rw [folded]
    exact .pure fun opened => by cases opened

theorem costs_and (a b : Bit) (loc : String) (n : ℕ) :
    Costs (a.and b loc) n (a.expr.opens b.expr).toNat fun c =>
      a.expr.opens b.expr → c = ⟨.var n⟩ :=
  (Expr.costs_mul a.expr b.expr _ loc n).bind (k := 0) fun _ product =>
    .pure fun opened => congrArg Bit.mk (product opened)

end Bit

namespace Bits

/-- The positions at which neither vector has a constant. -/
def opens (a b : Bits) : ℕ := (a.zip b).countP fun p => p.1.expr.opens p.2.expr

variable {op : Bit → Bit → Circuit Bit}

/-- An operation that costs a variable and a row for each pair of bits that are no constants costs
as many for two vectors. Its results are the new variables, in the order of the positions. -/
theorem costs_zipWith (costs : ∀ (a b : Bit) (n : ℕ),
    Costs (op a b) n (a.expr.opens b.expr).toNat fun c => a.expr.opens b.expr → c = ⟨.var n⟩)
    {a b : Bits} (length : a.length = b.length) (what : String) (n : ℕ) :
    Costs (zipWith what op a b) n (opens a b) fun r =>
      ∀ (i : ℕ) (x y : Bit), a[i]? = some x → b[i]? = some y →
      x.expr.opens y.expr → r[i]? = some ⟨.var (n + opens (a.take i) (b.take i))⟩ := by
  unfold zipWith
  rw [if_pos length]
  have loop := Costs.mapM (fun (p : Bit × Bit) n => costs p.1 p.2 n) (a.zip b) n
  refine loop.weaken fun r found i x y hx hy opened => ?_
  have pair : (a.zip b)[i]? = some (x, y) := List.getElem?_zip_eq_some.mpr ⟨hx, hy⟩
  obtain ⟨c, here, new⟩ := found i (x, y) pair
  rw [here, new opened, opens, List.zip_eq_zipWith, List.zip_eq_zipWith, List.take_zipWith]

structure Bitwise (gadget : Bits → Bits → String → Circuit Bits) (what : String)
    (f : Bool → Bool → Bool) : Prop where
  computes : ∀ (a b : Bits) (loc : String) (us vs : List Bool), a.length = b.length →
    Computes (gadget a b loc) (fun r => [r]) [a, b] [us, vs] [us.zipWith f vs]
  /-- It costs a variable and a row for each position at which neither bit is a constant. -/
  takes : ∀ (a b : Bits) (loc : String), a.length = b.length →
    Takes (gadget a b loc) (opens a b)
  /-- The variables are the results at these positions, in order. -/
  fresh : ∀ (a b : Bits) (loc : String) (s s' : Session) (r : Bits),
    (gadget a b loc).run s = (.ok r, s') → ∀ (i : ℕ) (x y : Bit), a[i]? = some x →
      b[i]? = some y → x.expr.opens y.expr →
      r[i]? = some ⟨.var (s.nextVar + opens (a.take i) (b.take i))⟩
  /-- Vectors of two lengths are refused at once. -/
  refuses : ∀ (a b : Bits) (loc : String) (s : Session), a.length ≠ b.length →
    (gadget a b loc).run s = (.error (.compilation (.width what a.length b.length)), s)

theorem bitwise_of_bits (op : String → Bit → Bit → Circuit Bit) {what : String}
    {f : Bool → Bool → Bool}
    (judged : ∀ (L : BitLogic) (loc : String) (a b : Bit) (u v : Bool) (n : ℕ), L.bit n a u →
      L.bit n b v → L.judges (op loc a b) n fun c m => L.bit m c (f u v))
    (costs : ∀ (loc : String) (a b : Bit) (n : ℕ), Costs (op loc a b) n
      (a.expr.opens b.expr).toNat fun c => a.expr.opens b.expr → c = ⟨.var n⟩) :
    Bitwise (fun a b loc => zipWith what (op loc) a b) what f where
  computes a b loc us vs length := computes_of_judges fun L n carried => by
    obtain ⟨first, carried⟩ := List.forall₂_cons.mp carried
    obtain ⟨second, -⟩ := List.forall₂_cons.mp carried
    have lengths : us.length = vs.length := by
      rw [← first.length_eq, length, second.length_eq]
    exact L.weaken (BitLogic.judges_zipWith (judged L loc) first second lengths what)
      fun _ _ _ h => .cons h .nil
  takes a b loc length := takes_of_costs (costs_zipWith (costs loc) length what)
  fresh a b loc s s' r run := by
    by_cases length : a.length = b.length
    · exact ((costs_zipWith (costs loc) length what s.nextVar).of_run run).2
    · simp only [zipWith, if_neg length] at run
      cases run
  refuses a b loc s other := by
    simp only [zipWith, if_neg other]
    rfl

/-- Exclusive or, conjunction and negation compute those of the bits, in any session and of bits of
any kind, and cost as much as there are positions without a constant; negation is free. -/
theorem bitwise_operations :
    Bitwise xor "xor operand" (· ^^ ·) ∧ Bitwise and "and operand" (· && ·) ∧
    ∀ (a : Bits) (us : List Bool),
      Computes (pure (not a)) (fun r => [r]) [a] [us] [us.map (!·)] := by
  refine ⟨bitwise_of_bits (fun loc a b => a.xor b loc) ?_ ?_,
    bitwise_of_bits (fun loc a b => a.and b loc) ?_ ?_, fun a us => ?_⟩
  · exact fun L loc a b u v n ha hb => BitLogic.judges_xorBit ha hb loc
  · exact fun loc a b n => Bit.costs_xor a b loc n
  · exact fun L loc a b u v n ha hb => BitLogic.judges_andBit ha hb loc
  · exact fun loc a b n => Bit.costs_and a b loc n
  · refine computes_of_judges fun L n carried => L.pure (.cons ?_ .nil)
    exact BitLogic.bits_not (List.forall₂_cons.mp carried).1

/-- A vector against itself: only the bit that is no constant costs a variable. -/
theorem xor_of_one_vector :
    let a : Bits := [⟨.var 0⟩, .const true]
    ∃ r s', (xor a a gadgetLoc).run ⟨.witness true, #[], #[1], 1⟩ = (.ok r, s') ∧
      ReadAs s'.values [r] [[false, false]] ∧ s'.nextVar = 2 ∧ r[0]? = some ⟨.var 1⟩ := by
  intro a
  obtain ⟨r, s', run, spelled⟩ := (bitwise_operations.1.computes a a gadgetLoc [true, true]
    [true, true] rfl).generates ⟨.witness true, #[], #[1], 1⟩ true rfl rfl rfl
  exact ⟨r, s', run, spelled,
    (bitwise_operations.1.takes a a gadgetLoc rfl).allocates _ s' r run,
    bitwise_operations.1.fresh a a gadgetLoc _ s' r run 0 _ _ rfl rfl rfl⟩

end Bits
end RankOne
