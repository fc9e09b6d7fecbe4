import RankOne.Proofs.BitLogic
import RankOne.Proofs.Runs

/-! What the operators on expressions mean, and gadgets on expressions run in the middle of a
session. Operands may be of any shape: none of the short cuts that an operator or a gadget takes
on constants changes a value. -/
namespace RankOne
open Circuit

namespace Expr

/-- A way of giving expressions values along which every operator is the operation on values. -/
structure Distributes (value : Expr → Fr → Prop) : Prop where
  plus {a b : Expr} {u v : Fr} : value a u → value b v → value (a + b) (u + v)
  minus {a b : Expr} {u v : Fr} : value a u → value b v → value (a - b) (u - v)
  negate {a : Expr} {u : Fr} : value a u → value (-a) (-u)
  scaleBy {a : Expr} {u : Fr} (c : Fr) : value a u → value (a.scaleBy c) (c * u)
  linearCombination {terms : List (Fr × Expr)} {vs : List Fr} :
    List.Forall₂ (fun term v => value term.2 v) terms vs →
    value (Expr.linearCombination terms) (terms.zipWith (fun term v => term.1 * v) vs).sum
  sum {es : List Expr} {vs : List Fr} : List.Forall₂ value es vs → value (Expr.sum es) vs.sum

theorem distributes_carries (L : BitLogic) (n : ℕ) : Distributes (L.carries n) where
  plus := L.plus
  minus := BitLogic.minus
  negate {a u} h := by
    have scaled := L.scaleBy h (-1)
    rwa [neg_one_mul] at scaled
  scaleBy c h := L.scaleBy h c
  linearCombination := BitLogic.carries_linearCombination
  sum := BitLogic.carries_sum

theorem distributes_eval (z : Assignment) : Distributes fun e v => e.eval z = v := by
  have pinned := distributes_carries (.pins z z) 0
  change Distributes fun e v => e.eval z = v ∧ e.eval z = v at pinned
  simpa only [and_self] using pinned

theorem distributes_read (w : Witness) : Distributes fun e v => e.read w = .ok v := by
  rw [← Assignment.initial_ofWitness w]
  simp only [read_initial_iff]
  exact distributes_carries (.exact (Assignment.ofWitness w) True) w.size

end Expr

/-- What a gadget makes of expressions, once they have given values, in any session: an expression
of value `y`. -/
structure Circuit.Evaluates (c : Circuit Expr) (operands : List Expr) (xs : List Fr) (y : Fr) :
    Prop where
  /-- A witness session takes it to its end, be the constraints checked or not. -/
  generates : ∀ (s : Session) (checked : Bool), s.mode = .witness checked → s.Filled →
    operands.mapM (Expr.read s.values) = .ok xs →
    ∃ r s', c.run s = (.ok r, s') ∧ r.read s'.values = .ok y
  /-- It compiles whatever its operands are. -/
  compiles : ∀ s : Session, s.mode = .compile → ∃ r s', c.run s = (.ok r, s')
  /-- Compiled, it adds rows that force its result and leave none of its variables free. -/
  forces : ∀ (s s' : Session) (r : Expr), s.mode = .compile → c.run s = (.ok r, s') →
    ∃ rows, s'.rows.toList = s.rows.toList ++ rows ∧
      (∀ z, (∀ row ∈ rows, row.Holds z) → operands.map (Expr.eval z) = xs → r.eval z = y) ∧
      ∀ z z', (∀ row ∈ rows, row.Holds z) → (∀ row ∈ rows, row.Holds z') →
        operands.map (Expr.eval z) = xs → operands.map (Expr.eval z') = xs →
        ∀ i, s.nextVar ≤ i → i < s'.nextVar → z i = z' i
  /-- With constants it gives a constant, and leaves the session as it is. -/
  folds : operands = xs.map Expr.const → ∀ s : Session, c.run s = (.ok (.const y), s)

theorem Circuit.evaluates_of_judges {c : Circuit Expr} {operands : List Expr} {xs : List Fr}
    {y : Fr} (lengths : operands.length = xs.length)
    (judged : ∀ (L : Logic) (n : ℕ), List.Forall₂ (L.carries n) operands xs →
      L.judges c n fun r m => L.carries m r y) :
    Evaluates c operands xs y := by
  have onBits (L : BitLogic) (n : ℕ) := judged L.toLogic n
  refine ⟨fun s checked => ?generates, fun s mode => ?compiles, fun s s' r => ?forces,
    fun constants s => ?folds⟩
  case generates => exact generates_of_judges (K := Expr.list) (R := Expr.single) onBits
  case forces => exact forces_of_judges (K := Expr.list) (R := Expr.single) onBits
  case compiles =>
    have unread : List.Forall₂ (Logic.compiles.carries s.nextVar) operands xs :=
      List.forall₂_iff_get.mpr ⟨lengths, fun _ _ _ => trivial⟩
    obtain ⟨r, s', run, -⟩ := run_compiles mode (judged .compiles s.nextVar unread)
    exact ⟨r, s', run⟩
  case folds =>
    obtain ⟨r, rfl, run⟩ := folds_of_judges (K := Expr.list) (R := Expr.single) onBits constants
    exact run s

namespace Expr

theorem evaluates_mul (a b : Expr) (u v : Fr) (label : Option String) (loc : String) :
    Evaluates (a.mul b label loc) [a, b] [u, v] (u * v) := by
  refine evaluates_of_judges rfl fun L n carried => ?_
  obtain ⟨first, carried⟩ := List.forall₂_cons.mp carried
  obtain ⟨second, -⟩ := List.forall₂_cons.mp carried
  exact L.mul first second label loc

theorem evaluates_square (a : Expr) (u : Fr) (loc : String) :
    Evaluates (a.square loc) [a] [u] (u * u) :=
  evaluates_of_judges rfl fun L _ carried => L.square (List.forall₂_cons.mp carried).1 loc

/-- The operators keep their meaning whatever they fold: those that are free distribute over the
value under an assignment and over what is read from a witness, and products and squares have the
values that they should. -/
theorem operators_keep_meaning (label : Option String) (loc : String) :
    (∀ z : Assignment, Distributes fun e v => e.eval z = v) ∧
    (∀ w : Witness, Distributes fun e v => e.read w = .ok v) ∧
    (∀ (a b : Expr) (u v : Fr), Evaluates (a.mul b label loc) [a, b] [u, v] (u * v)) ∧
    ∀ (a : Expr) (u : Fr), Evaluates (a.square loc) [a] [u] (u * u) :=
  ⟨distributes_eval, distributes_read, fun a b u v => evaluates_mul a b u v label loc,
    fun a u => evaluates_square a u loc⟩

end Expr
end RankOne
