import RankOne.Constraint
import RankOne.Proofs.Expr

/-! Constraints and the rows made of them demand the same of an assignment, and a check on a
witness decides what is demanded of its assignment. -/
namespace RankOne

theorem exceptBind_ok {ε α β : Type} {x : Except ε α} {f : α → Except ε β} {b : β}
    (h : (x >>= f) = .ok b) : ∃ a, x = .ok a ∧ f a = .ok b := by
  cases x with
  | error e => cases h
  | ok a => exact ⟨a, rfl, h⟩

namespace Constraint
variable {z : Assignment} {n : ℕ}

def Below (n : ℕ) : Constraint → Prop
  | isBit x => x.Below n
  | equal x y => x.Below n ∧ y.Below n
  | square x z => x.Below n ∧ z.Below n
  | product a b c => a.Below n ∧ b.Below n ∧ c.Below n

theorem require_eq_ok_iff {ε : Type} {p : Prop} [Decidable p] {e : ε} :
    (if p then pure () else throw e : Except ε Unit) = .ok () ↔ p := by
  by_cases h : p
  · rw [if_pos h]; exact iff_of_true rfl h
  · rw [if_neg h]; exact iff_of_false nofun h

/-- A check decides the condition once its variables are assigned. -/
theorem check_initial_iff {c : Constraint} (below : c.Below n) (label : String) :
    c.check (z.initial n) label = .ok () ↔ c.Holds z := by
  cases c with
  | isBit x =>
    rw [check, Expr.read_initial below]
    exact require_eq_ok_iff
  | equal x y =>
    rw [check, Expr.read_initial below.1, Expr.read_initial below.2]
    exact require_eq_ok_iff
  | square x y =>
    rw [check, Expr.read_initial below.1, Expr.read_initial below.2]
    exact require_eq_ok_iff
  | product a b c =>
    rw [check, Expr.read_initial below.1, Expr.read_initial below.2.1,
      Expr.read_initial below.2.2]
    exact require_eq_ok_iff

theorem holds_of_check {c : Constraint} {w : Witness} {label : String}
    (h : c.check w label = .ok ()) : c.Holds (Assignment.ofWitness w) := by
  cases c with
  | isBit x =>
    obtain ⟨u, hu, h⟩ := exceptBind_ok h
    rw [Holds, Expr.eval_of_read hu]
    exact require_eq_ok_iff.mp h
  | equal x y =>
    obtain ⟨u, hu, h⟩ := exceptBind_ok h
    obtain ⟨v, hv, h⟩ := exceptBind_ok h
    rw [Holds, Expr.eval_of_read hu, Expr.eval_of_read hv]
    exact require_eq_ok_iff.mp h
  | square x y =>
    obtain ⟨u, hu, h⟩ := exceptBind_ok h
    obtain ⟨v, hv, h⟩ := exceptBind_ok h
    rw [Holds, Expr.eval_of_read hu, Expr.eval_of_read hv]
    exact require_eq_ok_iff.mp h
  | product x y t =>
    obtain ⟨u, hu, h⟩ := exceptBind_ok h
    obtain ⟨v, hv, h⟩ := exceptBind_ok h
    obtain ⟨r, hr, h⟩ := exceptBind_ok h
    rw [Holds, Expr.eval_of_read hu, Expr.eval_of_read hv, Expr.eval_of_read hr]
    exact require_eq_ok_iff.mp h

end Constraint

namespace Row
variable {z : Assignment} {n : ℕ}

/-- A row demands what its constraint demands. For bits this needs that zero and one are the
only idempotents. -/
theorem holds_ofConstraint (c : Constraint) (label loc : String) :
    (ofConstraint c label loc).Holds z ↔ c.Holds z := by
  cases c with
  | isBit x =>
    simp [ofConstraint, Constraint.toProduct, Holds, Constraint.Holds, Fr.mul_self_eq_self]
  | equal x y => simp [ofConstraint, Constraint.toProduct, Holds, Constraint.Holds, sub_eq_zero]
  | square x y => simp [ofConstraint, Constraint.toProduct, Holds, Constraint.Holds]
  | product a b c => simp [ofConstraint, Constraint.toProduct, Holds, Constraint.Holds]

/-- A row without variables holds under all assignments or under none. -/
theorem holds_of_isConstant {row : Row} (h : row.isConstant) :
    row.Holds z ↔ row.a.constant * row.b.constant = row.c.constant := by
  simp only [isConstant, Bool.and_eq_true] at h
  rw [Holds, LinearCombination.eval_of_isConstant h.1.1, LinearCombination.eval_of_isConstant h.1.2,
    LinearCombination.eval_of_isConstant h.2]

/-- Without variables the sides of a constraint have the same values under all assignments. -/
theorem eval_of_isConstant {c : Constraint} {label loc : String}
    (h : (ofConstraint c label loc).isConstant) (z z' : Assignment) :
    c.toProduct.1.eval z = c.toProduct.1.eval z' ∧
      c.toProduct.2.1.eval z = c.toProduct.2.1.eval z' ∧
      c.toProduct.2.2.eval z = c.toProduct.2.2.eval z' := by
  have side {e : Expr} (constant : (LinearCombination.ofExpr e).isConstant) :
      e.eval z = e.eval z' := by
    rw [← LinearCombination.eval_ofExpr, LinearCombination.eval_of_isConstant constant,
      ← LinearCombination.eval_of_isConstant (z := z') constant, LinearCombination.eval_ofExpr]
  simp only [isConstant, Bool.and_eq_true] at h
  exact ⟨side h.1.1, side h.1.2, side h.2⟩

/-- A constraint whose result is a variable has a row with this variable. -/
theorem isConstant_of_variable {c : Constraint} (result : c.toProduct.2.2 = .var n)
    (label loc : String) : (ofConstraint c label loc).isConstant = false := by
  by_contra constant
  rw [Bool.not_eq_false] at constant
  have same := (eval_of_isConstant constant 0 1).2.2
  rw [result] at same
  exact zero_ne_one (same : (0 : Fr) = 1)

def Below (n : ℕ) (row : Row) : Prop := row.a.Below n ∧ row.b.Below n ∧ row.c.Below n

theorem Below.mono {row : Row} {m : ℕ} (h : row.Below n) (le : n ≤ m) : row.Below m :=
  ⟨fun t ht => lt_of_lt_of_le (h.1 t ht) le, fun t ht => lt_of_lt_of_le (h.2.1 t ht) le,
    fun t ht => lt_of_lt_of_le (h.2.2 t ht) le⟩

theorem below_ofConstraint {c : Constraint} (h : c.Below n) (label loc : String) :
    (ofConstraint c label loc).Below n := by
  have ofExpr {e : Expr} (he : e.Below n) := LinearCombination.below_ofExpr he
  cases c with
  | isBit x => exact ⟨ofExpr h, ofExpr h, ofExpr h⟩
  | equal x y => exact ⟨ofExpr (h.1.minus h.2), ofExpr (by simp), ofExpr (by simp)⟩
  | square x y => exact ⟨ofExpr h.1, ofExpr h.1, ofExpr h.2⟩
  | product a b c => exact ⟨ofExpr h.1, ofExpr h.2.1, ofExpr h.2.2⟩

theorem check_initial {row : Row} (below : row.Below n) (holds : row.Holds z) (index : ℕ) :
    row.check (z.initial n) index = .ok () := by
  rw [check, LinearCombination.read_initial below.1, LinearCombination.read_initial below.2.1,
    LinearCombination.read_initial below.2.2]
  exact if_pos holds

theorem holds_of_check {row : Row} {w : Witness} {index : ℕ} (h : row.check w index = .ok ()) :
    row.Holds (Assignment.ofWitness w) := by
  obtain ⟨a, ha, h⟩ := exceptBind_ok h
  obtain ⟨b, hb, h⟩ := exceptBind_ok h
  obtain ⟨c, hc, h⟩ := exceptBind_ok h
  by_cases product : a * b = c
  · rw [Holds, LinearCombination.eval_of_read ha, LinearCombination.eval_of_read hb,
      LinearCombination.eval_of_read hc, product]
  · rw [if_neg product] at h; cases h

end Row

namespace ConstraintSystem
variable {z : Assignment}

theorem checkRows_initial {n : ℕ} {rows : List Row} (below : ∀ row ∈ rows, row.Below n)
    (holds : ∀ row ∈ rows, row.Holds z) (index : ℕ) :
    checkRows (z.initial n) rows index = .ok () := by
  induction rows generalizing index with
  | nil => rfl
  | cons row rows ih =>
    rw [checkRows, Row.check_initial (below row List.mem_cons_self) (holds row List.mem_cons_self)]
    exact ih (fun r hr => below r (List.mem_cons_of_mem _ hr))
      (fun r hr => holds r (List.mem_cons_of_mem _ hr)) _

theorem holds_of_checkRows {w : Witness} {rows : List Row} {index : ℕ}
    (h : checkRows w rows index = .ok ()) :
    ∀ row ∈ rows, row.Holds (Assignment.ofWitness w) := by
  induction rows generalizing index with
  | nil => simp
  | cons row rows ih =>
    rw [checkRows] at h
    obtain ⟨_, first, rest⟩ := exceptBind_ok h
    intro r hr
    rcases List.mem_cons.mp hr with rfl | hr
    · exact Row.holds_of_check first
    · exact ih rest r hr

/-- A witness of all variables under which every row holds is accepted. -/
theorem check_initial {system : ConstraintSystem}
    (below : ∀ row ∈ system.rows, row.Below system.variableCount)
    (holds : ∀ row ∈ system.rows, row.Holds z) :
    system.check (z.initial system.variableCount) = .ok () := by
  rw [check, if_pos (Assignment.size_initial _ _)]
  exact checkRows_initial (fun r hr => below r (Array.mem_toList_iff.mp hr))
    (fun r hr => holds r (Array.mem_toList_iff.mp hr)) 0

theorem holds_of_check {system : ConstraintSystem} {w : Witness} (h : system.check w = .ok ()) :
    w.size = system.variableCount ∧ ∀ row ∈ system.rows, row.Holds (Assignment.ofWitness w) := by
  unfold check at h
  split at h
  · exact ⟨‹_›, fun row hr => holds_of_checkRows h row (Array.mem_toList_iff.mpr hr)⟩
  · cases h

theorem check_eq_ok_iff {system : ConstraintSystem} {w : Witness}
    (below : ∀ row ∈ system.rows, row.Below system.variableCount) :
    system.check w = .ok () ↔
      w.size = system.variableCount ∧ ∀ row ∈ system.rows, row.Holds (Assignment.ofWitness w) := by
  refine ⟨holds_of_check, fun ⟨size, holds⟩ => ?_⟩
  have accepted := check_initial below holds
  rwa [← size, Assignment.initial_ofWitness] at accepted

end ConstraintSystem
end RankOne
