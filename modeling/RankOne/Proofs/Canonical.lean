import Mathlib.Data.List.Sort
import RankOne.Proofs.Wires

/-! Linear combinations in canonical form. Two of them with one value under every assignment are
the same, so that expressions are equal in meaning just when they become one linear combination,
and constant in meaning just when no variable is left. -/
namespace RankOne

namespace LinearCombination
variable {z : Assignment} {c : Fr} {v : ℕ} {term : Fr × ℕ} {terms terms' : List (Fr × ℕ)}

structure Canonical (terms : List (Fr × ℕ)) : Prop where
  increasing : terms.Pairwise fun s t => s.2 < t.2
  nonzero : ∀ t ∈ terms, t.1 ≠ 0

theorem canonical_nil : Canonical [] := ⟨.nil, by simp⟩

theorem canonical_cons : Canonical (term :: terms) ↔
    (∀ t ∈ terms, term.2 < t.2) ∧ term.1 ≠ 0 ∧ Canonical terms := by
  constructor
  · rintro ⟨increasing, nonzero⟩
    obtain ⟨first, increasing⟩ := List.pairwise_cons.mp increasing
    obtain ⟨here, nonzero⟩ := List.forall_mem_cons.mp nonzero
    exact ⟨first, here, increasing, nonzero⟩
  · rintro ⟨first, here, increasing, nonzero⟩
    exact ⟨List.pairwise_cons.mpr ⟨first, increasing⟩, List.forall_mem_cons.mpr ⟨here, nonzero⟩⟩

theorem Canonical.keep (h : Canonical terms) (first : ∀ t ∈ terms, v < t.2) (c : Fr) :
    Canonical (keep c v terms) := by
  unfold LinearCombination.keep
  split
  · exact h
  · exact canonical_cons.mpr ⟨first, ‹_›, h⟩

theorem Canonical.addFirst (h : Canonical terms) (first : ∀ t ∈ terms, term.2 ≤ t.2) :
    Canonical (addFirst term terms) := by
  cases terms with
  | nil => exact h.keep (by simp) _
  | cons next rest =>
    obtain ⟨later, -, h'⟩ := canonical_cons.mp h
    rw [LinearCombination.addFirst]
    split
    · exact h'.keep later _
    · rename_i other
      have before : term.2 < next.2 := lt_of_le_of_ne (first next List.mem_cons_self) other
      exact h.keep (List.forall_mem_cons.mpr ⟨before, fun t ht => before.trans (later t ht)⟩) _

theorem canonical_foldr (sorted : terms.Pairwise fun s t => s.2 ≤ t.2) :
    Canonical (terms.foldr LinearCombination.addFirst []) := by
  induction terms with
  | nil => exact canonical_nil
  | cons term terms ih =>
    obtain ⟨first, sorted⟩ := List.pairwise_cons.mp sorted
    exact (ih sorted).addFirst (forall_foldr_addFirst (p := (term.2 ≤ ·)) first)

theorem canonical_compress (terms : List (Fr × ℕ)) : Canonical (compress terms) := by
  apply canonical_foldr
  have trans (s t u : Fr × ℕ) : decide (s.2 ≤ t.2) → decide (t.2 ≤ u.2) → decide (s.2 ≤ u.2) := by
    simpa using le_trans
  have total (s t : Fr × ℕ) : decide (s.2 ≤ t.2) || decide (t.2 ≤ s.2) := by
    simpa using le_total s.2 t.2
  simpa using List.pairwise_mergeSort trans total terms

theorem weight_eq_zero (h : ∀ t ∈ terms, z t.2 = 0) : weight z terms = 0 := by
  induction terms with
  | nil => rfl
  | cons term terms ih =>
    obtain ⟨here, rest⟩ := List.forall_mem_cons.mp h
    rw [weight_cons, here, mul_zero, zero_add, ih rest]

/-- The coefficient of a variable is the weight where this variable is one and all others are
zero. -/
theorem Canonical.weight_of_mem (h : Canonical terms) (member : (c, v) ∈ terms) :
    weight (Pi.single v 1) terms = c := by
  induction terms with
  | nil => cases member
  | cons term terms ih =>
    obtain ⟨later, -, h⟩ := canonical_cons.mp h
    rw [weight_cons]
    rcases List.mem_cons.mp member with rfl | member
    · rw [weight_eq_zero fun t ht => Pi.single_eq_of_ne (later t ht).ne' 1, Pi.single_eq_same,
        mul_one, add_zero]
    · rw [ih h member, Pi.single_eq_of_ne (later (c, v) member).ne, mul_zero, zero_add]

theorem Canonical.subset (h : Canonical terms) (h' : Canonical terms')
    (same : ∀ z, weight z terms = weight z terms') : terms ⊆ terms' := by
  rintro ⟨c, v⟩ member
  have value : weight (Pi.single v 1) terms' = c := by rw [← same, h.weight_of_mem member]
  obtain ⟨⟨d, w⟩, member', rfl⟩ : ∃ t ∈ terms', t.2 = v := by
    by_contra absent
    have others (t : Fr × ℕ) (ht : t ∈ terms') : t.2 ≠ v := fun found => absurd ⟨t, ht, found⟩ absent
    rw [weight_eq_zero fun t ht => Pi.single_eq_of_ne (others t ht) 1] at value
    exact h.nonzero _ member value.symm
  rwa [← value, h'.weight_of_mem member']

/-- Canonical lists of one weight are one list: each variable has one coefficient, and the order
leaves no choice. -/
theorem Canonical.eq_of_weight (h : Canonical terms) (h' : Canonical terms')
    (same : ∀ z, weight z terms = weight z terms') : terms = terms' := by
  have : Std.Antisymm fun s t : Fr × ℕ => s.2 < t.2 :=
    ⟨fun _ _ before after => absurd after (lt_asymm before)⟩
  have : Std.Irrefl fun s t : Fr × ℕ => s.2 < t.2 := ⟨fun _ => lt_irrefl _⟩
  exact List.Subset.antisymm_of_pairwise h.increasing h'.increasing (h.subset h' same)
    (h'.subset h fun z => (same z).symm)

theorem canonical_ofExpr (e : Expr) : Canonical (ofExpr e).terms := canonical_compress _

theorem constant_ofExpr (e : Expr) : (ofExpr e).constant = e.eval 0 := by
  rw [← eval_ofExpr, eval_eq_weight, weight_eq_zero fun _ _ => rfl, add_zero]

/-- One value under every assignment makes one linear combination. -/
theorem ofExpr_congr {x y : Expr} (same : ∀ z, x.eval z = y.eval z) : ofExpr x = ofExpr y := by
  have constants : (ofExpr x).constant = (ofExpr y).constant := by
    rw [constant_ofExpr, constant_ofExpr, same]
  have weights (z : Assignment) : weight z (ofExpr x).terms = weight z (ofExpr y).terms := by
    have values : (ofExpr x).eval z = (ofExpr y).eval z := by rw [eval_ofExpr, eval_ofExpr, same]
    rw [eval_eq_weight, eval_eq_weight, constants] at values
    exact add_left_cancel values
  have terms := (canonical_ofExpr x).eq_of_weight (canonical_ofExpr y) weights
  exact congrArg₂ LinearCombination.mk constants terms

theorem ofExpr_const (c : Fr) : ofExpr (.const c) = ⟨c, []⟩ := by
  simp [ofExpr, Expr.constant, Expr.constantFrom, Expr.terms, Expr.termsFrom, compress]

theorem read_ofExpr {e : Expr} {w : Witness} {x : Fr} (h : e.read w = .ok x) :
    (ofExpr e).read w = .ok x := by
  rw [← Assignment.initial_ofWitness w] at h ⊢
  have carried := Expr.carries_of_read h
  rw [read_initial (below_ofExpr carried.below), eval_ofExpr, carried.eval]

end LinearCombination

open LinearCombination in
/-- An expression is a constant just when it has the value under every assignment. -/
theorem Expr.constant?_eq_some_iff {e : Expr} {c : Fr} :
    e.constant? = some c ↔ ∀ z, e.eval z = c := by
  refine ⟨eval_of_constant?, fun same => ?_⟩
  have form : ofExpr e = ⟨c, []⟩ := by
    rw [← ofExpr_const]
    exact ofExpr_congr same
  cases e with
  | const d => exact congrArg some (same 0)
  | var i => exact absurd ((same 0).trans (same 1).symm) zero_ne_one
  | add a b => simp [constant?, form, isConstant]
  | scale s e => simp [constant?, form, isConstant]

/-- Linear combinations are canonical: expressions become the same one just when they mean the
same, its terms are in increasing order of variable and not zero, and it has the value of the
expression, under any assignment and on any witness of the expression's variables. An expression
is found to be a constant just when it has one value under every assignment. -/
theorem LinearCombination.canonical_iff (x y : Expr) :
    (ofExpr x = ofExpr y ↔ ∀ z, x.eval z = y.eval z) ∧
    Canonical (ofExpr x).terms ∧
    (∀ z, (ofExpr x).eval z = x.eval z) ∧
    (∀ w v, x.read w = .ok v → (ofExpr x).read w = .ok v) ∧
    ∀ c, x.constant? = some c ↔ ∀ z, x.eval z = c := by
  refine ⟨⟨fun same z => ?_, ofExpr_congr⟩, canonical_ofExpr x, fun z => eval_ofExpr x,
    fun w v => read_ofExpr, fun c => Expr.constant?_eq_some_iff⟩
  rw [← eval_ofExpr, same, eval_ofExpr]

end RankOne
