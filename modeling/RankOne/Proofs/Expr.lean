import RankOne.Expr
import RankOne.Proofs.Field.Ring
import Mathlib.Algebra.BigOperators.Group.List.Basic
import Mathlib.Algebra.BigOperators.Ring.List

/-! What expressions mean. The folding operators keep the value, the canonical form of an
expression has its value, and reading from a witness gives the value under the assignment that
the witness is part of. -/
namespace RankOne

/-- A value for every variable, also for those never allocated. -/
abbrev Assignment := ℕ → Fr

namespace Assignment

/-- The values of `len` variables, the first of them of index `n`. -/
def window (z : Assignment) (n len : ℕ) : List Fr := (List.range' n len).map z

/-- The witness of the first `n` variables. -/
def initial (z : Assignment) (n : ℕ) : Witness := (z.window 0 n).toArray

/-- The assignment of a witness, with zero for the variables past its end. -/
def ofWitness (w : Witness) : Assignment := fun i => w.getD i 0

@[simp] theorem length_window (z : Assignment) (n len : ℕ) : (z.window n len).length = len := by
  simp [window]

@[simp] theorem size_initial (z : Assignment) (n : ℕ) : (z.initial n).size = n := by
  simp [initial]

@[simp] theorem window_zero (z : Assignment) (n : ℕ) : z.window n 0 = [] := rfl

theorem window_succ (z : Assignment) (n len : ℕ) :
    z.window n (len + 1) = z n :: z.window (n + 1) len := by
  simp [window, List.range'_succ]

theorem window_add (z : Assignment) (n a b : ℕ) :
    z.window n (a + b) = z.window n a ++ z.window (n + a) b := by
  simp [window, ← List.range'_append_1]

theorem getElem_window {z : Assignment} {n len i : ℕ} (h : i < (z.window n len).length) :
    (z.window n len)[i] = z (n + i) := by
  simp [window]

theorem window_congr {z z' : Assignment} {n len : ℕ}
    (h : ∀ i, n ≤ i → i < n + len → z i = z' i) : z.window n len = z'.window n len := by
  apply List.map_congr_left
  intro i member
  have bounds := List.mem_range'_1.mp member
  exact h i bounds.1 bounds.2

theorem eq_of_window {z z' : Assignment} {n len i : ℕ} (same : z.window n len = z'.window n len)
    (low : n ≤ i) (high : i < n + len) : z i = z' i :=
  List.map_inj_left.mp same i (List.mem_range'_1.mpr ⟨low, high⟩)

theorem initial_append_window (z : Assignment) (n len : ℕ) :
    z.initial n ++ z.window n len = z.initial (n + len) := by
  simp [initial, window_add z 0 n len]

theorem getElem?_initial {z : Assignment} {n i : ℕ} (h : i < n) :
    (z.initial n)[i]? = some (z i) := by
  simp [initial, window, h]

@[simp] theorem initial_ofWitness (w : Witness) : (ofWitness w).initial w.size = w := by
  apply Array.ext (by simp)
  intro i _ hi
  simp [initial, window, ofWitness, hi]

theorem ofWitness_eq {w : Witness} {i : ℕ} {x : Fr} (h : w[i]? = some x) : ofWitness w i = x := by
  simp [ofWitness, Array.getD_eq_getD_getElem?, h]

theorem ofWitness_initial {z : Assignment} {n i : ℕ} (h : i < n) :
    ofWitness (z.initial n) i = z i := ofWitness_eq (getElem?_initial h)

end Assignment

namespace Expr
variable {z : Assignment} {n : ℕ}

@[simp] theorem eval_const (c : Fr) : (const c).eval z = c := rfl
@[simp] theorem eval_var (i : ℕ) : (var i).eval z = z i := rfl
@[simp] theorem eval_zero : (0 : Expr).eval z = 0 := rfl
@[simp] theorem eval_one : (1 : Expr).eval z = 1 := rfl
@[simp] theorem below_const (c : Fr) : (const c).Below n := trivial
@[simp] theorem below_zero : (0 : Expr).Below n := trivial
@[simp] theorem below_one : (1 : Expr).Below n := trivial
@[simp] theorem below_var (i : ℕ) : (var i).Below n ↔ i < n := Iff.rfl

theorem Below.mono {e : Expr} {m : ℕ} (h : e.Below n) (le : n ≤ m) : e.Below m := by
  induction e with
  | const _ => trivial
  | var i => exact lt_of_lt_of_le h le
  | add a b iha ihb => exact ⟨iha h.1, ihb h.2⟩
  | scale s e ih => exact ih h

@[simp] theorem eval_plus (a b : Expr) : (a + b).eval z = a.eval z + b.eval z := by
  change (plus a b).eval z = _
  unfold plus
  split
  · split
    · simp_all
    · split <;> simp_all
  · split <;> simp_all [eval]
  · split <;> simp_all [eval]
  · rfl

theorem Below.plus {a b : Expr} (ha : a.Below n) (hb : b.Below n) : (a + b).Below n := by
  change (Expr.plus a b).Below n
  unfold Expr.plus
  split
  · split
    · exact hb
    · split
      · exact ha
      · trivial
  · split
    · exact hb
    · exact ⟨ha, hb⟩
  · split
    · exact ha
    · exact ⟨ha, hb⟩
  · exact ⟨ha, hb⟩

@[simp] theorem eval_scaleBy (e : Expr) (s : Fr) : (e.scaleBy s).eval z = s * e.eval z := by
  unfold scaleBy
  split
  · simp_all
  · split
    · simp_all
    · split
      · simp [mul_comm]
      · simp only [eval]; ring
      · rfl

theorem const_plus_const (x y : Fr) : const x + const y = const (x + y) := by
  change plus (const x) (const y) = _
  simp only [plus]
  split_ifs <;> simp [*]

theorem scaleBy_const (x s : Fr) : (const x).scaleBy s = const (s * x) := by
  unfold scaleBy
  split_ifs <;> simp [*, mul_comm]

theorem Below.scaleBy {e : Expr} (h : e.Below n) (s : Fr) : (e.scaleBy s).Below n := by
  unfold Expr.scaleBy
  split
  · trivial
  · split
    · exact h
    · split <;> exact h

@[simp] theorem eval_negate (e : Expr) : (-e).eval z = -e.eval z := by
  change (e.scaleBy (-1)).eval z = _
  simp

@[simp] theorem eval_minus (a b : Expr) : (a - b).eval z = a.eval z - b.eval z := by
  change (minus a b).eval z = _
  unfold minus
  split
  · rfl
  · change (a + -b).eval z = _
    rw [eval_plus, eval_negate, sub_eq_add_neg]

theorem Below.minus {a b : Expr} (ha : a.Below n) (hb : b.Below n) : (a - b).Below n := by
  change (Expr.minus a b).Below n
  unfold Expr.minus
  split
  · trivial
  · exact ha.plus (hb.scaleBy _)

theorem eval_foldl_plus (terms : List (Fr × Expr)) (start : Expr) :
    (terms.foldl (fun acc term => acc + term.2.scaleBy term.1) start).eval z =
      start.eval z + (terms.map fun term => term.1 * term.2.eval z).sum := by
  induction terms generalizing start with
  | nil => simp
  | cons term terms ih =>
    rw [List.foldl_cons, ih, eval_plus, eval_scaleBy, List.map_cons, List.sum_cons, add_assoc]

@[simp] theorem eval_linearCombination (terms : List (Fr × Expr)) :
    (linearCombination terms).eval z = (terms.map fun term => term.1 * term.2.eval z).sum := by
  rw [linearCombination, eval_foldl_plus, eval_zero, zero_add]

theorem Below.linearCombination {terms : List (Fr × Expr)} (h : ∀ t ∈ terms, t.2.Below n) :
    (Expr.linearCombination terms).Below n := by
  have step (start : Expr) (hs : start.Below n) : (terms.foldl
      (fun acc term => acc + term.2.scaleBy term.1) start).Below n := by
    induction terms generalizing start with
    | nil => exact hs
    | cons term terms ih =>
      exact ih (fun t ht => h t (List.mem_cons_of_mem _ ht)) _
        (hs.plus ((h term List.mem_cons_self).scaleBy _))
  exact step 0 trivial

theorem read_initial {e : Expr} (h : e.Below n) : e.read (z.initial n) = .ok (e.eval z) := by
  induction e with
  | const _ => rfl
  | var i => simp [read, Assignment.getElem?_initial h]
  | add a b iha ihb => rw [read, iha h.1, ihb h.2]; rfl
  | scale s e ih => rw [read, ih h]; rfl

theorem eval_of_read {e : Expr} {w : Witness} {x : Fr} (h : e.read w = .ok x) :
    e.eval (Assignment.ofWitness w) = x := by
  induction e generalizing x with
  | const c => cases h; rfl
  | var i =>
    rw [read] at h
    split at h
    · cases h; exact Assignment.ofWitness_eq ‹_›
    · cases h
  | add a b iha ihb =>
    rw [read] at h
    cases ha : a.read w with
    | error e => rw [ha] at h; cases h
    | ok u =>
      cases hb : b.read w with
      | error e => rw [ha, hb] at h; cases h
      | ok v => rw [ha, hb] at h; cases h; rw [eval, iha ha, ihb hb]
  | scale s e ih =>
    rw [read] at h
    cases he : e.read w with
    | error _ => rw [he] at h; cases h
    | ok u => rw [he] at h; cases h; rw [eval, ih he]

end Expr

namespace LinearCombination
variable {z : Assignment}

def weight (z : Assignment) (terms : List (Fr × ℕ)) : Fr :=
  (terms.map fun term => term.1 * z term.2).sum

@[simp] theorem weight_nil : weight z [] = 0 := rfl

@[simp] theorem weight_cons (term : Fr × ℕ) (terms : List (Fr × ℕ)) :
    weight z (term :: terms) = term.1 * z term.2 + weight z terms := by
  simp [weight]

theorem eval_eq_weight (lc : LinearCombination) : lc.eval z = lc.constant + weight z lc.terms := by
  have fold (start : Fr) (terms : List (Fr × ℕ)) :
      terms.foldl (fun acc term => acc + term.1 * z term.2) start = start + weight z terms := by
    induction terms generalizing start with
    | nil => simp
    | cons term terms ih => rw [List.foldl_cons, ih, weight_cons, add_assoc]
  exact fold _ _

theorem weight_keep (c : Fr) (v : ℕ) (terms : List (Fr × ℕ)) :
    weight z (keep c v terms) = c * z v + weight z terms := by
  unfold keep
  split
  · simp_all
  · simp

theorem weight_addFirst (term : Fr × ℕ) (terms : List (Fr × ℕ)) :
    weight z (addFirst term terms) = term.1 * z term.2 + weight z terms := by
  cases terms with
  | nil => rw [addFirst, weight_keep]
  | cons next rest =>
    rw [addFirst]
    split
    · simp_all only [weight_keep, weight_cons]; ring
    · rw [weight_keep]

theorem weight_compress (terms : List (Fr × ℕ)) : weight z (compress terms) = weight z terms := by
  have fold (terms : List (Fr × ℕ)) :
      weight z (terms.foldr addFirst []) = weight z terms := by
    induction terms with
    | nil => rfl
    | cons term terms ih => rw [List.foldr_cons, weight_addFirst, ih, weight_cons]
  rw [compress, fold]
  exact ((List.mergeSort_perm _ _).map _).sum_eq

theorem weight_termsFrom (e : Expr) (s : Fr) (rest : List (Fr × ℕ)) :
    e.constantFrom s + weight z (e.termsFrom s rest) = s * e.eval z + weight z rest := by
  induction e generalizing s rest with
  | const c => simp [Expr.constantFrom, Expr.termsFrom]
  | var i => simp [Expr.constantFrom, Expr.termsFrom]
  | add a b iha ihb =>
    simp only [Expr.constantFrom, Expr.termsFrom, Expr.eval]
    linear_combination iha s (b.termsFrom s rest) + ihb s rest
  | scale t e ih =>
    simp only [Expr.constantFrom, Expr.termsFrom, Expr.eval]
    linear_combination ih (s * t) rest

@[simp] theorem eval_ofExpr (e : Expr) : (ofExpr e).eval z = e.eval z := by
  rw [eval_eq_weight, ofExpr, weight_compress]
  have h := weight_termsFrom (z := z) e 1 []
  rwa [weight_nil, add_zero, one_mul] at h

theorem eval_of_isConstant {lc : LinearCombination} (h : lc.isConstant) :
    lc.eval z = lc.constant := by
  rw [eval_eq_weight, List.isEmpty_iff.mp h, weight_nil, add_zero]

def Below (n : ℕ) (lc : LinearCombination) : Prop := ∀ term ∈ lc.terms, term.2 < n

theorem mem_keep {c : Fr} {v : ℕ} {terms : List (Fr × ℕ)} {t : Fr × ℕ} (h : t ∈ keep c v terms) :
    t.2 = v ∨ t ∈ terms := by
  unfold keep at h
  split at h
  · exact Or.inr h
  · rcases List.mem_cons.mp h with rfl | h
    · exact Or.inl rfl
    · exact Or.inr h

/-- Adding a term brings in no variable but its own. -/
theorem forall_addFirst {p : ℕ → Prop} {term : Fr × ℕ} {terms : List (Fr × ℕ)} (first : p term.2)
    (h : ∀ t ∈ terms, p t.2) : ∀ t ∈ addFirst term terms, p t.2 := by
  intro t ht
  cases terms with
  | nil =>
    rcases mem_keep ht with same | ht
    · rw [same]; exact first
    · simp at ht
  | cons next rest =>
    rw [addFirst] at ht
    split at ht
    · rcases mem_keep ht with same | ht
      · rw [same]; exact h next List.mem_cons_self
      · exact h t (List.mem_cons_of_mem _ ht)
    · rcases mem_keep ht with same | ht
      · rw [same]; exact first
      · exact h t ht

theorem forall_foldr_addFirst {p : ℕ → Prop} {terms : List (Fr × ℕ)} (h : ∀ t ∈ terms, p t.2) :
    ∀ t ∈ terms.foldr addFirst [], p t.2 := by
  induction terms with
  | nil => simp
  | cons term terms ih =>
    obtain ⟨first, rest⟩ := List.forall_mem_cons.mp h
    exact forall_addFirst first (ih rest)

theorem below_compress {n : ℕ} {terms : List (Fr × ℕ)} (h : ∀ t ∈ terms, t.2 < n) :
    ∀ t ∈ compress terms, t.2 < n := by
  apply forall_foldr_addFirst (p := (· < n))
  intro t ht
  exact h t (List.mem_mergeSort.mp ht)

theorem below_termsFrom {n : ℕ} {e : Expr} (s : Fr) {rest : List (Fr × ℕ)} (he : e.Below n)
    (h : ∀ t ∈ rest, t.2 < n) : ∀ t ∈ e.termsFrom s rest, t.2 < n := by
  induction e generalizing s rest with
  | const c => exact h
  | var i =>
    intro t ht
    rcases List.mem_cons.mp ht with rfl | ht
    · exact he
    · exact h t ht
  | add a b iha ihb => exact iha s he.1 (ihb s he.2 h)
  | scale t e ih => exact ih (s * t) he h

theorem below_ofExpr {n : ℕ} {e : Expr} (h : e.Below n) : (ofExpr e).Below n :=
  below_compress (below_termsFrom 1 h (by simp))

theorem read_cons {w : Witness} {term : Fr × ℕ} {y : Fr} (found : w[term.2]? = some y) (c : Fr)
    (terms : List (Fr × ℕ)) :
    read w ⟨c, term :: terms⟩ = read w ⟨c + term.1 * y, terms⟩ := by
  rw [read, List.foldlM_cons, found]
  rfl

theorem read_initial {n : ℕ} {lc : LinearCombination} (h : lc.Below n) :
    lc.read (z.initial n) = .ok (lc.eval z) := by
  obtain ⟨c, terms⟩ := lc
  induction terms generalizing c with
  | nil => rfl
  | cons term terms ih =>
    have inside := Assignment.getElem?_initial (z := z) (h term List.mem_cons_self)
    rw [read_cons inside, ih _ fun t ht => h t (List.mem_cons_of_mem _ ht)]
    rfl

theorem eval_of_read {lc : LinearCombination} {w : Witness} {x : Fr} (h : lc.read w = .ok x) :
    lc.eval (Assignment.ofWitness w) = x := by
  obtain ⟨c, terms⟩ := lc
  induction terms generalizing c with
  | nil => cases h; rfl
  | cons term terms ih =>
    cases found : w[term.2]? with
    | none =>
      rw [read, List.foldlM_cons, found] at h
      cases h
    | some y =>
      rw [read_cons found] at h
      rw [← ih _ h, eval, List.foldl_cons, Assignment.ofWitness_eq found]
      rfl

end LinearCombination

namespace Expr

theorem eval_of_constant? {e : Expr} {c : Fr} (h : e.constant? = some c) (z : Assignment) :
    e.eval z = c := by
  unfold constant? at h
  split at h
  · cases h; rfl
  · cases h
  · dsimp only at h
    split at h
    · cases h
      rw [← LinearCombination.eval_ofExpr, LinearCombination.eval_of_isConstant ‹_›]
    · cases h

end Expr
end RankOne
