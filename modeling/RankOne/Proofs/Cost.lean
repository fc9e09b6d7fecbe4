import RankOne.Proofs.Modes

/-! What a circuit costs: the variables that it allocates, and the rows that it records where it is
compiled. A row is recorded for every constraint but those without variables. A product, a square
or an exclusive or that is not folded costs one new variable and one row, which pins it. -/
namespace RankOne
variable {α β ω : Type} {n m j k : ℕ}

namespace Session
variable {s s' : Session} {label loc : String} {cs : List Constraint}

/-- A constraint without variables leaves the session that compiles as it is. -/
theorem constrain_of_isConstant {c : Constraint} (mode : s.mode = .compile)
    (constant : (Row.ofConstraint c label loc).isConstant)
    (h : s.constrain label loc c = (.ok (), s')) : s' = s := by
  simp only [constrain, mode, addRow, constant, if_true] at h
  split at h
  · exact (Prod.mk.inj h).2.symm
  · cases h

theorem rows_of_constrainAll (mode : s.mode = .compile)
    (h : s.constrainAll label loc cs = (.ok (), s')) :
    s'.rows.toList = s.rows.toList ++
      (cs.map (Row.ofConstraint · label loc)).filter (!·.isConstant) := by
  induction cs generalizing s with
  | nil => cases h; simp
  | cons c cs ih =>
    rw [constrainAll] at h
    cases recorded : s.constrain label loc c with
    | mk result s₁ =>
      rw [recorded] at h
      cases result with
      | error e => cases h
      | ok _ =>
        have rest := ih ((constrain_compile mode recorded).mode.trans mode) h
        rw [rest, List.map_cons]
        by_cases constant : (Row.ofConstraint c label loc).isConstant
        · rw [constrain_of_isConstant mode constant recorded, List.filter_cons_of_neg (by simpa)]
        · rw [Bool.not_eq_true] at constant
          rw [constrain_of_depends mode constant] at recorded
          cases recorded
          rw [List.filter_cons_of_pos (by simpa), Array.toList_push, List.append_assoc]
          rfl

end Session

namespace Circuit
variable {c : Circuit α} {f : α → Circuit β} {a : α} {P : α → Prop} {Q : β → Prop}

/-- The rows of the constraints from variable `n` on, in order. -/
def rows : Circuit α → ℕ → List Row
  | done _, _ => []
  | fail _, _ => []
  | witness s len _ _ next, n => (next n).rows (n + len * s.size)
  | store _ next, n => (next n).rows (n + 1)
  | constrain cs label loc next, n => cs.map (Row.ofConstraint · label loc) ++ next.rows n

theorem rows_bind (h : c.outcome n = some (a, m)) :
    (c.bind f).rows n = c.rows n ++ (f a).rows m := by
  induction c generalizing n with
  | done _ => cases h; rfl
  | fail _ => cases h
  | witness _ _ _ _ _ ih => exact ih _ h
  | store _ _ ih => exact ih _ h
  | constrain _ _ _ _ ih => rw [bind, rows, ih h, rows, List.append_assoc]

theorem rows_of_run {s s' : Session} (mode : s.mode = .compile) (h : c.run s = (.ok a, s')) :
    s'.rows.toList = s.rows.toList ++ (c.rows s.nextVar).filter (!·.isConstant) := by
  induction c generalizing s with
  | done _ => cases h; simp [rows]
  | fail _ => cases h
  | witness shape len loc hint next ih =>
    have allocated : s.allocate shape len loc hint =
        (.ok s.nextVar, s.reserve (len * shape.size)) := by
      simp [Session.allocate, mode]
    rw [run, allocated] at h
    exact ih _ (s := s.reserve (len * shape.size)) mode h
  | store x next ih => exact ih _ (s := s.assign [x]) mode h
  | constrain cs label loc next ih =>
    rw [run] at h
    cases recorded : s.constrainAll label loc cs with
    | mk result s₁ =>
      rw [recorded] at h
      cases result with
      | error e => cases h
      | ok _ =>
        have records := Session.constrainAll_compile mode recorded
        rw [ih (records.mode.trans mode) h, Session.rows_of_constrainAll mode recorded,
          records.nextVar, rows, List.filter_append, List.append_assoc]

/-- No compilation refuses a circuit whose rows all have variables. -/
theorem compilable_of_rows (h : ∀ row ∈ c.rows n, row.isConstant = false) :
    c.Emits (fun _ => Session.Compilable) n := by
  induction c generalizing n with
  | done _ => trivial
  | fail _ => trivial
  | witness _ _ _ _ _ ih => exact ih _ h
  | store _ _ ih => exact ih _ h
  | constrain cs label loc next ih =>
    obtain ⟨first, rest⟩ := List.forall_mem_append.mp h
    refine ⟨fun k member s label' loc' mode => ?_, ih rest⟩
    have depends : (Row.ofConstraint k label' loc').isConstant = false :=
      first (.ofConstraint k label loc) (List.mem_map_of_mem member)
    exact ⟨_, Session.constrain_of_depends mode depends⟩

/-- From variable `n` on the circuit allocates `k` variables and has as many rows, all of them with
variables. The result has a property. -/
structure Costs (c : Circuit α) (n k : ℕ) (P : α → Prop) : Prop where
  result : ∃ a, c.outcome n = some (a, n + k) ∧ P a
  length : (c.rows n).length = k
  recorded : ∀ row ∈ c.rows n, row.isConstant = false

namespace Costs

theorem pure (h : P a) : Costs (pure a) n 0 P := ⟨⟨a, rfl, h⟩, rfl, fun _ member => nomatch member⟩

theorem bind (hc : Costs c n j P) (next : ∀ a, P a → Costs (f a) (n + j) k Q) :
    Costs (c >>= f) n (j + k) Q := by
  obtain ⟨⟨a, first, property⟩, length, recorded⟩ := hc
  obtain ⟨⟨b, second, property'⟩, length', recorded'⟩ := next a property
  have appended : (c >>= f).rows n = c.rows n ++ (f a).rows (n + j) := rows_bind first
  refine ⟨⟨b, ?_, property'⟩, ?_, ?_⟩
  · change (c.bind f).outcome n = _
    rw [outcome_bind, first, ← Nat.add_assoc]
    exact second
  · rw [appended, List.length_append, length, length']
  · rw [appended]
    exact List.forall_mem_append.mpr ⟨recorded, recorded'⟩

theorem weaken {P' : α → Prop} (hc : Costs c n k P) (weaker : ∀ a, P a → P' a) :
    Costs c n k P' := by
  obtain ⟨a, outcome, property⟩ := hc.result
  exact ⟨⟨a, outcome, weaker a property⟩, hc.length, hc.recorded⟩

/-- A new variable, pinned by one constraint. -/
theorem pinned {s : Shape} {k : s.Var → Constraint} {label : Option String} {loc loc' : String}
    {hint : Witness → Except RuntimeError s.Value} (size : s.size = 1)
    (depends : ∀ label, (Row.ofConstraint (k (s.varsFrom n)) label loc').isConstant = false) :
    Costs (do
      let r ← computeFree s loc hint
      assert label loc' [k r]
      return r) n 1 (· = s.varsFrom n) := by
  refine ⟨⟨_, ?_, rfl⟩, rfl, List.forall_mem_singleton.mpr (depends _)⟩
  change some (s.varsFrom n, n + 1 * s.size) = _
  rw [size]

/-- A loop in which each step costs a variable and a row, or nothing. Step `i` starts after those
that the steps before it have cost. -/
theorem mapM {f : ω → Circuit β} {costs : ω → Bool} {R : ω → ℕ → β → Prop}
    (step : ∀ w n, Costs (f w) n (costs w).toNat (R w n)) (ws : List ω) (n : ℕ) :
    Costs (ws.mapM f) n (ws.countP costs) fun bs => ∀ i w, ws[i]? = some w →
      ∃ b, bs[i]? = some b ∧ R w (n + (ws.take i).countP costs) b := by
  induction ws generalizing n with
  | nil => exact Costs.pure fun i w found => by simp at found
  | cons w ws ih =>
    have count : (w :: ws).countP costs = (costs w).toNat + (ws.countP costs + 0) := by
      cases here : costs w <;> simp [here, Nat.add_comm]
    rw [List.mapM_cons, count]
    refine (step w n).bind fun b first => (ih _).bind fun bs rest => Costs.pure ?_
    intro i w' found
    cases i with
    | zero =>
      cases found
      exact ⟨b, rfl, by simpa using first⟩
    | succ i =>
      obtain ⟨b', found', later⟩ := rest i w' found
      refine ⟨b', found', ?_⟩
      have start : n + ((w :: ws).take (i + 1)).countP costs =
          n + (costs w).toNat + (ws.take i).countP costs := by
        cases here : costs w <;> simp [here, Nat.add_left_comm, Nat.add_comm]
      rwa [start]

end Costs

structure Takes (c : Circuit α) (k : ℕ) : Prop where
  /-- Whatever the mode, a run allocates `k` variables. -/
  allocates : ∀ (s s' : Session) (a : α), c.run s = (.ok a, s') → s'.nextVar = s.nextVar + k
  /-- It always compiles, to as many rows. -/
  rows : ∀ s : Session, s.mode = .compile → ∃ a s' rows, c.run s = (.ok a, s') ∧
    s'.rows.toList = s.rows.toList ++ rows ∧ rows.length = k

theorem Costs.of_run {s s' : Session} (hc : Costs c s.nextVar k P) (run : c.run s = (.ok a, s')) :
    s'.nextVar = s.nextVar + k ∧ P a := by
  obtain ⟨a', outcome, property⟩ := hc.result
  have same := (ran_of_run run).outcome a rfl
  rw [outcome] at same
  obtain ⟨rfl, variables'⟩ := Prod.mk.inj (Option.some.inj same)
  exact ⟨variables'.symm, property⟩

theorem takes_of_costs {P : ℕ → α → Prop} (hc : ∀ n, Costs c n k (P n)) : Takes c k where
  allocates s s' a run := ((hc s.nextVar).of_run run).1
  rows s mode := by
    obtain ⟨⟨a, outcome, -⟩, length, recorded⟩ := hc s.nextVar
    obtain ⟨s', run⟩ := run_compilable mode outcome (compilable_of_rows recorded)
    refine ⟨a, s', _, run, rows_of_run mode run, ?_⟩
    rw [List.filter_eq_self.mpr fun row member => by simp [recorded row member], length]

end Circuit
open Circuit

namespace Expr
variable {x y : Expr}

/-- The expression is a constant as it stands. Others may be constant in value. -/
def isConst : Expr → Bool
  | const _ => true
  | _ => false

@[simp] theorem isConst_const (c : Fr) : (const c).isConst = true := rfl

@[simp] theorem isConst_var (i : ℕ) : (var i).isConst = false := rfl

@[simp] theorem isConst_add (x y : Expr) : (add x y).isConst = false := rfl

@[simp] theorem isConst_scale (s : Fr) (x : Expr) : (scale s x).isConst = false := rfl

theorem isConst_plus (x y : Expr) : (x + y).isConst = (x.isConst && y.isConst) := by
  change (x.plus y).isConst = _
  cases x <;> cases y <;> simp [plus, apply_ite isConst]

/-- Neither expression is a constant as it stands, so that their product is a new variable. -/
def opens (x y : Expr) : Bool := !x.isConst && !y.isConst

theorem costs_mul (x y : Expr) (label : Option String) (loc : String) (n : ℕ) :
    Costs (x.mul y label loc) n (x.opens y).toNat fun r => x.opens y → r = .var n := by
  unfold mul
  split
  · exact .pure fun opened => by cases opened
  · rename_i c _
    have folded : x.opens (.const c) = false := by simp [opens, isConst]
    rw [folded]
    exact .pure fun opened => by cases opened
  · rename_i openX openY
    have opened : x.opens y := by
      cases x <;> cases y <;> simp_all [opens, isConst]
    rw [opened]
    exact (Costs.pinned (s := .field) (k := fun r => .product x y r) rfl
      fun label => Row.isConstant_of_variable (c := .product x y (.var n)) rfl label loc).weaken
      fun _ same _ => same

theorem costs_square (hx : x.isConst = false) (loc : String) (n : ℕ) :
    Costs (x.square loc) n 1 (· = .var n) := by
  unfold square
  split
  · cases hx
  · exact Costs.pinned (s := .field) (k := fun r => .square x r) rfl
      fun label => Row.isConstant_of_variable (c := .square x (.var n)) rfl label loc

end Expr
end RankOne
