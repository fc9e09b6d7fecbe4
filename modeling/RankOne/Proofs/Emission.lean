import RankOne.Proofs.Session

/-! Constraints emitted to a session that compiles, and the rows that it records. A constraint is
rejected only for a row without variables that does not hold. The rows hold together with the
accepted constraints, and the check of a witness reports the first row that does not hold. -/
namespace RankOne
variable {z : Assignment} {n : ℕ}

namespace Row

/-- What the check of a row reports that does not hold. -/
def violation (z : Assignment) (index : ℕ) (row : Row) : RuntimeError :=
  .notProduct s!"{row.label} (row {index}, {row.loc})" (row.a.eval z) (row.b.eval z) (row.c.eval z)

theorem check_of_violated {row : Row} (below : row.Below n) (violated : ¬row.Holds z)
    (index : ℕ) : row.check (z.initial n) index = .error (row.violation z index) := by
  rw [check, LinearCombination.read_initial below.1, LinearCombination.read_initial below.2.1,
    LinearCombination.read_initial below.2.2]
  exact if_neg violated

end Row

namespace ConstraintSystem

structure FirstViolated (z : Assignment) (rows : List Row) (i : ℕ) (row : Row) : Prop where
  found : rows[i]? = some row
  violated : ¬row.Holds z
  earlier : ∀ j < i, ∀ other, rows[j]? = some other → other.Holds z

theorem checkRows_of_violated {rows : List Row} (below : ∀ row ∈ rows, row.Below n)
    (violated : ¬∀ row ∈ rows, row.Holds z) (start : ℕ) :
    ∃ i row, FirstViolated z rows i row ∧
      checkRows (z.initial n) rows start = .error (row.violation z (start + i)) := by
  induction rows generalizing start with
  | nil => exact absurd (fun _ member => absurd member List.not_mem_nil) violated
  | cons row rows ih =>
    have first := below row List.mem_cons_self
    by_cases holds : row.Holds z
    · have rest : ¬∀ row ∈ rows, row.Holds z := by
        intro all
        exact violated (List.forall_mem_cons.mpr ⟨holds, all⟩)
      obtain ⟨i, other, ⟨found, broken, earlier⟩, report⟩ :=
        ih (fun r hr => below r (List.mem_cons_of_mem _ hr)) rest (start + 1)
      refine ⟨i + 1, other, ⟨found, broken, ?_⟩, ?_⟩
      · intro j hj r hr
        cases j with
        | zero => cases hr; exact holds
        | succ j => exact earlier j (Nat.lt_of_succ_lt_succ hj) r hr
      · rw [checkRows, Row.check_initial first holds, ← Nat.add_assoc, Nat.add_right_comm]
        exact report
    · refine ⟨0, row, ⟨rfl, holds, fun j hj => absurd hj (Nat.not_lt_zero j)⟩, ?_⟩
      rw [checkRows, Row.check_of_violated first holds]
      rfl

/-- A witness of all variables that is not accepted is refused for the first row that it breaks. -/
theorem check_of_violated {system : ConstraintSystem}
    (below : ∀ row ∈ system.rows, row.Below system.variableCount)
    (violated : ¬∀ row ∈ system.rows, row.Holds z) :
    ∃ i row, FirstViolated z system.rows.toList i row ∧
      system.check (z.initial system.variableCount) = .error (row.violation z i) := by
  have inScope : ∀ row ∈ system.rows.toList, row.Below system.variableCount :=
    fun r hr => below r (Array.mem_toList_iff.mp hr)
  obtain ⟨i, row, first, report⟩ := checkRows_of_violated inScope
    (fun all => violated fun r hr => all r (Array.mem_toList_iff.mpr hr)) 0
  refine ⟨i, row, first, ?_⟩
  rw [check, if_pos (Assignment.size_initial _ _), report, Nat.zero_add]

end ConstraintSystem

structure Emission where
  constraint : Constraint
  label : String
  loc : String

def Emission.row (e : Emission) : Row := .ofConstraint e.constraint e.label e.loc

namespace Session
variable {s : Session} {e : Emission}

def emit (s : Session) (e : Emission) : Except Error Unit × Session :=
  s.constrain e.label e.loc e.constraint

/-- Emits constraints one after the other, whatever becomes of those before. -/
def emitEach (s : Session) : List Emission → List (Except Error Unit) × Session
  | [] => ([], s)
  | e :: es => ((s.emit e).1 :: ((s.emit e).2.emitEach es).1, ((s.emit e).2.emitEach es).2)

/-- Rows with variables are accepted, and rows without if they hold. -/
theorem emit_error_iff (mode : s.mode = .compile) (z : Assignment) :
    (∃ error, (s.emit e).1 = .error error) ↔ e.row.isConstant ∧ ¬e.constraint.Holds z := by
  simp only [emit, constrain, mode]
  change (∃ error, (s.addRow e.row).1 = .error error) ↔ _
  unfold addRow
  by_cases constant : e.row.isConstant = true
  · rw [if_pos constant, ← Row.holds_ofConstraint e.constraint e.label e.loc]
    change _ ↔ _ ∧ ¬e.row.Holds z
    rw [Row.holds_of_isConstant constant]
    dsimp only
    split <;> simp [*]
  · rw [if_neg constant]
    simp [constant]

/-- A rejected constraint leaves the session as it was, and an accepted one records it. -/
theorem emit_compile (mode : s.mode = .compile) :
    ((s.emit e).1 = .ok () ∧ Records [e.constraint] s (s.emit e).2) ∨
      ((∃ error, (s.emit e).1 = .error error) ∧ (s.emit e).2 = s) := by
  cases emitted : s.emit e with
  | mk result s' =>
    cases result with
    | ok _ => exact .inl ⟨rfl, constrain_compile mode emitted⟩
    | error error =>
      refine .inr ⟨⟨error, rfl⟩, ?_⟩
      simp only [emit, constrain, mode, addRow] at emitted
      split at emitted
      · split at emitted
        · cases emitted
        · exact (congrArg Prod.snd emitted).symm
      · cases emitted

def accepted (s : Session) (es : List Emission) : List Constraint :=
  (es.zip (s.emitEach es).1).filterMap fun (e, result) =>
    match result with
    | .ok () => some e.constraint
    | .error _ => none

theorem emitEach_compile (mode : s.mode = .compile) (es : List Emission) :
    Records (s.accepted es) s (s.emitEach es).2 := by
  induction es generalizing s with
  | nil => exact .refl s
  | cons e es ih =>
    obtain ⟨ok, one⟩ | ⟨⟨error, failed⟩, same⟩ := emit_compile (e := e) mode
    · have list : s.accepted (e :: es) = e.constraint :: (s.emit e).2.accepted es := by
        simp [accepted, emitEach, ok]
      rw [list]
      exact one.append (ih (one.mode.trans mode))
    · have list : s.accepted (e :: es) = s.accepted es := by
        simp [accepted, emitEach, failed, same]
      rw [list, emitEach, same]
      exact ih mode

theorem getElem?_emitEach (mode : s.mode = .compile) {es : List Emission} {k : ℕ}
    (h : es[k]? = some e) :
    ∃ s' : Session, s'.mode = .compile ∧ (s.emitEach es).1[k]? = some (s'.emit e).1 := by
  induction es generalizing s k with
  | nil => simp at h
  | cons first es ih =>
    cases k with
    | zero =>
      cases h
      exact ⟨s, mode, rfl⟩
    | succ k =>
      have next : (s.emit first).2.mode = .compile := by
        obtain ⟨-, one⟩ | ⟨-, same⟩ := emit_compile (e := first) mode
        · exact one.mode.trans mode
        · rw [same, mode]
      exact ih next h

/-- The rows mean the constraints: what is rejected has no variables and is false under every
assignment, and a witness of all variables passes the check of the rows just when it passes the
checks of the accepted constraints. Otherwise the first row that it breaks is reported. -/
theorem rows_of_emitEach {es : List Emission} {results : List (Except Error Unit)} {s' : Session}
    (mode : s.mode = .compile) (empty : s.rows = #[]) (emitted : s.emitEach es = (results, s')) :
    (∀ (k : ℕ) (e : Emission), es[k]? = some e →
      (∀ z, (∃ error, results[k]? = some (.error error)) ↔
        e.row.isConstant ∧ ¬e.constraint.Holds z) ∧
      ((∃ error, results[k]? = some (.error error)) →
        ∀ w label, ∃ error, e.constraint.check w label = .error error)) ∧
    ∀ w : Witness, w.size = s'.system.variableCount → (∀ c ∈ s.accepted es, c.Below w.size) →
      (s'.system.check w = .ok () ↔ ∀ c ∈ s.accepted es, ∀ label, c.check w label = .ok ()) ∧
      (s'.system.check w ≠ .ok () →
        ∃ i row, ConstraintSystem.FirstViolated (.ofWitness w) s'.rows.toList i row ∧
          s'.system.check w = .error (row.violation (.ofWitness w) i)) := by
  refine ⟨fun k e found => ?_, fun w size below => ?_⟩
  · obtain ⟨s₁, mode₁, result⟩ := getElem?_emitEach mode found
    rw [emitted] at result
    rw [result]
    simp only [Option.some_inj]
    refine ⟨emit_error_iff mode₁, fun rejected w label => ?_⟩
    cases checked : e.constraint.check w label with
    | error error => exact ⟨error, rfl⟩
    | ok _ =>
      exact absurd (Constraint.holds_of_check checked) ((emit_error_iff mode₁ _).mp rejected).2
  · have records := emitEach_compile mode es
    rw [emitted] at records
    have rows : ∀ row ∈ s'.system.rows, row.Below s'.system.variableCount :=
      records.below _ (by simp [empty]) (size ▸ below)
    have meaning : (∀ row ∈ s'.system.rows, row.Holds (Assignment.ofWitness w)) ↔
        ∀ c ∈ s.accepted es, c.Holds (Assignment.ofWitness w) :=
      (records.holds _).trans (by simp [empty])
    have whole : (Assignment.ofWitness w).initial w.size = w := Assignment.initial_ofWitness w
    have each : (∀ c ∈ s.accepted es, c.Holds (Assignment.ofWitness w)) ↔
        ∀ c ∈ s.accepted es, ∀ label, c.check w label = .ok () := by
      refine forall₂_congr fun c member => ⟨fun holds label => ?_, fun checks => ?_⟩
      · rw [← whole]
        exact (Constraint.check_initial_iff (below c member) label).mpr holds
      · exact Constraint.holds_of_check (checks "")
    have accepts := ConstraintSystem.check_eq_ok_iff (w := w) rows
    rw [← each, ← meaning, accepts, and_iff_right size]
    refine ⟨Iff.rfl, fun refused => ?_⟩
    have report := ConstraintSystem.check_of_violated rows fun holds =>
      refused (accepts.mpr ⟨size, holds⟩)
    rwa [← size, whole] at report

/-- Two variables under four constraints. The second is rejected and the third needs no row; the
witness breaks the first. -/
theorem rows_of_four_constraints :
    let s := (Session.start .compile).reserve 2
    let es : List Emission := [⟨.isBit (.var 0), "bit", "L0"⟩,
      ⟨.equal (.const 2) (.const 3), "equal", "L1"⟩,
      ⟨.product (.const 2) (.const 3) (.const (.ofNat 6)), "product", "L2"⟩,
      ⟨.square (.var 0) (.var 1), "square", "L3"⟩]
    let w : Witness := #[.ofNat 5, .ofNat 25]
    ∃ results s', s.mode = .compile ∧ s.rows = #[] ∧ s.emitEach es = (results, s') ∧
      (∃ error, results[1]? = some (.error error)) ∧
      w.size = s'.system.variableCount ∧ (∀ c ∈ s.accepted es, c.Below w.size) ∧
      ∃ i row, ConstraintSystem.FirstViolated (.ofWitness w) s'.rows.toList i row ∧
        s'.system.check w = .error (row.violation (.ofWitness w) i) := by
  intro s es w
  have list : s.accepted es = [.isBit (.var 0),
      .product (.const 2) (.const 3) (.const (.ofNat 6)), .square (.var 0) (.var 1)] := by
    decide +kernel
  have size : w.size = (s.emitEach es).2.system.variableCount :=
    (emitEach_compile (s := s) rfl es).nextVar.symm
  have below : ∀ c ∈ s.accepted es, c.Below w.size := by
    rw [list]
    simp [Constraint.Below, w]
  have emitted : s.emitEach es = ((s.emitEach es).1, (s.emitEach es).2) := rfl
  obtain ⟨rejects, checks⟩ := rows_of_emitEach rfl rfl emitted
  have rejected : (⟨.equal (.const 2) (.const 3), "equal", "L1"⟩ : Emission).row.isConstant ∧
      ¬(Constraint.equal (.const 2) (.const 3)).Holds fun _ => 0 :=
    ⟨by decide +kernel, by decide⟩
  refine ⟨_, _, rfl, rfl, rfl, ((rejects 1 _ rfl).1 _).mpr rejected, size, below, ?_⟩
  refine (checks w size below).2 fun passed => ?_
  have bit := (checks w size below).1.mp passed (.isBit (.var 0)) (by rw [list]; simp) ""
  exact absurd (Constraint.holds_of_check bit) (by decide)

end Session
end RankOne
