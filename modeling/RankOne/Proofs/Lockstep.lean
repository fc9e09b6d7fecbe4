import RankOne.Program.Task
import RankOne.Proofs.Invariant.Program
import RankOne.Proofs.Modes

/-! Programs take the same steps in every mode. A program that compiles counts the same variables
without its rows, and computes witnesses of the same results; a witness session that checks
constraints accepts the witnesses that the compiled rows accept. -/
namespace RankOne

/-- Variables allocated before. -/
def WireInvariant.scoping : WireInvariant where
  expr n e := e.Below n
  bit n b := b.expr.Below n
  granted _ := True
  expr_mono le h := h.mono le
  bit_mono le h := Expr.Below.mono h le
  const _ _ := trivial
  var h := h
  add ha hb := ⟨ha, hb⟩
  scale _ h := h
  unscale h := h
  ofBit h := h
  bitConst _ _ := trivial
  bitNot h := Expr.Below.minus trivial h
  bitScaled _ h := Expr.Below.scaleBy h _
  bitProduct _ _ h _ := h
  bitXor _ _ h _ := h
  bitChecked h _ := h

theorem Build.run_bind {α β : Type} (work : Build α) (next : α → Build β) (s : Session) :
    (work >>= next).run.run s = match work.run.run s with
      | (.ok a, s') => (next a).run.run s'
      | (.error e, s') => (.error e, s') := by
  have unfolded : (work >>= next).run.run s = match work.run.run s with
      | (r, s') => ExceptT.bindCont next r s' := rfl
  rw [unfolded]
  cases work.run.run s with
  | mk r s' => cases r <;> rfl

namespace Program
variable {results rs : Results} {s s' : Session}

/-- No operand names a variable by its index, so that all of them are built from results. -/
def Closed (program : Program) : Prop := ∀ step ∈ program, step.operation.variables = []

instance (program : Program) : Decidable program.Closed :=
  inferInstanceAs (Decidable (∀ step ∈ program, _ = []))

theorem scoped_circuit {program : Program} (closed : program.Closed) :
    program.circuit.Scoped 0 := by
  have kept : WireInvariant.scoping.Keeps program.circuit 0 := by
    refine WireInvariant.keeps_circuitFrom (fun _ member => absurd member List.not_mem_nil) ?_
      (.inl fun _ _ h => h)
    intro step member
    rw [closed step member]
    exact fun _ inside => absurd inside List.not_mem_nil
  have same : WireInvariant.scoping.constraint = fun m k => k.Below m := by
    funext m k
    cases k <;> rfl
  rw [Circuit.scoped_iff_emits, ← same]
  exact kept.emits (Circuit.emits_of_forall (fun _ _ => trivial) _ _)

/-! ### Running a program -/

/-- Runs the steps of a program in order, up to the first that fails. -/
def buildFrom (results : Results) : List Step → Build Results
  | [] => pure results
  | step :: steps => do buildFrom (results.push (← step.run results)) steps

def run (program : Program) (mode : Mode) : Except Error Results × Session :=
  (buildFrom #[] program).start mode

theorem run_step (results : Results) (step : Step) (s : Session) :
    (step.run results).run.run s = (step.operation.circuit results step.loc).run s := rfl

theorem run_buildFrom (results : Results) (steps : List Step) (s : Session) :
    (buildFrom results steps).run.run s = (circuitFrom results steps).run s := by
  induction steps generalizing results s with
  | nil => rfl
  | cons step steps ih =>
    rw [buildFrom, Build.run_bind, run_step, circuitFrom, Circuit.run_bind]
    cases (step.operation.circuit results step.loc).run s with
    | mk r s' =>
      cases r with
      | error e => rfl
      | ok v => exact ih _ s'

theorem run_eq (program : Program) (mode : Mode) :
    program.run mode = program.circuit.run (.start mode) :=
  run_buildFrom #[] program (.start mode)

variable {program : Program} {compiled : Session}

theorem circuitFrom_append (results : Results) (xs ys : List Step) :
    circuitFrom results (xs ++ ys) = circuitFrom results xs >>= fun rs => circuitFrom rs ys := by
  induction xs generalizing results with
  | nil => rfl
  | cons step xs ih => simp only [List.cons_append, circuitFrom, ih, bind_assoc]

theorem run_take (h : program.run .compile = (.ok results, compiled)) (k : ℕ) :
    ∃ rs s, run (program.take k) .compile = (.ok rs, s) := by
  rw [run_eq, circuit, ← List.take_append_drop k program, circuitFrom_append, Circuit.run_bind] at h
  rw [run_eq, circuit]
  cases run : (circuitFrom #[] (program.take k)).run (.start .compile) with
  | mk r s =>
    cases r with
    | error e => rw [run] at h; cases h
    | ok rs => exact ⟨rs, s, rfl⟩

/-- What the other modes have in common with a compilation after the same steps. A witness may
be given up, but only for its values. -/
structure Lockstep (program : Program) (results : Results) (compiled : Session) : Prop where
  counted : ∃ s, program.run .count = (.ok results, s) ∧ s.nextVar = compiled.nextVar
  below : ∀ row ∈ compiled.rows, row.Below compiled.nextVar
  filled : ∀ checked, (program.run (.witness checked)).2.Filled
  witnessed : ∀ checked rs s, program.run (.witness checked) = (.ok rs, s) →
    rs = results ∧ s.nextVar = compiled.nextVar
  failed : ∀ checked e s, program.run (.witness checked) = (.error e, s) → ∃ e', e = .runtime e'

theorem lockstep (closed : program.Closed)
    (h : program.run .compile = (.ok results, compiled)) : program.Lockstep results compiled := by
  have run := (run_eq program .compile).symm.trans h
  obtain ⟨outcome, -, below⟩ := Circuit.run_compile rfl run
  change program.circuit.outcome 0 = _ at outcome
  refine ⟨?_, below (by simp [Session.start]) (scoped_circuit closed), fun checked => ?_,
    fun checked rs s witnessed => ?_, fun checked e s failed => ?_⟩
  · rw [run_eq]
    exact Circuit.run_count rfl outcome
  · rw [run_eq]
    exact (Circuit.ran_of_run rfl).filled rfl rfl
  · rw [run_eq] at witnessed
    have same := (Circuit.ran_of_run witnessed).outcome rs rfl
    change program.circuit.outcome 0 = _ at same
    rw [outcome] at same
    obtain ⟨results, nextVar⟩ := Prod.mk.inj (Option.some.inj same)
    exact ⟨results.symm, nextVar.symm⟩
  · rw [run_eq] at failed
    have fails := (Circuit.ran_of_run failed).fails e rfl
      (by change (program.circuit.outcome 0).isSome; rw [outcome]; rfl)
    rcases fails with mode | ⟨_, e', -, same⟩
    · cases mode
    · exact ⟨e', same⟩

/-- A witness session runs the whole program, and ends with the values of a witness. -/
def Computes (program : Program) (checked : Bool) (w : Witness) : Prop :=
  ∃ results s, program.run (.witness checked) = (.ok results, s) ∧ s.values = w

theorem computes_iff (closed : program.Closed)
    (h : program.run .compile = (.ok results, compiled)) {checked : Bool} {w : Witness} :
    program.Computes checked w ↔
      w.size = compiled.nextVar ∧ program.circuit.Follows (.ofWitness w) 0 ∧
        (checked = true → program.circuit.Holds (.ofWitness w) 0) := by
  have outcome := (Circuit.ran_of_run ((run_eq program .compile).symm.trans h)).outcome results rfl
  rw [← Circuit.run_witness_iff checked outcome (scoped_circuit closed), ← run_eq]
  constructor
  · rintro ⟨rs, s, run, values⟩
    obtain ⟨rfl, -⟩ := (lockstep closed h).witnessed checked rs s run
    exact ⟨s, run, values⟩
  · rintro ⟨s, run, values⟩
    exact ⟨results, s, run, values⟩

theorem check_iff (closed : program.Closed) (h : program.run .compile = (.ok results, compiled))
    {w : Witness} : compiled.system.check w = .ok () ↔
      w.size = compiled.nextVar ∧ program.circuit.Holds (.ofWitness w) 0 := by
  obtain ⟨-, holds, -⟩ := Circuit.run_compile rfl ((run_eq program .compile).symm.trans h)
  have rows : (∀ row ∈ compiled.system.rows, row.Holds (Assignment.ofWitness w)) ↔
      program.circuit.Holds (.ofWitness w) 0 :=
    (holds _).trans (and_iff_right (by simp [Session.start]))
  rw [ConstraintSystem.check_eq_ok_iff (lockstep closed h).below, rows]
  rfl

/-- The modes of a program that compiles go in lockstep. -/
theorem lockstep_of_compile (closed : program.Closed)
    (h : program.run .compile = (.ok results, compiled)) :
    (∀ k, ∃ rs s, run (program.take k) .compile = (.ok rs, s) ∧ Lockstep (program.take k) rs s) ∧
    ∀ w, program.Computes true w ↔
      program.Computes false w ∧ compiled.system.check w = .ok () := by
  refine ⟨fun k => ?_, fun w => ?_⟩
  · obtain ⟨rs, s, first⟩ := run_take h k
    have closed' : Closed (program.take k) :=
      fun step member => closed step (List.mem_of_mem_take member)
    exact ⟨rs, s, first, lockstep closed' first⟩
  · rw [computes_iff closed h, computes_iff closed h, check_iff closed h]
    constructor
    · rintro ⟨size, follows, holds⟩
      exact ⟨⟨size, follows, nofun⟩, size, holds rfl⟩
    · rintro ⟨⟨size, follows, -⟩, -, holds⟩
      exact ⟨size, follows, fun _ => holds⟩

/-- Allocates two bits with given values, and demands that they differ. -/
def parity (bits : List Bool) : Program := [
  ⟨.computeMany .bit 2 fun _ _ => .ok bits, "bits"⟩,
  ⟨.bitXor ⟨0, [0]⟩ ⟨0, [1]⟩, "parity"⟩,
  ⟨.assertEquals (.ref ⟨1, []⟩) (.const 1), "odd"⟩]

theorem compile_parity (bits : List Bool) : (parity bits).run .compile =
    (.ok #[.list [.bit ⟨.var 0⟩, .bit ⟨.var 1⟩], .bit ⟨.var 2⟩, .unit],
      ((parity bits).run .compile).2) := by
  rw [run_eq]
  exact Prod.ext (by cbv) rfl

/-- Two bits that differ are accepted by the checks and by the rows; equal ones by neither. -/
theorem lockstep_of_parity :
    (∀ k, ∃ rs s, run ((parity [true, false]).take k) .compile = (.ok rs, s) ∧
      Lockstep ((parity [true, false]).take k) rs s) ∧
    (parity [true, false]).Computes true #[1, 0, 1] ∧
    (parity [true, true]).Computes false #[1, 1, 0] ∧
    ¬(parity [true, true]).Computes true #[1, 1, 0] := by
  obtain ⟨steps, odd⟩ := lockstep_of_compile (by decide) (compile_parity [true, false])
  obtain ⟨-, even⟩ := lockstep_of_compile (by decide) (compile_parity [true, true])
  have same (bits : List Bool) (mode : Mode) := run_eq (parity bits) mode
  simp only [Computes, same] at odd even ⊢
  refine ⟨steps, (odd _).mpr ⟨⟨_, _, Prod.ext (by cbv) rfl, by cbv⟩, by cbv⟩,
    ⟨_, _, Prod.ext (by cbv) rfl, by cbv⟩, fun checked => ?_⟩
  have rejected : (((parity [true, true]).circuit.run (.start .compile)).2.system.check
      #[1, 1, 0]).toOption = none := by cbv
  rw [((even _).mp checked).2] at rejected
  cases rejected

end Program
end RankOne
