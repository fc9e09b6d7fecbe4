import RankOne.Proofs.Tasks

/-! Bits are zero or one. Most bits have no constraint of their own, but the constraints that
define them admit nothing else where their operands are bits; a program that takes no expression
for a bit unchecked therefore has none that is anything but zero or one. -/
namespace RankOne
variable {z : Assignment}

def Bit.Binary (z : Assignment) (b : Bit) : Prop := b.expr.eval z = 1 ∨ b.expr.eval z = 0

/-- Zero or one under the assignment, wherever the constraints hold that define a bit. -/
def WireInvariant.boolean (z : Assignment) : WireInvariant where
  expr _ _ := True
  bit _ b := b.Binary z
  granted c := c.Holds z
  expr_mono _ _ := trivial
  bit_mono _ h := h
  const _ _ := trivial
  var _ := trivial
  add _ _ := trivial
  scale _ _ := trivial
  unscale _ := trivial
  ofBit _ := trivial
  bitConst _ b := Fr.ofBool_isBit b
  bitNot {n b} h := by
    change (Expr.const 1 - b.expr).eval z = 1 ∨ (Expr.const 1 - b.expr).eval z = 0
    rw [Expr.eval_minus, Expr.eval_const]
    rcases h with one | zero
    · exact .inr (by rw [one, sub_self])
    · exact .inl (by rw [zero, sub_zero])
  bitScaled {n c b} constant h := by
    change (b.expr.scaleBy c).eval z = 1 ∨ (b.expr.scaleBy c).eval z = 0
    rw [Expr.eval_scaleBy]
    rcases constant with (rfl : c = 1) | (rfl : c = 0)
    · rwa [one_mul]
    · exact .inr (zero_mul _)
  bitProduct {n a b e} ha hb _ product := by
    change e.eval z = 1 ∨ e.eval z = 0
    rw [← show a.expr.eval z * b.expr.eval z = e.eval z from product]
    rcases ha with one | zero
    · rwa [one, one_mul]
    · exact .inr (by rw [zero, zero_mul])
  bitXor {n a b e} ha hb _ product := by
    have pinned : e.eval z =
        a.expr.eval z + b.expr.eval z - (a.expr.eval z + a.expr.eval z) * b.expr.eval z := by
      simp only [Constraint.Holds, Expr.eval_plus, Expr.eval_minus] at product
      linear_combination product
    change e.eval z = 1 ∨ e.eval z = 0
    rw [pinned]
    rcases ha with ha | ha
    · rcases hb with hb | hb
      · exact .inr (by rw [ha, hb]; ring)
      · exact .inl (by rw [ha, hb]; ring)
    · rw [ha, add_zero, zero_mul, sub_zero, zero_add]
      exact hb
  bitChecked _ h := h

namespace Program.Progress
open WireInvariant
variable {p : Progress} {task : Task} {tasks : List Task}

/-- The task takes no expression for a bit without a check. -/
def Safe (task : Task) : Prop := ∀ e loc, task ≠ .step ⟨.bitUnchecked e, loc⟩

/-- A compilation whose rows force every bit among the results to be zero or one. -/
structure ForcesBits (p : Progress) : Prop where
  compiles : p.session.mode = .compile
  forced : ∀ z : Assignment, (∀ row ∈ p.session.rows, row.Holds z) →
    (boolean z).Ok p.session.nextVar p.results

theorem forcesBits_start : (start .compile).ForcesBits :=
  ⟨rfl, fun _ _ => (fun _ member => absurd member List.not_mem_nil)⟩

/-- A result is added where its bits are forced by the rows before it, and those it comes with. -/
theorem ForcesBits.push {s : Session} {v : Value} (h : p.ForcesBits)
    (mode : s.mode = p.session.mode) (grows : p.session.Extends s)
    (ok : ∀ z : Assignment, (∀ row ∈ s.rows, row.Holds z) →
      (boolean z).Ok p.session.nextVar p.results → (boolean z).Ok s.nextVar v) :
    ForcesBits ⟨p.results.push v, s⟩ := by
  refine ⟨mode.trans h.compiles, fun z satisfied => ?_⟩
  have before : ∀ row ∈ p.session.rows, row.Holds z := fun row member =>
    satisfied row (Array.mem_toList_iff.mp (grows.rows.subset (Array.mem_toList_iff.mpr member)))
  have results := h.forced z before
  exact ok_push (results.mono grows.nextVar) (ok z satisfied results)

theorem ForcesBits.next (h : p.ForcesBits) (safe : Safe task) : (p.next task).ForcesBits := by
  have grows := extends_next p task
  have did := did_next p task
  generalize p.next task = q at did grows
  cases did with
  | @given step v s run =>
    refine h.push (Circuit.ran_of_run run).mode grows fun z satisfied results => ?_
    obtain ⟨outcome, rows, -⟩ := Circuit.run_compile h.compiles run
    have holds := ((rows z).mp satisfied).2
    have kept : (boolean z).Keeps (step.operation.circuit p.results step.loc) p.session.nextVar :=
      keeps_operation results (fun _ _ => trivial)
        (.inr fun e same => safe e step.loc (by rw [← same]))
    exact kept.result (Circuit.holds_iff_emits.mp holds) v _ outcome
  | failed run => exact h.push (Circuit.ran_of_run run).mode grows fun _ _ _ => trivial
  | reserved => exact h.push rfl grows fun _ _ _ => trivial
  | switched checked =>
    have mode : (p.session.setChecked checked).mode = p.session.mode := by
      rw [Session.setChecked, h.compiles]
      exact h.compiles
    exact h.push mode grows fun _ _ _ => trivial
  | asked => exact h.push rfl grows fun _ _ _ => trivial

theorem ForcesBits.after (h : p.ForcesBits) (safe : ∀ task ∈ tasks, Safe task) :
    (p.after tasks).ForcesBits := by
  induction tasks generalizing p with
  | nil => exact h
  | cons task tasks ih =>
    obtain ⟨first, rest⟩ := List.forall_mem_cons.mp safe
    exact ih (h.next first) rest

/-- Whatever tasks a compilation has done, every assignment that satisfies its rows so far makes
every bit among its results zero or one, unless an expression was taken for a bit unchecked. -/
theorem binary_of_rows {history : List Task} (safe : ∀ task ∈ history, Safe task) {z : Assignment}
    (satisfied : ∀ row ∈ ((start .compile).after history).session.rows, row.Holds z) (ref : Ref) :
    let results := ((start .compile).after history).results
    (∀ b, ref.bit results = .ok b → b.Binary z) ∧
    (∀ bits, ref.bits results = .ok bits → ∀ b ∈ bits, b.Binary z) ∧
    ∀ word, ref.word results = .ok word → ∀ b ∈ word.bits, b.Binary z := by
  intro results
  have ok := (forcesBits_start.after safe).forced z satisfied
  exact ⟨resolves_bit ok ref, resolves_bits ok ref, resolves_word ok ref⟩

/-- The exclusive or of two bits has no constraint of its own. -/
theorem binary_of_parity : Bit.Binary (.ofWitness #[1, 0, 1]) ⟨.var 2⟩ := by
  have ran : (start .compile).after ((parity [true, false]).map .step) =
      ⟨#[.list [.bit ⟨.var 0⟩, .bit ⟨.var 1⟩], .bit ⟨.var 2⟩, .unit],
        ((parity [true, false]).circuit.run (.start .compile)).2⟩ := by
    change next (next (next (start .compile) _) _) _ = _
    rw [next_step, next_step, next_step]
    cbv
  have accepted : ((parity [true, false]).circuit.run (.start .compile)).2.system.check
      #[1, 0, 1] = .ok () := by cbv
  have satisfied := (ConstraintSystem.holds_of_check accepted).2
  have safe : ∀ task ∈ (parity [true, false]).map .step, Safe task := by simp [Safe, parity]
  exact (binary_of_rows safe (by rwa [ran]) ⟨1, []⟩).1 ⟨.var 2⟩ (by rw [ran]; rfl)

end Program.Progress
end RankOne
