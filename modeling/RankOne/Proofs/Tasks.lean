import RankOne.Program.Task
import RankOne.Proofs.Lockstep

/-! Tasks done one after the other on a session. Whatever becomes of a task, the rows and the
values before it stay in place. In a witness session every task but one that reserves a variable
adds as many values as variables. -/
namespace RankOne
variable {α : Type}

namespace Session
variable {s s' s'' : Session} {k : ℕ}

/-- The later session has more variables, and more rows and values behind those of the earlier
one. -/
structure Extends (s s' : Session) : Prop where
  hasWitness : s'.hasWitness = s.hasWitness
  nextVar : s.nextVar ≤ s'.nextVar
  rows : s.rows.toList <+: s'.rows.toList
  values : s.values.toList <+: s'.values.toList

theorem Extends.refl (s : Session) : s.Extends s :=
  ⟨rfl, le_refl _, List.prefix_refl _, List.prefix_refl _⟩

theorem Extends.trans (h : s.Extends s') (h' : s'.Extends s'') : s.Extends s'' where
  hasWitness := h'.hasWitness.trans h.hasWitness
  nextVar := h.nextVar.trans h'.nextVar
  rows := h.rows.trans h'.rows
  values := h.values.trans h'.values

theorem Extends.reserve (s : Session) (n : ℕ) : s.Extends (s.reserve n) :=
  ⟨rfl, Nat.le_add_right _ _, List.prefix_refl _, List.prefix_refl _⟩

theorem Extends.assign (s : Session) (xs : List Fr) : s.Extends (s.assign xs) := by
  refine ⟨rfl, Nat.le_add_right _ _, List.prefix_refl _, ?_⟩
  change s.values.toList <+: (s.values ++ xs).toList
  rw [Array.toList_appendList]
  exact List.prefix_append _ _

/-- As many variables have no value. -/
def Lacks (s : Session) (k : ℕ) : Prop := s.values.size + k = s.nextVar

theorem Lacks.assign (h : s.Lacks k) (xs : List Fr) : (s.assign xs).Lacks k := by
  change (s.values ++ xs).size + k = s.nextVar + xs.length
  rw [size_append, Nat.add_right_comm, h]

theorem Lacks.reserve (h : s.Lacks k) : (s.reserve 1).Lacks (k + 1) :=
  congrArg Nat.succ h

/-- The values that are missing stay missing, and no other ones are. -/
def KeepsLack (s s' : Session) : Prop := ∀ k, s.hasWitness → s.Lacks k → s'.Lacks k

theorem extends_constrain (s : Session) (label loc : String) (c : Constraint) :
    s.Extends (s.constrain label loc c).2 := by
  have same : s.SameVariables (s.constrain label loc c).2 := sameVariables_constrain rfl
  refine ⟨by rw [hasWitness, same.mode, ← hasWitness], same.nextVar.ge, ?_, by rw [same.values]⟩
  unfold constrain addRow
  split
  · split
    · dsimp only
      split <;> exact List.prefix_refl _
    · rw [Array.toList_push]
      exact List.prefix_append _ _
  · exact List.prefix_refl _
  · exact List.prefix_refl _
  · split <;> exact List.prefix_refl _

theorem extends_constrainAll (s : Session) (label loc : String) (cs : List Constraint) :
    s.Extends (s.constrainAll label loc cs).2 := by
  induction cs generalizing s with
  | nil => exact .refl s
  | cons c cs ih =>
    have first := extends_constrain s label loc c
    rw [constrainAll]
    cases emitted : s.constrain label loc c with
    | mk result s₁ =>
      rw [emitted] at first
      cases result with
      | error e => exact first
      | ok _ => exact first.trans (ih s₁)

theorem extends_setChecked (s : Session) (checked : Bool) :
    s.Extends (s.setChecked checked) := by
  unfold setChecked
  split
  · rename_i mode
    exact ⟨by simp [hasWitness, mode], le_refl _, List.prefix_refl _, List.prefix_refl _⟩
  · exact .refl s

theorem keepsLack_setChecked (s : Session) (checked : Bool) :
    s.KeepsLack (s.setChecked checked) := by
  intro k _ lacks
  unfold setChecked
  split <;> exact lacks

theorem extends_allocate (s : Session) (shape : Shape) (len : ℕ) (loc : String)
    (hint : Witness → Except RuntimeError (List shape.Value)) :
    s.Extends (s.allocate shape len loc hint).2 := by
  unfold allocate
  split
  · split
    · exact .refl s
    · split
      · exact .assign s _
      · exact .refl s
  · exact .reserve s _

theorem keepsLack_allocate (s : Session) (shape : Shape) (len : ℕ) (loc : String)
    (hint : Witness → Except RuntimeError (List shape.Value)) :
    s.KeepsLack (s.allocate shape len loc hint).2 := by
  intro k witness lacks
  unfold allocate
  split
  · split
    · exact lacks
    · split
      · exact lacks.assign _
      · exact lacks
  · rename_i noWitness
    unfold hasWitness at witness
    split at witness
    · exact absurd ‹_› (noWitness _)
    · cases witness

end Session

/-- What the steps of a circuit do to a session, its run does. -/
theorem Circuit.run_induction {R : Session → Session → Prop} (refl : ∀ s, R s s)
    (trans : ∀ s s' s'', R s s' → R s' s'' → R s s'')
    (allocate : ∀ (s : Session) shape len loc hint, R s (s.allocate shape len loc hint).2)
    (assign : ∀ (s : Session) xs, R s (s.assign xs))
    (constrain : ∀ (s : Session) label loc cs, R s (s.constrainAll label loc cs).2)
    (c : Circuit α) (s : Session) : R s (c.run s).2 := by
  induction c generalizing s with
  | done _ => exact refl s
  | fail _ => exact refl s
  | witness shape len loc hint next ih =>
    have first := allocate s shape len loc hint
    rw [run]
    cases allocated : s.allocate shape len loc hint with
    | mk given s₁ =>
      rw [allocated] at first
      cases given with
      | error e => exact first
      | ok n => exact trans _ _ _ first (ih n s₁)
  | store x next ih => exact trans _ _ _ (assign s [x]) (ih _ _)
  | constrain cs label loc next ih =>
    have first := constrain s label loc cs
    rw [run]
    cases emitted : s.constrainAll label loc cs with
    | mk given s₁ =>
      rw [emitted] at first
      cases given with
      | error e => exact first
      | ok _ => exact trans _ _ _ first (ih s₁)

theorem Circuit.extends_run (c : Circuit α) (s : Session) : s.Extends (c.run s).2 :=
  run_induction .refl (fun _ _ _ h h' => h.trans h') Session.extends_allocate .assign
    Session.extends_constrainAll c s

theorem Circuit.keepsLack_run (c : Circuit α) (s : Session) : s.KeepsLack (c.run s).2 := by
  have both : s.Extends (c.run s).2 ∧ s.KeepsLack (c.run s).2 := by
    refine run_induction (R := fun s s' => s.Extends s' ∧ s.KeepsLack s')
      (fun s => ⟨.refl s, fun _ _ lacks => lacks⟩) (fun s s' s'' h h' => ?_)
      (fun s shape len loc hint => ?_) (fun s xs => ?_) (fun s label loc cs => ?_) c s
    · refine ⟨h.1.trans h'.1, fun k witness lacks => ?_⟩
      exact h'.2 k (h.1.hasWitness.trans witness) (h.2 k witness lacks)
    · exact ⟨s.extends_allocate shape len loc hint, s.keepsLack_allocate shape len loc hint⟩
    · exact ⟨.assign s xs, fun k _ lacks => lacks.assign xs⟩
    · have same : s.SameVariables (s.constrainAll label loc cs).2 :=
        (Session.constrainAll_spec rfl).1
      refine ⟨s.extends_constrainAll label loc cs, fun k _ lacks => ?_⟩
      rw [Session.Lacks, same.values, same.nextVar]
      exact lacks
  exact both.2

namespace Program

structure Progress where
  results : Results
  session : Session

namespace Progress

def start (mode : Mode) : Progress := ⟨#[], .start mode⟩

/-- Does a task. One that fails gives unit, and its effects stay. -/
def next (p : Progress) (task : Task) : Progress :=
  match (task.run p.results).run.run p.session with
  | (.ok (v, _), s) => ⟨p.results.push v, s⟩
  | (.error _, s) => ⟨p.results.push .unit, s⟩

/-- Does tasks in order, each whatever becomes of those before it. -/
def after (p : Progress) (tasks : List Task) : Progress := tasks.foldl next p

inductive Did (p : Progress) : Task → Progress → Prop
  | given {step : Step} {v : Value} {s : Session}
      (run : (step.operation.circuit p.results step.loc).run p.session = (.ok v, s)) :
      Did p (.step step) ⟨p.results.push v, s⟩
  | failed {step : Step} {e : Error} {s : Session}
      (run : (step.operation.circuit p.results step.loc).run p.session = (.error e, s)) :
      Did p (.step step) ⟨p.results.push .unit, s⟩
  | reserved :
      Did p .reserve ⟨p.results.push (.field (.var p.session.nextVar)), p.session.reserve 1⟩
  | switched (checked : Bool) :
      Did p (.setChecked checked) ⟨p.results.push .unit, p.session.setChecked checked⟩
  | asked (task : Task) : Did p task ⟨p.results.push .unit, p.session⟩

variable {p : Progress} {task : Task} {tasks : List Task} {s : Session} {k : ℕ}

theorem next_step (p : Progress) (step : Step) :
    p.next (.step step) = match (step.operation.circuit p.results step.loc).run p.session with
      | (.ok v, s) => ⟨p.results.push v, s⟩
      | (.error _, s) => ⟨p.results.push .unit, s⟩ := by
  have unfolded : (Task.step step).run p.results =
      step.run p.results >>= fun v => pure (v, none) := rfl
  rw [next, unfolded, Build.run_bind, run_step]
  cases (step.operation.circuit p.results step.loc).run p.session with
  | mk r s => cases r <;> rfl

/-- Work that leaves the session alone and gives unit, if anything. -/
def Asks (s : Session) (work : Build (Value × Option Report)) : Prop :=
  (∃ report, work.run.run s = (.ok (.unit, report), s)) ∨ ∃ e, work.run.run s = (.error e, s)

theorem asks_lift {α ε : Type} {x : Except ε α} {e : ε → Error}
    {ask : α → Build (Value × Option Report)} (h : ∀ a, Asks s (ask a)) :
    Asks s (Build.lift e x >>= ask) := by
  unfold Asks
  rw [Build.run_bind]
  cases x with
  | error cause => exact .inr ⟨e cause, rfl⟩
  | ok a => exact h a

theorem next_of_asks (h : Asks p.session (task.run p.results)) :
    p.next task = ⟨p.results.push .unit, p.session⟩ := by
  rcases h with ⟨report, h⟩ | ⟨e, h⟩ <;> rw [next, h]

theorem did_next (p : Progress) (task : Task) : p.Did task (p.next task) := by
  have asked (h : Asks p.session (task.run p.results)) : p.Did task (p.next task) := by
    rw [next_of_asks h]
    exact .asked task
  cases task with
  | step step =>
    rw [next_step]
    cases run : (step.operation.circuit p.results step.loc).run p.session with
    | mk r s =>
      cases r with
      | ok v => exact .given run
      | error e => exact .failed run
  | reserve => exact .reserved
  | setChecked checked => exact .switched checked
  | terms e => exact asked (asks_lift fun x => .inl ⟨_, rfl⟩)
  | read e =>
    refine asked (asks_lift fun x => ?_)
    exact asks_lift (x := x.read p.session.values) (e := .runtime) fun v => .inl ⟨_, rfl⟩
  | value x =>
    refine asked (asks_lift fun v => ?_)
    exact asks_lift (x := v.known p.session) (e := .runtime) fun v => .inl ⟨_, rfl⟩
  | bitConstant a => exact asked (asks_lift fun b => .inl ⟨_, rfl⟩)
  | bitsLength a => exact asked (asks_lift fun bs => .inl ⟨_, rfl⟩)

theorem extends_next (p : Progress) (task : Task) :
    p.session.Extends (p.next task).session := by
  have did := did_next p task
  generalize p.next task = q at did
  cases did with
  | given run => exact Eq.subst (congrArg Prod.snd run) (Circuit.extends_run _ p.session)
  | failed run => exact Eq.subst (congrArg Prod.snd run) (Circuit.extends_run _ p.session)
  | reserved => exact .reserve p.session 1
  | switched checked => exact Session.extends_setChecked p.session checked
  | asked => exact .refl _

/-- Only a reserved variable has no value. -/
theorem keepsLack_next (reserves : task ≠ .reserve) :
    p.session.KeepsLack (p.next task).session := by
  have did := did_next p task
  generalize p.next task = q at did
  cases did with
  | given run => exact Eq.subst (congrArg Prod.snd run) (Circuit.keepsLack_run _ p.session)
  | failed run => exact Eq.subst (congrArg Prod.snd run) (Circuit.keepsLack_run _ p.session)
  | reserved => exact absurd rfl reserves
  | switched checked => exact Session.keepsLack_setChecked p.session checked
  | asked => exact fun _ _ lacks => lacks

theorem extends_after (p : Progress) (tasks : List Task) :
    p.session.Extends (p.after tasks).session := by
  induction tasks generalizing p with
  | nil => exact .refl _
  | cons task tasks ih => exact (extends_next p task).trans (ih _)

/-- Where every variable had a value, all still have one just when none was reserved. -/
theorem lacks_after (tasks : List Task) (witness : p.session.hasWitness)
    (lacks : p.session.Lacks k) :
    ∃ m, (p.after tasks).session.Lacks m ∧ (m = 0 ↔ k = 0 ∧ Task.reserve ∉ tasks) := by
  induction tasks generalizing p k with
  | nil => exact ⟨k, lacks, by simp⟩
  | cons task tasks ih =>
    have witness' : (p.next task).session.hasWitness :=
      (extends_next p task).hasWitness.trans witness
    by_cases reserves : task = .reserve
    · subst reserves
      obtain ⟨m, lacks', zero⟩ := ih (p := p.next .reserve) witness' lacks.reserve
      exact ⟨m, lacks', by simp [zero]⟩
    · obtain ⟨m, lacks', zero⟩ := ih witness' (keepsLack_next reserves k witness lacks)
      exact ⟨m, lacks', by simp [zero, Ne.symm reserves]⟩

end Progress
end Program
end RankOne
