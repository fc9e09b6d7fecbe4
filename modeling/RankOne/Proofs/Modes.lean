import RankOne.Proofs.Session

/-! The ways of running a circuit, side by side. In every mode a run that succeeds gives the
outcome of the circuit. Where there is an outcome, a witness session can only fail on values, and
one that checks constraints completes just when one that does not meets the compiled rows. -/
namespace RankOne
variable {α : Type} {z : Assignment}

namespace Session
variable {s s' : Session} {shape : Shape} {len first : ℕ} {label loc : String} {checked : Bool}
  {hint : Witness → Except RuntimeError (List shape.Value)} {cs : List Constraint} {e : Error}

def Filled (s : Session) : Prop := s.values.size = s.nextVar

theorem size_append (w : Witness) (xs : List Fr) : (w ++ xs).size = w.size + xs.length := by
  rw [← Array.length_toList, Array.toList_appendList, List.length_append, Array.length_toList]

theorem Filled.assign (h : s.Filled) (xs : List Fr) : (s.assign xs).Filled :=
  (size_append s.values xs).trans (congrArg (· + xs.length) h)

theorem values_of_assign {n : ℕ} {xs : List Fr} (filled : s.Filled)
    (h : (s.assign xs).values = z.initial (s.nextVar + n)) :
    s.values = z.initial s.nextVar ∧ z.window s.nextVar n = xs := by
  rw [assign, ← Assignment.initial_append_window] at h
  have lists : s.values.toList ++ xs = (z.initial s.nextVar).toList ++ z.window s.nextVar n := by
    simpa only [Array.toList_appendList] using congrArg Array.toList h
  have lengths : s.values.toList.length = (z.initial s.nextVar).toList.length := by
    rw [Array.length_toList, Array.length_toList, Assignment.size_initial, filled]
  obtain ⟨before, window⟩ := List.append_inj lists lengths
  exact ⟨Array.toList_inj.mp before, window.symm⟩

/-- The errors of work that has an outcome: a compilation may meet constraints that cannot hold,
a witness may have no values or wrong ones, and counting variables does not fail. -/
def FailsWith (s : Session) (e : Error) : Prop :=
  s.mode = .compile ∨ ∃ checked e', s.mode = .witness checked ∧ e = .runtime e'

theorem allocate_witness (mode : s.mode = .witness checked)
    (h : s.allocate shape len loc hint = (.ok first, s')) :
    ∃ vs, hint s.values = .ok vs ∧ vs.length = len ∧ s' = s.assign (vs.flatMap shape.encode) := by
  simp only [allocate, mode] at h
  split at h
  · cases h
  · split at h
    · cases h; exact ⟨_, ‹_›, ‹_›, rfl⟩
    · cases h

/-- In every mode the variables of an allocation are counted by its shape. -/
theorem allocate_ok (h : s.allocate shape len loc hint = (.ok first, s')) :
    first = s.nextVar ∧ s'.mode = s.mode ∧ s'.nextVar = s.nextVar + len * shape.size := by
  have counted (vs : List shape.Value) (length : vs.length = len) :
      (vs.flatMap shape.encode).length = len * shape.size := by
    rw [Circuit.length_flatMap_encode, length]
  unfold allocate at h
  split at h
  · split at h
    · cases h
    · split at h
      · cases h; exact ⟨rfl, rfl, congrArg _ (counted _ ‹_›)⟩
      · cases h
  · cases h; exact ⟨rfl, rfl, rfl⟩

theorem allocate_error (h : s.allocate shape len loc hint = (.error e, s')) :
    s' = s ∧ s.FailsWith e := by
  unfold allocate at h
  split at h
  · split at h
    · cases h; exact ⟨rfl, .inr ⟨_, _, ‹_›, rfl⟩⟩
    · split at h
      · cases h
      · cases h; exact ⟨rfl, .inr ⟨_, _, ‹_›, rfl⟩⟩
  · cases h

structure SameVariables (s s' : Session) : Prop where
  mode : s'.mode = s.mode
  values : s'.values = s.values
  nextVar : s'.nextVar = s.nextVar

theorem sameVariables_constrain (h : s.constrain label loc c = (r, s')) : s.SameVariables s' := by
  unfold constrain addRow at h
  split at h
  · split at h
    · dsimp only at h
      split at h <;> cases h <;> exact ⟨rfl, rfl, rfl⟩
    · cases h; exact ⟨rfl, rfl, rfl⟩
  · cases h; exact ⟨rfl, rfl, rfl⟩
  · cases h; exact ⟨rfl, rfl, rfl⟩
  · split at h <;> cases h <;> exact ⟨rfl, rfl, rfl⟩

theorem failsWith_constrain (h : s.constrain label loc c = (.error e, s')) : s.FailsWith e := by
  unfold constrain at h
  split at h
  · exact .inl ‹_›
  · cases h
  · cases h
  · split at h
    · cases h; exact .inr ⟨_, _, ‹_›, rfl⟩
    · cases h

/-- Constraints change no variables, whatever becomes of them. -/
theorem constrainAll_spec (h : s.constrainAll label loc cs = (r, s')) :
    s.SameVariables s' ∧ ∀ e, r = .error e → s.FailsWith e := by
  induction cs generalizing s with
  | nil => cases h; exact ⟨⟨rfl, rfl, rfl⟩, nofun⟩
  | cons c cs ih =>
    rw [constrainAll] at h
    cases emitted : s.constrain label loc c with
    | mk result s₁ =>
      rw [emitted] at h
      have one := sameVariables_constrain emitted
      cases result with
      | error e =>
        cases h
        refine ⟨one, fun _ same => ?_⟩
        cases same
        exact failsWith_constrain emitted
      | ok _ =>
        obtain ⟨rest, fails⟩ := ih h
        refine ⟨⟨rest.mode.trans one.mode, rest.values.trans one.values,
          rest.nextVar.trans one.nextVar⟩, fun e same => ?_⟩
        simpa only [FailsWith, one.mode] using fails e same

theorem checks_of_constrainAll (mode : s.mode = .witness true)
    (h : s.constrainAll label loc cs = (.ok (), s')) :
    ∀ c ∈ cs, c.check s.values s!"{label} ({loc})" = .ok () := by
  induction cs generalizing s with
  | nil => simp
  | cons c cs ih =>
    rw [constrainAll] at h
    cases checked : c.check s.values s!"{label} ({loc})" with
    | error e => simp only [constrain, mode, checked] at h; cases h
    | ok _ =>
      simp only [constrain, mode, checked] at h
      exact List.forall_mem_cons.mpr ⟨checked, ih mode h⟩

end Session

namespace Circuit
variable {s s' : Session} {a : α} {e : Error} {checked : Bool} {c : Circuit α} {m : ℕ}

structure Ran (c : Circuit α) (s : Session) (result : Except Error α) (s' : Session) : Prop where
  mode : s'.mode = s.mode
  filled : s.hasWitness → s.Filled → s'.Filled
  outcome : ∀ a, result = .ok a → c.outcome s.nextVar = some (a, s'.nextVar)
  fails : ∀ e, result = .error e → (c.outcome s.nextVar).isSome → s.FailsWith e

theorem ran_of_run {result : Except Error α} (h : c.run s = (result, s')) : c.Ran s result s' := by
  induction c generalizing s with
  | done a => cases h; exact ⟨rfl, fun _ filled => filled, fun _ same => by cases same; rfl, nofun⟩
  | fail e => cases h; exact ⟨rfl, fun _ filled => filled, nofun, nofun⟩
  | witness shape len loc hint next ih =>
    rw [run] at h
    cases allocated : s.allocate shape len loc hint with
    | mk given s₁ =>
      rw [allocated] at h
      cases given with
      | error e =>
        cases h
        obtain ⟨rfl, fails⟩ := Session.allocate_error allocated
        exact ⟨rfl, fun _ filled => filled, nofun, fun _ same _ => by cases same; exact fails⟩
      | ok first =>
        obtain ⟨rfl, mode, nextVar⟩ := Session.allocate_ok allocated
        obtain ⟨mode', filled, outcome, fails⟩ := ih _ h
        refine ⟨mode'.trans mode, fun witness full => ?_, ?_, ?_⟩
        · cases kind : s.mode with
          | witness checked =>
            obtain ⟨vs, -, -, rfl⟩ := Session.allocate_witness kind allocated
            exact filled witness (full.assign _)
          | compile => simp [Session.hasWitness, kind] at witness
          | count => simp [Session.hasWitness, kind] at witness
        · rw [Circuit.outcome, ← nextVar]
          exact outcome
        · rw [Circuit.outcome, ← nextVar]
          simpa only [Session.FailsWith, mode] using fails
  | store x next ih =>
    obtain ⟨mode, filled, outcome, fails⟩ := ih _ h
    exact ⟨mode, fun witness full => filled witness (full.assign _), outcome, fails⟩
  | constrain cs label loc next ih =>
    rw [run] at h
    cases emitted : s.constrainAll label loc cs with
    | mk given s₁ =>
      obtain ⟨same, refused⟩ := Session.constrainAll_spec emitted
      rw [emitted] at h
      have filled₁ (full : s.Filled) : s₁.Filled := by
        rw [Session.Filled, same.values, same.nextVar]; exact full
      cases given with
      | error e =>
        cases h
        exact ⟨same.mode, fun _ => filled₁, nofun, fun e same _ => refused e (by cases same; rfl)⟩
      | ok _ =>
        obtain ⟨mode, filled, outcome, fails⟩ := ih h
        simp only [Session.hasWitness, Session.FailsWith, same.mode, same.nextVar]
          at mode filled outcome fails
        exact ⟨mode, fun witness full => filled witness (filled₁ full), outcome, fails⟩

theorem run_count (mode : s.mode = .count) (result : c.outcome s.nextVar = some (a, m)) :
    ∃ s', c.run s = (.ok a, s') ∧ s'.nextVar = m := by
  cases h : c.run s with
  | mk given s' =>
    have ran := ran_of_run h
    cases given with
    | error e =>
      rcases ran.fails e rfl (by rw [result]; rfl) with kind | ⟨_, _, kind, -⟩ <;>
        rw [mode] at kind <;> cases kind
    | ok b =>
      have same := ran.outcome b rfl
      rw [result] at same
      cases same
      exact ⟨s', rfl, rfl⟩

/-- The values that a witness session ends with follow the hints, and satisfy the constraints if
they were checked. The last values decide all earlier ones, since values are only added. -/
theorem follows_of_run (mode : s.mode = .witness checked) (filled : s.Filled)
    (h : c.run s = (.ok a, s')) (values : s'.values = z.initial s'.nextVar) :
    s.values = z.initial s.nextVar ∧ c.Follows z s.nextVar ∧
      (checked = true → c.Scoped s.nextVar → c.Holds z s.nextVar) := by
  induction c generalizing s with
  | done _ => cases h; exact ⟨values, trivial, fun _ _ => trivial⟩
  | fail _ => cases h
  | witness shape len loc hint next ih =>
    rw [run] at h
    cases allocated : s.allocate shape len loc hint with
    | mk given s₁ =>
      rw [allocated] at h
      cases given with
      | error e => cases h
      | ok first =>
        obtain ⟨rfl, -, nextVar⟩ := Session.allocate_ok allocated
        obtain ⟨vs, given, length, rfl⟩ := Session.allocate_witness mode allocated
        obtain ⟨assigned, follows, holds⟩ := ih _ (s := s.assign _) mode (filled.assign _) h
        rw [nextVar] at assigned follows holds
        obtain ⟨before, window⟩ := Session.values_of_assign filled assigned
        exact ⟨before, ⟨⟨vs, before ▸ given, length, window⟩, follows⟩, holds⟩
  | store x next ih =>
    obtain ⟨assigned, follows, holds⟩ := ih _ (s := s.assign [x]) mode (filled.assign _) h
    obtain ⟨before, window⟩ := Session.values_of_assign filled assigned
    exact ⟨before, ⟨List.head_eq_of_cons_eq window, follows⟩, holds⟩
  | constrain cs label loc next ih =>
    rw [run] at h
    cases emitted : s.constrainAll label loc cs with
    | mk given s₁ =>
      rw [emitted] at h
      cases given with
      | error e => cases h
      | ok _ =>
        obtain ⟨same, -⟩ := Session.constrainAll_spec emitted
        obtain ⟨before, follows, holds⟩ := ih (same.mode.trans mode)
          (by rw [Session.Filled, same.values, same.nextVar]; exact filled) h
        rw [same.values, same.nextVar] at before
        rw [same.nextVar] at follows holds
        refine ⟨before, follows, fun on inScope => ⟨fun c member => ?_, holds on inScope.2⟩⟩
        have passed := Session.checks_of_constrainAll (on ▸ mode) emitted c member
        rw [before] at passed
        exact (Constraint.check_initial_iff (inScope.1 c member) _).mp passed

/-- A witness session completes with the values that follow the hints and, if it checks them,
satisfy the constraints. -/
theorem run_witness_iff (checked : Bool) {w : Witness} (result : c.outcome 0 = some (a, m))
    (inScope : c.Scoped 0) :
    (∃ s, c.run (.start (.witness checked)) = (.ok a, s) ∧ s.values = w) ↔
      w.size = m ∧ c.Follows (.ofWitness w) 0 ∧ (checked = true → c.Holds (.ofWitness w) 0) := by
  constructor
  · rintro ⟨s, run, rfl⟩
    have ran := ran_of_run run
    have filled : s.values.size = s.nextVar := ran.filled rfl rfl
    have start : (Session.start (.witness checked)).Filled := rfl
    obtain ⟨-, follows, holds⟩ := follows_of_run (z := .ofWitness s.values) rfl start run
      (by rw [← filled, Assignment.initial_ofWitness])
    have same := (ran.outcome a rfl).symm.trans result
    cases same
    exact ⟨filled, follows, fun on => holds on inScope⟩
  · rintro ⟨rfl, follows, holds⟩
    obtain ⟨a', m', same, run⟩ := run_along checked #[] follows fun on => ⟨inScope, holds on⟩
    rw [result] at same
    cases same
    exact ⟨_, run, Assignment.initial_ofWitness w⟩

end Circuit
end RankOne
