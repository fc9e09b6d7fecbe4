import RankOne.Compiled
import RankOne.Proofs.Circuit

/-! Runs and meanings agree. A witness session that checks constraints passes along an
assignment that follows the hints; compiling records rows that hold together with the
constraints; and where no hint fails, some assignment follows all of them. -/
namespace RankOne
variable {α β γ ι : Type} {z : Assignment}

namespace Session

/-- The later session has more rows, and these demand a condition of an assignment. -/
def Adds (s s' : Session) (demand : Assignment → Prop) : Prop :=
  ∃ rows, s'.rows.toList = s.rows.toList ++ rows ∧
    ∀ z, (∀ row ∈ rows, row.Holds z) ↔ demand z

theorem Adds.nothing {s s' : Session} {demand : Assignment → Prop} (same : s'.rows = s.rows)
    (trivial : ∀ z, demand z) : Adds s s' demand :=
  ⟨[], by simp [same], by simpa using trivial⟩

theorem Adds.trans {s s' s'' : Session} {demand demand' : Assignment → Prop}
    (h : Adds s s' demand) (h' : Adds s' s'' demand') :
    Adds s s'' fun z => demand z ∧ demand' z := by
  obtain ⟨rows, same, meaning⟩ := h
  obtain ⟨rows', same', meaning'⟩ := h'
  refine ⟨rows ++ rows', by rw [same', same, List.append_assoc], fun z => ?_⟩
  rw [List.forall_mem_append, meaning, meaning']

theorem Adds.congr {s s' : Session} {demand demand' : Assignment → Prop} (h : Adds s s' demand)
    (same : ∀ z, demand z ↔ demand' z) : Adds s s' demand' := by
  obtain ⟨rows, appended, meaning⟩ := h
  exact ⟨rows, appended, fun z => (meaning z).trans (same z)⟩

theorem Adds.holds {s s' : Session} {demand : Assignment → Prop} (h : Adds s s' demand)
    (z : Assignment) : (∀ row ∈ s'.rows, row.Holds z) ↔
      (∀ row ∈ s.rows, row.Holds z) ∧ demand z := by
  obtain ⟨rows, same, meaning⟩ := h
  simp only [← Array.mem_toList_iff, same, List.forall_mem_append, meaning]

/-- What recording constraints does to a session that compiles. -/
structure Records (cs : List Constraint) (s s' : Session) : Prop where
  mode : s'.mode = s.mode
  nextVar : s'.nextVar = s.nextVar
  adds : Adds s s' fun z => ∀ c ∈ cs, c.Holds z
  below : ∀ n, (∀ row ∈ s.rows, row.Below n) → (∀ c ∈ cs, c.Below n) →
    ∀ row ∈ s'.rows, row.Below n

theorem Records.holds {cs : List Constraint} {s s' : Session} (h : Records cs s s')
    (z : Assignment) : (∀ row ∈ s'.rows, row.Holds z) ↔
      (∀ row ∈ s.rows, row.Holds z) ∧ ∀ c ∈ cs, c.Holds z := h.adds.holds z

theorem Records.refl (s : Session) : Records [] s s :=
  ⟨rfl, rfl, .nothing rfl (by simp), fun _ below _ => below⟩

theorem Records.append {cs ds : List Constraint} {s s' s'' : Session} (h : Records cs s s')
    (h' : Records ds s' s'') : Records (cs ++ ds) s s'' where
  mode := h'.mode.trans h.mode
  nextVar := h'.nextVar.trans h.nextVar
  adds := (h.adds.trans h'.adds).congr fun _ => List.forall_mem_append.symm
  below n rows inScope :=
    have ⟨first, second⟩ := List.forall_mem_append.mp inScope
    h'.below n (h.below n rows first) second

/-- A row is left out only when it has no variables and holds. -/
theorem constrain_compile {s s' : Session} {label loc : String} {c : Constraint}
    (mode : s.mode = .compile) (h : s.constrain label loc c = (.ok (), s')) :
    Records [c] s s' := by
  have meaning (z : Assignment) := Row.holds_ofConstraint (z := z) c label loc
  simp only [constrain, mode] at h
  unfold addRow at h
  by_cases constant : (Row.ofConstraint c label loc).isConstant = true
  · rw [if_pos constant] at h
    dsimp only at h
    split at h
    · cases h
      refine ⟨rfl, rfl, .nothing rfl fun z => ?_, fun n below _ => below⟩
      have := (meaning z).mp ((Row.holds_of_isConstant constant).mpr ‹_›)
      simp [this]
    · cases h
  · rw [if_neg constant] at h
    cases h
    refine ⟨rfl, rfl, ⟨[_], Array.toList_push, fun z => ?_⟩, fun n below scope => ?_⟩
    · exact List.forall_mem_singleton.trans ((meaning z).trans List.forall_mem_singleton.symm)
    · intro row member
      rcases Array.mem_push.mp member with member | rfl
      · exact below row member
      · exact Row.below_ofConstraint (scope c (List.mem_singleton_self c)) label loc

def Compilable (c : Constraint) : Prop := ∀ (s : Session) (label loc : String),
  s.mode = .compile → ∃ s', s.constrain label loc c = (.ok (), s')

/-- A compilation only refuses what no assignment satisfies. -/
theorem compilable_of_holds {c : Constraint} (holds : c.Holds z) : Compilable c := by
  intro s label loc mode
  simp only [constrain, mode, addRow]
  split
  · have product := (Row.holds_of_isConstant (z := z) ‹_›).mp
      ((Row.holds_ofConstraint c label loc).mpr holds)
    exact ⟨s, if_pos product⟩
  · exact ⟨_, rfl⟩

/-- A row with a variable is recorded, be it satisfiable or not. -/
theorem constrain_of_depends {s : Session} {c : Constraint} (mode : s.mode = .compile)
    {label loc : String} (depends : (Row.ofConstraint c label loc).isConstant = false) :
    s.constrain label loc c =
      (.ok (), { s with rows := s.rows.push (.ofConstraint c label loc) }) := by
  simp [constrain, mode, addRow, depends]

theorem compilable_of_variable {c : Constraint} {i : ℕ} (result : c.toProduct.2.2 = .var i) :
    Compilable c := fun _ label loc mode =>
  ⟨_, constrain_of_depends mode (Row.isConstant_of_variable result label loc)⟩

theorem constrainAll_compile {s s' : Session} {label loc : String} {cs : List Constraint}
    (mode : s.mode = .compile) (h : s.constrainAll label loc cs = (.ok (), s')) :
    Records cs s s' := by
  induction cs generalizing s with
  | nil => cases h; exact .refl _
  | cons c cs ih =>
    rw [constrainAll] at h
    cases first : s.constrain label loc c with
    | mk result s₁ =>
      cases result with
      | error e => rw [first] at h; cases h
      | ok _ =>
        rw [first] at h
        have one := constrain_compile mode first
        exact one.append (ih (one.mode.trans mode) h)

theorem constrainAll_ok {s : Session} {cs : List Constraint} (mode : s.mode = .compile)
    (compilable : ∀ c ∈ cs, Compilable c) (label loc : String) :
    ∃ s', s.constrainAll label loc cs = (.ok (), s') := by
  induction cs generalizing s with
  | nil => exact ⟨s, rfl⟩
  | cons c cs ih =>
    obtain ⟨s₁, first⟩ := compilable c List.mem_cons_self s label loc mode
    rw [constrainAll, first]
    exact ih ((constrain_compile mode first).mode.trans mode)
      fun d hd => compilable d (List.mem_cons_of_mem _ hd)

/-- The witness session whose values are those of the first `n` variables. -/
def along (checked : Bool) (z : Assignment) (rows : Array Row) (n : ℕ) : Session :=
  ⟨.witness checked, rows, z.initial n, n⟩

/-- A witness session that does not check constraints takes all of them. -/
theorem constrainAll_along {checked : Bool} {rows : Array Row} {n : ℕ} {cs : List Constraint}
    (passes : checked = true → ∀ c ∈ cs, c.Below n ∧ c.Holds z) (label loc : String) :
    (along checked z rows n).constrainAll label loc cs = (.ok (), along checked z rows n) := by
  induction cs with
  | nil => rfl
  | cons c cs ih =>
    have first : (along checked z rows n).constrain label loc c =
        (.ok (), along checked z rows n) := by
      cases checked with
      | false => rfl
      | true =>
        obtain ⟨below, holds⟩ := passes rfl c List.mem_cons_self
        simp only [constrain, along]
        rw [(Constraint.check_initial_iff below _).mpr holds]
    rw [constrainAll, first]
    exact ih fun on d hd => passes on d (List.mem_cons_of_mem _ hd)

theorem assign_along {checked : Bool} {rows : Array Row} {n len : ℕ} {xs : List Fr}
    (h : z.window n len = xs) :
    (along checked z rows n).assign xs = along checked z rows (n + len) := by
  subst h
  simp [assign, along, Assignment.initial_append_window]

end Session

namespace Circuit
variable {n m : ℕ}

/-- A witness session passes along an assignment that follows the hints, and satisfies the
constraints if they are checked. -/
theorem run_along {c : Circuit α} (checked : Bool) (rows : Array Row) (follows : c.Follows z n)
    (passes : checked = true → c.Scoped n ∧ c.Holds z n) :
    ∃ a m, c.outcome n = some (a, m) ∧
      c.run (.along checked z rows n) = (.ok a, .along checked z rows m) := by
  induction c generalizing n with
  | done a => exact ⟨a, n, rfl, rfl⟩
  | fail _ => exact follows.elim
  | witness s len loc hint next ih =>
    obtain ⟨⟨vs, values, length, window⟩, rest⟩ := follows
    obtain ⟨a, m, outcome, run⟩ := ih n rest passes
    refine ⟨a, m, outcome, ?_⟩
    have allocated : (Session.along checked z rows n).allocate s len loc hint =
        (.ok n, .along checked z rows (n + len * s.size)) := by
      simp only [Session.allocate, Session.along]
      rw [values]
      simp only [length, if_true]
      exact congrArg _ (Session.assign_along window)
    rw [Circuit.run, allocated]
    exact run
  | store x next ih =>
    obtain ⟨value, rest⟩ := follows
    obtain ⟨a, m, outcome, run⟩ := ih n rest passes
    refine ⟨a, m, outcome, ?_⟩
    have stored : z.window n 1 = [x] := by rw [Assignment.window_succ, value]; rfl
    rw [Circuit.run, Session.assign_along stored]
    exact run
  | constrain cs label loc next ih =>
    obtain ⟨a, m, outcome, run⟩ := ih follows fun on => ⟨(passes on).1.2, (passes on).2.2⟩
    refine ⟨a, m, outcome, ?_⟩
    rw [Circuit.run, Session.constrainAll_along fun on c hc =>
      ⟨(passes on).1.1 c hc, (passes on).2.1 c hc⟩]
    exact run

theorem run_bind (c : Circuit α) (f : α → Circuit β) (s : Session) :
    (c >>= f).run s = match c.run s with
      | (.ok a, s') => (f a).run s'
      | (.error e, s') => (.error e, s') := by
  change (c.bind f).run s = _
  induction c generalizing s with
  | done _ => rfl
  | fail _ => rfl
  | witness shape len loc hint next ih =>
    simp only [bind, run]
    split
    · rfl
    · exact ih _ _
  | store x next ih => exact ih _ _
  | constrain cs label loc next ih =>
    simp only [bind, run]
    split
    · rfl
    · exact ih _

/-- Compiling gives the outcome of the circuit, and rows for all of its constraints. -/
theorem adds_of_run {c : Circuit α} {s s' : Session} {a : α} (mode : s.mode = .compile)
    (h : c.run s = (.ok a, s')) :
    c.outcome s.nextVar = some (a, s'.nextVar) ∧
    s.Adds s' (c.Holds · s.nextVar) ∧
    ((∀ row ∈ s.rows, row.Below s.nextVar) → c.Scoped s.nextVar →
      ∀ row ∈ s'.rows, row.Below s'.nextVar) := by
  induction c generalizing s with
  | done _ => cases h; exact ⟨rfl, .nothing rfl fun _ => trivial, fun rows _ => rows⟩
  | fail _ => cases h
  | witness shape len loc hint next ih =>
    have allocated : s.allocate shape len loc hint =
        (.ok s.nextVar, s.reserve (len * shape.size)) := by
      simp [Session.allocate, mode]
    rw [Circuit.run, allocated] at h
    obtain ⟨result, adds, below⟩ := ih s.nextVar (s := s.reserve (len * shape.size)) mode h
    refine ⟨result, adds, fun rows inScope => below (fun row member => ?_) inScope⟩
    exact (rows row member).mono (Nat.le_add_right _ _)
  | store x next ih =>
    rw [Circuit.run] at h
    obtain ⟨result, adds, below⟩ := ih s.nextVar (s := s.assign [x]) mode h
    refine ⟨result, adds, fun rows inScope => below (fun row member => ?_) inScope⟩
    exact (rows row member).mono (Nat.le_add_right _ _)
  | constrain cs label loc next ih =>
    rw [Circuit.run] at h
    cases recorded : s.constrainAll label loc cs with
    | mk result s₁ =>
      cases result with
      | error e => rw [recorded] at h; cases h
      | ok _ =>
        rw [recorded] at h
        have records := Session.constrainAll_compile mode recorded
        obtain ⟨result, adds, below⟩ := ih (records.mode.trans mode) h
        rw [records.nextVar] at result adds below
        exact ⟨result, records.adds.trans adds, fun rows inScope =>
          below (records.below _ rows inScope.1) inScope.2⟩

theorem run_compile {c : Circuit α} {s s' : Session} {a : α} (mode : s.mode = .compile)
    (h : c.run s = (.ok a, s')) :
    c.outcome s.nextVar = some (a, s'.nextVar) ∧
    (∀ z, (∀ row ∈ s'.rows, row.Holds z) ↔
      (∀ row ∈ s.rows, row.Holds z) ∧ c.Holds z s.nextVar) ∧
    ((∀ row ∈ s.rows, row.Below s.nextVar) → c.Scoped s.nextVar →
      ∀ row ∈ s'.rows, row.Below s'.nextVar) := by
  obtain ⟨result, adds, below⟩ := adds_of_run mode h
  exact ⟨result, adds.holds, below⟩

/-- Compiling succeeds where the circuit does and no constraint is refused. -/
theorem run_compilable {c : Circuit α} {s : Session} {a : α} (mode : s.mode = .compile)
    (result : c.outcome s.nextVar = some (a, m))
    (emits : c.Emits (fun _ => Session.Compilable) s.nextVar) : ∃ s', c.run s = (.ok a, s') := by
  induction c generalizing s with
  | done _ => cases result; exact ⟨s, rfl⟩
  | fail _ => cases result
  | witness shape len loc hint next ih =>
    have allocated : s.allocate shape len loc hint =
        (.ok s.nextVar, s.reserve (len * shape.size)) := by
      simp [Session.allocate, mode]
    rw [Circuit.run, allocated]
    exact ih _ (s := s.reserve (len * shape.size)) mode result emits
  | store x next ih => exact ih _ (s := s.assign [x]) mode result emits
  | constrain cs label loc next ih =>
    obtain ⟨s₁, recorded⟩ := Session.constrainAll_ok mode emits.1 label loc
    have records := Session.constrainAll_compile mode recorded
    rw [Circuit.run, recorded]
    exact ih (records.mode.trans mode) (by rw [records.nextVar]; exact result)
      (by rw [records.nextVar]; exact emits.2)

theorem run_compile_ok {c : Circuit α} {s : Session} {a : α} (mode : s.mode = .compile)
    (result : c.outcome s.nextVar = some (a, m)) (holds : c.Holds z s.nextVar) :
    ∃ s', c.run s = (.ok a, s') :=
  run_compilable mode result
    ((holds_iff_emits.mp holds).mono fun _ _ => Session.compilable_of_holds)

def Agree (n : ℕ) (z z' : Assignment) : Prop := ∀ i < n, z' i = z i

theorem Agree.initial {z' : Assignment} (h : Agree n z z') : z'.initial n = z.initial n := by
  have windows : z'.window 0 n = z.window 0 n :=
    Assignment.window_congr fun i _ hi => h i (by omega)
  rw [Assignment.initial, Assignment.initial, windows]

/-- Following the hints is a matter of the variables of the circuit and those before it. -/
theorem follows_of_agree {c : Circuit α} {z' : Assignment} {a : α}
    (h : c.outcome n = some (a, m)) (agree : Agree m z z') (follows : c.Follows z n) :
    c.Follows z' n := by
  induction c generalizing n with
  | done _ => trivial
  | fail _ => exact follows
  | witness s len loc hint next ih =>
    obtain ⟨⟨vs, values, length, window⟩, rest⟩ := follows
    have inside : n + len * s.size ≤ m := outcome_le h
    have before : Agree n z z' := fun i hi => agree i (by omega)
    have same : z'.window n (len * s.size) = z.window n (len * s.size) :=
      Assignment.window_congr fun i _ hi => agree i (by omega)
    exact ⟨⟨vs, by rw [before.initial, values], length, by rw [same, window]⟩, ih n h rest⟩
  | store x next ih =>
    have inside : n < m := outcome_le h
    exact ⟨(agree n inside).trans follows.1, ih n h follows.2⟩
  | constrain cs label loc next ih => exact ih h follows

/-- Puts values in place of those from variable `n` on. -/
def extend (z : Assignment) (n : ℕ) (xs : List Fr) : Assignment :=
  fun i => if i < n then z i else xs.getD (i - n) 0

theorem extend_agree (z : Assignment) (n : ℕ) (xs : List Fr) : Agree n z (extend z n xs) :=
  fun _ h => if_pos h

theorem extend_window (z : Assignment) (n : ℕ) (xs : List Fr) :
    (extend z n xs).window n xs.length = xs := by
  apply List.ext_getElem (by simp)
  intro i hi hi'
  rw [Assignment.getElem_window, extend, if_neg (by omega), Nat.add_sub_cancel_left]
  simp [hi']

theorem length_encode (s : Shape) (v : s.Value) : (s.encode v).length = s.size := by
  induction s with
  | field => rfl
  | bit => rfl
  | unit => rfl
  | pair a b iha ihb => simp [Shape.encode, Shape.size, iha, ihb]

theorem length_flatMap_encode (s : Shape) (vs : List s.Value) :
    (vs.flatMap s.encode).length = vs.length * s.size := by
  simp [List.length_flatMap, length_encode]

/-- Where no hint fails, the values of the hints make up an assignment. The induction carries
an assignment that is right so far, and every hint extends it by its values. -/
theorem exists_follows {c : Circuit α} (live : ∀ z', Agree n z z' → c.Live z' n) :
    ∃ z', Agree n z z' ∧ c.Follows z' n := by
  induction c generalizing n z with
  | done _ => exact ⟨z, fun _ _ => rfl, trivial⟩
  | fail _ => exact (live z fun _ _ => rfl).elim
  | witness s len loc hint next ih =>
    obtain ⟨vs, values, length, -⟩ := live z fun _ _ => rfl
    have size : len * s.size = (vs.flatMap s.encode).length := by
      rw [length_flatMap_encode, length]
    have below {z' : Assignment}
        (h : Agree (n + len * s.size) (extend z n (vs.flatMap s.encode)) z') :
        Agree n z z' := fun i hi =>
      (h i (by omega)).trans (extend_agree z n _ i hi)
    have window {z' : Assignment}
        (h : Agree (n + len * s.size) (extend z n (vs.flatMap s.encode)) z') :
        z'.window n (len * s.size) = vs.flatMap s.encode := by
      rw [Assignment.window_congr fun i _ hi => h i hi, size, extend_window]
    obtain ⟨z', agree, follows⟩ := ih n (n := n + len * s.size)
      (z := extend z n (vs.flatMap s.encode)) fun z' h => by
        obtain ⟨vs', values', -, rest⟩ := live z' (below h)
        rw [(below h).initial, values] at values'
        cases values'
        exact rest (window h)
    refine ⟨z', below agree, ⟨vs, ?_, length, window agree⟩, follows⟩
    rw [(below agree).initial, values]
  | store x next ih =>
    have below {z' : Assignment} (h : Agree (n + 1) (extend z n [x]) z') : Agree n z z' :=
      fun i hi => (h i (by omega)).trans (extend_agree z n _ i hi)
    have value {z' : Assignment} (h : Agree (n + 1) (extend z n [x]) z') : z' n = x := by
      rw [h n (Nat.lt_succ_self n), extend, if_neg (lt_irrefl n), Nat.sub_self]
      rfl
    obtain ⟨z', agree, follows⟩ := ih n (n := n + 1) (z := extend z n [x])
      fun z' h => live z' (below h) (value h)
    exact ⟨z', below agree, value agree, follows⟩
  | constrain cs label loc next ih => exact ih live

end Circuit

namespace CompiledCircuit
variable {circuit : Option ι → Circuit β} {compiled : CompiledCircuit ι β}

theorem compile_run : compile (fun i => (circuit i).build) =
    match (circuit none).run (.start .compile) with
    | (.ok _, s) => .ok ⟨fun i => (circuit i).build, s.system⟩
    | (.error e, _) => .error e := rfl

/-- What a compiled circuit gives, in terms of its variables. -/
def Exposes (compiled : CompiledCircuit ι β) (out : β) : Prop :=
  ∃ s, (compiled.circuit none).start .compile = (.ok out, s)

theorem of_compile (h : compile (fun i => (circuit i).build) = .ok compiled) :
    compiled.circuit = (fun i => (circuit i).build) ∧
    ∃ out, compiled.Exposes out ∧
      (circuit none).outcome 0 = some (out, compiled.system.variableCount) ∧
      (∀ z, (∀ row ∈ compiled.system.rows, row.Holds z) ↔ (circuit none).Holds z 0) ∧
      ((circuit none).Scoped 0 →
        ∀ row ∈ compiled.system.rows, row.Below compiled.system.variableCount) := by
  rw [compile_run] at h
  cases run : (circuit none).run (.start .compile) with
  | mk result s =>
    cases result with
    | error e => rw [run] at h; cases h
    | ok out =>
      rw [run] at h
      cases h
      obtain ⟨outcome, holds, below⟩ := Circuit.run_compile rfl run
      refine ⟨rfl, out, ⟨s, run⟩, outcome, fun z => ?_, below (by simp [Session.start])⟩
      exact (holds z).trans (by simp [Session.start])

theorem compile_ok {out : β} {m : ℕ} (result : (circuit none).outcome 0 = some (out, m))
    (holds : (circuit none).Holds z 0) :
    ∃ compiled, compile (fun i => (circuit i).build) = .ok compiled := by
  obtain ⟨s, run⟩ := Circuit.run_compile_ok (s := .start .compile) rfl result holds
  refine ⟨⟨fun i => (circuit i).build, s.system⟩, ?_⟩
  rw [compile_run, run]

variable [CircuitOutput β γ] {input : ι} {value : γ}

/-- An assignment that follows the hints for an input is the witness generated for it. -/
theorem generateWitness_along {P : β → ℕ → Prop} {given : Prop}
    (h : compile (fun i => (circuit i).build) = .ok compiled)
    (same : (circuit (some input)).skeleton = (circuit none).skeleton)
    (hc : (circuit (some input)).Exact z given 0 P)
    (read : ∀ out m, P out m → CircuitOutput.read (z.initial m) out = .ok value)
    (follows : (circuit (some input)).Follows z 0) :
    compiled.generateWitness input =
        .ok (z.initial compiled.system.variableCount, value) ∧
      ∃ out, compiled.Exposes out ∧ P out compiled.system.variableCount := by
  obtain ⟨circuit_eq, out, exposes, result, holds, below⟩ := of_compile h
  obtain ⟨out', m, result', property⟩ := hc.result follows
  obtain ⟨out'', m', result'', run⟩ := Circuit.run_along true #[] follows fun _ =>
    ⟨hc.inScope follows, hc.holds follows⟩
  rw [← Circuit.outcome_skeleton, same, Circuit.outcome_skeleton, result] at result' result''
  cases result'; cases result''
  have accepted : compiled.system.check (z.initial compiled.system.variableCount) = .ok () := by
    apply ConstraintSystem.check_initial
    · apply below
      rw [← Circuit.scoped_skeleton, ← same, Circuit.scoped_skeleton]
      exact hc.inScope follows
    · apply (holds z).mpr
      rw [← Circuit.holds_skeleton, ← same, Circuit.holds_skeleton]
      exact hc.holds follows
  refine ⟨?_, out, exposes, property⟩
  have start : (compiled.circuit (some input)).start (.witness true) =
      (.ok out, .along true z #[] compiled.system.variableCount) := by
    rw [circuit_eq]
    exact run
  rw [generateWitness, start]
  simp only [Session.along]
  rw [read out _ property]
  dsimp only
  rw [accepted]

/-- Soundness and uniqueness: a witness that the system accepts is the one generated for the
input that it spells. -/
theorem generateWitness_of_check {P : β → ℕ → Prop} {given : Prop} {w : Witness}
    (h : compile (fun i => (circuit i).build) = .ok compiled)
    (same : (circuit (some input)).skeleton = (circuit none).skeleton)
    (hc : (circuit (some input)).Exact (.ofWitness w) given 0 P)
    (read : ∀ out m, P out m →
      CircuitOutput.read ((Assignment.ofWitness w).initial m) out = .ok value)
    (spelled : given) (accepted : compiled.system.check w = .ok ()) :
    compiled.generateWitness input = .ok (w, value) ∧
      ∃ out, compiled.Exposes out ∧ P out compiled.system.variableCount := by
  obtain ⟨-, -, -, -, holds, -⟩ := of_compile h
  obtain ⟨size, rows⟩ := ConstraintSystem.holds_of_check accepted
  have satisfied : (circuit (some input)).Holds (.ofWitness w) 0 := by
    rw [← Circuit.holds_skeleton, same, Circuit.holds_skeleton]
    exact (holds _).mp rows
  have generated := generateWitness_along h same hc read (hc.forced spelled satisfied)
  rwa [← size, Assignment.initial_ofWitness, size] at generated

theorem check_of_generateWitness {w : Witness}
    (h : compiled.generateWitness input = .ok (w, value)) : compiled.system.check w = .ok () := by
  unfold generateWitness at h
  split at h
  · cases h
  · split at h
    · cases h
    · split at h
      · cases h
      · cases h
        assumption

/-- Completeness: an input without failing hints has a witness. -/
theorem exists_generateWitness {P : Assignment → β → ℕ → Prop} {given : Assignment → Prop}
    (h : compile (fun i => (circuit i).build) = .ok compiled)
    (same : (circuit (some input)).skeleton = (circuit none).skeleton)
    (hc : ∀ z, (circuit (some input)).Exact z (given z) 0 (P z))
    (read : ∀ z out m, P z out m → CircuitOutput.read (z.initial m) out = .ok value) :
    ∃ w, compiled.generateWitness input = .ok (w, value) ∧
      ∃ out, P (.ofWitness w) out compiled.system.variableCount := by
  obtain ⟨z, -, follows⟩ := Circuit.exists_follows (z := fun _ => 0) fun z _ => (hc z).live
  obtain ⟨out, m, result, -⟩ := (hc z).result follows
  have agree : Circuit.Agree m z (.ofWitness (z.initial m)) :=
    fun _ inside => Assignment.ofWitness_initial inside
  obtain ⟨generated, out, -, property⟩ := generateWitness_along h same (hc _) (read _)
    (Circuit.follows_of_agree result agree follows)
  obtain ⟨-, _, -, count, -⟩ := of_compile h
  rw [← Circuit.outcome_skeleton, ← same, Circuit.outcome_skeleton, result] at count
  cases count
  rw [agree.initial] at generated
  exact ⟨_, generated, out, property⟩

theorem generateWitness_of_refusal {e : Error}
    (h : compile (fun i => (circuit i).build) = .ok compiled)
    (stops : circuit (some input) = .fail e) : compiled.generateWitness input = .error e := by
  have start : (compiled.circuit (some input)).start (.witness true) =
      (.error e, .start (.witness true)) := by
    rw [(of_compile h).1]
    change (circuit (some input)).run _ = _
    rw [stops]
    rfl
  rw [generateWitness, start]

/-- Where a circuit gives up after a part without failing hints, so does the generation of a
witness. -/
theorem generateWitness_of_fail {c : Circuit α} {e : Error} {P : Assignment → α → ℕ → Prop}
    {given : Assignment → Prop} (h : compile (fun i => (circuit i).build) = .ok compiled)
    (stops : circuit (some input) = c >>= fun _ => .fail e)
    (hc : ∀ z, c.Exact z (given z) 0 (P z)) : compiled.generateWitness input = .error e := by
  obtain ⟨z, -, follows⟩ := Circuit.exists_follows (z := fun _ => 0) fun z _ => (hc z).live
  obtain ⟨a, m, -, run⟩ := Circuit.run_along true #[] follows fun _ =>
    ⟨(hc z).inScope follows, (hc z).holds follows⟩
  have start : ((compiled.circuit (some input)).start (.witness true)) =
      (.error e, .along true z #[] m) := by
    rw [(of_compile h).1]
    change (circuit (some input)).run (.along true z #[] 0) = _
    rw [stops, Circuit.run_bind, run]
    rfl
  rw [generateWitness, start]

/-- Compiling needs no input, but an input without failing hints shows that it succeeds. -/
theorem exists_compile {P : Assignment → β → ℕ → Prop} {given : Assignment → Prop}
    (same : (circuit (some input)).skeleton = (circuit none).skeleton)
    (hc : ∀ z, (circuit (some input)).Exact z (given z) 0 (P z)) :
    ∃ compiled, compile (fun i => (circuit i).build) = .ok compiled := by
  obtain ⟨z, -, follows⟩ := Circuit.exists_follows (z := fun _ => 0) fun z _ => (hc z).live
  obtain ⟨out, m, result, -⟩ := (hc z).result follows
  rw [← Circuit.outcome_skeleton, same, Circuit.outcome_skeleton] at result
  have holds := (hc z).holds follows
  rw [← Circuit.holds_skeleton, same, Circuit.holds_skeleton] at holds
  exact compile_ok result holds

/-- Where the parameters of a circuit are refused after a part without failing hints, it does not
compile. -/
theorem compile_of_fail {c d : Circuit α} {f : α → Circuit β} {e : Error}
    {P : Assignment → α → ℕ → Prop} {given : Assignment → Prop}
    (stops : circuit none = c >>= f) (same : d.skeleton = c.skeleton)
    (hd : ∀ z, d.Exact z (given z) 0 (P z)) (fails : ∀ z a m, P z a m → f a = .fail e) :
    compile (fun i => (circuit i).build) = .error e := by
  obtain ⟨z, -, follows⟩ := Circuit.exists_follows (z := fun _ => 0) fun z _ => (hd z).live
  obtain ⟨a, m, result, property⟩ := (hd z).result follows
  rw [← Circuit.outcome_skeleton, same, Circuit.outcome_skeleton] at result
  have holds := (hd z).holds follows
  rw [← Circuit.holds_skeleton, same, Circuit.holds_skeleton] at holds
  obtain ⟨s, run⟩ := Circuit.run_compile_ok (s := .start .compile) rfl result holds
  rw [compile_run, stops, Circuit.run_bind, run]
  simp only [fails z a m property]
  rfl

end CompiledCircuit
end RankOne
