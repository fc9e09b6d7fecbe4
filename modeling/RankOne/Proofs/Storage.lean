import RankOne.Proofs.Runs
import RankOne.Proofs.Tasks

/-! What witness sessions store. Values are stored behind those before them, and variables are
numbered in the order of allocation, so that a variable reads as the value stored for it just
when no variable was allocated without a value before it. -/
namespace RankOne
variable {z : Assignment} {n m k : ℕ}

namespace Shape
variable {s : Shape}

theorem window_pair {a b : Shape} {x : a.Value} {y : b.Value}
    (window : z.window n (a.size + b.size) = a.encode x ++ b.encode y) :
    z.window n a.size = a.encode x ∧ z.window (n + a.size) b.size = b.encode y := by
  rw [Assignment.window_add] at window
  exact List.append_inj window (by rw [Assignment.length_window, Circuit.length_encode])

theorem read_varsFrom {v : s.Value} (window : z.window n s.size = s.encode v)
    (inside : s.size = 0 ∨ n + s.size ≤ m) : s.read (z.initial m) (s.varsFrom n) = .ok v := by
  have element (i : ℕ) (h : i < m) : (Expr.var i).read (z.initial m) = .ok (z i) :=
    Expr.read_initial h
  induction s generalizing n with
  | field =>
    rw [read, varsFrom, element n (inside.resolve_left Nat.one_ne_zero)]
    exact congrArg Except.ok (List.head_eq_of_cons_eq window)
  | bit =>
    have value : z n = Fr.ofBool v := List.head_eq_of_cons_eq window
    rw [read, varsFrom, Bit.read, element n (inside.resolve_left Nat.one_ne_zero), value]
    exact congrArg Except.ok (show decide (Fr.ofBool v ≠ 0) = v by simp)
  | unit => rfl
  | pair a b iha ihb =>
    obtain ⟨x, y⟩ := v
    obtain ⟨first, second⟩ := window_pair window
    rw [size] at inside
    rw [read, varsFrom, iha first (by omega), ihb second (by omega)]
    rfl

theorem inside_of_read {w : Witness} {v : s.Value} (h : s.read w (s.varsFrom n) = .ok v) :
    s.size = 0 ∨ n + s.size ≤ w.size := by
  have element {i : ℕ} {x : Fr} (h : (Expr.var i).read w = .ok x) : i < w.size := by
    rw [Expr.read] at h
    split at h
    · exact (Array.getElem?_eq_some_iff.mp ‹_›).1
    · cases h
  induction s generalizing n with
  | field => exact .inr (element h)
  | bit =>
    obtain ⟨x, given, -⟩ := exceptBind_ok h
    exact .inr (element given)
  | unit => exact .inl rfl
  | pair a b iha ihb =>
    obtain ⟨x, first, h⟩ := exceptBind_ok h
    obtain ⟨y, second, -⟩ := exceptBind_ok h
    have left := iha first
    have right := ihb second
    rw [size]
    omega

theorem holds_constraints {v : s.Value} (window : z.window n s.size = s.encode v)
    (inside : n + s.size ≤ m) : ∀ c ∈ s.constraints (s.varsFrom n), c.Below m ∧ c.Holds z := by
  induction s generalizing n with
  | field => simp [constraints]
  | bit =>
    have value : z n = Fr.ofBool v := List.head_eq_of_cons_eq window
    refine List.forall_mem_singleton.mpr ⟨inside, ?_⟩
    change z n = 1 ∨ z n = 0
    rw [value]
    exact Fr.ofBool_isBit v
  | unit => simp [constraints]
  | pair a b iha ihb =>
    obtain ⟨x, y⟩ := v
    obtain ⟨first, second⟩ := window_pair window
    rw [size] at inside
    exact List.forall_mem_append.mpr ⟨iha first (by omega), ihb second (by omega)⟩

theorem window_flatMap {vs : List s.Value}
    (window : z.window n (vs.length * s.size) = vs.flatMap s.encode) (i : ℕ) (h : i < vs.length) :
    z.window (n + i * s.size) s.size = s.encode vs[i] := by
  induction vs generalizing n i with
  | nil => cases h
  | cons v vs ih =>
    rw [List.length_cons, Nat.succ_mul, Nat.add_comm, List.flatMap_cons,
      Assignment.window_add] at window
    obtain ⟨first, rest⟩ := List.append_inj window
      (by rw [Assignment.length_window, Circuit.length_encode])
    cases i with
    | zero => simpa using first
    | succ i =>
      have next := ih rest i (Nat.lt_of_succ_lt_succ h)
      rwa [Nat.add_assoc, Nat.add_comm s.size, ← Nat.succ_mul] at next

theorem holds_constraintsMany {vs : List s.Value}
    (window : z.window n (vs.length * s.size) = vs.flatMap s.encode) :
    ∀ c ∈ ((List.range vs.length).map fun i => s.varsFrom (n + i * s.size)).flatMap s.constraints,
      c.Below (n + vs.length * s.size) ∧ c.Holds z := by
  intro c member
  simp only [List.mem_flatMap, List.mem_map, List.mem_range] at member
  obtain ⟨_, ⟨i, h, rfl⟩, member⟩ := member
  have inside := Nat.mul_le_mul_right s.size (Nat.succ_le_of_lt h)
  rw [Nat.succ_mul] at inside
  exact holds_constraints (window_flatMap window i h) (by omega) c member

end Shape

namespace Session
variable {s : Session} {checked : Bool} {xs : List Fr}

/-- Values stay where they were stored. -/
theorem window_of_prefix {w w' : Witness} (stored : (w ++ xs).toList <+: w'.toList) :
    (Assignment.ofWitness w').window w.size xs.length = xs := by
  obtain ⟨rest, same⟩ := stored
  rw [Array.toList_appendList] at same
  apply List.ext_getElem (Assignment.length_window _ _ _)
  intro i _ inside
  rw [Assignment.getElem_window]
  apply Assignment.ofWitness_eq
  rw [← Array.getElem?_toList, ← same, List.append_assoc, List.getElem?_append_right (by simp)]
  simp [List.getElem?_append_left inside]

end Session

/-- The variables that are numbered like stored values read as these, whatever is stored behind. -/
theorem Shape.read_of_stored {s : Shape} {w w' : Witness} {vs : List s.Value}
    (stored : (w ++ vs.flatMap s.encode).toList <+: w'.toList) (i : ℕ) (h : i < vs.length) :
    s.read w' (s.varsFrom (w.size + i * s.size)) = .ok vs[i] := by
  have window := Session.window_of_prefix stored
  have enough := stored.length_le
  rw [Array.length_toList, Array.length_toList, Session.size_append] at enough
  rw [Circuit.length_flatMap_encode] at window enough
  have next := Nat.mul_le_mul_right s.size (Nat.succ_le_of_lt h)
  rw [Nat.succ_mul] at next
  rw [← Assignment.initial_ofWitness w']
  exact Shape.read_varsFrom (Shape.window_flatMap window i h) (.inr (by omega))

namespace Circuit
variable {α : Type} {s : Session} {checked : Bool} {shape : Shape} {len : ℕ}
  {label loc loc' : String} {hint : Witness → Except RuntimeError (List shape.Value)}
  {vs : List shape.Value} {cs : ℕ → List Constraint} {result : ℕ → α}

/-- A run stores elements behind those of a session, whatever becomes of the constraints on them.
Where every variable has a value, the constraints are met and the result is given. -/
structure Stores (c : Circuit α) (s : Session) (xs : List Fr) (a : α) : Prop where
  values : (c.run s).2.values = s.values ++ xs
  run : s.Filled → c.run s = (.ok a, s.assign xs)

theorem stores_storeValue (x : Fr) : (storeValue x).Stores s [x] (.var s.nextVar) :=
  ⟨rfl, fun _ => rfl⟩

theorem stores_fresh (mode : s.mode = .witness checked) (given : hint s.values = .ok vs)
    (length : vs.length = len)
    (holds : ∀ z : Assignment, z.window s.nextVar (len * shape.size) = vs.flatMap shape.encode →
      ∀ c ∈ cs s.nextVar, c.Below (s.nextVar + len * shape.size) ∧ c.Holds z) :
    Stores (witness shape len loc hint fun i => constrain (cs i) label loc' (done (result i))) s
      (vs.flatMap shape.encode) (result s.nextVar) := by
  constructor
  · simp only [run, Session.allocate, mode, given, length, if_true]
    cases emitted : (s.assign (vs.flatMap shape.encode)).constrainAll label loc' (cs s.nextVar) with
    | mk r s' =>
      have same := (Session.constrainAll_spec emitted).1.values
      cases r <;> exact same
  · intro filled
    have agree := extend_agree (.ofWitness s.values) s.nextVar (vs.flatMap shape.encode)
    have window := extend_window (.ofWitness s.values) s.nextVar (vs.flatMap shape.encode)
    generalize extend _ _ _ = z at agree window
    have same := Session.along_of_agree mode filled agree
    rw [length_flatMap_encode, length] at window
    have hinted : hint (z.initial s.nextVar) = .ok vs := by
      rw [Session.initial_of_agree filled agree, given]
    have follows : (witness shape len loc hint fun i =>
        constrain (cs i) label loc' (done (result i))).Follows z s.nextVar :=
      ⟨⟨vs, hinted, length, window⟩, trivial⟩
    have passes := holds z window
    obtain ⟨a, m, outcome, run⟩ := run_along checked s.rows follows fun _ =>
      ⟨⟨fun c member => (passes c member).1, trivial⟩,
        ⟨fun c member => (passes c member).2, trivial⟩⟩
    cases outcome
    rw [← Session.assign_along window, ← same] at run
    exact run

theorem stores_compute {v : shape.Value} {hint : Witness → Except RuntimeError shape.Value}
    (mode : s.mode = .witness checked) (given : hint s.values = .ok v) :
    (compute shape loc hint).Stores s (shape.encode v) (shape.varsFrom s.nextVar) := by
  have hinted : (do return [← hint s.values]) = Except.ok (ε := RuntimeError) [v] := by
    rw [given]
    rfl
  have stores : (compute shape loc hint).Stores s ([v].flatMap shape.encode)
      (shape.varsFrom s.nextVar) := stores_fresh mode hinted rfl fun z window =>
    Shape.holds_constraints (v := v) (by simpa using window) (by simp)
  rw [List.flatMap_singleton] at stores
  exact stores

theorem stores_computeMany (mode : s.mode = .witness checked) (given : hint s.values = .ok vs)
    (length : vs.length = len) :
    (computeMany shape len loc hint).Stores s (vs.flatMap shape.encode)
      ((List.range len).map fun i => shape.varsFrom (s.nextVar + i * shape.size)) := by
  subst length
  exact stores_fresh mode given rfl fun z => Shape.holds_constraintsMany

end Circuit

namespace Program.Progress
variable {p : Progress} {s : Shape} {vs : List s.Value} {checked : Bool}

/-- From now on the variables read as the value, whatever tasks are done. -/
def Retains (p : Progress) (s : Shape) (x : s.Var) (v : s.Value) : Prop :=
  ∀ later, s.read (p.after later).session.values x = .ok v

/-- Values are retained by the variables that are numbered like them, and by no others. -/
theorem retains_iff {w : Witness} (values : p.session.values = w ++ vs.flatMap s.encode)
    (lacks : w.size + k = n) :
    (∀ i, (h : i < vs.length) → p.Retains s (s.varsFrom (n + i * s.size)) vs[i]) ↔
      vs.length * s.size = 0 ∨ k = 0 := by
  have size : p.session.values.size = w.size + vs.length * s.size := by
    rw [values, Session.size_append, Circuit.length_flatMap_encode]
  constructor
  · intro retained
    by_cases empty : vs.length = 0
    · exact .inl (by rw [empty, Nat.zero_mul])
    · obtain ⟨i, last⟩ := Nat.exists_eq_succ_of_ne_zero empty
      have inside := Shape.inside_of_read (retained i (by omega) [])
      change s.size = 0 ∨ _ ≤ p.session.values.size at inside
      rw [size, last, Nat.succ_mul] at inside
      rw [Nat.mul_eq_zero]
      omega
  · intro room i h later
    have stored := (extends_after p later).values
    rw [values] at stored
    rcases room with none | aligned
    · have none : s.size = 0 := (Nat.mul_eq_zero.mp none).resolve_left (by omega)
      rw [← Assignment.initial_ofWitness (p.after later).session.values]
      refine Shape.read_varsFrom ?_ (.inl none)
      rw [none, Assignment.window_zero]
      exact (List.eq_nil_of_length_eq_zero (by rw [Circuit.length_encode, none])).symm
    · rw [← show w.size = n by omega]
      exact Shape.read_of_stored stored i h

theorem retains_one_iff {v : s.Value} {w : Witness} (values : p.session.values = w ++ s.encode v)
    (lacks : w.size + k = n) : p.Retains s (s.varsFrom n) v ↔ s.size = 0 ∨ k = 0 := by
  have stored : p.session.values = w ++ [v].flatMap s.encode := by rwa [List.flatMap_singleton]
  have many := retains_iff stored lacks
  refine Iff.trans ⟨?_, ?_⟩ (many.trans (by rw [List.length_singleton, Nat.one_mul]))
  · intro retained i h
    obtain rfl : i = 0 := Nat.lt_one_iff.mp h
    simpa using retained
  · intro retained
    simpa using retained 0 Nat.one_pos

theorem next_stores (step : Step) {α : Type} {c : Circuit α} {f : α → Value} {xs : List Fr} {a : α}
    (stores : c.Stores p.session xs a)
    (circuit : step.operation.circuit p.results step.loc = c >>= fun a => pure (f a)) :
    (p.next (.step step)).session.values = p.session.values ++ xs ∧
    (p.session.Filled → (p.next (.step step)).results = p.results.push (f a)) := by
  rw [next_step, circuit, Circuit.run_bind]
  refine ⟨?_, fun filled => ?_⟩
  · rw [← stores.values]
    cases c.run p.session with
    | mk r s => cases r <;> rfl
  · rw [stores.run filled]
    rfl

/-- What tasks store is retained by the variables that they return, and which are numbered like
the values, just when no variable was reserved before. -/
theorem retained_iff (checked : Bool) (history : List Task) (loc : String) :
    let p := (start (.witness checked)).after history
    let n := p.session.nextVar
    (∀ x,
      let q := p.next (.step ⟨.store x, loc⟩)
      q.results = p.results.push (.field (.var n)) ∧
      (q.Retains .field (.var n) x ↔ .reserve ∉ history)) ∧
    (∀ s hint v, hint p.results p.session.values = .ok v →
      let q := p.next (.step ⟨.compute s hint, loc⟩)
      (.reserve ∉ history → q.results = p.results.push (.ofVar s (s.varsFrom n))) ∧
      (q.Retains s (s.varsFrom n) v ↔ s.size = 0 ∨ .reserve ∉ history)) ∧
    ∀ s len hint vs, hint p.results p.session.values = .ok vs → vs.length = len →
      let q := p.next (.step ⟨.computeMany s len hint, loc⟩)
      let vars := fun i => s.varsFrom (n + i * s.size)
      (.reserve ∉ history →
        q.results = p.results.push (.list ((List.range len).map fun i => .ofVar s (vars i)))) ∧
      ((∀ i, (h : i < vs.length) → q.Retains s (vars i) vs[i]) ↔
        len * s.size = 0 ∨ .reserve ∉ history) := by
  intro p n
  have witness : p.session.hasWitness := (extends_after _ history).hasWitness
  obtain ⟨checked', mode⟩ : ∃ checked', p.session.mode = .witness checked' := by
    unfold Session.hasWitness at witness
    split at witness
    · exact ⟨_, ‹_›⟩
    · cases witness
  obtain ⟨k, lacks, unreserved⟩ :=
    lacks_after (p := start (.witness checked)) (k := 0) history rfl rfl
  have iff : k = 0 ↔ .reserve ∉ history := unreserved.trans (and_iff_right rfl)
  have filled (none : .reserve ∉ history) : p.session.Filled := by
    obtain rfl := iff.mpr none
    exact lacks
  refine ⟨fun x => ?_, fun s hint v given => ?_, fun s len hint vs given length => ?_⟩
  · obtain ⟨values, -⟩ := next_stores (p := p) ⟨.store x, loc⟩
      (Circuit.stores_storeValue x) rfl
    refine ⟨?_, ?_⟩
    · rw [next_step]
      rfl
    · refine (retains_one_iff (s := .field) values lacks).trans ?_
      rw [iff]
      exact or_iff_right Nat.one_ne_zero
  · obtain ⟨values, results⟩ := next_stores (p := p) ⟨.compute s hint, loc⟩
      (Circuit.stores_compute mode given) rfl
    exact ⟨fun none => results (filled none), by rw [retains_one_iff values lacks, iff]⟩
  · obtain ⟨values, results⟩ := next_stores (p := p) ⟨.computeMany s len hint, loc⟩
      (Circuit.stores_computeMany mode given length) rfl
    refine ⟨fun none => ?_, by rw [retains_iff values lacks, length, iff]⟩
    rw [results (filled none), List.map_map]
    rfl

/-- A pair computed after a stored element. -/
theorem retained_of_pair :
    (((start (.witness true)).after [.step ⟨.store 5, "five"⟩]).next
      (.step ⟨.compute (.pair .field .bit) fun _ _ => .ok (7, true), "pair"⟩)).Retains
        (.pair .field .bit) (.var 1, ⟨.var 2⟩) (7, true) :=
  ((retained_iff true [.step ⟨.store 5, "five"⟩] "pair").2.1 (.pair .field .bit)
    (fun _ _ => .ok (7, true)) (7, true) rfl).2.mpr (.inr (by simp))

/-- After a reserved variable the one stored next cannot be read at first, and then reads as the
element stored after it. -/
theorem not_retained_of_reserve :
    let p := (start (.witness true)).after [.reserve]
    let q := p.next (.step ⟨.store 5, "five"⟩)
    q.results = p.results.push (.field (.var 1)) ∧
    (Expr.var 1).read q.session.values = .error (.unassigned 1) ∧
    (Expr.var 1).read (q.after [.step ⟨.store 7, "seven"⟩]).session.values = .ok 7 ∧
    ¬q.Retains .field (.var 1) 5 :=
  ⟨rfl, rfl, rfl, fun retained => nomatch (retained [] : (Except.error _ : Except _ Fr) = .ok 5)⟩

end Program.Progress
end RankOne
