import RankOne.Proofs.Cost
import RankOne.Proofs.Storage

/-! Allocating values of a shape. The elements of a value, the variables that stand for them and the
constraints on these variables follow the leaves of the shape from left to right. -/
namespace RankOne
open Circuit

namespace Shape
variable {shape : Shape} {n : ℕ} {w : Witness}

/-- The leaves from left to right, each with an element of its own: whether it is a bit. -/
def leaves : Shape → List Bool
  | field => [false]
  | bit => [true]
  | unit => []
  | pair a b => a.leaves ++ b.leaves

@[simp] theorem length_leaves (shape : Shape) : shape.leaves.length = shape.size := by
  induction shape with
  | field | bit | unit => rfl
  | pair a b iha ihb => rw [leaves, List.length_append, iha, ihb, size]

@[simp] theorem length_exprs (x : shape.Var) : (shape.exprs x).length = shape.size := by
  induction shape with
  | field | bit | unit => rfl
  | pair a b iha ihb => rw [exprs, List.length_append, iha, ihb, size]

theorem decode_encode (v : shape.Value) : shape.decode (shape.encode v) = some v := by
  induction shape with
  | field => rfl
  | bit => exact congrArg some (show decide (Fr.ofBool v ≠ 0) = v by simp)
  | unit => rfl
  | pair a b iha ihb =>
    have split := length_encode a v.1
    rw [encode, decode, List.take_left' split, List.drop_left' split, iha, ihb]
    rfl

theorem ofExprs_exprs (x : shape.Var) : shape.ofExprs (shape.exprs x) = some x := by
  induction shape with
  | field | bit | unit => rfl
  | pair a b iha ihb =>
    have split := length_exprs x.1
    have whole : (a.exprs x.1 ++ b.exprs x.2).length = a.size + b.size := by simp
    rw [exprs, ofExprs, if_pos whole, List.take_left' split, List.drop_left' split, iha, ihb]
    rfl

/-- Reading variables is reading the expressions behind them, and decoding what they give. -/
theorem read_eq_ok_iff {x : shape.Var} {v : shape.Value} : shape.read w x = .ok v ↔
    ∃ xs, (shape.exprs x).mapM (Expr.read w) = .ok xs ∧ shape.decode xs = some v := by
  simp only [mapM_ok_iff]
  induction shape with
  | field =>
    refine ⟨fun h => ⟨[v], .cons h .nil, rfl⟩, fun ⟨xs, elements, decoded⟩ => ?_⟩
    obtain ⟨y, _, h, rest, rfl⟩ := List.forall₂_cons_left_iff.mp elements
    cases rest
    cases decoded
    exact h
  | bit =>
    constructor
    · intro h
      obtain ⟨y, element, h⟩ := exceptBind_ok h
      cases h
      exact ⟨[y], .cons element .nil, rfl⟩
    · rintro ⟨xs, elements, decoded⟩
      obtain ⟨y, _, h, rest, rfl⟩ := List.forall₂_cons_left_iff.mp elements
      cases rest
      cases decoded
      rw [read, Bit.read, h]
      rfl
  | unit => exact ⟨fun _ => ⟨[], .nil, rfl⟩, fun _ => rfl⟩
  | pair a b iha ihb =>
    constructor
    · intro h
      obtain ⟨y, first, h⟩ := exceptBind_ok h
      obtain ⟨z, second, h⟩ := exceptBind_ok h
      cases h
      obtain ⟨ys, elements, decoded⟩ := iha.mp first
      obtain ⟨zs, elements', decoded'⟩ := ihb.mp second
      refine ⟨ys ++ zs, List.rel_append elements elements', ?_⟩
      have split : ys.length = a.size := by rw [← elements.length_eq, length_exprs]
      rw [decode, List.take_left' split, List.drop_left' split, decoded, decoded']
      rfl
    · rintro ⟨xs, elements, decoded⟩
      obtain ⟨y, left, rest⟩ := Option.bind_eq_some_iff.mp decoded
      obtain ⟨z, right, same⟩ := Option.bind_eq_some_iff.mp rest
      cases same
      have first := (List.forall₂_take_append _ _ _ elements.flip).flip
      have second := (List.forall₂_drop_append _ _ _ elements.flip).flip
      rw [length_exprs] at first second
      rw [read, iha.mpr ⟨_, first, left⟩, ihb.mpr ⟨_, second, right⟩]
      rfl

theorem exprs_varsFrom (shape : Shape) (n : ℕ) :
    shape.exprs (shape.varsFrom n) = (List.range' n shape.leaves.length).map .var := by
  induction shape generalizing n with
  | field | bit | unit => rfl
  | pair a b iha ihb =>
    rw [varsFrom, exprs, iha, ihb, ← List.map_append, ← length_leaves a, List.range'_append_1,
      leaves, List.length_append]

/-- The checks of the bits among leaves that are numbered from `n` on. -/
def bitChecks (leaves : List Bool) (n : ℕ) : List Constraint :=
  (leaves.findIdxs id n).map fun i => .isBit (.var i)

theorem bitChecks_append (leaves leaves' : List Bool) (n : ℕ) :
    bitChecks (leaves ++ leaves') n =
      bitChecks leaves n ++ bitChecks leaves' (n + leaves.length) := by
  rw [bitChecks, List.findIdxs_append, List.map_append]
  rfl

theorem constraints_varsFrom (shape : Shape) (n : ℕ) :
    shape.constraints (shape.varsFrom n) = bitChecks shape.leaves n := by
  induction shape generalizing n with
  | field | bit | unit => rfl
  | pair a b iha ihb =>
    rw [varsFrom, constraints, iha, ihb, ← length_leaves a, ← bitChecks_append, leaves]

/-- What follows the leaves of a shape follows those of several values of it. -/
theorem flatMap_varsFrom {γ : Type} {f : shape.Var → List γ} {g : List Bool → ℕ → List γ}
    (nil : g [] n = [])
    (append : ∀ leaves leaves' n,
      g (leaves ++ leaves') n = g leaves n ++ g leaves' (n + leaves.length))
    (one : ∀ n, f (shape.varsFrom n) = g shape.leaves n) (len : ℕ) :
    ((List.range len).map fun i => shape.varsFrom (n + i * shape.size)).flatMap f =
      g (List.replicate len shape.leaves).flatten n := by
  induction len with
  | zero => exact nil.symm
  | succ len ih =>
    rw [List.range_succ, List.map_append, List.flatMap_append, ih, List.replicate_succ',
      List.flatten_append, append, List.map_singleton, List.flatMap_singleton, one,
      List.flatten_singleton, List.length_flatten, List.map_replicate, List.sum_replicate,
      length_leaves]
    rfl

end Shape

namespace Session
variable {s : Session} {label loc : String} {cs : List Constraint}

theorem constrainAll_of_depends (mode : s.mode = .compile)
    (depends : ∀ c ∈ cs, (Row.ofConstraint c label loc).isConstant = false) :
    s.constrainAll label loc cs =
      (.ok (), { s with rows := s.rows ++ cs.map (Row.ofConstraint · label loc) }) := by
  induction cs generalizing s with
  | nil => simp [constrainAll]
  | cons c cs ih =>
    obtain ⟨first, rest⟩ := List.forall_mem_cons.mp depends
    rw [constrainAll, constrain_of_depends mode first]
    have recorded := ih (s := { s with rows := s.rows.push (.ofConstraint c label loc) }) mode rest
    simpa using recorded

theorem constrainAll_count (mode : s.mode = .count) (label loc : String) (cs : List Constraint) :
    s.constrainAll label loc cs = (.ok (), s) := by
  induction cs with
  | nil => rfl
  | cons c cs ih =>
    have first : s.constrain label loc c = (.ok (), s) := by simp [constrain, mode]
    rw [constrainAll, first]
    exact ih

end Session

/-- What is allocated at once: its leaves, its variables from an index on, and how a value is stored
in elements and read back from variables. A list of values has to have the right length. -/
structure Allocation (α ω : Type) where
  leaves : List Bool
  vars : ℕ → α
  exprs : α → List Expr
  encode : ω → List Fr
  read : Witness → α → Except RuntimeError ω
  Fits : ω → Prop

namespace Allocation

def one (shape : Shape) : Allocation shape.Var shape.Value where
  leaves := shape.leaves
  vars := shape.varsFrom
  exprs := shape.exprs
  encode := shape.encode
  read := shape.read
  Fits _ := True

def many (shape : Shape) (len : ℕ) : Allocation (List shape.Var) (List shape.Value) where
  leaves := (List.replicate len shape.leaves).flatten
  vars n := (List.range len).map fun i => shape.varsFrom (n + i * shape.size)
  exprs := (·.flatMap shape.exprs)
  encode := (·.flatMap shape.encode)
  read w := List.mapM (shape.read w)
  Fits vs := vs.length = len

theorem length_one (shape : Shape) : 1 * shape.size = (one shape).leaves.length := by
  rw [Nat.one_mul]
  exact (Shape.length_leaves shape).symm

theorem length_many (shape : Shape) (len : ℕ) :
    len * shape.size = (many shape len).leaves.length := by
  simp [many]

theorem constraints_many (shape : Shape) (len n : ℕ) :
    ((many shape len).vars n).flatMap shape.constraints =
      Shape.bitChecks (many shape len).leaves n :=
  Shape.flatMap_varsFrom rfl Shape.bitChecks_append shape.constraints_varsFrom len

variable {α ω : Type}

def bitRows (allocation : Allocation α ω) (n : ℕ) (loc : String) : List Row :=
  (Shape.bitChecks allocation.leaves n).map (.ofConstraint · "boolean check" loc)

end Allocation

namespace Circuit
variable {α ω : Type}

/-- In every mode the circuit gives one new variable for each leaf. -/
structure Allocates (c : Circuit α) (allocation : Allocation α ω)
    (hint : Witness → Except RuntimeError ω) (loc : String) : Prop where
  /-- The variables are numbered from left to right. -/
  order : ∀ n, allocation.exprs (allocation.vars n) =
    (List.range' n allocation.leaves.length).map .var
  /-- Compiling records a row for each bit, in order, and no other row. -/
  compiled : ∀ s : Session, s.mode = .compile → c.run s =
    (.ok (allocation.vars s.nextVar),
      { s.reserve allocation.leaves.length with
        rows := s.rows ++ allocation.bitRows s.nextVar loc })
  counted : ∀ s : Session, s.mode = .count →
    c.run s = (.ok (allocation.vars s.nextVar), s.reserve allocation.leaves.length)
  /-- A witness session stores the elements of the value, one for each leaf. Whatever is done to
  the session afterwards, the variables read as the value. -/
  generated : ∀ (s : Session) (checked : Bool) (v : ω), s.mode = .witness checked → s.Filled →
    hint s.values = .ok v → allocation.Fits v →
    c.run s = (.ok (allocation.vars s.nextVar), s.assign (allocation.encode v)) ∧
      (allocation.encode v).length = allocation.leaves.length ∧
      ∀ later, (s.assign (allocation.encode v)).Extends later →
        allocation.read later.values (allocation.vars s.nextVar) = .ok v

section Fresh
variable {shape : Shape} {len : ℕ} {allocation : Allocation α ω} {loc : String}
  {hint : Witness → Except RuntimeError (List shape.Value)} {cs : ℕ → List Constraint}

/-- Compiling takes the constraints on the variables as rows, and counting leaves them out. -/
theorem run_fresh_bits (size : len * shape.size = allocation.leaves.length)
    (bits : ∀ n, cs n = Shape.bitChecks allocation.leaves n) (s : Session) :
    let c := witness shape len loc hint fun n =>
      constrain (cs n) "boolean check" loc (done (allocation.vars n))
    (s.mode = .compile → c.run s = (.ok (allocation.vars s.nextVar),
      { s.reserve allocation.leaves.length with
        rows := s.rows ++ allocation.bitRows s.nextVar loc })) ∧
    (s.mode = .count →
      c.run s = (.ok (allocation.vars s.nextVar), s.reserve allocation.leaves.length)) := by
  intro c
  have allocated (mode : s.mode = .compile ∨ s.mode = .count) : s.allocate shape len loc hint =
      (.ok s.nextVar, s.reserve allocation.leaves.length) := by
    rcases mode with mode | mode <;> simp [Session.allocate, mode, size]
  constructor
  · intro mode
    have depends : ∀ k ∈ cs s.nextVar,
        (Row.ofConstraint k "boolean check" loc).isConstant = false := by
      rw [bits]
      rintro _ member
      obtain ⟨i, -, rfl⟩ := List.mem_map.mp member
      exact Row.isConstant_of_variable rfl _ _
    have recorded := Session.constrainAll_of_depends (s := s.reserve allocation.leaves.length) mode
      depends
    rw [bits] at recorded
    simp only [c, run, allocated (.inl mode), bits, recorded]
    rfl
  · intro mode
    have passed := Session.constrainAll_count (s := s.reserve allocation.leaves.length) mode
      "boolean check" loc (cs s.nextVar)
    simp only [c, run, allocated (.inr mode), passed]

end Fresh

theorem allocates_compute (shape : Shape) (loc : String)
    (hint : Witness → Except RuntimeError shape.Value) :
    (compute shape loc hint).Allocates (.one shape) hint loc where
  order := shape.exprs_varsFrom
  compiled s := (run_fresh_bits (Allocation.length_one shape) shape.constraints_varsFrom s).1
  counted s := (run_fresh_bits (Allocation.length_one shape) shape.constraints_varsFrom s).2
  generated s checked v mode filled given _ := by
    refine ⟨(stores_compute mode given).run filled, ?_, fun later grows => ?_⟩
    · exact (length_encode shape v).trans (Shape.length_leaves shape).symm
    · have stored : (s.values ++ [v].flatMap shape.encode).toList <+: later.values.toList := by
        rw [List.flatMap_singleton]
        exact grows.values
      have read := Shape.read_of_stored stored 0 Nat.one_pos
      rw [filled, Nat.zero_mul] at read
      exact read

theorem allocates_computeMany (shape : Shape) (len : ℕ) (loc : String)
    (hint : Witness → Except RuntimeError (List shape.Value)) :
    (computeMany shape len loc hint).Allocates (.many shape len) hint loc where
  order n := by
    refine Shape.flatMap_varsFrom
      (g := fun leaves n => (List.range' n leaves.length).map Expr.var) rfl
      (fun leaves leaves' n => ?_) shape.exprs_varsFrom len
    rw [List.length_append, ← List.range'_append_1, List.map_append]
  compiled s := (run_fresh_bits (Allocation.length_many shape len)
    (Allocation.constraints_many shape len) s).1
  counted s := (run_fresh_bits (Allocation.length_many shape len)
    (Allocation.constraints_many shape len) s).2
  generated s checked vs mode filled given length := by
    refine ⟨(stores_computeMany mode given length).run filled, ?_, fun later grows => ?_⟩
    · rw [← Allocation.length_many, ← length]
      exact length_flatMap_encode shape vs
    · refine mapM_ok (List.forall₂_iff_get.mpr ⟨?_, fun i h h' => ?_⟩)
      · exact (List.length_map _).trans (List.length_range.trans length.symm)
      · have read := Shape.read_of_stored grows.values i h'
        rw [filled] at read
        simpa [Allocation.many] using read

/-- Values of a shape come back from their elements, and variables from their expressions. Computing
a value, or a list of values, stores it in variables that read as the value; compiling gives the
same variables. A hint for a list that is not as long as it has to be changes nothing. -/
theorem allocation_of_shape (shape : Shape) (loc : String) :
    (∀ v, (shape.encode v).length = shape.size ∧ shape.decode (shape.encode v) = some v) ∧
    (∀ x, shape.ofExprs (shape.exprs x) = some x) ∧
    (∀ w x v, shape.read w x = .ok v ↔
      ∃ xs, (shape.exprs x).mapM (Expr.read w) = .ok xs ∧ shape.decode xs = some v) ∧
    (∀ hint, (compute shape loc hint).Allocates (.one shape) hint loc) ∧
    ∀ len hint, (computeMany shape len loc hint).Allocates (.many shape len) hint loc ∧
      ∀ (s : Session) (checked : Bool) (vs : List shape.Value), s.mode = .witness checked →
        hint s.values = .ok vs → vs.length ≠ len →
        (computeMany shape len loc hint).run s =
          (.error (.runtime (.hintLength loc len vs.length)), s) := by
  refine ⟨fun v => ⟨length_encode shape v, Shape.decode_encode v⟩, Shape.ofExprs_exprs,
    fun w x v => Shape.read_eq_ok_iff, allocates_compute shape loc, fun len hint =>
      ⟨allocates_computeMany shape len loc hint, fun s checked vs mode given other => ?_⟩⟩
  simp [computeMany, run, Session.allocate, mode, given, other]

/-- A bit and nothing, paired with an element and a bit, after a stored element. -/
theorem allocation_of_nested_pairs :
    let shape : Shape := .pair (.pair .bit .unit) (.pair .field .bit)
    let vars : shape.Var := ((⟨.var 1⟩, ()), .var 2, ⟨.var 3⟩)
    let v : shape.Value := ((true, ()), 7, false)
    let s : Session := ⟨.witness true, #[], #[5], 1⟩
    let c := compute shape "pair" fun _ => .ok v
    c.run s = (.ok vars, s.assign [1, 7, 0]) ∧
    shape.read #[5, 1, 7, 0, 9] vars = .ok v ∧
    c.run ⟨.compile, #[], #[], 1⟩ = (.ok vars, ⟨.compile,
      #[.ofConstraint (.isBit (.var 1)) "boolean check" "pair",
        .ofConstraint (.isBit (.var 3)) "boolean check" "pair"], #[], 4⟩) ∧
    (computeMany shape 2 "pair" fun _ => .ok [v]).run s =
      (.error (.runtime (.hintLength "pair" 2 1)), s) := by
  intro shape vars v s c
  obtain ⟨-, -, -, one, many⟩ := allocation_of_shape shape "pair"
  obtain ⟨run, -, retained⟩ := (one fun _ => .ok v).generated s true v rfl rfl rfl trivial
  refine ⟨run, ?_, (one fun _ => .ok v).compiled ⟨.compile, #[], #[], 1⟩ rfl,
    (many 2 fun _ => .ok [v]).2 s true [v] rfl rfl (by decide)⟩
  exact retained ⟨.witness true, #[], #[5, 1, 7, 0, 9], 5⟩
    ⟨rfl, by decide, List.prefix_refl _, [9], rfl⟩

end Circuit
end RankOne
