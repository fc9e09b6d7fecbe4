import RankOne.Proofs.Field.Encoding
import RankOne.Proofs.Wires

/-! Exactness of the basic gadgets: products, exclusive or, input bits, and the decomposition of
a field element into bits. -/
namespace RankOne
open Circuit
variable {z : Assignment} {given : Prop} {n m : ℕ}

/-- One value of a shape, pinned by one constraint. -/
theorem Circuit.Exact.pinned {s : Shape} {v : s.Value} {k : s.Var → Constraint}
    {P : s.Var → ℕ → Prop} {label : Option String} {loc loc' : String}
    {hint : Witness → Except RuntimeError s.Value}
    (value : hint (z.initial n) = .ok v)
    (below : (k (s.varsFrom n)).Below (n + s.size))
    (meaning : (k (s.varsFrom n)).Holds z ↔ z.window n s.size = s.encode v)
    (result : z.window n s.size = s.encode v → P (s.varsFrom n) (n + s.size)) :
    Exact z given (do
      let r ← computeFree s loc hint
      assert label loc' [k r]
      return r) n P := by
  have values : (do return [← hint (z.initial n)] : Except RuntimeError _) = .ok [v] := by
    rw [value]; rfl
  change Exact z given (witness s 1 loc (fun w => do return [← hint w]) fun i =>
    constrain [k (s.varsFrom i)] (label.getD "<unknown>") loc' (done (s.varsFrom i))) n P
  constructor
  · exact ⟨[v], values, rfl, fun _ => trivial⟩
  · intro _ holds
    have window := meaning.mp (holds.1 _ List.mem_cons_self)
    exact ⟨⟨[v], values, rfl, by simpa using window⟩, trivial⟩
  all_goals
    rintro ⟨⟨vs, values', -, window⟩, -⟩
    have same : Except.ok [v] = Except.ok vs := values.symm.trans values'
    cases same
    simp only [one_mul, List.flatMap_cons, List.flatMap_nil, List.append_nil] at window
  · refine ⟨?_, trivial⟩
    intro c hc
    rw [List.mem_singleton.mp hc]
    exact meaning.mpr window
  · refine ⟨?_, trivial⟩
    intro c hc
    rw [List.mem_singleton.mp hc, one_mul]
    exact below
  · exact ⟨_, _, rfl, by rw [one_mul]; exact result window⟩

namespace Expr
variable {x y : Expr} {a b : Fr}

theorem window_one (z : Assignment) (n : ℕ) : z.window n 1 = [z n] := rfl

theorem exact_pinned {v : Fr} {k : Expr → Constraint} {label : Option String} {loc loc' : String}
    {hint : Witness → Except RuntimeError Fr} (value : hint (z.initial n) = .ok v)
    (below : (k (.var n)).Below (n + 1)) (meaning : (k (.var n)).Holds z ↔ z n = v) :
    Exact z given (do
      let r ← computeFree .field loc hint
      assert label loc' [k r]
      return r) n fun r m => r.Carries z m v := by
  apply Exact.pinned (s := .field) value below
  · exact meaning.trans (by simp [Shape.size, Shape.encode, window_one])
  · intro window
    exact ⟨Nat.lt_succ_self n, List.singleton_inj.mp window⟩

theorem exact_mul (hx : x.Carries z n a) (hy : y.Carries z n b) (label : Option String)
    (loc : String) : Exact z given (x.mul y label loc) n fun r m => r.Carries z m (a * b) := by
  unfold mul
  split
  · rename_i c
    have value : c = a := hx.eval
    rw [← value]
    exact Exact.pure (hy.scaleBy c)
  · rename_i c _
    have value : c = b := hy.eval
    rw [← value, mul_comm]
    exact Exact.pure (hx.scaleBy c)
  · apply exact_pinned (k := fun r => .product x y r)
    · rw [read_initial hx.below, read_initial hy.below, hx.eval, hy.eval]; rfl
    · exact ⟨hx.below.mono (Nat.le_succ n), hy.below.mono (Nat.le_succ n), Nat.lt_succ_self n⟩
    · simp only [Constraint.Holds, hx.eval, hy.eval, eval_var]
      exact eq_comm

theorem exact_square (hx : x.Carries z n a) (loc : String) :
    Exact z given (x.square loc) n fun r m => r.Carries z m (a * a) := by
  unfold square
  split
  · rename_i c
    have value : c = a := hx.eval
    rw [← value]
    exact Exact.pure (carries_const _)
  · apply exact_pinned (k := fun r => .square x r)
    · rw [read_initial hx.below, hx.eval]; rfl
    · exact ⟨hx.below.mono (Nat.le_succ n), Nat.lt_succ_self n⟩
    · simp only [Constraint.Holds, hx.eval, eval_var]
      exact eq_comm

end Expr

namespace Bit
variable {a b : Bit} {u v : Bool}

theorem holds_xor {c : Expr} (ha : a.expr.eval z = Fr.ofBool u) (hb : b.expr.eval z = Fr.ofBool v) :
    (Constraint.product (a.expr + a.expr) b.expr (a.expr + b.expr - c)).Holds z ↔
      c.eval z = Fr.ofBool (u ^^ v) := by
  simp only [Constraint.Holds, Expr.eval_plus, Expr.eval_minus, ha, hb, Fr.ofBool_xor]
  constructor
  · intro h; linear_combination h
  · intro h; linear_combination h

/-- The exclusive or of bits that are no constants. The new variable is a bit although no
constraint asks for it: the product pins it to `a + b - 2 a b`. -/
theorem exact_xor_open (openA : a.constant? = none) (openB : b.constant? = none)
    (ha : a.Carries z n u) (hb : b.Carries z n v) (loc : String) :
    Exact z given (a.xor b loc) n fun c m => c.Carries z m (u ^^ v) := by
  unfold xor
  rw [openA, openB]
  have below := (ha.below.mono (Nat.le_succ n)).plus (ha.below.mono (Nat.le_succ n))
  have sum := (ha.below.mono (Nat.le_succ n)).plus (hb.below.mono (Nat.le_succ n))
  have valueA : a.expr.eval z = Fr.ofBool u := ha.eval
  have valueB : b.expr.eval z = Fr.ofBool v := hb.eval
  apply Exact.pinned (s := .bit) (v := u ^^ v)
    (k := fun c => .product (a.expr + a.expr) b.expr (a.expr + b.expr - c.expr))
  · rw [read_of_carries ha, read_of_carries hb]
    cases u <;> cases v <;> rfl
  · exact ⟨below, hb.below.mono (Nat.le_succ n), sum.minus (Nat.lt_succ_self n)⟩
  · rw [holds_xor valueA valueB, Shape.size, Expr.window_one, Shape.encode, List.singleton_inj]
    rfl
  · intro window
    exact ⟨Nat.lt_succ_self n, List.singleton_inj.mp window⟩

end Bit

namespace Assignment

def bits (z : Assignment) (n len : ℕ) : List Bool := (z.window n len).map fun x => decide (x ≠ 0)

@[simp] theorem length_bits (z : Assignment) (n len : ℕ) : (z.bits n len).length = len := by
  simp [bits]

theorem bits_of_window {len : ℕ} {bs : List Bool} (h : z.window n len = bs.map Fr.ofBool) :
    z.bits n len = bs := by
  rw [bits, h, List.map_map]
  conv_rhs => rw [← List.map_id bs]
  apply List.map_congr_left
  intro b _
  cases b <;> simp

def IsBits (z : Assignment) (n len : ℕ) : Prop := ∀ i < len, z (n + i) = 0 ∨ z (n + i) = 1

theorem isBits_zero (z : Assignment) (n : ℕ) : z.IsBits n 0 := by
  intro i h
  omega

theorem isBits_of_window {n len : ℕ} {bs : List Bool} (h : z.window n len = bs.map Fr.ofBool) :
    z.IsBits n len := by
  intro i hi
  have inside : i < (z.window n len).length := by rwa [length_window]
  have value := getElem_window inside
  simp only [h, List.getElem_map] at value
  rw [← value]
  exact (Fr.ofBool_isBit _).symm

theorem IsBits.append {n a b : ℕ} (h : z.IsBits n a) (h' : z.IsBits (n + a) b) :
    z.IsBits n (a + b) := by
  intro i hi
  by_cases first : i < a
  · exact h i first
  · have second := h' (i - a) (by omega)
    rwa [Nat.add_assoc, Nat.add_sub_cancel' (by omega)] at second

end Assignment

namespace Bits
variable {bits bits' : Bits} {bs bs' : List Bool}

def fresh (n len : ℕ) : Bits := (List.range len).map fun i => ⟨.var (n + i * Shape.bit.size)⟩

theorem fresh_succ (n len : ℕ) : fresh n (len + 1) = ⟨.var n⟩ :: fresh (n + 1) len := by
  simp only [fresh, List.range_succ_eq_map, List.map_cons, List.map_map, Shape.size, mul_one,
    add_zero, List.cons.injEq, true_and]
  apply List.map_congr_left
  intro i _
  simp [Nat.add_assoc, Nat.add_comm 1]

theorem carries_fresh {len : ℕ} (h : z.window n len = bs.map Fr.ofBool) :
    Bits.Carries z (n + len) (fresh n len) bs := by
  induction len generalizing n bs with
  | zero =>
    cases bs with
    | nil => exact .nil
    | cons _ _ => cases h
  | succ len ih =>
    rw [Assignment.window_succ] at h
    cases bs with
    | nil => cases h
    | cons b bs =>
      obtain ⟨head, tail⟩ := List.cons.inj h
      rw [fresh_succ]
      refine .cons ⟨?_, head⟩ ?_
      · change n < n + (len + 1); omega
      · have rest := ih tail
        rwa [Nat.add_assoc, Nat.add_comm 1] at rest

theorem holds_fresh {len : ℕ} :
    (∀ c ∈ (fresh n len).flatMap Shape.bit.constraints, c.Holds z) ↔
      z.window n len = (z.bits n len).map Fr.ofBool := by
  induction len generalizing n with
  | zero => simp [fresh, Assignment.bits]
  | succ len ih =>
    rw [fresh_succ, Assignment.bits, Assignment.window_succ, List.map_cons, List.map_cons,
      List.cons.injEq, ← Assignment.bits, ← ih]
    simp only [List.flatMap_cons, List.mem_append, or_imp, forall_and]
    refine and_congr_left fun _ => ?_
    constructor
    · intro h
      have isBit : z n = 1 ∨ z n = 0 := h (.isBit (.var n)) List.mem_cons_self
      exact (Fr.ofBool_decide isBit).symm
    · intro h c hc
      rw [List.mem_singleton.mp hc]
      change z n = 1 ∨ z n = 0
      rw [h]
      exact Fr.ofBool_isBit _

theorem below_fresh {len : ℕ} :
    ∀ c ∈ (fresh n len).flatMap Shape.bit.constraints, c.Below (n + len) := by
  intro c hc
  obtain ⟨b, member, hc⟩ := List.mem_flatMap.mp hc
  obtain ⟨i, hi, rfl⟩ := List.mem_map.mp member
  rw [List.mem_singleton.mp hc]
  have := List.mem_range.mp hi
  change n + i * 1 < n + len
  omega

theorem flatMap_encode (bs : List Bool) : bs.flatMap Shape.bit.encode = bs.map Fr.ofBool := by
  rw [List.flatMap_def]
  induction bs with
  | nil => rfl
  | cons b bs ih => rw [List.map_cons, List.flatten_cons, ih]; rfl

/-- Bits of the input are free: that they are the bits of the given input can only be
assumed. -/
theorem exact_witness (bs : List Bool) (loc : String)
    (spelled : given → bs = z.bits n bs.length) :
    Exact z given (witness bs.length (some bs) loc) n fun bits m =>
      m = n + bs.length ∧ bs = z.bits n bs.length ∧ z.IsBits n bs.length ∧
      Bits.Carries z m bits bs := by
  change Exact z given (Circuit.witness .bit bs.length loc (fun _ => .ok bs) fun i =>
    constrain ((fresh i bs.length).flatMap Shape.bit.constraints) _ loc
      (done (fresh i bs.length))) n _
  have size : bs.length * Shape.bit.size = bs.length := Nat.mul_one _
  constructor
  · exact ⟨bs, rfl, rfl, fun _ => trivial⟩
  · intro input holds
    have window := holds_fresh.mp holds.1
    rw [← spelled input] at window
    exact ⟨⟨bs, rfl, rfl, by rw [size, flatMap_encode, window]⟩, trivial⟩
  all_goals
    rintro ⟨⟨_, ⟨⟩, -, window⟩, -⟩
    rw [size, flatMap_encode] at window
  · refine ⟨holds_fresh.mpr ?_, trivial⟩
    rw [Assignment.bits_of_window window, window]
  · rw [Scoped, Scoped, size]
    exact ⟨below_fresh, trivial⟩
  · exact ⟨_, _, rfl, by rw [size], (Assignment.bits_of_window window).symm,
      Assignment.isBits_of_window window, by rw [size]; exact carries_fresh window⟩

theorem assertEquals_eq {x y : Expr} (h : y.constant? = none) (loc : String) :
    x.assertEquals y loc = assert "assert_equals" loc [.equal x y] := by
  unfold Expr.assertEquals
  split
  · cases h
  · rfl

/-- A number of at most 253 bits is told apart from others by its class. -/
theorem eq_val_of_bitsValue {v : Fr} (h : bs.length < modulusBits)
    (same : (Layout.bitsValue bs : Fr) = v) : Layout.bitsValue bs = v.val := by
  rw [← same, Fr.val_natCast_of_lt (Fr.lt_modulus_of_lt_two_pow h (Layout.bitsValue_lt bs))]

section Open
variable {x : Expr} {width : ℕ}

/-- The decomposition of an expression that is no constant: new bits, whose number it equals. -/
theorem ofExpr_open (depends : x.constant? = none) (narrow : width < modulusBits)
    (loc : String) : ofExpr x width loc =
      Circuit.witness .bit width loc (fun w => do
        return Layout.natBits width (← x.read w).val) fun i =>
      constrain ((fresh i width).flatMap Shape.bit.constraints) "boolean check" loc
        (constrain [.equal (toExpr (fresh i width)) x] "assert_equals" loc
          (done (fresh i width))) := by
  unfold ofExpr
  rw [if_neg (Nat.not_le.mpr narrow), depends]
  simp only [assertEquals_eq depends]
  rfl

theorem outcome_ofExpr (depends : x.constant? = none) (narrow : width < modulusBits)
    (loc : String) (n : ℕ) :
    (ofExpr x width loc).outcome n = some (fresh n width, n + width) := by
  rw [ofExpr_open depends narrow, outcome, Shape.size, Nat.mul_one]
  rfl

/-- The constraints of a decomposition force its bits, whatever the expression is. They are unique
since the width stays below the size of the field. -/
theorem holds_ofExpr (depends : x.constant? = none) (narrow : width < modulusBits)
    (loc : String) : (ofExpr x width loc).Holds z n ↔
      (x.eval z).val < 2 ^ width ∧
        z.window n width = (Layout.natBits width (x.eval z).val).map Fr.ofBool := by
  rw [ofExpr_open depends narrow]
  simp only [Holds, and_true, List.forall_mem_singleton]
  rw [holds_fresh, Constraint.Holds]
  have number {bs : List Bool} (window : z.window n width = bs.map Fr.ofBool) :
      (toExpr (fresh n width)).eval z = (Layout.bitsValue bs : Fr) :=
    (carries_toExpr (carries_fresh window)).eval
  constructor
  · rintro ⟨window, equal⟩
    rw [number window] at equal
    have length : (z.bits n width).length = width := Assignment.length_bits z n width
    have spelled := eq_val_of_bitsValue (by rwa [length]) equal
    have small := Layout.bitsValue_lt (z.bits n width)
    have bits := Layout.natBits_bitsValue (z.bits n width)
    rw [length, spelled] at bits small
    exact ⟨small, by rw [bits, window]⟩
  · rintro ⟨fits, window⟩
    refine ⟨by rw [Assignment.bits_of_window window, window], ?_⟩
    rw [number window, Layout.bitsValue_natBits_of_lt fits, Fr.natCast_val]

/-- The bits of an expression that is no constant are those of its value, if it has no more. -/
theorem exact_ofExpr_open {v : Fr} (depends : x.constant? = none) (hx : x.Carries z n v)
    (narrow : width < modulusBits) (fits : v.val < 2 ^ width) (loc : String) :
    Exact z given (ofExpr x width loc) n fun bits m =>
      Bits.Carries z m bits (Layout.natBits width v.val) := by
  have length : (Layout.natBits width v.val).length = width := Layout.length_natBits _ _
  have size : width * Shape.bit.size = width := Nat.mul_one _
  have value : (do return Layout.natBits width (← x.read (z.initial n)).val :
      Except RuntimeError _) = .ok (Layout.natBits width v.val) := by
    rw [Expr.read_initial hx.below, hx.eval]; rfl
  have follows : (ofExpr x width loc).Follows z n ↔
      z.window n width = (Layout.natBits width v.val).map Fr.ofBool := by
    simp only [ofExpr_open depends narrow, Follows, value, Except.ok.injEq, exists_eq_left',
      length, size, true_and, and_true]
    rw [flatMap_encode]
  constructor
  · rw [ofExpr_open depends narrow]
    exact ⟨_, value, length, fun _ => trivial⟩
  · intro _ holds
    have forced := (holds_ofExpr depends narrow loc).mp holds
    rw [hx.eval] at forced
    exact follows.mpr forced.2
  all_goals
    intro given
    have window := follows.mp given
    have carries := carries_fresh window
  · rw [holds_ofExpr depends narrow, hx.eval]
    exact ⟨fits, window⟩
  · simp only [ofExpr_open depends narrow, Scoped, size]
    refine ⟨below_fresh, List.forall_mem_singleton.mpr ?_, trivial⟩
    exact ⟨(carries_toExpr carries).below, hx.below.mono (Nat.le_add_right _ _)⟩
  · exact ⟨_, _, outcome_ofExpr depends narrow loc n, carries⟩

end Open

theorem forall₂_zip {ω υ ω' υ' : Type} {R : ω → υ → Prop} {S : ω' → υ' → Prop}
    {xs : List ω} {vs : List υ} {ys : List ω'} {us : List υ'} (h : List.Forall₂ R xs vs)
    (h' : List.Forall₂ S ys us) :
    List.Forall₂ (fun p q => R p.1 q.1 ∧ S p.2 q.2) (xs.zip ys) (vs.zip us) := by
  induction h generalizing ys us with
  | nil => simp
  | cons head _ ih =>
    cases h' with
    | nil => simp
    | cons head' tail' => exact .cons ⟨head, head'⟩ (ih tail')

end Bits
end RankOne
