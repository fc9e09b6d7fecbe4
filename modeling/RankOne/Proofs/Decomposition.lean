import RankOne.Proofs.Computes

/-! The decomposition of an expression into bits, in any session. The bits are those of the value,
which must have no more of them; a constant is taken apart at once. -/
namespace RankOne
open Circuit
variable {x : Expr} {width : ℕ} {loc : String} {s : Session}

namespace Bits

theorem run_ofExpr_constant {c : Fr} (constant : x.constant? = some c)
    (narrow : width < modulusBits) (loc : String) (s : Session) :
    (ofExpr x width loc).run s =
      (if c.val < 2 ^ width then .ok (const (Layout.natBits width c.val))
        else .error (.compilation (.constantTooWide c width)), s) := by
  rw [ofExpr, if_neg (Nat.not_le.mpr narrow), constant]
  simp only [Nat.one_shiftLeft]
  split <;> rfl

/-- A width that does not fit in the field is refused, and so is the size that is asked for instead
when it is no 64-bit number. -/
theorem run_ofExpr_wide (wide : modulusBits ≤ width) (x : Expr) (loc : String) (s : Session) :
    (ofExpr x width loc).run s =
      (.error (.compilation (if width + 1 < UInt64.size then .fieldTooSmall (width + 1)
        else .tooLarge (width + 1))), s) := by
  rw [ofExpr, if_pos wide, Circuit.size]
  split <;> rfl

/-- The values of new bits are there before they are compared with the expression. -/
theorem run_fresh {z : Assignment} {bs : List Bool} {n : ℕ} {rows : Array Row}
    {hint : Witness → Except RuntimeError (List Bool)} (value : hint (z.initial n) = .ok bs)
    (length : bs.length = width) (window : z.window n width = bs.map Fr.ofBool) :
    (computeMany .bit width loc hint).run (.along true z rows n) =
      (.ok (fresh n width), .along true z rows (n + width)) := by
  have size : width * Shape.bit.size = width := Nat.mul_one _
  have follows : (computeMany .bit width loc hint).Follows z n :=
    ⟨⟨bs, value, length, by rw [size, flatMap_encode, window]⟩, trivial⟩
  have inScope : (computeMany .bit width loc hint).Scoped n := by
    change (∀ c ∈ (fresh n width).flatMap Shape.bit.constraints, c.Below _) ∧ True
    rw [size]
    exact ⟨below_fresh, trivial⟩
  have holds : (computeMany .bit width loc hint).Holds z n := by
    refine ⟨holds_fresh.mpr ?_, trivial⟩
    rw [Assignment.bits_of_window window, window]
  obtain ⟨bits, m, outcome, run⟩ := run_along true rows follows fun _ => ⟨inScope, holds⟩
  rw [computeMany, Circuit.outcome, size] at outcome
  cases outcome
  exact run

/-- A value with more bits than the width is not what is left of it. -/
theorem natCast_mod_ne {v : Fr} (excess : 2 ^ width ≤ v.val) :
    ((v.val % 2 ^ width : ℕ) : Fr) ≠ v := by
  intro same
  have small : v.val % 2 ^ width < 2 ^ width := Nat.mod_lt _ (Nat.two_pow_pos _)
  have values := congrArg Fr.val same
  rw [Fr.val_natCast_of_lt ((Nat.mod_le _ _).trans_lt v.isLt)] at values
  omega

/-- A witness session that checks constraints compares the number of the new bits with the
expression, and finds them unequal. -/
theorem run_ofExpr_excess {v : Fr} (mode : s.mode = .witness true) (filled : s.Filled)
    (value : x.read s.values = .ok v) (depends : x.constant? = none) (narrow : width < modulusBits)
    (excess : 2 ^ width ≤ v.val) (loc : String) :
    ∃ s', (ofExpr x width loc).run s = (.error (.runtime
      (.notEqual ("assert_equals (" ++ loc ++ ")") ((v.val % 2 ^ width : ℕ) : Fr) v)), s') := by
  set bs := Layout.natBits width v.val with hbs
  have length : bs.length = width := Layout.length_natBits _ _
  set z := extend (.ofWitness s.values) s.nextVar (bs.map Fr.ofBool)
  have agree : Agree s.nextVar (.ofWitness s.values) z := extend_agree _ _ _
  have window : z.window s.nextVar width = bs.map Fr.ofBool := by
    have extended := extend_window (.ofWitness s.values) s.nextVar (bs.map Fr.ofBool)
    rwa [List.length_map, length] at extended
  rw [← Session.initial_of_agree filled agree] at value
  have hx := Expr.Carries.mono (Expr.carries_of_read value) (Nat.le_add_right s.nextVar width)
  have number := carries_toExpr (carries_fresh window)
  rw [hbs, Layout.bitsValue_natBits] at number
  have unequal (label : String) :
      Constraint.check (z.initial (s.nextVar + width)) label
        (.equal (toExpr (fresh s.nextVar width)) x) =
      .error (.notEqual label ((v.val % 2 ^ width : ℕ) : Fr) v) := by
    rw [Constraint.check, Expr.read_initial number.below, Expr.read_initial hx.below, number.eval,
      hx.eval]
    exact if_neg (natCast_mod_ne excess)
  refine ⟨.along true z s.rows (s.nextVar + width), ?_⟩
  rw [Session.along_of_agree mode filled agree, ofExpr, if_neg (Nat.not_le.mpr narrow), depends]
  simp only [assertEquals_eq depends]
  rw [run_bind, run_fresh (by rw [value]; rfl) length window]
  simp only [run_bind, assert, Circuit.run, Session.constrainAll, Session.constrain,
    Session.along, unequal]
  rfl

/-- The decomposition into bits of a width is exact, whatever the expression is and whatever the
session has come to. -/
structure Decomposes (width : ℕ) : Prop where
  /-- What it compiles to forces the value to be below the power of two, and the bits to be its
  own. -/
  forces : width < modulusBits → ∀ (x : Expr) (loc : String) (s s' : Session) (bits : Bits),
    s.mode = .compile → (ofExpr x width loc).run s = (.ok bits, s') →
    ∃ rows, s'.rows.toList = s.rows.toList ++ rows ∧
      ∀ z, (∀ row ∈ rows, row.Holds z) → (x.eval z).val < 2 ^ width ∧
        Spell z [bits] [Layout.natBits width (x.eval z).val]
  /-- It compiles for an expression in allocated variables that can have such a value. -/
  compiles : width < modulusBits → ∀ (x : Expr) (loc : String) (s : Session) (z : Assignment),
    s.mode = .compile → x.Below s.nextVar → (x.eval z).val < 2 ^ width →
    ∃ bits s', (ofExpr x width loc).run s = (.ok bits, s')
  /-- A witness session that checks constraints has the same bits of the value, and gets through
  just when these are all. -/
  generates : width < modulusBits → ∀ (x : Expr) (loc : String) (s : Session) (v : Fr),
    s.mode = .witness true → s.Filled → x.read s.values = .ok v →
    ((∃ bits s', (ofExpr x width loc).run s = (.ok bits, s')) ↔ v.val < 2 ^ width) ∧
    (∀ bits s', (ofExpr x width loc).run s = (.ok bits, s') →
      ReadAs s'.values [bits] [Layout.natBits width v.val]) ∧
    (x.constant? = none → 2 ^ width ≤ v.val → ∃ s', (ofExpr x width loc).run s =
      (.error (.runtime (.notEqual ("assert_equals (" ++ loc ++ ")")
        ((v.val % 2 ^ width : ℕ) : Fr) v)), s'))
  /-- An expression that depends on no variable gives constants, or is refused, in any mode. -/
  folds : width < modulusBits → ∀ (x : Expr) (c : Fr) (loc : String) (s : Session),
    x.constant? = some c → (∀ z, x.eval z = c) ∧
    (c.val < 2 ^ width →
      (ofExpr x width loc).run s = (.ok (const (Layout.natBits width c.val)), s)) ∧
    (2 ^ width ≤ c.val →
      (ofExpr x width loc).run s = (.error (.compilation (.constantTooWide c width)), s))
  /-- A width that the field has no room for is refused. -/
  limited : modulusBits ≤ width → ∀ (x : Expr) (loc : String) (s : Session),
    (ofExpr x width loc).run s = (.error (.compilation (.fieldTooSmall (width + 1))), s)

theorem forces_of_run {bits : Bits} {s' : Session} (narrow : width < modulusBits)
    (mode : s.mode = .compile) (run : (ofExpr x width loc).run s = (.ok bits, s')) :
    ∃ rows, s'.rows.toList = s.rows.toList ++ rows ∧
      ∀ z, (∀ row ∈ rows, row.Holds z) → (x.eval z).val < 2 ^ width ∧
        Spell z [bits] [Layout.natBits width (x.eval z).val] := by
  cases constant : x.constant? with
  | some c =>
    rw [run_ofExpr_constant constant narrow] at run
    split at run
    · rename_i fits
      cases run
      refine ⟨[], (List.append_nil _).symm, fun z _ => ?_⟩
      rw [Expr.eval_of_constant? constant]
      exact ⟨fits, spell_of_carries (carries_const (n := 0) _)⟩
    · cases run
  | none =>
    obtain ⟨outcome, ⟨rows, appended, meaning⟩, -⟩ := adds_of_run mode run
    rw [outcome_ofExpr constant narrow] at outcome
    obtain ⟨rfl, -⟩ := Prod.mk.inj (Option.some.inj outcome)
    refine ⟨rows, appended, fun z satisfied => ?_⟩
    obtain ⟨fits, window⟩ := (holds_ofExpr constant narrow loc).mp ((meaning z).mp satisfied)
    exact ⟨fits, spell_of_carries (carries_fresh window)⟩

theorem generates_of_fits {v : Fr} (narrow : width < modulusBits) (mode : s.mode = .witness true)
    (filled : s.Filled) (value : x.read s.values = .ok v) (fits : v.val < 2 ^ width)
    (loc : String) :
    ∃ bits s', (ofExpr x width loc).run s = (.ok bits, s') ∧
      ReadAs s'.values [bits] [Layout.natBits width v.val] := by
  refine generates_of_judges (K := Expr.single) (R := Bits.carrier.comap fun bits => [bits])
    (fun L n carried => ?_) mode filled value
  exact L.weaken (BitLogic.judges_ofExpr carried narrow fits loc) fun _ _ _ h => .cons h .nil

theorem fails_of_excess {v : Fr} (narrow : width < modulusBits) (mode : s.mode = .witness true)
    (filled : s.Filled) (value : x.read s.values = .ok v) (excess : 2 ^ width ≤ v.val)
    (loc : String) : ∃ e s', (ofExpr x width loc).run s = (.error e, s') := by
  cases constant : x.constant? with
  | none =>
    obtain ⟨s', run⟩ := run_ofExpr_excess mode filled value constant narrow excess loc
    exact ⟨_, s', run⟩
  | some c =>
    have same : c = v := by
      rw [← Expr.eval_of_constant? constant (.ofWitness s.values), Expr.eval_of_read value]
    have run := run_ofExpr_constant constant narrow loc s
    rw [same, if_neg (Nat.not_lt.mpr excess)] at run
    exact ⟨_, s, run⟩

theorem generates_iff {v : Fr} (narrow : width < modulusBits) (mode : s.mode = .witness true)
    (filled : s.Filled) (value : x.read s.values = .ok v) (loc : String) :
    ((∃ bits s', (ofExpr x width loc).run s = (.ok bits, s')) ↔ v.val < 2 ^ width) ∧
    ∀ bits s', (ofExpr x width loc).run s = (.ok bits, s') →
      ReadAs s'.values [bits] [Layout.natBits width v.val] := by
  rcases Nat.lt_or_ge v.val (2 ^ width) with fits | excess
  · obtain ⟨bits, s', run, read⟩ := generates_of_fits narrow mode filled value fits loc
    refine ⟨⟨fun _ => fits, fun _ => ⟨bits, s', run⟩⟩, fun bits' s'' run' => ?_⟩
    rw [run] at run'
    cases run'
    exact read
  · obtain ⟨e, s', run⟩ := fails_of_excess narrow mode filled value excess loc
    have never (bits : Bits) (s'' : Session) : (ofExpr x width loc).run s ≠ (.ok bits, s'') := by
      rw [run]
      nofun
    refine ⟨⟨?_, fun fits => absurd excess (Nat.not_le.mpr fits)⟩, fun bits s'' run' =>
      absurd run' (never bits s'')⟩
    rintro ⟨bits, s'', run'⟩
    exact absurd run' (never bits s'')

theorem decomposes_of_lt (small : width + 1 < UInt64.size) : Decomposes width where
  forces narrow _ _ _ _ _ mode run := forces_of_run narrow mode run
  compiles narrow x loc s z mode below fits := by
    have exact (z' : Assignment) (agree : Agree s.nextVar z z') :
        Exact z' True (ofExpr x width loc) s.nextVar _ :=
      BitLogic.judges_ofExpr (L := .exact z' True) ⟨below, Expr.eval_of_agree below agree⟩
        narrow fits loc
    exact run_compile_exact mode exact
  generates narrow x loc s v mode filled value := by
    obtain ⟨succeeds, spells⟩ := generates_iff narrow mode filled value loc
    exact ⟨succeeds, spells, fun depends excess =>
      run_ofExpr_excess mode filled value depends narrow excess loc⟩
  folds narrow x c loc s constant := by
    rw [run_ofExpr_constant constant narrow]
    refine ⟨Expr.eval_of_constant? constant, fun fits => ?_, fun excess => ?_⟩
    · rw [if_pos fits]
    · rw [if_neg (Nat.not_lt.mpr excess)]
  limited wide x loc s := by
    rw [run_ofExpr_wide wide, if_pos small]

/-- Decompositions are exact at every width that can still be counted up by one, as the error for
a width beyond the field does. -/
theorem decomposes_iff (width : ℕ) : Decomposes width ↔ width + 1 < UInt64.size := by
  refine ⟨fun exact => ?_, decomposes_of_lt⟩
  by_contra large
  have wide : modulusBits ≤ width := by
    have : modulusBits + 1 < UInt64.size := by decide
    omega
  have limited := exact.limited wide 0 gadgetLoc (.start .compile)
  rw [run_ofExpr_wide wide, if_neg large] at limited
  cases limited

/-- The greatest width there is: one more is no 64-bit number. -/
theorem not_decomposes_last :
    (ofExpr (.var 0) 18446744073709551615 gadgetLoc).run ⟨.witness true, #[], #[5], 1⟩ =
      (.error (.compilation (.tooLarge 18446744073709551616)), ⟨.witness true, #[], #[5], 1⟩) ∧
    ¬Decomposes 18446744073709551615 := by
  have wide : modulusBits ≤ 18446744073709551615 := by decide
  have refused (s : Session) := run_ofExpr_wide wide (.var 0) gadgetLoc s
  rw [if_neg (by decide)] at refused
  refine ⟨refused _, fun exact => ?_⟩
  have limited := exact.limited wide (.var 0) gadgetLoc (.start .compile)
  rw [refused] at limited
  cases limited

end Bits
end RankOne
