import RankOne.Proofs.Commitment
import RankOne.Proofs.Computes

/-! Packing runs of bits into expressions, in any session and for bits of any kind. Runs of at
most 253 bits are told apart by their elements. -/
namespace RankOne
open Circuit
variable {chunk : ℕ} {bs : List Bool}

/-- The bits of run `j`, in which the last run may be shorter. -/
def Layout.span (chunk j : ℕ) (bs : List Bool) : List Bool :=
  bs.extract (j * chunk) (min ((j + 1) * chunk) bs.length)

namespace Commitment

theorem run_injective {us vs : List Bool} (short : us.length < modulusBits)
    (length : us.length = vs.length)
    (same : (Layout.bitsValue us : Fr) = (Layout.bitsValue vs : Fr)) : us = vs := by
  have first : Layout.bitsValue us = (Layout.bitsValue vs : Fr).val :=
    Bits.eq_val_of_bitsValue short same
  have second : Layout.bitsValue vs = (Layout.bitsValue vs : Fr).val :=
    Bits.eq_val_of_bitsValue (by omega) rfl
  exact Layout.bitsValue_injective length (first.trans second.symm)

/-- Bits of a known number are told apart by the elements that they are packed into. -/
theorem packed_injective (positive : 0 < chunk) (narrow : chunk < modulusBits) {us vs : List Bool}
    (length : us.length = vs.length) (same : packed chunk us = packed chunk vs) : us = vs := by
  induction us using chunksOf_induction positive generalizing vs with
  | nil => exact (List.length_eq_zero_iff.mp length.symm).symm
  | step us nonempty ih =>
    have nonempty' : vs ≠ [] := by
      rintro rfl
      exact nonempty (List.length_eq_zero_iff.mp length)
    rw [packed, packed, chunksOf_of_ne_nil positive nonempty, chunksOf_of_ne_nil positive nonempty']
      at same
    obtain ⟨first, rest⟩ := List.cons.inj same
    have heads : us.take chunk = vs.take chunk :=
      run_injective ((List.length_take_le _ _).trans_lt narrow) (by simp [length]) first
    have tails : us.drop chunk = vs.drop chunk := ih (by simp [length]) rest
    calc us = us.take chunk ++ us.drop chunk := (List.take_append_drop chunk us).symm
      _ = vs.take chunk ++ vs.drop chunk := by rw [heads, tails]
      _ = vs := List.take_append_drop chunk vs

theorem ofBits_span (positive : 0 < chunk) (narrow : chunk < modulusBits) {j : ℕ} {x : Fr}
    (found : (packed chunk bs)[j]? = some x) : Fr.ofBits (Layout.span chunk j bs) = .ok x := by
  rw [packed, List.getElem?_map, getElem?_chunksOf positive] at found
  split at found
  · have run : (bs.drop (j * chunk)).take chunk = Layout.span chunk j bs := by
      rw [Layout.span, List.extract_eq_take_drop, List.take_eq_take_iff, List.length_drop,
        Nat.succ_mul]
      omega
    cases found
    have short : (Layout.span chunk j bs).length ≤ chunk := run ▸ List.length_take_le _ _
    rw [run]
    exact Fr.ofBits_of_short (short.trans_lt narrow)
  · cases found

/-- An element is the same however the packed expressions are given values. -/
theorem ofBits_of_values {α : Type} {value : Expr → α} {element : Fr → α} {es : List Expr}
    (positive : 0 < chunk) (narrow : chunk < modulusBits)
    (same : es.map value = (packed chunk bs).map element) {j : ℕ} {e : Expr}
    (found : es[j]? = some e) :
    ∃ x, Fr.ofBits (Layout.span chunk j bs) = .ok x ∧ value e = element x := by
  have here : ((packed chunk bs)[j]?).map element = some (value e) := by
    rw [← List.getElem?_map, ← same, List.getElem?_map, found, Option.map_some]
  obtain ⟨x, packed, value_eq⟩ := Option.map_eq_some_iff.mp here
  exact ⟨x, ofBits_span positive narrow packed, value_eq.symm⟩

end Commitment

namespace Bits
open Commitment

/-- Packing is faithful and tells bits apart, for the sizes that the field has room for, and
refuses all others. -/
structure Packing (chunk : ℕ) : Prop where
  /-- It has no effect, and gives as many expressions as there are runs. The value of each is the
  element that its run of bits encodes, under assignments and in witnesses alike. -/
  faithful : 0 < chunk → chunk < modulusBits → ∀ (bits : Bits) (s : Session),
    ∃ es, (pack chunk bits).run s = (.ok es, s) ∧
      es.length = (bits.length + chunk - 1) / chunk ∧
      ∀ (j : ℕ) (e : Expr) (bs : List Bool), es[j]? = some e →
        (∀ z, Spell z [bits] [bs] → Fr.ofBits (Layout.span chunk j bs) = .ok (e.eval z)) ∧
        ∀ w, ReadAs w [bits] [bs] →
          ∃ x, Fr.ofBits (Layout.span chunk j bs) = .ok x ∧ e.read w = .ok x
  /-- Vectors of one length with the same packed values have the same bits. -/
  injective : 0 < chunk → chunk < modulusBits →
    ∀ (a b : Bits) (s s' : Session) (es es' : List Expr), a.length = b.length →
      (pack chunk a).run s = (.ok es, s) → (pack chunk b).run s' = (.ok es', s') →
      ∀ z z' us vs, Spell z [a] [us] → Spell z' [b] [vs] →
        es.map (Expr.eval z) = es'.map (Expr.eval z') → us = vs
  refusesZero : chunk = 0 → ∀ (bits : Bits) (s : Session),
    (pack chunk bits).run s = (.error (.compilation .packingNoBits), s)
  /-- A size that the field has no room for is refused. -/
  limited : modulusBits ≤ chunk → ∀ (bits : Bits) (s : Session),
    (pack chunk bits).run s = (.error (.compilation (.fieldTooSmall (chunk + 1))), s)

theorem run_pack_wide (wide : modulusBits ≤ chunk) (bits : Bits) (s : Session) :
    (pack chunk bits).run s =
      (.error (.compilation (if chunk + 1 < UInt64.size then .fieldTooSmall (chunk + 1)
        else .tooLarge (chunk + 1))), s) := by
  have positive : chunk ≠ 0 := by
    have : 0 < modulusBits := by decide
    omega
  rw [pack, if_neg positive, if_pos wide, Circuit.size]
  split <;> rfl

section Values
variable {bits : Bits} {z : Assignment}

theorem eval_pack (positive : 0 < chunk) (spelled : Spell z [bits] [bs]) :
    ((chunksOf chunk bits).map toExpr).map (Expr.eval z) = packed chunk bs := by
  have runs := forall₂_chunksOf positive (List.forall₂_cons.mp (spell_iff.mp spelled)).1
  rw [packed, ← List.forall₂_eq_eq_eq]
  simp only [List.forall₂_map_left_iff, List.forall₂_map_right_iff]
  exact runs.imp fun _ _ => eval_toExpr

theorem read_pack {w : Witness} (positive : 0 < chunk) (given : ReadAs w [bits] [bs]) :
    ((chunksOf chunk bits).map toExpr).map (Expr.read w) = (packed chunk bs).map .ok := by
  rw [← Assignment.initial_ofWitness w] at given ⊢
  have carried := carries_packed positive (List.forall₂_cons.mp (readAs_iff.mp given)).1
  rw [← List.forall₂_eq_eq_eq, List.forall₂_map_left_iff, List.forall₂_map_right_iff]
  exact carried.imp fun _ _ h => Expr.read_initial_iff.mpr h

end Values

theorem packing_of_lt (small : chunk + 1 < UInt64.size) : Packing chunk where
  faithful positive narrow bits s := by
    have ran : (pack chunk bits).run s = (.ok ((chunksOf chunk bits).map toExpr), s) := by
      rw [pack_eq positive narrow]
      rfl
    refine ⟨_, ran, ?_, fun j e bs found => ⟨fun z spelled => ?_, fun w given => ?_⟩⟩
    · rw [List.length_map, length_chunksOf_eq_div positive]
    · have same := (eval_pack positive spelled).trans (List.map_id _).symm
      obtain ⟨x, encoded, rfl⟩ := ofBits_of_values positive narrow same found
      exact encoded
    · exact ofBits_of_values positive narrow (read_pack positive given) found
  injective positive narrow a b s s' es es' length ran ran' z z' us vs spelled spelled' same := by
    rw [pack_eq positive narrow] at ran ran'
    cases ran
    cases ran'
    rw [eval_pack positive spelled, eval_pack positive spelled'] at same
    refine packed_injective positive narrow ?_ same
    have first := (List.forall₂_cons.mp (spell_iff.mp spelled)).1
    have second := (List.forall₂_cons.mp (spell_iff.mp spelled')).1
    rw [← first.length_eq, length, second.length_eq]
  refusesZero zero bits s := by
    subst zero
    rfl
  limited wide bits s := by
    rw [run_pack_wide wide, if_pos small]

/-- Packing is as it should be for every size that can still be counted up by one, as the error
for a size beyond the field does. -/
theorem packing_iff (chunk : ℕ) : Packing chunk ↔ chunk + 1 < UInt64.size := by
  refine ⟨fun packs => ?_, packing_of_lt⟩
  by_contra large
  have wide : modulusBits ≤ chunk := by
    have : modulusBits + 1 < UInt64.size := by decide
    omega
  have limited := packs.limited wide [] (.start .compile)
  rw [run_pack_wide wide, if_neg large] at limited
  cases limited

/-- The greatest size there is: one more is no 64-bit number. -/
theorem not_packing_last :
    (pack 18446744073709551615 (const [true, false, true])).run (.start (.witness true)) =
      (.error (.compilation (.tooLarge 18446744073709551616)), .start (.witness true)) ∧
    ¬Packing 18446744073709551615 := by
  have wide : modulusBits ≤ 18446744073709551615 := by decide
  have refused (bits : Bits) (s : Session) := run_pack_wide wide bits s
  rw [if_neg (by decide)] at refused
  refine ⟨refused _ _, fun packs => ?_⟩
  have limited := packs.limited wide [] (.start .compile)
  rw [refused] at limited
  cases limited

end Bits
end RankOne
