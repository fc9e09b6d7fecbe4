import RankOne.Proofs.Logic

/-! Ways of judging circuits on bits. How new bits come about is left to each judgement: by the
exclusive or of bits that are no constants, and by the decomposition of an expression that is none.
The branches that fold constants follow from what the judgement says about expressions. -/
namespace RankOne.Circuit
variable {z z' : Assignment} {n m : ℕ}

/-- A logic in which a constant carries its own value only, and which judges how new bits are
made. -/
structure BitLogic extends Logic where
  constant {e : Expr} {c v : Fr} {n : ℕ} : e.constant? = some c → carries n e v → c = v
  scaleBy {e : Expr} {v : Fr} {n : ℕ} : carries n e v → ∀ c, carries n (e.scaleBy c) (c * v)
  xor {a b : Bit} {u v : Bool} {n : ℕ} : a.constant? = none → b.constant? = none →
    carries n a.expr (Fr.ofBool u) → carries n b.expr (Fr.ofBool v) →
    ∀ loc, judges (a.xor b loc) n fun c m => carries m c.expr (Fr.ofBool (u ^^ v))
  ofExpr {x : Expr} {v : Fr} {width n : ℕ} : x.constant? = none → carries n x v →
    width < modulusBits → v.val < 2 ^ width →
    ∀ loc, judges (Bits.ofExpr x width loc) n fun bits m =>
      List.Forall₂ (fun b v => carries m b.expr (Fr.ofBool v)) bits (Layout.natBits width v.val)

namespace BitLogic

def exact (z : Assignment) (given : Prop) : BitLogic where
  toLogic := .exact z given
  constant h carried := by rw [← Expr.eval_of_constant? h z, Expr.Carries.eval carried]
  scaleBy h c := Expr.Carries.scaleBy h c
  xor openA openB ha hb loc := Bit.exact_xor_open openA openB ha hb loc
  ofExpr depends h narrow fits loc := Bits.exact_ofExpr_open depends h narrow fits loc

/-- The circuit is determined by its operands, which carry one value under two assignments. -/
def pins (z z' : Assignment) : BitLogic where
  toLogic := .pins z z'
  constant h carried := by rw [← Expr.eval_of_constant? h z, carried.1]
  scaleBy h c := ⟨by rw [Expr.eval_scaleBy, h.1], by rw [Expr.eval_scaleBy, h.2]⟩
  xor {a b u v n} openA openB ha hb loc := by
    rw [Bit.xor, openA, openB]
    intro holds holds' c m outcome
    obtain ⟨agree, rfl, value, value'⟩ := Pins.pinned (s := .bit)
      (k := fun c => .product (a.expr + a.expr) b.expr (a.expr + b.expr - c.expr)) rfl
      (Bit.holds_xor ha.1 hb.1).mp (Bit.holds_xor ha.2 hb.2).mp holds holds' c m outcome
    exact ⟨agree, value, value'⟩
  ofExpr {x v width n} depends carried narrow _ loc := by
    intro holds holds' bits m outcome
    rw [Bits.outcome_ofExpr depends narrow] at outcome
    cases outcome
    obtain ⟨-, window⟩ := (Bits.holds_ofExpr depends narrow loc).mp holds
    obtain ⟨-, window'⟩ := (Bits.holds_ofExpr depends narrow loc).mp holds'
    rw [carried.1] at window
    rw [carried.2] at window'
    refine ⟨fun i low high => ?_, List.Forall₂.mp (fun _ _ h h' => ⟨h.eval, h'.eval⟩)
      (Bits.carries_fresh window) (Bits.carries_fresh window')⟩
    exact Assignment.eq_of_window (window.trans window'.symm) low high

/-- The circuit has nothing to do but to compute with constants. -/
def folds : BitLogic where
  judges c n P := ∃ a, c = pure a ∧ P a n
  carries _ e v := e = .const v
  pure h := ⟨_, rfl, h⟩
  bind {α β c f n P Q} hc next := by
    obtain ⟨a, rfl, h⟩ := hc
    obtain ⟨b, same, h'⟩ := next a n le_rfl h
    exact ⟨b, (pure_bind a f).trans same, h'⟩
  mono h _ := h
  const _ _ := rfl
  plus {a b u v n} ha hb := by rw [ha, hb, Expr.const_plus_const]
  mul {a b u v n} ha hb label loc := by
    obtain rfl := ha
    obtain rfl := hb
    exact ⟨_, rfl, Expr.scaleBy_const v u⟩
  square {a u n} ha loc := by
    obtain rfl := ha
    exact ⟨_, rfl, rfl⟩
  constant {e c v n} h same := by
    obtain rfl := same
    exact (Option.some.inj h).symm
  scaleBy {e v n} h c := by rw [h, Expr.scaleBy_const]
  xor {a b u v n} openA _ ha _ _ := by
    obtain ⟨expr⟩ := a
    obtain rfl := ha
    cases openA
  ofExpr {x v width n} depends same _ _ _ := by
    obtain rfl := same
    cases depends

variable (L : BitLogic)

def bit (n : ℕ) (b : Bit) (v : Bool) : Prop := L.carries n b.expr (Fr.ofBool v)

def bits (n : ℕ) (bits : Bits) (bs : List Bool) : Prop := List.Forall₂ (L.bit n) bits bs

def byte (n : ℕ) (bits : Bits) (v : UInt8) : Prop := L.bits n bits (Layout.byteBits v)

def bytes (n : ℕ) (parts : List Bits) (vs : List UInt8) : Prop :=
  List.Forall₂ (L.byte n) parts vs

def word (n : ℕ) (w : Word) (v : UInt32) : Prop := L.bits n w.bits (Layout.wordBits v)

theorem stable_bit : Stable L.bit := fun _ _ _ _ le h => L.mono h le

theorem stable_bits : Stable L.bits := L.stable_bit.list

theorem stable_byte : Stable L.byte := fun _ _ _ _ le h => L.stable_bits.mono le h

theorem stable_bytes : Stable L.bytes := L.stable_byte.list

theorem stable_word : Stable L.word := fun _ _ _ _ le h => L.stable_bits.mono le h

section Expressions
variable {a b : Expr} {u v : Fr} {L}

theorem minus (ha : L.carries n a u) (hb : L.carries n b v) : L.carries n (a - b) (u - v) := by
  change L.carries n (a.minus b) _
  unfold Expr.minus
  split
  · rw [← L.constant rfl ha, ← L.constant rfl hb]
    exact L.const n _
  · have negated := L.plus ha (L.scaleBy hb (-1))
    rwa [neg_one_mul, ← sub_eq_add_neg] at negated

theorem carries_linearCombination {terms : List (Fr × Expr)} {vs : List Fr}
    (h : List.Forall₂ (fun term v => L.carries n term.2 v) terms vs) :
    L.carries n (Expr.linearCombination terms)
      (terms.zipWith (fun term v => term.1 * v) vs).sum := by
  have folded {start : Expr} {s : Fr} (hs : L.carries n start s) :
      L.carries n (terms.foldl (fun acc term => acc + term.2.scaleBy term.1) start)
        (s + (terms.zipWith (fun term v => term.1 * v) vs).sum) := by
    induction h generalizing start s with
    | nil => simpa using hs
    | cons head _ ih =>
      rw [List.foldl_cons, List.zipWith_cons_cons, List.sum_cons, ← add_assoc]
      exact ih (L.plus hs (L.scaleBy head _))
  have whole := folded (L.const n 0)
  rwa [zero_add] at whole

theorem carries_sum {es : List Expr} {vs : List Fr} (h : List.Forall₂ (L.carries n) es vs) :
    L.carries n (Expr.sum es) vs.sum := by
  have terms : List.Forall₂ (fun term v => L.carries n term.2 v) (es.map ((1 : Fr), ·)) vs :=
    List.forall₂_map_left_iff.mpr h
  have same : (es.map ((1 : Fr), ·)).zipWith (fun term v => term.1 * v) vs = vs := by
    clear terms
    induction h with
    | nil => rfl
    | cons _ _ ih => rw [List.map_cons, List.zipWith_cons_cons, ih, one_mul]
  have total := carries_linearCombination terms
  rwa [same] at total

end Expressions

section Bits
variable {a b : Bit} {u v : Bool} {bits bits' : Bits} {bs bs' : List Bool} {L}

theorem bit_const (v : Bool) : L.bit n (.const v) v := L.const n _

theorem not (h : L.bit n a v) : L.bit n a.not (!v) := by
  rw [bit, Fr.ofBool_not]
  exact minus (L.const n 1) h

/-- A constant bit carries its value and no other one. -/
theorem eq_of_bit {c : Bool} (h : L.bit n a v) (constant : a.constant? = some c) : c = v := by
  unfold Bit.constant? at constant
  split at constant
  · cases constant
    rw [L.constant rfl h]
    cases v <;> simp
  · cases constant

theorem judges_xorBit (ha : L.bit n a u) (hb : L.bit n b v) (loc : String) :
    L.judges (a.xor b loc) n fun c m => L.bit m c (u ^^ v) := by
  cases first : a.constant? with
  | none =>
    cases second : b.constant? with
    | none => exact L.xor first second ha hb loc
    | some d =>
      obtain rfl := eq_of_bit hb second
      rw [Bit.xor, first, second]
      cases d with
      | true => rw [Bool.xor_true]; exact L.pure (not ha)
      | false => rw [Bool.xor_false]; exact L.pure ha
  | some c =>
    obtain rfl := eq_of_bit ha first
    rw [Bit.xor, first]
    cases c with
    | true => rw [Bool.true_xor]; exact L.pure (not hb)
    | false =>
      rw [Bool.false_xor]
      cases second : b.constant? with
      | none => exact L.pure hb
      | some d =>
        cases d with
        | true =>
          obtain rfl := eq_of_bit hb second
          exact L.pure (not ha)
        | false => exact L.pure hb

theorem judges_andBit (ha : L.bit n a u) (hb : L.bit n b v) (loc : String) :
    L.judges (a.and b loc) n fun c m => L.bit m c (u && v) := by
  refine L.bind (L.mul ha hb (some "bool.and") loc) fun r m _ product => L.pure ?_
  rw [bit, Fr.ofBool_and]
  exact product

theorem bits_const (bs : List Bool) : L.bits n (Bits.const bs) bs :=
  List.forall₂_map_left_iff.mpr (List.forall₂_same.mpr fun b _ => bit_const b)

theorem bits_not (h : L.bits n bits bs) : L.bits n (Bits.not bits) (bs.map (!·)) :=
  List.forall₂_map_left_iff.mpr (List.forall₂_map_right_iff.mpr (h.imp fun _ _ => not))

theorem word_const (v : UInt32) : L.word n (.const v) v := bits_const _

theorem eq_of_bits {cs : List Bool} (h : L.bits n bits bs)
    (constant : Bits.constant? bits = some cs) : cs = bs := by
  induction h generalizing cs with
  | nil => cases constant; rfl
  | cons head _ ih =>
    rw [Bits.constant?, List.mapM_cons] at constant
    obtain ⟨c, first, constant⟩ := Option.bind_eq_some_iff.mp constant
    obtain ⟨cs, rest, constant⟩ := Option.bind_eq_some_iff.mp constant
    cases constant
    rw [eq_of_bit head first, ih rest]

/-- A bitwise operation computes its truth table bit by bit. -/
theorem judges_zipWith {op : Bit → Bit → Circuit Bit} {f : Bool → Bool → Bool}
    (step : ∀ a b u v m, L.bit m a u → L.bit m b v → L.judges (op a b) m fun c k => L.bit k c (f u v))
    (h : L.bits n bits bs) (h' : L.bits n bits' bs') (length : bs.length = bs'.length)
    (what : String) :
    L.judges (Bits.zipWith what op bits bits') n fun r m => L.bits m r (bs.zipWith f bs') := by
  have lengths : bits.length = bits'.length := by
    rw [List.Forall₂.length_eq h, List.Forall₂.length_eq h', length]
  unfold Bits.zipWith
  rw [if_pos lengths]
  exact L.mapM_zip L.stable_bit L.stable_bit L.stable_bit f step h h'

theorem judges_xor (h : L.bits n bits bs) (h' : L.bits n bits' bs')
    (length : bs.length = bs'.length) (loc : String) :
    L.judges (Bits.xor bits bits' loc) n fun r m => L.bits m r (bs.zipWith (· ^^ ·) bs') :=
  judges_zipWith (fun _ _ _ _ _ ha hb => judges_xorBit ha hb loc) h h' length _

theorem bytes_chunks {vs : List UInt8} (h : L.bits n bits (Layout.bytesToBits vs)) :
    L.bytes n (chunksOf 8 bits) vs := by
  have chunks := forall₂_chunksOf (n := 8) (by decide) h
  rw [Layout.chunksOf_bytesToBits] at chunks
  exact (List.forall₂_map_right_iff (f := Layout.byteBits)).mp chunks

theorem bits_flatten {parts : List Bits} {vs : List UInt8} (h : L.bytes n parts vs) :
    L.bits n parts.flatten (Layout.bytesToBits vs) := by
  rw [Layout.bytesToBits, List.flatMap_def]
  exact List.rel_flatten (List.forall₂_map_right_iff.mpr h)

theorem carries_toExpr (h : L.bits n bits bs) :
    L.carries n (Bits.toExpr bits) (Layout.bitsValue bs : Fr) := by
  have terms : List.Forall₂ (fun term v => L.carries n term.2 v) (Bits.weigh 1 bits)
      (bs.map Fr.ofBool) := List.forall₂_map_right_iff.mpr (Bits.weigh_forall 1 h)
  have number := carries_linearCombination terms
  rwa [Bits.sum_weigh (List.Forall₂.length_eq h), one_mul] at number

/-- The bits of an expression are those of its value, if it has no more. -/
theorem judges_ofExpr {x : Expr} {v : Fr} {width : ℕ} (hx : L.carries n x v)
    (narrow : width < modulusBits) (fits : v.val < 2 ^ width) (loc : String) :
    L.judges (Bits.ofExpr x width loc) n fun bits m =>
      L.bits m bits (Layout.natBits width v.val) := by
  cases constant : x.constant? with
  | none => exact L.ofExpr constant hx narrow fits loc
  | some c =>
    obtain rfl := L.constant constant hx
    rw [Bits.ofExpr, if_neg (Nat.not_le.mpr narrow), constant]
    simp only [Nat.one_shiftLeft, fits, if_true]
    exact L.pure (bits_const _)

end Bits
end BitLogic
end RankOne.Circuit
