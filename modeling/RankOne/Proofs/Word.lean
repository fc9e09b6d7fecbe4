import RankOne.ChaCha.Stream
import RankOne.Proofs.BitLogic

/-! Exactness of the operations on 32-bit words. -/
namespace RankOne
open Circuit
variable {z : Assignment} {given : Prop} {n m : ℕ}

namespace Layout

theorem testBit_shiftLeft_mod (x k i : ℕ) :
    (x <<< k % 2 ^ 32).testBit i = (decide (k ≤ i ∧ i < 32) && x.testBit (i - k)) := by
  rw [Nat.testBit_mod_two_pow, Nat.testBit_shiftLeft]
  by_cases low : k ≤ i <;> by_cases high : i < 32 <;> simp [low, high]

/-- Rotating a word towards the high end moves its top bits to the front of the list. -/
theorem wordBits_rotateLeft (w : UInt32) {k : ℕ} (positive : 0 < k) (h : k < 32) :
    wordBits (ChaCha.rotateLeft w k) = (wordBits w).rotateRight k := by
  have length := length_wordBits w
  have rotated : (wordBits w).rotateRight k =
      (wordBits w).drop (32 - k) ++ (wordBits w).take (32 - k) := by
    simp only [List.rotateRight, length]
    rw [if_neg (by decide), Nat.mod_eq_of_lt h]
  have amount : (UInt32.ofNat k).toNat % 32 = k := by
    rw [UInt32.toNat_ofNat_of_lt' (by change k < 2 ^ 32; omega), Nat.mod_eq_of_lt h]
  have amount' : (UInt32.ofNat (32 - k)).toNat % 32 = 32 - k := by
    rw [UInt32.toNat_ofNat_of_lt' (by change 32 - k < 2 ^ 32; omega), Nat.mod_eq_of_lt (by omega)]
  rw [rotated]
  apply List.ext_getElem (by simp)
  intro i hi _
  rw [length_wordBits] at hi
  have inside : i < (wordBits (ChaCha.rotateLeft w k)).length := by simpa using hi
  have word : (wordBits (ChaCha.rotateLeft w k))[i] =
      (decide (k ≤ i) && w.toNat.testBit (i - k) || w.toNat.testBit (32 - k + i)) := by
    rw [getElem_wordBits, ChaCha.rotateLeft, UInt32.toNat_or, UInt32.toNat_shiftLeft,
      UInt32.toNat_shiftRight, amount, amount', Nat.testBit_or, testBit_shiftLeft_mod,
      Nat.testBit_shiftRight]
    simp [hi]
  rw [word]
  by_cases low : i < k
  · rw [List.getElem_append_left (by simp; omega), List.getElem_drop, getElem_wordBits]
    simp [Nat.not_le.mpr low]
  · have past : w.toNat.testBit (32 - k + i) = false := by
      apply Nat.testBit_lt_two_pow
      exact lt_of_lt_of_le w.toNat_lt (Nat.pow_le_pow_right (by decide) (by omega))
    rw [List.getElem_append_right (by simp; omega), List.getElem_take, getElem_wordBits, past]
    simp only [List.length_drop, length_wordBits, Nat.not_lt.mp low, decide_true, Bool.true_and,
      Bool.or_false]
    congr 1
    omega

end Layout

namespace Word

theorem bitLength_le_iff (k w : ℕ) : bitLength k ≤ w ↔ k < 2 ^ w := by
  unfold bitLength
  split
  · simp_all
  · rw [Nat.succ_le_iff, Nat.log2_lt ‹_›]

theorem sum_le (values : List UInt32) :
    (values.map UInt32.toNat).sum ≤ values.length * (2 ^ 32 - 1) := by
  induction values with
  | nil => simp
  | cons v values ih =>
    have := v.toNat_lt
    rw [List.map_cons, List.sum_cons, List.length_cons, Nat.succ_mul]
    omega

/-- The carry of a sum of `k` words has at most as many digits as `k - 1`. -/
theorem sum_lt (values : List UInt32) :
    (values.map UInt32.toNat).sum < 2 ^ (width + bitLength (values.length - 1)) := by
  have count : values.length ≤ 2 ^ bitLength (values.length - 1) := by
    have := (bitLength_le_iff (values.length - 1) _).mp le_rfl
    omega
  have positive : 0 < 2 ^ bitLength (values.length - 1) := Nat.two_pow_pos _
  calc (values.map UInt32.toNat).sum
      ≤ values.length * (2 ^ 32 - 1) := sum_le values
    _ ≤ 2 ^ bitLength (values.length - 1) * (2 ^ 32 - 1) := Nat.mul_le_mul_right _ count
    _ < 2 ^ bitLength (values.length - 1) * 2 ^ 32 :=
        Nat.mul_lt_mul_of_pos_left (by decide) positive
    _ = 2 ^ (width + bitLength (values.length - 1)) := by rw [width, Nat.add_comm, pow_add]

section Judged
variable {L : BitLogic}

theorem carries_toNat {word : Word} {v : UInt32} (h : L.word n word v) :
    L.carries n word.toExpr (v.toNat : Fr) := by
  have value := BitLogic.carries_toExpr h
  rwa [Layout.bitsValue_wordBits] at value

theorem carries_sums {words : List Word} {values : List UInt32}
    (h : List.Forall₂ (L.word n) words values) :
    L.carries n (Expr.sum (words.map toExpr)) ((values.map UInt32.toNat).sum : ℕ) := by
  have terms : List.Forall₂ (L.carries n) (words.map toExpr)
      (values.map fun v => (v.toNat : Fr)) := by
    rw [List.forall₂_map_left_iff, List.forall₂_map_right_iff]
    exact h.imp fun _ _ => carries_toNat
  have sum := BitLogic.carries_sum terms
  rwa [show (values.map fun v => (v.toNat : Fr)).sum = ((values.map UInt32.toNat).sum : ℕ) by
    rw [Nat.cast_list_sum, List.map_map]; rfl] at sum

theorem judges_addMany {words : List Word} {values : List UInt32}
    (h : List.Forall₂ (L.word n) words values)
    (narrow : width + bitLength (values.length - 1) < modulusBits) (loc : String) :
    L.judges (addMany words loc) n fun w m =>
      L.word m w (UInt32.ofNat (values.map UInt32.toNat).sum) := by
  unfold addMany
  cases words with
  | nil =>
    cases h
    exact L.pure (BitLogic.bits_const _)
  | cons word words =>
    set total := (values.map UInt32.toNat).sum
    have fits := sum_lt values
    have value : (total : Fr).val = total :=
      Fr.val_natCast_of_lt (Fr.lt_modulus_of_lt_two_pow narrow fits)
    simp only [List.isEmpty_cons, Bool.false_eq_true, if_false, h.length_eq]
    refine L.bind (BitLogic.judges_ofExpr (carries_sums h) narrow (by rw [value]; exact fits) loc)
      fun bits m _ carried => ?_
    rw [value] at carried
    have low : L.bits m (bits.take width) (Layout.wordBits (UInt32.ofNat total)) := by
      have taken := List.forall₂_take width carried
      rw [Layout.take_natBits (Nat.le_add_right _ _)] at taken
      rwa [Layout.wordBits, UInt32.toNat_ofNat', Layout.natBits_mod (le_refl 32)]
    have length : (bits.take width).length = width := by
      rw [List.Forall₂.length_eq low, Layout.length_wordBits]; rfl
    rw [ofBits, if_pos length]
    exact L.pure low

theorem judges_add {a b : Word} {u v : UInt32} (ha : L.word n a u) (hb : L.word n b v)
    (loc : String) : L.judges (a.add b loc) n fun w m => L.word m w (u + v) := by
  have sum := judges_addMany (.cons ha (.cons hb .nil))
    (by change width + bitLength 1 < modulusBits; decide) loc
  have value : UInt32.ofNat ([u, v].map UInt32.toNat).sum = u + v := by
    simp [UInt32.ofNat_add]
  rwa [value] at sum

theorem judges_xor {a b : Word} {u v : UInt32} (ha : L.word n a u) (hb : L.word n b v)
    (loc : String) : L.judges (a.xor b loc) n fun w m => L.word m w (u ^^^ v) := by
  unfold xor
  refine L.bind (BitLogic.judges_xor ha hb (by simp) loc) fun bits m _ carried => L.pure ?_
  rwa [← Layout.wordBits_xor] at carried

theorem carries_rotateLeft {a : Word} {v : UInt32} {k : ℕ} (h : L.word n a v) (positive : 0 < k)
    (small : k < 32) : L.word n (a.rotateLeft k) (ChaCha.rotateLeft v k) := by
  rw [BitLogic.word, Layout.wordBits_rotateLeft v positive small]
  change L.bits n (List.rotateRight a.bits k) _
  unfold List.rotateRight
  rw [List.Forall₂.length_eq h, Layout.length_wordBits, if_neg (by decide)]
  exact List.rel_append (List.forall₂_drop _ h) (List.forall₂_take _ h)

end Judged

theorem exact_add {a b : Word} {u v : UInt32} (ha : a.Carries z n u) (hb : b.Carries z n v)
    (loc : String) : Exact z given (a.add b loc) n fun w m => w.Carries z m (u + v) :=
  judges_add (L := .exact z given) ha hb loc

theorem exact_xor {a b : Word} {u v : UInt32} (ha : a.Carries z n u) (hb : b.Carries z n v)
    (loc : String) : Exact z given (a.xor b loc) n fun w m => w.Carries z m (u ^^^ v) :=
  judges_xor (L := .exact z given) ha hb loc

end Word

namespace Assignment

def word (z : Assignment) (n : ℕ) : UInt32 := Layout.bitsToWord (z.bits n 32)

def words (z : Assignment) (n len : ℕ) : List UInt32 :=
  (List.range len).map fun i => z.word (n + 32 * i)

theorem words_succ (z : Assignment) (n len : ℕ) :
    z.words n (len + 1) = z.word n :: z.words (n + 32) len := by
  simp only [words, List.range_succ_eq_map, List.map_cons, List.map_map, Nat.mul_zero,
    Nat.add_zero, List.cons.injEq, true_and]
  apply List.map_congr_left
  intro i _
  simp only [Function.comp, Nat.mul_succ]
  congr 1
  omega

theorem wordBits_word (z : Assignment) (n : ℕ) : Layout.wordBits (z.word n) = z.bits n 32 :=
  Layout.wordBits_bitsToWord (length_bits z n 32)

@[simp] theorem length_words (z : Assignment) (n len : ℕ) : (z.words n len).length = len := by
  simp [words]

end Assignment

namespace Word

/-- The word of an input is free. -/
theorem exact_witness (v : UInt32) (loc : String) (spelled : given → v = z.word n) :
    Exact z given (witness (some v) loc) n fun w m =>
      m = n + 32 ∧ v = z.word n ∧ z.IsBits n 32 ∧ w.Carries z m v := by
  unfold witness
  have bits : Exact z given _ n _ := Bits.exact_witness (Layout.wordBits v) loc fun input => by
    rw [spelled input, Assignment.wordBits_word, Assignment.length_bits]
  rw [Layout.length_wordBits] at bits
  refine bits.bind fun bits m _ h => Exact.pure ?_
  obtain ⟨position, value, isBits, carried⟩ := h
  exact ⟨position, by rw [Assignment.word, ← value, Layout.bitsToWord_wordBits], isBits, carried⟩

theorem exact_witnesses {values : List UInt32} {len : ℕ} (length : values.length = len)
    (loc : String) (spelled : given → values = z.words n len) :
    Exact z given (witnesses len values loc) n fun ws m =>
      m = n + 32 * len ∧ values = z.words n len ∧ z.IsBits n (32 * len) ∧
      List.Forall₂ (Word.Carries z m) ws values := by
  induction len generalizing n values with
  | zero =>
    cases List.length_eq_zero_iff.mp length
    exact Exact.pure ⟨rfl, rfl, Assignment.isBits_zero z n, .nil⟩
  | succ len ih =>
    obtain ⟨v, values, rfl⟩ := List.exists_cons_of_length_eq_add_one length
    rw [Assignment.words_succ] at spelled ⊢
    change Exact z given (do
      let word ← witness (some v) loc
      return word :: (← witnesses len values loc)) n _
    refine (exact_witness v loc fun input => (List.cons.inj (spelled input)).1).bind
      fun w m _ h => ?_
    obtain ⟨rfl, value, isBits, carried⟩ := h
    refine (ih (Nat.succ.inj length) fun input => (List.cons.inj (spelled input)).2).bind
      fun ws k le h => Exact.pure ?_
    obtain ⟨rfl, values', isBits', carried'⟩ := h
    refine ⟨by omega, by rw [← value, ← values'], ?_,
      .cons (Word.stable_carries.mono le carried) carried'⟩
    rw [Nat.mul_succ, Nat.add_comm]
    exact isBits.append isBits'

/-- Without an input the same words are allocated. -/
theorem skeleton_witness (v : UInt32) (loc : String) :
    (witness (some v) loc).skeleton = (witness none loc).skeleton := rfl

theorem skeleton_witnesses (len : ℕ) (values : List UInt32) (loc : String) :
    (witnesses len values loc).skeleton = (witnesses len [] loc).skeleton := by
  induction len generalizing values with
  | zero => rfl
  | succ len ih =>
    have first : (witness values.head? loc).skeleton = (witness none loc).skeleton := by
      cases values <;> rfl
    exact skeleton_bind_congr first fun word =>
      skeleton_bind_congr (ih values.tail) fun _ => rfl

end Word
end RankOne
