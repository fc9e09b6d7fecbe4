import Mathlib.Data.LawfulXor.Basic
import Mathlib.Data.List.FinRange
import RankOne.Aes.Cipher
import RankOne.Aes.Block
import RankOne.Proofs.Layout

/-! The native AES cipher in the form in which the circuit computes it: doubling on bits, mixing by
sums of a column, substitution by a table, and rounds over a list of round keys. -/
namespace RankOne.Aes.Cipher

/-- The bits of a doubled byte, the top one added in where the reduction polynomial has a term. -/
theorem byteBits_timesX (a : UInt8) : Layout.byteBits (timesX a) =
    match Layout.byteBits a with
    | [a0, a1, a2, a3, a4, a5, a6, a7] => [a7, a7 ^^ a0, a1, a7 ^^ a2, a7 ^^ a3, a4, a5, a6]
    | _ => [] := by
  have all : ∀ b : BitVec 8, Layout.byteBits (timesX (.ofBitVec b)) =
      match Layout.byteBits (.ofBitVec b) with
      | [a0, a1, a2, a3, a4, a5, a6, a7] => [a7, a7 ^^ a0, a1, a7 ^^ a2, a7 ^^ a3, a4, a5, a6]
      | _ => [] := by decide +kernel
  exact all a.toBitVec

theorem byteBits_eq (a : UInt8) : ∃ a0 a1 a2 a3 a4 a5 a6 a7,
    Layout.byteBits a = [a0, a1, a2, a3, a4, a5, a6, a7] := ⟨_, _, _, _, _, _, _, _, rfl⟩

theorem timesX_xor (a b : UInt8) : timesX (a ^^^ b) = timesX a ^^^ timesX b := by
  obtain ⟨a0, a1, a2, a3, a4, a5, a6, a7, ha⟩ := byteBits_eq a
  obtain ⟨b0, b1, b2, b3, b4, b5, b6, b7, hb⟩ := byteBits_eq b
  apply Layout.byteBits_injective
  rw [Layout.byteBits_xor, byteBits_timesX, byteBits_timesX, byteBits_timesX, Layout.byteBits_xor,
    ha, hb]
  simp [Bool.xor_left_comm]

theorem times_small (a : UInt8) :
    times 1 a = a ∧ times 2 a = timesX a ∧ times 3 a = timesX a ^^^ a := by
  have all : ∀ b : BitVec 8, times 1 (.ofBitVec b) = .ofBitVec b ∧
      times 2 (.ofBitVec b) = timesX (.ofBitVec b) ∧
      times 3 (.ofBitVec b) = timesX (.ofBitVec b) ^^^ .ofBitVec b := by decide +kernel
  exact all a.toBitVec

theorem zero_times (a : UInt8) : times 0 a = 0 := by
  rw [times]
  induction Layout.byteBits a with
  | nil => rfl
  | cons bit bits ih =>
    rw [List.foldr_cons, ih, ite_self]
    rfl

theorem xor_times (a b c : UInt8) : times (a ^^^ b) c = times a c ^^^ times b c := by
  simp only [times]
  induction Layout.byteBits c with
  | nil => exact (xor_zero 0).symm
  | cons bit bits ih =>
    rw [List.foldr_cons, List.foldr_cons, List.foldr_cons, ih, timesX_xor]
    cases bit
    · simp
    · simp only [if_true]
      ac_rfl

theorem timesX_times (a b : UInt8) : times (timesX a) b = timesX (times a b) := by
  simp only [times]
  induction Layout.byteBits b with
  | nil => rfl
  | cons bit bits ih =>
    rw [List.foldr_cons, List.foldr_cons, ih, timesX_xor]
    cases bit <;> rfl

theorem times_right_comm (a b c : UInt8) : times (times a b) c = times (times a c) b := by
  have inside (bits : List Bool) :
      times (bits.foldr (fun bit sum => timesX sum ^^^ if bit then a else 0) 0) c =
        bits.foldr (fun bit sum => timesX sum ^^^ if bit then times a c else 0) 0 := by
    induction bits with
    | nil => exact zero_times c
    | cons bit bits ih =>
      rw [List.foldr_cons, List.foldr_cons, xor_times, timesX_times, ih]
      cases bit
      · simp only [Bool.false_eq_true, if_false, zero_times]
      · rfl
  exact inside (Layout.byteBits b)

theorem inverse_eq {a b : UInt8} (h : times a b = 1) : inverse a = b := by
  have unique {c : UInt8} (h' : times a c = 1) : c = b :=
    calc c = times 1 c := (times_small c).1.symm
      _ = times (times a b) c := by rw [h]
      _ = times (times a c) b := times_right_comm a b c
      _ = times 1 b := by rw [h']
      _ = b := (times_small b).1
  have listed : b ∈ (List.range 256).map UInt8.ofNat :=
    List.mem_map.mpr ⟨b.toNat, List.mem_range.mpr b.toNat_lt, UInt8.ofNat_toNat⟩
  have exists_inverse : (((List.range 256).map UInt8.ofNat).find? fun c => times a c = 1).isSome :=
    List.find?_isSome.mpr ⟨b, listed, decide_eq_true h⟩
  obtain ⟨c, found⟩ := Option.isSome_iff_exists.mp exists_inverse
  have product := List.find?_some found
  rw [inverse, found]
  exact unique (of_decide_eq_true product)

theorem inverse_zero : inverse 0 = 0 := by
  have none : ((List.range 256).map UInt8.ofNat).find? (fun b => times 0 b = 1) = none := by
    simp [zero_times]
  rw [inverse, none, Option.getD_none]

theorem lookup_sbox (a : UInt8) : sbox.lookup a = affine (inverse a) := by
  have all : ∀ v : BitVec 8,
      let s := sbox.lookup (.ofBitVec v)
      let b := rotate s 1 ^^^ rotate s 3 ^^^ rotate s 6 ^^^ 0x05
      (if (.ofBitVec v : UInt8) = 0 then b = 0 else times (.ofBitVec v) b = 1) ∧ s = affine b := by
    decide +kernel
  obtain ⟨inverted, mapped⟩ := all a.toBitVec
  split at inverted
  · rename_i zero
    rw [← inverse_zero, ← zero] at inverted
    exact mapped.trans (congrArg affine inverted)
  · exact mapped.trans (congrArg affine (inverse_eq inverted).symm)

theorem substitute_eq {n : ℕ} (bytes : Vector UInt8 n) :
    substitute bytes = bytes.map sbox.lookup := by
  rw [substitute, funext lookup_sbox]

theorem ofFn_columns (f : Fin 16 → UInt8) : List.ofFn f =
    (List.ofFn fun i : Fin 4 => List.ofFn fun j : Fin 4 =>
      f ⟨4 * i.val + j.val, by omega⟩).flatten :=
  List.ofFn_mul' (m := 4) (n := 4) f

def column (state : Block) (i : Fin 4) : Column :=
  .ofFn fun j => state[4 * i.val + j.val]

theorem exists_toList (col : Column) : ∃ a b c d, col.toList = [a, b, c, d] :=
  List.length_eq_four.mp Vector.length_toList

theorem columns_eq (state : Block) :
    chunksOf 4 state.toList = List.ofFn fun i => (column state i).toList := by
  rw [toList_eq_ofFn]
  refine (chunksOf_ofFn (n := 4) (k := 4) (by decide) fun k => state[k.val]).trans ?_
  simp only [column, Vector.toList_ofFn]

theorem xor_swap (a b c : UInt8) : a ^^^ (b ^^^ c) = b ^^^ (a ^^^ c) := by
  rw [← UInt8.xor_assoc, UInt8.xor_comm a, UInt8.xor_assoc]

/-- Mixes a column: every byte by the sum of all four, and one doubling. -/
def mixed : List UInt8 → List UInt8
  | [a, b, c, d] => [(a, b), (b, c), (c, d), (d, a)].map fun (byte, below) =>
      byte ^^^ (a ^^^ b ^^^ c ^^^ d) ^^^ timesX (byte ^^^ below)
  | _ => []

theorem mixed_eq (a b c d : UInt8) : mixed [a, b, c, d] =
    [times 2 a ^^^ times 3 b ^^^ times 1 c ^^^ times 1 d,
      times 1 a ^^^ times 2 b ^^^ times 3 c ^^^ times 1 d,
      times 1 a ^^^ times 1 b ^^^ times 2 c ^^^ times 3 d,
      times 3 a ^^^ times 1 b ^^^ times 1 c ^^^ times 2 d] := by
  have one (a : UInt8) : times 1 a = a := (times_small a).1
  have two (a : UInt8) : times 2 a = timesX a := (times_small a).2.1
  have three (a : UInt8) : times 3 a = timesX a ^^^ a := (times_small a).2.2
  simp only [mixed, one, two, three, timesX_xor, List.map_cons, List.map_nil]
  generalize timesX a = xa, timesX b = xb, timesX c = xc, timesX d = xd
  simp [UInt8.xor_comm, xor_swap]

theorem mixColumns_eq (state : Block) : (mixColumns state).toList =
    (List.ofFn fun i => mixed (column state i).toList).flatten := by
  rw [mixColumns, Vector.toList_ofFn, ofFn_columns]
  refine congrArg List.flatten (congrArg List.ofFn (funext fun i => ?_))
  have low (j : Fin 4) : (4 * i.val + j.val) % 4 = j.val := by omega
  have high (j : Fin 4) : (4 * i.val + j.val) / 4 = i.val := by omega
  have entry (j : Fin 4) (h) : state.get ⟨4 * i.val + j.val, h⟩ = (column state i).get j := by
    change _ = (column state i)[j.val]
    simp only [column, Vector.getElem_ofFn]
    rfl
  simp only [low, high, entry]
  obtain ⟨a, b, c, d, bytes⟩ := exists_toList (column state i)
  have whole : column state i = #v[a, b, c, d] := Vector.toList_inj.mp bytes
  rw [bytes, mixed_eq, whole]
  rfl

/-- The table holds the powers of x that the key schedule adds. -/
theorem roundConstants_eq : ∀ k < 10, roundConstants[k]? = some (k.repeat timesX 1) := by decide

theorem length_extendSchedule (keyWords k : ℕ) (words : List Column) :
    (extendSchedule keyWords k words).length = words.length + k := by
  induction k generalizing words with
  | zero => rfl
  | succ k ih =>
    rw [extendSchedule, ih, List.length_append, List.length_singleton]
    omega

theorem roundKeys_eq {k : ℕ} {words : List Column} (length : words.length = 4 * k) :
    (chunksOf 4 words).map (fun run => (run.map Vector.toList).flatten) =
      (List.range k).map fun r => (roundKey words r).toList := by
  have whole : words = List.ofFn fun i : Fin (4 * k) => words.getD i.val (.replicate 4 0) := by
    apply List.ext_getElem (by simp [length])
    intro i hi _
    simp [hi]
  conv_lhs => rw [whole]
  rw [chunksOf_ofFn (by decide), List.map_ofFn, ← List.map_coe_finRange_eq_range, List.map_map,
    List.ofFn_eq_map]
  apply List.map_congr_left
  intro r _
  simp only [Function.comp, roundKey, Vector.toList_ofFn, ofFn_columns, List.map_ofFn]
  refine congrArg List.flatten (congrArg List.ofFn (funext fun i => ?_))
  rw [Function.comp, toList_eq_ofFn]
  refine congrArg List.ofFn (funext fun j => ?_)
  have low : (4 * i.val + j.val) % 4 = j.val := by omega
  have high : (4 * i.val + j.val) / 4 = i.val := by omega
  simp only [low, high]
  rfl

/-- The rounds for a list of round keys, the last of which does not mix the columns. -/
def roundsWith : List Block → Block → Block
  | [], state => state
  | [key], state => add (shiftRows (substitute state)) key
  | key :: keys, state => roundsWith keys (add (mixColumns (shiftRows (substitute state))) key)

theorem roundsWith_append (keys : List Block) (last state : Block) :
    roundsWith (keys ++ [last]) state = add (shiftRows (substitute (keys.foldl
      (fun state key => add (mixColumns (shiftRows (substitute state))) key) state))) last := by
  induction keys generalizing state with
  | nil => rfl
  | cons key keys ih =>
    rw [List.foldl_cons, ← ih, List.cons_append]
    cases keys <;> rfl

theorem encrypt_eq (size : KeySize) (key : Vector UInt8 (4 * size.words)) (block : Block) :
    encrypt size key block =
      roundsWith ((List.range size.rounds).map fun r => roundKey (schedule size key) (r + 1))
        (add block (roundKey (schedule size key) 0)) := by
  obtain ⟨k, rounds⟩ : ∃ k, size.rounds = k + 1 := by cases size <;> exact ⟨_, rfl⟩
  rw [rounds, List.range_succ, List.map_append, List.map_singleton, roundsWith_append,
    List.foldl_map, encrypt, rounds, Nat.add_sub_cancel]

end RankOne.Aes.Cipher
