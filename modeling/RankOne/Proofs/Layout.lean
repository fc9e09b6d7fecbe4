import RankOne.Layout
import Mathlib.Data.List.Forall2
import Mathlib.Data.List.OfFn
import Mathlib.Data.Nat.Bitwise
import Mathlib.Tactic.Ring

/-! Laws of bit layouts: cutting into runs loses nothing, and a number below `2 ^ n` and its `n`
bits determine each other. Where bits do not fill the last byte or word, zeros do. -/
namespace RankOne

section Chunks
variable {α β : Type} {n : ℕ}

theorem chunksOf_of_ne_nil (positive : 0 < n) {xs : List α} (h : xs ≠ []) :
    chunksOf n xs = xs.take n :: chunksOf n (xs.drop n) := by
  obtain ⟨k, rfl⟩ : ∃ k, n = k + 1 := ⟨n - 1, by omega⟩
  cases xs with
  | nil => exact absurd rfl h
  | cons x xs => rw [chunksOf_cons]; rfl

theorem chunksOf_induction {motive : List α → Prop} (positive : 0 < n) (nil : motive [])
    (step : ∀ xs, xs ≠ [] → motive (xs.drop n) → motive xs) (xs : List α) : motive xs := by
  induction h : xs.length using Nat.strongRecOn generalizing xs with
  | ind k ih =>
    by_cases empty : xs = []
    · rw [empty]; exact nil
    · have := List.length_pos_iff.mpr empty
      exact step xs empty (ih _ (by rw [List.length_drop]; omega) _ rfl)

@[simp] theorem flatten_chunksOf (n : ℕ) (xs : List α) : (chunksOf n xs).flatten = xs := by
  fun_induction chunksOf n xs with
  | case1 => rfl
  | case2 x xs ih => rw [List.flatten_cons, ih]; simp

theorem chunksOf_append (positive : 0 < n) {xs : List α} (ys : List α) (h : n ∣ xs.length) :
    chunksOf n (xs ++ ys) = chunksOf n xs ++ chunksOf n ys := by
  induction xs using chunksOf_induction positive with
  | nil => simp
  | step xs nonempty ih =>
    have long : n ≤ xs.length := Nat.le_of_dvd (List.length_pos_iff.mpr nonempty) h
    have rest : n ∣ (xs.drop n).length := by rw [List.length_drop]; exact Nat.dvd_sub h dvd_rfl
    rw [chunksOf_of_ne_nil positive (by simp [nonempty]), chunksOf_of_ne_nil positive nonempty,
      List.take_append_of_le_length long, List.drop_append_of_le_length long, ih rest,
      List.cons_append]

theorem chunksOf_of_length_le (positive : 0 < n) {xs : List α} (nonempty : xs ≠ [])
    (short : xs.length ≤ n) : chunksOf n xs = [xs] := by
  rw [chunksOf_of_ne_nil positive nonempty, List.take_of_length_le short,
    List.drop_of_length_le short, chunksOf_nil]

theorem chunksOf_self (positive : 0 < n) {xs : List α} (h : xs.length = n) :
    chunksOf n xs = [xs] :=
  chunksOf_of_length_le positive (List.ne_nil_of_length_pos (h ▸ positive)) h.le

/-- Pieces of one length are the runs of their concatenation. -/
theorem chunksOf_flatten (positive : 0 < n) (xss : List (List α))
    (h : ∀ xs ∈ xss, xs.length = n) : chunksOf n xss.flatten = xss := by
  induction xss with
  | nil => simp
  | cons xs xss ih =>
    have first : xs.length = n := h xs List.mem_cons_self
    rw [List.flatten_cons, chunksOf_append positive _ (by rw [first]),
      chunksOf_self positive first, ih fun ys hys => h ys (List.mem_cons_of_mem _ hys)]
    rfl

theorem toList_eq_ofFn {k : ℕ} (v : Vector α k) :
    v.toList = List.ofFn fun i : Fin k => v[i.val] := by
  rw [← Vector.toList_ofFn]
  congr 1
  ext i hi
  simp

theorem index_lt {k : ℕ} (i : Fin k) (j : Fin n) : n * i.val + j.val < n * k :=
  calc n * i.val + j.val < n * (i.val + 1) := by rw [Nat.mul_succ]; omega
    _ ≤ n * k := Nat.mul_le_mul_left n i.isLt

theorem chunksOf_ofFn (positive : 0 < n) {k : ℕ} (f : Fin (n * k) → α) :
    chunksOf n (List.ofFn f) =
      List.ofFn fun i : Fin k => List.ofFn fun j : Fin n =>
        f ⟨n * i.val + j.val, index_lt i j⟩ := by
  rw [List.ofFn_mul', chunksOf_flatten positive]
  intro xs member
  obtain ⟨i, rfl⟩ := List.mem_ofFn.mp member
  simp

theorem chunksOf_flatMap (positive : 0 < n) (f : α → List β) (xs : List α)
    (h : ∀ x ∈ xs, (f x).length = n) : chunksOf n (xs.flatMap f) = xs.map f := by
  rw [List.flatMap_def]
  apply chunksOf_flatten positive
  intro ys hys
  obtain ⟨x, member, rfl⟩ := List.mem_map.mp hys
  exact h x member

theorem flatMap_take_drop (f : α → List β) (k : ℕ) (xs : List α)
    (h : ∀ x ∈ xs, (f x).length = n) :
    (xs.flatMap f).take (n * k) = (xs.take k).flatMap f ∧
      (xs.flatMap f).drop (n * k) = (xs.drop k).flatMap f := by
  induction xs generalizing k with
  | nil => simp
  | cons x xs ih =>
    obtain ⟨first, others⟩ := List.forall_mem_cons.mp h
    cases k with
    | zero => simp
    | succ k =>
      have rest : n * (k + 1) - (f x).length = n * k := by
        rw [first, Nat.mul_succ, Nat.add_sub_cancel]
      have whole : (f x).length ≤ n * (k + 1) := by rw [first, Nat.mul_succ]; omega
      rw [List.flatMap_cons, List.take_append, List.drop_append, rest,
        List.take_of_length_le whole, List.drop_of_length_le whole, (ih k others).1,
        (ih k others).2]
      simp

theorem chunksOf_flatMap_mul (positive : 0 < n) {k : ℕ} (positive' : 0 < k) (f : α → List β)
    (xs : List α) (h : ∀ x ∈ xs, (f x).length = n) :
    chunksOf (n * k) (xs.flatMap f) = (chunksOf k xs).map (·.flatMap f) := by
  induction xs using chunksOf_induction positive' with
  | nil => simp
  | step xs nonempty ih =>
    have nonempty' : xs.flatMap f ≠ [] := by
      obtain ⟨x, xs, rfl⟩ := List.exists_cons_of_ne_nil nonempty
      have first : f x ≠ [] :=
        List.ne_nil_of_length_pos (by rw [h x List.mem_cons_self]; exact positive)
      simp [first]
    have pieces := flatMap_take_drop f k xs h
    rw [chunksOf_of_ne_nil positive' nonempty,
      chunksOf_of_ne_nil (Nat.mul_pos positive positive') nonempty', pieces.1, pieces.2,
      ih fun x member => h x (List.mem_of_mem_drop member), List.map_cons]

theorem zipWith_flatMap {f : α → List β} {g : α → α → α} {g' : β → β → β}
    (h : ∀ x, (f x).length = n) (pieces : ∀ x y, f (g x y) = (f x).zipWith g' (f y))
    (xs ys : List α) : (xs.zipWith g ys).flatMap f = (xs.flatMap f).zipWith g' (ys.flatMap f) := by
  induction xs generalizing ys with
  | nil => rfl
  | cons x xs ih =>
    cases ys with
    | nil => simp
    | cons y ys =>
      rw [List.zipWith_cons_cons, List.flatMap_cons, List.flatMap_cons, List.flatMap_cons,
        List.zipWith_append (by rw [h, h]), ih, pieces]

theorem length_of_mem_chunksOf (positive : 0 < n) {xs : List α} (h : n ∣ xs.length) :
    ∀ chunk ∈ chunksOf n xs, chunk.length = n := by
  induction xs using chunksOf_induction positive with
  | nil => simp
  | step xs nonempty ih =>
    have long : n ≤ xs.length := Nat.le_of_dvd (List.length_pos_iff.mpr nonempty) h
    have rest : n ∣ (xs.drop n).length := by rw [List.length_drop]; exact Nat.dvd_sub h dvd_rfl
    rw [chunksOf_of_ne_nil positive nonempty]
    intro chunk member
    rcases List.mem_cons.mp member with rfl | member
    · rw [List.length_take, Nat.min_eq_left long]
    · exact ih rest chunk member

theorem length_le_of_mem_chunksOf (positive : 0 < n) (xs : List α) :
    ∀ chunk ∈ chunksOf n xs, chunk.length ≤ n := by
  induction xs using chunksOf_induction positive with
  | nil => simp
  | step xs nonempty ih =>
    rw [chunksOf_of_ne_nil positive nonempty]
    intro chunk member
    rcases List.mem_cons.mp member with rfl | member
    · rw [List.length_take]; exact Nat.min_le_left _ _
    · exact ih chunk member

/-- There are as many runs as it takes to cover the list. -/
theorem length_chunksOf_eq_div (positive : 0 < n) (xs : List α) :
    (chunksOf n xs).length = (xs.length + n - 1) / n := by
  induction xs using chunksOf_induction positive with
  | nil => simp [Nat.div_eq_of_lt, positive]
  | step xs nonempty ih =>
    have length := List.length_pos_iff.mpr nonempty
    rw [chunksOf_of_ne_nil positive nonempty, List.length_cons, ih, List.length_drop]
    rcases Nat.lt_or_ge xs.length n with short | long
    · have last : xs.length - n + n - 1 = n - 1 := by omega
      have first : xs.length + n - 1 = xs.length - 1 + n := by omega
      rw [last, first, Nat.add_div_right _ positive, Nat.div_eq_of_lt (by omega),
        Nat.div_eq_of_lt (by omega)]
    · have rest : xs.length - n + n - 1 + n = xs.length + n - 1 := by omega
      rw [← rest, Nat.add_div_right _ positive]

theorem length_chunksOf (positive : 0 < n) {xs : List α} {k : ℕ} (h : xs.length = n * k) :
    (chunksOf n xs).length = k := by
  rw [length_chunksOf_eq_div positive, h, Nat.add_sub_assoc positive, Nat.mul_add_div positive,
    Nat.div_eq_of_lt (by omega), Nat.add_zero]

/-- The runs begin at the multiples of their length. -/
theorem getElem?_chunksOf (positive : 0 < n) (xs : List α) (j : ℕ) : (chunksOf n xs)[j]? =
    if j * n < xs.length then some ((xs.drop (j * n)).take n) else none := by
  induction xs using chunksOf_induction positive generalizing j with
  | nil => simp
  | step xs nonempty ih =>
    rw [chunksOf_of_ne_nil positive nonempty]
    cases j with
    | zero => simp [List.length_pos_iff.mpr nonempty]
    | succ j =>
      have inside : j * n < xs.length - n ↔ (j + 1) * n < xs.length := by
        rw [Nat.succ_mul]
        omega
      have start : n + j * n = (j + 1) * n := by rw [Nat.succ_mul, Nat.add_comm]
      rw [List.getElem?_cons_succ, ih, List.length_drop, List.drop_drop, start]
      simp only [inside]

/-- Completing every run completes the list. -/
theorem flatMap_rightpad_chunksOf (positive : 0 < n) (a : α) (xs : List α) :
    (chunksOf n xs).flatMap (List.rightpad n a) =
      xs.rightpad (n * ((xs.length + n - 1) / n)) a := by
  induction xs using chunksOf_induction positive with
  | nil => simp [List.rightpad, Nat.div_eq_of_lt, positive]
  | step xs nonempty ih =>
    have length := List.length_pos_iff.mpr nonempty
    rcases Nat.lt_or_ge xs.length n with short | long
    · have one : (xs.length + n - 1) / n = 1 := by
        rw [show xs.length + n - 1 = xs.length - 1 + n by omega, Nat.add_div_right _ positive,
          Nat.div_eq_of_lt (by omega)]
      rw [chunksOf_of_length_le positive nonempty short.le, List.flatMap_singleton, one,
        Nat.mul_one]
    · have rest : (xs.length + n - 1) / n = (xs.length - n + n - 1) / n + 1 := by
        rw [show xs.length + n - 1 = xs.length - n + n - 1 + n by omega,
          Nat.add_div_right _ positive]
      have whole : n - (xs.take n).length = 0 := by rw [List.length_take]; omega
      have missing (k : ℕ) : n * (k + 1) - xs.length = n * k - (xs.length - n) := by
        rw [Nat.mul_succ]; omega
      rw [chunksOf_of_ne_nil positive nonempty, List.flatMap_cons, ih, List.rightpad,
        List.rightpad, List.rightpad, whole, List.replicate_zero, List.append_nil,
        ← List.append_assoc, List.take_append_drop, List.length_drop, rest, missing]

/-- Turning each run around leaves the runs where they are. -/
theorem chunksOf_flatMap_reverse (positive : 0 < n) (xs : List α) :
    chunksOf n ((chunksOf n xs).flatMap List.reverse) = (chunksOf n xs).map List.reverse := by
  induction xs using chunksOf_induction positive with
  | nil => simp
  | step xs nonempty ih =>
    rcases Nat.lt_or_ge xs.length n with short | long
    · rw [chunksOf_of_length_le positive nonempty short.le, List.flatMap_singleton,
        chunksOf_of_length_le positive (by simpa using nonempty) (by simpa using short.le),
        List.map_singleton]
    · have whole : (xs.take n).reverse.length = n := by simp [long]
      rw [chunksOf_of_ne_nil positive nonempty, List.flatMap_cons, List.map_cons,
        chunksOf_append positive _ (by rw [whole]), chunksOf_self positive whole, ih,
        List.singleton_append]

theorem forall₂_chunksOf {R : α → β → Prop} (positive : 0 < n) {xs : List α} {ys : List β}
    (h : List.Forall₂ R xs ys) :
    List.Forall₂ (List.Forall₂ R) (chunksOf n xs) (chunksOf n ys) := by
  induction xs using chunksOf_induction positive generalizing ys with
  | nil => cases h; simp
  | step xs nonempty ih =>
    have nonempty' : ys ≠ [] := by rintro rfl; cases h; exact nonempty rfl
    rw [chunksOf_of_ne_nil positive nonempty, chunksOf_of_ne_nil positive nonempty']
    exact .cons (List.forall₂_take n h) (ih (List.forall₂_drop n h))

end Chunks

namespace Layout

theorem bitsValue_lt (bits : List Bool) : bitsValue bits < 2 ^ bits.length := by
  induction bits with
  | nil => simp [bitsValue]
  | cons b bits ih =>
    have := b.toNat_lt
    simp only [bitsValue, List.length_cons, pow_succ]
    omega

theorem bitsValue_lt_of_le {bits : List Bool} {n : ℕ} (short : bits.length ≤ n) :
    bitsValue bits < 2 ^ n :=
  (bitsValue_lt bits).trans_le (Nat.pow_le_pow_right (by decide) short)

theorem bitsValue_append (low high : List Bool) :
    bitsValue (low ++ high) = bitsValue low + 2 ^ low.length * bitsValue high := by
  induction low with
  | nil => simp [bitsValue]
  | cons b low ih =>
    simp only [List.cons_append, bitsValue, ih, List.length_cons, pow_succ]
    ring

@[simp] theorem length_natBits (n value : ℕ) : (natBits n value).length = n := by
  simp [natBits]

theorem getElem_natBits {n value i : ℕ} (h : i < (natBits n value).length) :
    (natBits n value)[i] = value.testBit i := by
  simp [natBits]

theorem natBits_zero (value : ℕ) : natBits 0 value = [] := rfl

theorem natBits_succ (n value : ℕ) :
    natBits (n + 1) value = value.testBit 0 :: natBits n (value / 2) := by
  simp only [natBits, List.range_succ_eq_map, List.map_cons, List.map_map, List.cons.injEq,
    true_and]
  apply List.map_congr_left
  intro i _
  simp [Nat.testBit_succ]

theorem bitsValue_natBits (n value : ℕ) : bitsValue (natBits n value) = value % 2 ^ n := by
  induction n generalizing value with
  | zero => simp [natBits_zero, bitsValue, Nat.mod_one]
  | succ n ih =>
    rw [natBits_succ, bitsValue, ih, Nat.toNat_testBit, pow_zero, Nat.div_one, pow_succ',
      Nat.mod_mul]

theorem bitsValue_natBits_of_lt {n value : ℕ} (h : value < 2 ^ n) :
    bitsValue (natBits n value) = value := by
  rw [bitsValue_natBits, Nat.mod_eq_of_lt h]

/-- A number has the bits that spell it, and zeros after them. -/
theorem natBits_bitsValue_of_le {n : ℕ} {bits : List Bool} (short : bits.length ≤ n) :
    natBits n (bitsValue bits) = bits.rightpad n false := by
  induction bits generalizing n with
  | nil => simp [natBits, bitsValue, List.rightpad, List.eq_replicate_iff]
  | cons b bits ih =>
    obtain ⟨m, rfl⟩ : ∃ m, n = m + 1 := ⟨n - 1, by simp at short; omega⟩
    have half : (b.toNat + 2 * bitsValue bits) / 2 = bitsValue bits := by
      have := b.toNat_lt; omega
    rw [natBits_succ, bitsValue, half, ih (by simpa using short)]
    cases b <;> simp [List.rightpad, Nat.testBit_zero, Nat.add_mod]

@[simp] theorem natBits_bitsValue (bits : List Bool) :
    natBits bits.length (bitsValue bits) = bits := by
  rw [natBits_bitsValue_of_le le_rfl]
  simp [List.rightpad]

/-- Bits of one number of places are told apart by the number they spell. -/
theorem bitsValue_injective {xs ys : List Bool} (length : xs.length = ys.length)
    (h : bitsValue xs = bitsValue ys) : xs = ys := by
  rw [← natBits_bitsValue xs, ← natBits_bitsValue ys, length, h]

theorem natBits_mod {m n : ℕ} (h : m ≤ n) (value : ℕ) :
    natBits m (value % 2 ^ n) = natBits m value := by
  apply List.ext_getElem (by simp)
  intro i hi hi'
  rw [length_natBits] at hi
  rw [getElem_natBits, getElem_natBits, Nat.testBit_mod_two_pow, decide_eq_true (by omega),
    Bool.true_and]

theorem take_natBits {m n : ℕ} (h : m ≤ n) (value : ℕ) :
    (natBits n value).take m = natBits m value := by
  rw [natBits, ← List.map_take, List.take_range, Nat.min_eq_left h, natBits]

theorem natBits_append (m n value : ℕ) :
    natBits (m + n) value = natBits m value ++ natBits n (value / 2 ^ m) := by
  induction m generalizing value with
  | zero => simp [natBits_zero]
  | succ m ih =>
    rw [Nat.succ_add, natBits_succ, natBits_succ, ih, Nat.div_div_eq_div_mul, ← pow_succ',
      List.cons_append]

theorem natBits_xor (n x y : ℕ) :
    natBits n (x ^^^ y) = List.zipWith (· ^^ ·) (natBits n x) (natBits n y) := by
  apply List.ext_getElem (by simp)
  intro i hi hi'
  rw [List.getElem_zipWith, getElem_natBits, getElem_natBits, getElem_natBits, Nat.testBit_xor]

@[simp] theorem length_byteBits (byte : UInt8) : (byteBits byte).length = 8 := length_natBits _ _

@[simp] theorem length_wordBits (word : UInt32) : (wordBits word).length = 32 := length_natBits _ _

theorem getElem_wordBits {word : UInt32} {i : ℕ} (h : i < (wordBits word).length) :
    (wordBits word)[i] = word.toNat.testBit i := getElem_natBits h

@[simp] theorem bitsValue_byteBits (byte : UInt8) : bitsValue (byteBits byte) = byte.toNat :=
  bitsValue_natBits_of_lt byte.toNat_lt

@[simp] theorem bitsValue_wordBits (word : UInt32) : bitsValue (wordBits word) = word.toNat :=
  bitsValue_natBits_of_lt word.toNat_lt

theorem byteBits_injective : Function.Injective byteBits := by
  intro x y h
  have values := congrArg bitsValue h
  rw [bitsValue_byteBits, bitsValue_byteBits] at values
  exact UInt8.toNat_inj.mp values

theorem wordBits_injective : Function.Injective wordBits := by
  intro x y h
  have values := congrArg bitsValue h
  rw [bitsValue_wordBits, bitsValue_wordBits] at values
  exact UInt32.toNat_inj.mp values

theorem byteBits_bitsValue {bits : List Bool} (short : bits.length ≤ 8) :
    byteBits (UInt8.ofNat (bitsValue bits)) = bits.rightpad 8 false := by
  rw [byteBits, UInt8.toNat_ofNat_of_lt' (bitsValue_lt_of_le short), natBits_bitsValue_of_le short]

/-- A word has the bits that it is read from, without those past the first 32. -/
theorem wordBits_bitsToWord_eq_rightpad (bits : List Bool) :
    wordBits (bitsToWord bits) = (bits.take 32).rightpad 32 false := by
  have short := List.length_take_le 32 bits
  rw [wordBits, bitsToWord, UInt32.toNat_ofNat_of_lt' (bitsValue_lt_of_le short),
    natBits_bitsValue_of_le short]

theorem wordBits_bitsToWord {bits : List Bool} (h : bits.length = 32) :
    wordBits (bitsToWord bits) = bits := by
  rw [wordBits_bitsToWord_eq_rightpad, List.take_of_length_le h.le]
  simp [List.rightpad, h]

@[simp] theorem bitsToWord_wordBits (word : UInt32) : bitsToWord (wordBits word) = word := by
  apply wordBits_injective
  rw [wordBits_bitsToWord (length_wordBits word)]

theorem byteBits_xor (x y : UInt8) :
    byteBits (x ^^^ y) = List.zipWith (· ^^ ·) (byteBits x) (byteBits y) := by
  rw [byteBits, UInt8.toNat_xor, natBits_xor, byteBits, byteBits]

theorem wordBits_xor (x y : UInt32) :
    wordBits (x ^^^ y) = List.zipWith (· ^^ ·) (wordBits x) (wordBits y) := by
  rw [wordBits, UInt32.toNat_xor, natBits_xor, wordBits, wordBits]

@[simp] theorem length_bytesToBits (bytes : List UInt8) :
    (bytesToBits bytes).length = 8 * bytes.length := by
  simp [bytesToBits, List.length_flatMap, mul_comm]

theorem bytesToBits_append (xs ys : List UInt8) :
    bytesToBits (xs ++ ys) = bytesToBits xs ++ bytesToBits ys := List.flatMap_append

theorem chunksOf_bytesToBits (bytes : List UInt8) :
    chunksOf 8 (bytesToBits bytes) = bytes.map byteBits :=
  chunksOf_flatMap (by decide) _ _ fun byte _ => length_byteBits byte

@[simp] theorem bitsToBytes_bytesToBits (bytes : List UInt8) :
    bitsToBytes (bytesToBits bytes) = bytes := by
  rw [bitsToBytes, chunksOf_bytesToBits, List.map_map]
  conv_rhs => rw [← List.map_id bytes]
  apply List.map_congr_left
  intro byte _
  simp

/-- Bits that are packed into bytes come back with the last byte completed. -/
theorem bytesToBits_bitsToBytes_eq_rightpad (bits : List Bool) :
    bytesToBits (bitsToBytes bits) = bits.rightpad (8 * ((bits.length + 7) / 8)) false := by
  rw [bytesToBits, bitsToBytes, List.flatMap_map, List.flatMap_congr fun chunk member =>
    byteBits_bitsValue (length_le_of_mem_chunksOf (by decide) bits chunk member)]
  exact flatMap_rightpad_chunksOf (by decide) false bits

/-- Whole bytes are the bits of the bytes they spell. -/
theorem bytesToBits_bitsToBytes {bits : List Bool} (h : 8 ∣ bits.length) :
    bytesToBits (bitsToBytes bits) = bits := by
  have whole : 8 * ((bits.length + 7) / 8) = bits.length := by omega
  rw [bytesToBits_bitsToBytes_eq_rightpad, whole]
  simp [List.rightpad]

theorem bytesToBits_injective : Function.Injective bytesToBits := by
  intro xs ys h
  rw [← bitsToBytes_bytesToBits xs, h, bitsToBytes_bytesToBits]

@[simp] theorem length_natBytes (n value : ℕ) : (natBytes n value).length = n := by
  induction n generalizing value with
  | zero => rfl
  | succ n ih => rw [natBytes, List.length_cons, ih]

/-- The bits of the low bytes of a number are its low bits. -/
theorem bytesToBits_natBytes (n value : ℕ) :
    bytesToBits (natBytes n value) = natBits (8 * n) value := by
  induction n generalizing value with
  | zero => rfl
  | succ n ih =>
    have first : byteBits (UInt8.ofNat value) = natBits 8 value := by
      rw [byteBits, UInt8.toNat_ofNat', natBits_mod (le_refl 8)]
    rw [natBytes, bytesToBits, List.flatMap_cons, first, ← bytesToBits, ih, Nat.mul_succ,
      Nat.add_comm, natBits_append]
    rfl

theorem bytesToBits_wordBytes (word : UInt32) : bytesToBits (wordBytes word) = wordBits word :=
  bytesToBits_natBytes 4 word.toNat

theorem bitsValue_bytesToBits (bytes : List UInt8) :
    bitsValue (bytesToBits bytes) = bytesValue bytes := by
  induction bytes with
  | nil => rfl
  | cons b bytes ih =>
    rw [bytesToBits, List.flatMap_cons, ← bytesToBits, bitsValue_append, ih, bitsValue_byteBits,
      length_byteBits, bytesValue]
    rfl

theorem zipWith_bytesToBits (xs ys : List UInt8) :
    bytesToBits (xs.zipWith (· ^^^ ·) ys) =
      (bytesToBits xs).zipWith (· ^^ ·) (bytesToBits ys) :=
  zipWith_flatMap length_byteBits byteBits_xor xs ys

theorem chunksOf_bytesToBits_mul {k : ℕ} (positive : 0 < k) (bytes : List UInt8) :
    chunksOf (8 * k) (bytesToBits bytes) = (chunksOf k bytes).map bytesToBits :=
  chunksOf_flatMap_mul (by decide) positive byteBits bytes fun byte _ => length_byteBits byte

theorem bytesToBits_flatMap_wordBytes (words : List UInt32) :
    bytesToBits (words.flatMap wordBytes) = words.flatMap wordBits := by
  rw [bytesToBits, List.flatMap_assoc]
  congr 1
  funext word
  exact bytesToBits_wordBytes word

theorem wordBits_ofNat_bytesValue {bytes : List UInt8} (h : bytes.length = 4) :
    wordBits (UInt32.ofNat (bytesValue bytes)) = bytesToBits bytes := by
  have length : (bytesToBits bytes).length = 32 := by simp [h]
  rw [← wordBits_bitsToWord length, bitsToWord, List.take_of_length_le (by omega),
    bitsValue_bytesToBits]

end Layout
end RankOne
