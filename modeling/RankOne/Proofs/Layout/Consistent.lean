import RankOne.Bits
import RankOne.Proofs.Layout

/-! The layouts agree with one another. Bits are taken out of bytes and words, and put together
again, through the numbers that they spell. Machine words do the same by shifts and masks: a loop
that sets one bit after the other adds up the number. -/
namespace RankOne
variable {n : ℕ}

namespace Layout

section Shifts

/-- The bits of a machine word, each shifted to the bottom and masked. -/
def shiftedBits (x : BitVec n) : List Bool := (List.range n).map fun i => x >>> i &&& 1#n == 1#n

def setBit (x : BitVec n) (i : ℕ) (bit : Bool) : BitVec n := x ||| BitVec.ofNat n bit.toNat <<< i

def setBits (n : ℕ) (bits : List Bool) : BitVec n :=
  bits.zipIdx.foldl (fun x entry => setBit x entry.2 entry.1) 0#n

theorem shiftedBits_eq (x : BitVec n) : shiftedBits x = natBits n x.toNat := by
  apply List.map_congr_left
  intro i member
  have width : n ≠ 0 := by
    rintro rfl
    exact Nat.not_lt_zero i (List.mem_range.mp member)
  rw [BitVec.and_one_eq_setWidth_ofBool_getLsbD, BitVec.getLsbD_ushiftRight, Nat.add_zero,
    ← BitVec.testBit_toNat]
  cases x.toNat.testBit i
  · simp [width]
  · simp [← BitVec.toNat_inj]

/-- A bit above all that are set adds its weight. -/
theorem toNat_setBit {x : BitVec n} {i : ℕ} (bit : Bool) (above : x.toNat < 2 ^ i)
    (inside : i < n) : (setBit x i bit).toNat = x.toNat + 2 ^ i * bit.toNat := by
  have room : 2 ^ i * bit.toNat < 2 ^ n := calc
    2 ^ i * bit.toNat ≤ 2 ^ i * 1 := Nat.mul_le_mul_left _ bit.toNat_le
    _ = 2 ^ i := Nat.mul_one _
    _ < 2 ^ n := Nat.pow_lt_pow_right (by decide) inside
  have weight : (BitVec.ofNat n bit.toNat <<< i).toNat = 2 ^ i * bit.toNat := by
    rw [BitVec.toNat_shiftLeft, BitVec.toNat_ofNat, Nat.shiftLeft_eq, Nat.mod_mul_mod,
      Nat.mul_comm, Nat.mod_eq_of_lt room]
  rw [setBit, BitVec.toNat_or, weight, Nat.or_comm, ← Nat.two_pow_add_eq_or_of_lt above,
    Nat.add_comm]

/-- A loop that sets bit after bit, each one above those before, adds up the number that the bits
spell. What a step needs of the state is kept by the steps. -/
theorem foldl_zipIdx_adds {σ : Type} {width : ℕ} (Valid : σ → Prop) (value : σ → ℕ)
    (step : σ → Bool × ℕ → σ)
    (adds : ∀ s bit i, Valid s → value s < 2 ^ i → i < width →
      Valid (step s (bit, i)) ∧ value (step s (bit, i)) = value s + 2 ^ i * bit.toNat)
    (bits : List Bool) {k : ℕ} {s : σ} (valid : Valid s) (above : value s < 2 ^ k)
    (inside : k + bits.length ≤ width) :
    Valid ((bits.zipIdx k).foldl step s) ∧
      value ((bits.zipIdx k).foldl step s) = value s + 2 ^ k * bitsValue bits := by
  induction bits generalizing k s with
  | nil => simpa [bitsValue] using valid
  | cons bit bits ih =>
    rw [List.length_cons] at inside
    obtain ⟨valid', first⟩ := adds s bit k valid above (by omega)
    have above' : value (step s (bit, k)) < 2 ^ (k + 1) := by
      rw [first, pow_succ]
      cases bit <;> simp <;> omega
    obtain ⟨valid'', rest⟩ := ih valid' above' (by omega)
    refine ⟨valid'', ?_⟩
    rw [List.zipIdx_cons, List.foldl_cons, rest, first, bitsValue]
    ring

theorem setBits_eq {bits : List Bool} (short : bits.length ≤ n) :
    setBits n bits = BitVec.ofNat n (bitsValue bits) := by
  have small := bitsValue_lt_of_le short
  have sum := foldl_zipIdx_adds (fun _ => True) BitVec.toNat
    (fun (x : BitVec n) entry => setBit x entry.2 entry.1)
    (fun _ bit _ _ above inside => ⟨trivial, toNat_setBit bit above inside⟩)
    bits (k := 0) (s := 0#n) trivial (by simp) (by omega)
  apply BitVec.eq_of_toNat_eq
  rw [setBits, sum.2, BitVec.toNat_ofNat, BitVec.toNat_ofNat, Nat.mod_eq_of_lt small]
  simp

def setBitOf (bytes : List UInt8) (i : ℕ) (bit : Bool) : List UInt8 :=
  bytes.modify (i / 8) fun byte => UInt8.ofBitVec (setBit byte.toBitVec (i % 8) bit)

def setBitsOf (bytes : List UInt8) (bits : List Bool) : List UInt8 :=
  bits.zipIdx.foldl (fun bytes entry => setBitOf bytes entry.2 entry.1) bytes

/-- In a byte string, too, a bit above all that are set adds its weight. -/
theorem bytesValue_setBitOf {bytes : List UInt8} {i : ℕ} (bit : Bool)
    (above : bytesValue bytes < 2 ^ i) (inside : i < 8 * bytes.length) :
    bytesValue (setBitOf bytes i bit) = bytesValue bytes + 2 ^ i * bit.toNat := by
  induction bytes generalizing i with
  | nil => simp at inside
  | cons byte bytes ih =>
    rw [bytesValue] at above
    rcases Nat.lt_or_ge i 8 with first | later
    · have place : i / 8 = 0 := Nat.div_eq_of_lt first
      have position : i % 8 = i := Nat.mod_eq_of_lt first
      have head : byte.toBitVec.toNat < 2 ^ i := (Nat.le_add_right _ _).trans_lt above
      have set : (setBit byte.toBitVec i bit).toNat = byte.toNat + 2 ^ i * bit.toNat :=
        toNat_setBit bit head first
      rw [setBitOf, place, position, List.modify_zero_cons, bytesValue, bytesValue,
        UInt8.toNat_ofBitVec, set]
      ring
    · obtain ⟨j, rfl⟩ := Nat.exists_eq_add_of_le' later
      have place : (j + 8) / 8 = j / 8 + 1 := Nat.add_div_right j (by decide)
      have position : (j + 8) % 8 = j % 8 := Nat.add_mod_right j 8
      have weight : 2 ^ (j + 8) = 256 * 2 ^ j := by ring
      rw [List.length_cons] at inside
      have rest := ih (i := j) (by omega) (by omega)
      rw [setBitOf] at rest
      rw [setBitOf, place, position, List.modify_succ_cons, bytesValue, bytesValue, rest, weight]
      ring

/-- Bits that a string of zero bytes has room for make it spell their number. -/
theorem bytesValue_setBitsOf {bytes : List UInt8} {bits : List Bool} (zero : bytesValue bytes = 0)
    (room : bits.length ≤ 8 * bytes.length) :
    (setBitsOf bytes bits).length = bytes.length ∧
      bytesValue (setBitsOf bytes bits) = bitsValue bits := by
  have sum := foldl_zipIdx_adds (fun out => out.length = bytes.length) bytesValue
    (fun out entry => setBitOf out entry.2 entry.1)
    (fun out bit i length above inside =>
      ⟨by rw [setBitOf, List.length_modify, length],
        bytesValue_setBitOf bit above (by rw [length]; exact inside)⟩)
    bits (k := 0) rfl (by simp [zero]) (by omega)
  rw [zero] at sum
  simpa [setBitsOf] using sum

end Shifts

section Conversions
variable (bits : List Bool) (word : UInt32)

theorem byteBits_eq_shiftedBits (byte : UInt8) : byteBits byte = shiftedBits byte.toBitVec :=
  (shiftedBits_eq byte.toBitVec).symm

theorem wordBits_eq_shiftedBits : wordBits word = shiftedBits word.toBitVec :=
  (shiftedBits_eq word.toBitVec).symm

theorem bitsToBytes_eq_setBits :
    bitsToBytes bits = (chunksOf 8 bits).map fun chunk => UInt8.ofBitVec (setBits 8 chunk) := by
  apply List.map_congr_left
  intro chunk member
  rw [setBits_eq (length_le_of_mem_chunksOf (by decide) bits chunk member)]
  rfl

theorem bitsToWord_eq_setBits : bitsToWord bits = UInt32.ofBitVec (setBits 32 (bits.take 32)) := by
  rw [setBits_eq (List.length_take_le 32 bits)]
  rfl

end Conversions

theorem map_bitsToWord_chunksOf (bytes : List UInt8) :
    (chunksOf 32 (bytesToBits bytes)).map bitsToWord = bytesToWords bytes := by
  rw [chunksOf_bytesToBits_mul (k := 4) (by decide), List.map_map, bytesToWords]
  apply List.map_congr_left
  intro chunk member
  have short := length_le_of_mem_chunksOf (by decide) bytes chunk member
  have whole : (bytesToBits chunk).length ≤ 32 := by rw [length_bytesToBits]; omega
  rw [Function.comp_apply, bitsToWord, List.take_of_length_le whole, bitsValue_bytesToBits]

end Layout

namespace Bits

theorem reverseInBytes_reverseInBytes (bits : Bits) :
    reverseInBytes (reverseInBytes bits) = bits := by
  rw [reverseInBytes, reverseInBytes, chunksOf_flatMap_reverse (by decide), List.flatMap_map]
  simp only [List.reverse_reverse]
  rw [List.flatMap_id', flatten_chunksOf]

theorem reverseInBytes_constBytes (bytes : List UInt8) :
    reverseInBytes (constBytes bytes) = const (Layout.bytesToBitsMsb bytes) := by
  have cut : constBytes bytes = bytes.flatMap fun byte => const (Layout.byteBits byte) := by
    rw [constBytes, const, Layout.bytesToBits, List.map_flatMap]
    rfl
  rw [cut, reverseInBytes, chunksOf_flatMap (by decide) _ _ fun byte _ => by simp [const],
    List.flatMap_map, const, Layout.bytesToBitsMsb, List.map_flatMap]
  simp only [List.map_reverse, const]

end Bits

namespace Layout

/-- The layouts agree. Bits are taken out and put together as shifts and masks do it. Bytes are
given back by their bits, and bits by their bytes, up to the zeros that complete the last byte.
Turning around the bits of each byte is undone by itself, and brings constant bytes into the order
with the most significant bit first. The words of a byte string are those that its bits are cut
into. A word of 32 bits has the bits that it is read from, and a shorter one has zeros after
them. -/
theorem layouts_agree (bytes : List UInt8) (bits : List Bool) (wires : Bits) (word : UInt32) :
    (bytesToBits bytes = bytes.flatMap fun byte => shiftedBits byte.toBitVec) ∧
    (bytesToBitsMsb bytes = bytes.flatMap fun byte => (shiftedBits byte.toBitVec).reverse) ∧
    (bitsToBytes bits = (chunksOf 8 bits).map fun chunk => UInt8.ofBitVec (setBits 8 chunk)) ∧
    wordBits word = shiftedBits word.toBitVec ∧
    bitsToWord bits = UInt32.ofBitVec (setBits 32 (bits.take 32)) ∧
    bitsToBytes (bytesToBits bytes) = bytes ∧
    bytesToBits (bitsToBytes bits) = bits.rightpad (8 * ((bits.length + 7) / 8)) false ∧
    Bits.reverseInBytes (Bits.reverseInBytes wires) = wires ∧
    Bits.reverseInBytes (Bits.constBytes bytes) = Bits.const (bytesToBitsMsb bytes) ∧
    (chunksOf 32 (bytesToBits bytes)).map bitsToWord = bytesToWords bytes ∧
    wordBits (bitsToWord bits) = (bits.take 32).rightpad 32 false ∧
    bitsToWord (wordBits word) = word := by
  have shifted : byteBits = fun byte => shiftedBits byte.toBitVec :=
    funext byteBits_eq_shiftedBits
  refine ⟨by rw [bytesToBits, shifted], by rw [bytesToBitsMsb, shifted],
    bitsToBytes_eq_setBits bits, wordBits_eq_shiftedBits word, bitsToWord_eq_setBits bits,
    bitsToBytes_bytesToBits bytes, bytesToBits_bitsToBytes_eq_rightpad bits,
    Bits.reverseInBytes_reverseInBytes wires, Bits.reverseInBytes_constBytes bytes,
    map_bitsToWord_chunksOf bytes, wordBits_bitsToWord_eq_rightpad bits,
    bitsToWord_wordBits word⟩

end Layout
end RankOne
