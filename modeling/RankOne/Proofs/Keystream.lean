import Mathlib.Data.List.Basic
import RankOne.Layout

/-! Keystreams in blocks of sixteen elements, each block under the next counter. -/
namespace RankOne
variable {υ : Type} [XorOp υ]

/-- Element `i` of the message is met by element `i % 16` of block `i / 16`. The counter wraps
around. -/
def addKeystream (block : UInt32 → Vector υ 16) (counter : UInt32) (message : List υ) : List υ :=
  message.mapIdx fun i v => v ^^^ (block (counter + UInt32.ofNat (i / 16)))[i % 16]

@[simp] theorem addKeystream_nil (block : UInt32 → Vector υ 16) (counter : UInt32) :
    addKeystream block counter [] = [] := rfl

@[simp] theorem length_addKeystream (block : UInt32 → Vector υ 16) (counter : UInt32)
    (message : List υ) : (addKeystream block counter message).length = message.length := by
  simp [addKeystream]

/-- The first sixteen elements meet the block of the counter, and the others a later one. -/
theorem addKeystream_eq (block : UInt32 → Vector υ 16) (counter : UInt32) (message : List υ) :
    addKeystream block counter message =
      (message.take 16).zipWith (· ^^^ ·) (block counter).toList ++
        addKeystream block (counter + 1) (message.drop 16) := by
  have first : ((message.take 16).mapIdx fun i v =>
      v ^^^ (block (counter + UInt32.ofNat (i / 16)))[i % 16]) =
      (message.take 16).zipWith (· ^^^ ·) (block counter).toList := by
    apply List.ext_getElem (by simp)
    intro i hi _
    have small : i < 16 := by simp at hi; omega
    simp [Nat.div_eq_of_lt small, Nat.mod_eq_of_lt small]
  conv_lhs => rw [addKeystream, ← List.take_append_drop 16 message, List.mapIdx_append, first]
  congr 1
  apply List.ext_getElem (by simp)
  intro i hi _
  have long : 16 ≤ message.length := by simp at hi; omega
  have length : (message.take 16).length = 16 := by simp [long]
  have next : counter + UInt32.ofNat (i / 16 + 1) = counter + 1 + UInt32.ofNat (i / 16) := by
    rw [UInt32.ofNat_add, UInt32.add_assoc, UInt32.add_comm 1]
    rfl
  simp only [addKeystream, List.getElem_mapIdx, List.getElem_drop, length,
    Nat.add_div_right i (by decide : 0 < 16), Nat.add_mod_right, next]

theorem zipWith_take {υ υ' υ'' : Type} (f : υ → υ' → υ'') (xs : List υ) (ys : List υ') :
    xs.zipWith f (ys.take xs.length) = xs.zipWith f ys := by
  induction xs generalizing ys with
  | nil => rfl
  | cons x xs ih => cases ys <;> simp [ih]

def keystreamFrom (block : UInt32 → Vector υ 16) : UInt32 → ℕ → List υ
  | _, 0 => []
  | counter, k + 1 => (block counter).toList ++ keystreamFrom block (counter + 1) k

omit [XorOp υ] in
@[simp] theorem length_keystreamFrom (block : UInt32 → Vector υ 16) (counter : UInt32) (k : ℕ) :
    (keystreamFrom block counter k).length = 16 * k := by
  induction k generalizing counter with
  | zero => rfl
  | succ k ih => simp [keystreamFrom, ih, Nat.mul_succ, Nat.add_comm]

theorem zipWith_keystreamFrom (block : UInt32 → Vector υ 16) (counter : UInt32) {k : ℕ}
    {message : List υ} (short : message.length ≤ 16 * k) :
    message.zipWith (· ^^^ ·) (keystreamFrom block counter k) =
      addKeystream block counter message := by
  induction k generalizing counter message with
  | zero =>
    cases List.length_eq_zero_iff.mp (Nat.le_zero.mp short)
    rfl
  | succ k ih =>
    rw [addKeystream_eq, keystreamFrom]
    by_cases long : 16 ≤ message.length
    · have length : (message.take 16).length = (block counter).toList.length := by simp [long]
      conv_lhs => rw [← List.take_append_drop 16 message]
      rw [List.zipWith_append length, ih _ (by rw [List.length_drop]; omega)]
    · have small : message.length ≤ 16 := Nat.le_of_not_le long
      rw [List.take_of_length_le small, List.drop_of_length_le small, addKeystream_nil,
        List.append_nil, ← zipWith_take, List.take_append_of_le_length (by simpa using small),
        zipWith_take]

end RankOne
