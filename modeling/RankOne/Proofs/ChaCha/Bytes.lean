import RankOne.ChaCha.Stream
import RankOne.Proofs.Layout

/-! The native cipher byte by byte. It meets each run of 64 bytes with the block of the next
counter, so that what a byte meets is a matter of its place in the message. A message can be cut
between blocks, and what is encrypted twice is as it was. -/
namespace RankOne

theorem Layout.natBytes_eq_ofFn (n value : ℕ) :
    natBytes n value = List.ofFn fun i : Fin n => UInt8.ofNat (value / 256 ^ i.val) := by
  induction n generalizing value with
  | zero => rfl
  | succ n ih =>
    rw [natBytes, ih, List.ofFn_succ]
    simp only [Fin.val_zero, pow_zero, Nat.div_one, Fin.val_succ, pow_succ',
      ← Nat.div_div_eq_div_mul]

theorem Layout.flatMap_wordBytes {k : ℕ} (words : Vector UInt32 k) :
    words.toList.flatMap wordBytes = List.ofFn fun i : Fin (4 * k) =>
      UInt8.ofNat ((words.get ⟨i.val / 4, by omega⟩).toNat / 256 ^ (i.val % 4)) := by
  rw [List.ofFn_mul', toList_eq_ofFn, List.flatMap_def, List.map_ofFn]
  congr 2
  funext i
  rw [Function.comp_apply, wordBytes, natBytes_eq_ofFn]
  congr 1
  funext j
  have word : (4 * i.val + j.val) / 4 = i.val := by omega
  have byte : (4 * i.val + j.val) % 4 = j.val := by omega
  simp only [word, byte]
  rfl

namespace ChaCha
variable (k : Vector UInt32 8) (iv : Vector UInt32 3) (c : UInt32)

/-- Byte `i` of the keystream from a counter on, which wraps around. A block has 64 bytes, and a
word has four, the least significant first. -/
def keystreamByte (i : ℕ) : UInt8 :=
  let counter := UInt32.ofNat (c.toNat + i / 64)
  let word := (block k counter iv).get ⟨i % 64 / 4, by omega⟩
  UInt8.ofNat (word.toNat / 256 ^ (i % 4))

/-- Later blocks are the blocks of a later counter. -/
theorem keystreamByte_add (blocks i : ℕ) :
    keystreamByte k iv c (i + 64 * blocks) = keystreamByte k iv (c + UInt32.ofNat blocks) i := by
  have counter : UInt32.ofNat (c.toNat + (i + 64 * blocks) / 64) =
      UInt32.ofNat ((c + UInt32.ofNat blocks).toNat + i / 64) := by
    rw [Nat.add_mul_div_left i blocks (by decide), UInt32.ofNat_add, UInt32.ofNat_add _ (i / 64),
      UInt32.ofNat_toNat, UInt32.ofNat_toNat, UInt32.ofNat_add, UInt32.add_assoc,
      UInt32.add_comm (UInt32.ofNat blocks)]
  have place : (i + 64 * blocks) % 64 = i % 64 := Nat.add_mul_mod_self_left i 64 blocks
  have byte : (i + 64 * blocks) % 4 = i % 4 := by omega
  simp only [keystreamByte, counter, place, byte]

theorem flatMap_block : (block k c iv).toList.flatMap Layout.wordBytes =
    List.ofFn fun i : Fin 64 => keystreamByte k iv c i.val := by
  rw [Layout.flatMap_wordBytes]
  refine congrArg List.ofFn (funext fun i => ?_)
  have first : c.toNat + i.val / 64 = c.toNat := by omega
  have place : i.val % 64 = i.val := by omega
  simp only [keystreamByte, first, place, UInt32.ofNat_toNat]

def addBytes (message : List UInt8) : List UInt8 :=
  message.mapIdx fun i byte => byte ^^^ keystreamByte k iv c i

@[simp] theorem length_addBytes (message : List UInt8) :
    (addBytes k iv c message).length = message.length := by
  simp [addBytes]

/-- A message can be cut after any number of whole blocks. -/
theorem addBytes_take_drop (blocks : ℕ) (message : List UInt8) :
    addBytes k iv c (message.take (64 * blocks)) ++
        addBytes k iv (c + UInt32.ofNat blocks) (message.drop (64 * blocks)) =
      addBytes k iv c message := by
  rcases Nat.le_total message.length (64 * blocks) with short | long
  · rw [List.take_of_length_le short, List.drop_of_length_le short, addBytes, addBytes,
      List.mapIdx_nil, List.append_nil]
  · have length : (message.take (64 * blocks)).length = 64 * blocks := by simp [long]
    conv_rhs => rw [← List.take_append_drop (64 * blocks) message]
    simp only [addBytes, List.mapIdx_append, length, keystreamByte_add]

theorem addBytes_of_short {message : List UInt8} (short : message.length ≤ 64) :
    addBytes k iv c message =
      message.zipWith (· ^^^ ·) ((block k c iv).toList.flatMap Layout.wordBytes) := by
  rw [flatMap_block]
  apply List.ext_getElem (by simp [short])
  intro i _ _
  simp only [addBytes, List.getElem_mapIdx, List.getElem_zipWith, List.getElem_ofFn]

theorem xorChunks_eq_addBytes (message : List UInt8) :
    xorChunks k iv c (chunksOf 64 message) = addBytes k iv c message := by
  induction message using chunksOf_induction (by decide : 0 < 64) generalizing c with
  | nil => rw [chunksOf_nil]; rfl
  | step message nonempty ih =>
    rw [chunksOf_of_ne_nil (by decide) nonempty, xorChunks, ih, ← addBytes_take_drop k iv c 1,
      addBytes_of_short k iv c (List.length_take_le 64 message)]
    rfl

theorem addBytes_addBytes (message : List UInt8) :
    addBytes k iv c (addBytes k iv c message) = message := by
  apply List.ext_getElem (by simp)
  intro i _ _
  simp only [addBytes, List.getElem_mapIdx]
  rw [UInt8.xor_assoc, UInt8.xor_self, UInt8.xor_zero]

theorem xor_eq_addBytes (key : Vector UInt8 32) (nonce : Vector UInt8 12) (counter : UInt32)
    (message : List UInt8) : xor key nonce counter message =
      addBytes (keyWords (n := 8) key) (keyWords (n := 3) nonce) counter message :=
  xorChunks_eq_addBytes _ _ counter message

@[simp] theorem length_xor (key : Vector UInt8 32) (nonce : Vector UInt8 12) (counter : UInt32)
    (message : List UInt8) : (xor key nonce counter message).length = message.length := by
  rw [xor_eq_addBytes, length_addBytes]

/-- The native cipher encrypts each byte on its own: byte `i` of the message is added to byte `i` of
the keystream, whatever the length of the message. Cut after whole blocks, a message is encrypted in
parts, each from the counter of its first block on. Encryption undoes itself. -/
theorem bytes_of_xor (key : Vector UInt8 32) (nonce : Vector UInt8 12) (counter : UInt32)
    (message : List UInt8) :
    (xor key nonce counter message).length = message.length ∧
    (∀ i, (xor key nonce counter message)[i]? = message[i]?.map
      (· ^^^ keystreamByte (keyWords (n := 8) key) (keyWords (n := 3) nonce) counter i)) ∧
    (∀ blocks, xor key nonce counter message =
      xor key nonce counter (message.take (64 * blocks)) ++
        xor key nonce (counter + UInt32.ofNat blocks) (message.drop (64 * blocks))) ∧
    xor key nonce counter (xor key nonce counter message) = message := by
  refine ⟨length_xor key nonce counter message, fun i => ?_, fun blocks => ?_, ?_⟩
  · rw [xor_eq_addBytes, addBytes, List.getElem?_mapIdx]
  · simp only [xor_eq_addBytes, addBytes_take_drop]
  · simp only [xor_eq_addBytes, addBytes_addBytes]

end ChaCha
end RankOne
