import RankOne.Aes.Counter
import RankOne.ChaCha.Gadget
import RankOne.Proofs.Layout
import RankOne.Proofs.Session

/-! The widths of keys, nonces and initialization vectors. What is looked at before anything else is
refused when it is too wide or too narrow, and the session stays as it is. The key of AES is looked
at by the key schedule, and the words of a stream cipher by its blocks: there are none for an empty
message, and its key goes unseen. -/
namespace RankOne
open Circuit
variable {α β : Type}

/-- A vector of bits that a gadget takes: the name under which it is refused, and the number of bits
that it should have and has. -/
structure Operand where
  what : String
  expected : ℕ
  got : ℕ

namespace Circuit
variable {c : Circuit α} {o : Operand} {os : List Operand} {what : String} {expected got : ℕ}

/-- From any session the operand is refused for its width, and the session stays as it is: its rows,
its values and its number of variables. -/
def Refuses (c : Circuit α) (o : Operand) : Prop :=
  ∀ s : Session, c.run s = (.error (.compilation (.width o.what o.expected o.got)), s)

/-- The first operand that is not as wide as it should be is refused. -/
def Guards (c : Circuit α) (os : List Operand) : Prop :=
  ∀ o, os.find? (fun o => o.got ≠ o.expected) = some o → c.Refuses o

theorem refuses_reject :
    (reject (.width what expected got) : Circuit α).Refuses ⟨what, expected, got⟩ := fun _ => rfl

/-- What is refused first is refused, whatever would come next. -/
theorem Refuses.bind (refuses : c.Refuses o) (next : α → Circuit β) : (c >>= next).Refuses o := by
  intro s
  rw [run_bind, refuses s]

theorem Guards.bind (guards : c.Guards os) (next : α → Circuit β) : (c >>= next).Guards os :=
  fun o found => (guards o found).bind next

@[simp] theorem not_refuses_pure (a : α) : ¬(pure a : Circuit α).Refuses o := by
  intro refuses
  cases congrArg Prod.fst (refuses (.start .compile))

@[simp] theorem guards_nil : c.Guards [] := nofun

/-- An operand that fits leaves it to the others. -/
theorem guards_cons_iff : c.Guards (⟨what, expected, got⟩ :: os) ↔
    (got ≠ expected → c.Refuses ⟨what, expected, got⟩) ∧ (got = expected → c.Guards os) := by
  by_cases fits : got = expected <;> simp [Guards, fits]

end Circuit

namespace Aes

/-- What is looked at in counter mode, in this order. A message is a number of bytes. -/
def operands (size : KeySize) (key iv message : Bits) : List Operand := [
  ⟨"AES-CTR IV", 96, iv.length⟩,
  ⟨"AES-CTR message", 8 * ((message.length + 7) / 8), message.length⟩,
  ⟨"AES key", 8 * size.bytes, key.length⟩]

variable {size : KeySize} {key iv message : Bits} {counter : UInt32} {loc : String}

theorem refuses_iv (misfit : iv.length ≠ 8 * ivBytes) :
    (counterXor size key iv counter message loc).Refuses
      ⟨"AES-CTR IV", 8 * ivBytes, iv.length⟩ := by
  rw [counterXor, if_pos misfit]
  exact refuses_reject

theorem refuses_message (fits : iv.length = 8 * ivBytes)
    (misfit : message.length ≠ 8 * ((message.length + 7) / 8)) :
    (counterXor size key iv counter message loc).Refuses
      ⟨"AES-CTR message", 8 * ((message.length + 7) / 8), message.length⟩ := by
  have rest : message.length % 8 ≠ 0 := by omega
  have expected : 8 * (message.length / 8 + 1) = 8 * ((message.length + 7) / 8) := by omega
  rw [counterXor, if_neg (not_not.mpr fits), if_pos rest, expected]
  exact refuses_reject

/-- Only the key schedule looks at the key, and it is for the blocks of the message. -/
theorem refuses_key_iff (fits : iv.length = 8 * ivBytes)
    (whole : message.length = 8 * ((message.length + 7) / 8))
    (counts : counter.toNat + (message.length / 8 + 15) / 16 ≤ 2 ^ 32)
    (misfit : key.length ≠ 8 * size.bytes) :
    (counterXor size key iv counter message loc).Refuses
      ⟨"AES key", 8 * size.bytes, key.length⟩ ↔ message ≠ [] := by
  have blocks : blocksOf (message.length / 8) = (message.length / 8 + 15) / 16 := rfl
  have counters : UInt32.size = 2 ^ 32 := rfl
  rw [counterXor, if_neg (not_not.mpr fits), if_neg (by omega), blocks]
  by_cases empty : message = []
  · rw [empty]
    exact iff_of_false (not_refuses_pure _) (not_not.mpr rfl)
  · have length := List.length_pos_iff.mpr empty
    rw [if_neg (by omega), if_neg (by omega), keyExpansion, if_neg misfit]
    exact iff_of_true (refuses_reject.bind _) empty

theorem guards_counterXor_iff
    (counts : counter.toNat + (message.length / 8 + 15) / 16 ≤ 2 ^ 32) :
    (counterXor size key iv counter message loc).Guards (operands size key iv message) ↔
      message ≠ [] ∨ iv.length ≠ 96 ∨ key.length = 8 * size.bytes := by
  simp only [operands, guards_cons_iff, guards_nil, implies_true, and_true]
  constructor
  · rintro ⟨-, guards⟩
    by_contra unseen
    obtain ⟨empty, fits, misfit⟩ : message = [] ∧ iv.length = 96 ∧ key.length ≠ 8 * size.bytes := by
      simpa only [not_or, not_not] using unseen
    have whole : message.length = 8 * ((message.length + 7) / 8) := by rw [empty]; rfl
    exact (refuses_key_iff fits whole counts misfit).mp ((guards fits).2 whole misfit) empty
  · intro seen
    refine ⟨refuses_iv, fun fits => ⟨refuses_message fits, fun whole misfit => ?_⟩⟩
    have nonempty : message ≠ [] := seen.resolve_right (by simp [fits, misfit])
    exact (refuses_key_iff fits whole counts misfit).mpr nonempty

end Aes

namespace ChaCha

/-- What is looked at in a stream cipher, in this order. -/
def operands (keyWidth nonceWidth : ℕ) : List Operand := [
  ⟨"ChaCha20 key", 256, keyWidth⟩,
  ⟨"ChaCha20 nonce", 96, nonceWidth⟩]

/-- The nonce is looked at next to a key that fits. -/
theorem guards_operands_iff {c : Circuit α} {keyWidth nonceWidth : ℕ} :
    c.Guards (operands keyWidth nonceWidth) ↔
      (keyWidth ≠ 256 → c.Refuses ⟨"ChaCha20 key", 256, keyWidth⟩) ∧
      (keyWidth = 256 → nonceWidth ≠ 96 → c.Refuses ⟨"ChaCha20 nonce", 96, nonceWidth⟩) := by
  simp only [operands, guards_cons_iff, guards_nil, implies_true, and_true]

section Words
variable {key nonce : List Word} {counter : Word} {loc : String}

theorem guards_blockGadget :
    (blockGadget key counter nonce).Guards (operands (32 * key.length) (32 * nonce.length)) := by
  unfold blockGadget checkLength keyLength nonceLength
  refine guards_operands_iff.mpr ⟨fun short => ?_, fun fits short => ?_⟩
  · rw [if_neg (by omega)]
    exact refuses_reject.bind _
  · rw [if_pos (by omega), pure_bind, if_neg (by omega)]
    exact refuses_reject.bind _

theorem guards_xorBlocks {chunks : List (List Word)} (nonempty : chunks ≠ []) :
    (xorBlocks key nonce loc counter chunks).Guards
      (operands (32 * key.length) (32 * nonce.length)) := by
  match chunks, nonempty with
  | [chunk], _ => exact guards_blockGadget.bind _
  | chunk :: next :: chunks, _ => exact (guards_blockGadget.bind _).bind _

theorem xorWords_nil : xorWords key nonce counter [] loc = pure [] := by
  rw [xorWords, chunksOf_nil, xorBlocks]

theorem guards_xorWords_iff {message : List Word} :
    (xorWords key nonce counter message loc).Guards
        (operands (32 * key.length) (32 * nonce.length)) ↔
      message ≠ [] ∨ key.length = 8 ∧ nonce.length = 3 := by
  by_cases empty : message = []
  · rw [empty, xorWords_nil, guards_operands_iff]
    simp only [not_refuses_pure, imp_false, ne_eq, not_not, not_true_eq_false, false_or]
    omega
  · have cut : chunksOf blockWords message ≠ [] := by
      rw [chunksOf_of_ne_nil (by decide) empty]
      exact List.cons_ne_nil _ _
    exact iff_of_true (guards_xorBlocks cut) (.inl empty)

end Words

theorem guards_xorBits {key nonce message : Bits} {counter : Word} {loc : String} :
    (xorBits key nonce counter message loc).Guards (operands key.length nonce.length) := by
  unfold xorBits keyLength nonceLength
  refine guards_operands_iff.mpr ⟨fun short => ?_, fun fits short => ?_⟩
  · rw [if_pos short]
    exact refuses_reject
  · rw [if_neg (not_not.mpr fits), if_pos short]
    exact refuses_reject

end ChaCha

/-- The operands of the ciphers are guarded, from any session and for a message of any length, apart
from the key of AES in counter mode and the words of a stream cipher: they go unseen next to an
empty message. -/
theorem widths_guarded_iff (size : Aes.KeySize) (key iv nonce message : Bits) (counter : UInt32)
    (keyWords nonceWords words : List Word) (first : Word) (loc : String) :
    (counter.toNat + (message.length / 8 + 15) / 16 ≤ 2 ^ 32 →
      ((Aes.counterXor size key iv counter message loc).Guards
          (Aes.operands size key iv message) ↔
        message ≠ [] ∨ iv.length ≠ 96 ∨ key.length = 8 * size.bytes)) ∧
    ((ChaCha.xorWords keyWords nonceWords first words loc).Guards
        (ChaCha.operands (32 * keyWords.length) (32 * nonceWords.length)) ↔
      words ≠ [] ∨ keyWords.length = 8 ∧ nonceWords.length = 3) ∧
    (ChaCha.xorBits key nonce first message loc).Guards
      (ChaCha.operands key.length nonce.length) :=
  ⟨Aes.guards_counterXor_iff, ChaCha.guards_xorWords_iff, ChaCha.guards_xorBits⟩

/-- Fifteen bytes are no key for one byte of a message, and neither are seven words for one. -/
theorem widths_guarded_of_short_keys :
    (Aes.counterXor .aes128 (.constBytes (.replicate 15 0)) (.constBytes (.replicate 12 0)) 2
        (.constBytes [0]) "").Refuses ⟨"AES key", 128, 120⟩ ∧
    (ChaCha.xorWords (.replicate 7 (.const 0)) (.replicate 3 (.const 0)) (.const 1) [.const 0]
        "").Refuses ⟨"ChaCha20 key", 256, 224⟩ := by
  obtain ⟨aes, words, -⟩ := widths_guarded_iff .aes128 (.constBytes (.replicate 15 0))
    (.constBytes (.replicate 12 0)) [] (.constBytes [0]) 2 (.replicate 7 (.const 0))
    (.replicate 3 (.const 0)) [.const 0] (.const 1) ""
  exact ⟨(aes (by decide)).mpr (.inl (by decide)) _ rfl, words.mpr (.inl (by decide)) _ rfl⟩

/-- The same keys are not refused next to no message: there is a result. -/
theorem not_widths_guarded_of_empty_message :
    let aes := Aes.counterXor .aes128 (.constBytes (.replicate 15 0))
      (.constBytes (.replicate 12 0)) 2 [] ""
    let words := ChaCha.xorWords (.replicate 7 (.const 0)) (.replicate 3 (.const 0)) (.const 1)
      [] ""
    (aes.run (.start .compile) = (.ok [], .start .compile) ∧
      ¬aes.Guards (Aes.operands .aes128 (.constBytes (.replicate 15 0))
        (.constBytes (.replicate 12 0)) [])) ∧
    words.run (.start .compile) = (.ok [], .start .compile) ∧
      ¬words.Guards (ChaCha.operands 224 96) := by
  refine ⟨⟨rfl, fun guards => not_refuses_pure [] (guards ⟨"AES key", 128, 120⟩ rfl)⟩, ?_⟩
  rw [ChaCha.xorWords_nil]
  exact ⟨rfl, fun guards => not_refuses_pure [] (guards ⟨"ChaCha20 key", 256, 224⟩ rfl)⟩

end RankOne
