import RankOne.Proofs.Bytes
import RankOne.Proofs.ChaCha.Stream

/-! The ChaCha20 circuit on bits. It gives the bits of what the native cipher gives on bytes,
although it cuts the message into runs of bits and counts the blocks by a circuit. The circuit on
words gives, serialized with the least significant byte first, what the native cipher gives for the
serialized key, nonce and message. -/
namespace RankOne.ChaCha
open Circuit
variable {z : Assignment} {given : Prop} {n m : ℕ}

theorem keyWords_bits {k : ℕ} (bytes : Vector UInt8 (4 * k)) :
    (keyWords bytes).toList.flatMap Layout.wordBits = Layout.bytesToBits bytes.toList := by
  rw [toList_eq_ofFn bytes, List.ofFn_mul', Layout.bytesToBits, ← List.flatMap_id,
    List.flatMap_assoc, keyWords, Vector.toList_ofFn, List.flatMap_def, List.flatMap_def,
    List.map_ofFn, List.map_ofFn]
  congr 2
  funext i
  exact Layout.wordBits_ofNat_bytesValue rfl

theorem exact_ofBits {bits : Bits} {v : UInt32} (h : Bits.Carries z n bits (Layout.wordBits v)) :
    Exact z given (Word.ofBits bits) n fun w m => w.Carries z m v := by
  have length : bits.length = Word.width := by
    rw [List.Forall₂.length_eq h, Layout.length_wordBits]; rfl
  rw [Word.ofBits, if_pos length]
  exact Exact.pure h

theorem exact_wordsOf {bits : Bits} {values : List UInt32}
    (h : Bits.Carries z n bits (values.flatMap Layout.wordBits)) :
    Exact z given (wordsOf bits) n fun ws m => List.Forall₂ (Word.Carries z m) ws values := by
  have chunks := forall₂_chunksOf (n := 32) (by decide) h
  rw [chunksOf_flatMap (by decide) _ _ fun word _ => Layout.length_wordBits word] at chunks
  have loop : Exact z given (wordsOf bits) n _ :=
    (Logic.exact z given).mapM (R := fun n bits v => Bits.Carries z n bits (Layout.wordBits v))
      (fun _ _ _ _ le h => Bits.Carries.mono h le) Word.stable_carries id
      (fun _ _ _ h => exact_ofBits h)
      ((List.forall₂_map_right_iff (f := Layout.wordBits)).mp chunks)
  rwa [List.map_id] at loop

theorem carries_flatMap_bits {words : List Word} {values : List UInt32}
    (h : List.Forall₂ (Word.Carries z n) words values) :
    Bits.Carries z n (words.flatMap Word.bits) (values.flatMap Layout.wordBits) := by
  rw [List.flatMap_def, List.flatMap_def]
  apply Bits.carries_flatten
  rw [List.forall₂_map_left_iff, List.forall₂_map_right_iff]
  exact h

variable {key nonce : List Word} {counter : Word} {k : Vector UInt32 8} {c : UInt32}
  {iv : Vector UInt32 3}

/-- A run of bits is met by as many bits of a block of keystream. -/
theorem exact_xorBitBlock {message : Bits} {bs : List Bool}
    (hk : List.Forall₂ (Word.Carries z n) key k.toList) (hc : counter.Carries z n c)
    (hiv : List.Forall₂ (Word.Carries z n) nonce iv.toList) (hm : Bits.Carries z n message bs)
    (fits : bs.length ≤ 32 * blockWords) (loc : String) :
    Exact z given (xorBitBlock key nonce counter message loc) n fun r m =>
      Bits.Carries z m r
        (bs.zipWith (· ^^ ·) ((block k c iv).toList.flatMap Layout.wordBits)) := by
  unfold xorBitBlock
  refine (exact_blockGadget hk hc hiv).bind fun stream m le carried => ?_
  have keystream := List.forall₂_take message.length (carries_flatMap_bits carried)
  have total : ((block k c iv).toList.flatMap Layout.wordBits).length = 32 * blockWords := by
    simp [List.length_flatMap, blockWords]
  have length : message.length = bs.length := List.Forall₂.length_eq hm
  rw [← zipWith_take, ← length]
  exact BitLogic.judges_xor (L := .exact z given) (Bits.Carries.mono hm le) keystream
    (by simp [total, length, fits]) loc

theorem blocksValue_bits (k : Vector UInt32 8) (iv : Vector UInt32 3) (c : UInt32)
    (chunks : List (List UInt8)) :
    blocksValue (fun c bs => bs.zipWith (· ^^ ·)
      ((block k c iv).toList.flatMap Layout.wordBits)) c (chunks.map Layout.bytesToBits) =
    Layout.bytesToBits (xorChunks k iv c chunks) := by
  induction chunks generalizing c with
  | nil => rfl
  | cons chunk chunks ih =>
    simp only [List.map_cons, blocksValue, ih, xorChunks, Layout.bytesToBits_append,
      Layout.zipWith_bytesToBits, Layout.bytesToBits_flatMap_wordBytes]

theorem exact_xorBits {key nonce message : Bits} {k : Vector UInt8 32} {iv : Vector UInt8 12}
    {bytes : List UInt8} (hk : Bits.Carries z n key (Layout.bytesToBits k.toList))
    (hiv : Bits.Carries z n nonce (Layout.bytesToBits iv.toList)) (hc : counter.Carries z n c)
    (hm : Bits.Carries z n message (Layout.bytesToBits bytes)) (loc : String) :
    Exact z given (xorBits key nonce counter message loc) n fun r m =>
      Bits.Carries z m r (Layout.bytesToBits (xor k iv c bytes)) := by
  have keyLength_eq : key.length = 32 * keyLength := by
    rw [List.Forall₂.length_eq hk, Layout.length_bytesToBits, Vector.length_toList]; rfl
  have nonceLength_eq : nonce.length = 32 * nonceLength := by
    rw [List.Forall₂.length_eq hiv, Layout.length_bytesToBits, Vector.length_toList]; rfl
  rw [← keyWords_bits (k := 8) k] at hk
  rw [← keyWords_bits (k := 3) iv] at hiv
  unfold xorBits
  rw [if_neg (by simp [keyLength_eq]), if_neg (by simp [nonceLength_eq])]
  refine (exact_wordsOf hk).bind fun key m le hk => ?_
  refine (exact_wordsOf (Bits.Carries.mono hiv le)).bind fun nonce m' le' hiv => ?_
  have chunks := forall₂_chunksOf (n := 32 * blockWords) (by decide)
    (Bits.Carries.mono hm (le.trans le'))
  rw [show 32 * blockWords = 8 * (4 * blockWords) from rfl,
    Layout.chunksOf_bytesToBits_mul (by decide)] at chunks
  rw [xorBitBlocks_eq, xor, ← blocksValue_bits]
  refine exact_overBlocks Bit.stable_carries Bit.stable_carries _
    (p := fun bs => bs.length ≤ 32 * blockWords)
    (fun counter c ws vs m le'' hc hm fits => ?_) le_rfl
    (Word.stable_carries.mono (le.trans le') hc) chunks (fun bs member => ?_) loc
  · exact exact_xorBitBlock (Word.stable_carries.list.mono (le'.trans le'') hk) hc
      (Word.stable_carries.list.mono le'' hiv) hm fits loc
  · obtain ⟨chunk, inside, rfl⟩ := List.mem_map.mp member
    have short := length_le_of_mem_chunksOf (n := 4 * blockWords) (by decide) bytes chunk inside
    rw [Layout.length_bytesToBits]
    omega

end RankOne.ChaCha

namespace RankOne

namespace Layout

theorem length_wordBytes (word : UInt32) : (wordBytes word).length = 4 := length_natBytes _ _

theorem wordBytes_xor (x y : UInt32) :
    wordBytes (x ^^^ y) = (wordBytes x).zipWith (· ^^^ ·) (wordBytes y) := by
  apply bytesToBits_injective
  rw [zipWith_bytesToBits, bytesToBits_wordBytes, bytesToBits_wordBytes, bytesToBits_wordBytes,
    wordBits_xor]

def wordsBytes {k : ℕ} (words : Vector UInt32 k) : Vector UInt8 (4 * k) :=
  ⟨(words.toList.flatMap wordBytes).toArray,
    by simp [List.length_flatMap, length_wordBytes, Nat.mul_comm]⟩

end Layout

namespace ChaCha

theorem keyWords_wordsBytes {k : ℕ} (words : Vector UInt32 k) :
    keyWords (Layout.wordsBytes words) = words := by
  have bits : (keyWords (Layout.wordsBytes words)).toList.flatMap Layout.wordBits =
      words.toList.flatMap Layout.wordBits := by
    rw [keyWords_bits, ← Layout.bytesToBits_flatMap_wordBytes]
    rfl
  have pieces := congrArg (chunksOf 32) bits
  rw [chunksOf_flatMap (by decide) _ _ fun word _ => Layout.length_wordBits word,
    chunksOf_flatMap (by decide) _ _ fun word _ => Layout.length_wordBits word] at pieces
  exact Vector.toList_inj.mp (List.map_injective_iff.mpr Layout.wordBits_injective pieces)

theorem xorChunks_words (k : Vector UInt32 8) (iv : Vector UInt32 3) (c : UInt32)
    (chunks : List (List UInt32)) :
    xorChunks k iv c (chunks.map (·.flatMap Layout.wordBytes)) =
      (blocksValue (fun c vs => vs.zipWith (· ^^^ ·) (block k c iv).toList) c chunks).flatMap
        Layout.wordBytes := by
  induction chunks generalizing c with
  | nil => rfl
  | cons chunk chunks ih =>
    rw [List.map_cons, xorChunks, blocksValue, List.flatMap_append, ih,
      zipWith_flatMap Layout.length_wordBytes Layout.wordBytes_xor]

theorem xor_wordsBytes (input : StreamInput) :
    xor (Layout.wordsBytes input.key) (Layout.wordsBytes input.nonce) input.counter
      (input.message.flatMap Layout.wordBytes) = input.encryption.flatMap Layout.wordBytes := by
  rw [xor, keyWords_wordsBytes (k := 8), keyWords_wordsBytes (k := 3),
    chunksOf_flatMap_mul (by decide) (by decide) _ _ fun word _ => Layout.length_wordBytes word,
    xorChunks_words]
  exact congrArg _ (blocksValue_words _ _ _)

namespace StreamCircuit

/-- A message of another length is refused before anything is allocated. -/
theorem generateWitness_of_length {self : StreamCircuit} {input : StreamInput}
    {compiled : CompiledCircuit StreamInput (List Word)}
    (compiles : CompiledCircuit.compile (fun input => (self.circuit input).build) = .ok compiled)
    (other : input.message.length ≠ self.lenWords.toNat) :
    compiled.generateWitness input = .error (.runtime
      (.inputLength "message (in words)" self.lenWords.toNat input.message.length)) := by
  refine CompiledCircuit.generateWitness_of_refusal compiles ?_
  rw [circuit, checkInput, if_neg other]
  rfl

/-- Completeness: a circuit compiles whatever its length. It encrypts every message of the length
as the native cipher does, from any counter on, and refuses others. -/
theorem stream_of_generateWitness (self : StreamCircuit) :
    ∃ compiled, CompiledCircuit.compile (fun input => (self.circuit input).build) = .ok compiled ∧
      (∀ input : StreamInput, input.message.length = self.lenWords.toNat →
        ∃ (w : Witness) (words : List UInt32), compiled.generateWitness input = .ok (w, words) ∧
          words.flatMap Layout.wordBytes =
            xor (Layout.wordsBytes input.key) (Layout.wordsBytes input.nonce) input.counter
              (input.message.flatMap Layout.wordBytes)) ∧
      ∀ input : StreamInput, input.message.length ≠ self.lenWords.toNat →
        compiled.generateWitness input = .error (.runtime
          (.inputLength "message (in words)" self.lenWords.toNat input.message.length)) := by
  have whole := self.determined
  obtain ⟨compiled, compiles⟩ := whole.compiles
  refine ⟨compiled, compiles, fun input length => ?_, fun input other =>
    generateWitness_of_length compiles other⟩
  obtain ⟨w, generated, -⟩ := whole.generates compiles input length
  exact ⟨w, input.encryption, generated, (xor_wordsBytes input).symm⟩

end StreamCircuit
end ChaCha
end RankOne
