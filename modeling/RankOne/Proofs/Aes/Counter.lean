import RankOne.Aes.Counter
import RankOne.Proofs.Aes.KeySchedule
import RankOne.Proofs.Bytes
import RankOne.Proofs.Determined
import RankOne.Proofs.Keystream

/-! The AES circuit in counter mode. Its constraints determine every variable by the key, the
initialization vector and the message, and its output is the encryption of the message. -/
namespace RankOne.Aes
open Circuit
variable {n : ℕ}

section Keystream
variable {L : BitLogic} {size : KeySize} {k : Vector UInt8 (4 * size.words)} {iv : Vector UInt8 12}
  {roundKeys : List (List Bits)}

/-- The bytes of a counter come most significant first. -/
theorem toList_counterBlock (iv : Vector UInt8 12) (c : UInt32) :
    (Cipher.counterBlock iv c).toList = iv.toList ++ Layout.wordBytesMsb c := by
  change (iv ++ (_ : Cipher.Column)).toList = _
  rw [Vector.toList_append]
  congr 1
  change [(c >>> 24).toUInt8, (c >>> 16).toUInt8, (c >>> 8).toUInt8, c.toUInt8] =
    [UInt8.ofNat (c.toNat / 256 / 256 / 256), UInt8.ofNat (c.toNat / 256 / 256),
      UInt8.ofNat (c.toNat / 256), UInt8.ofNat c.toNat]
  simp only [List.cons.injEq, ← UInt8.toNat_inj]
  simp [Nat.shiftRight_eq_div_pow, Nat.div_div_eq_div_mul]

theorem judges_keystream (count : ℕ) (c : UInt32) {vector : List Bits}
    (hk : CarriesKeys L n roundKeys
      ((List.range (size.rounds + 1)).map (Cipher.roundKey (Cipher.schedule size k))))
    (hiv : L.bytes n vector iv.toList) :
    L.judges (keystream roundKeys vector count c) n fun r m => L.bytes m r
      (keystreamFrom (fun c => Cipher.encrypt size k (Cipher.counterBlock iv c)) c count) := by
  induction count generalizing n c with
  | zero => exact L.pure .nil
  | succ count ih =>
    have suffix : L.bytes n (chunksOf 8 (Bits.constBytes (Layout.wordBytesMsb c)))
        (Layout.wordBytesMsb c) := BitLogic.bytes_chunks (BitLogic.bits_const _)
    have whole : L.bytes n (vector ++ chunksOf 8 (Bits.constBytes (Layout.wordBytesMsb c)))
        (iv.toList ++ Layout.wordBytesMsb c) := List.rel_append hiv suffix
    rw [← toList_counterBlock] at whole
    refine L.bind (judges_encrypt hk whole) fun block m le hb => ?_
    refine L.bind (ih (c + 1) (hk.mono le) (L.stable_bytes.mono le hiv)) fun rest m' le' hr =>
      L.pure ?_
    exact List.rel_append (L.stable_bytes.mono le' hb) hr

theorem judges_counterXor {key vector message : Bits} {bytes : List UInt8} {c : UInt32}
    (hk : L.bits n key (Layout.bytesToBits k.toList))
    (hiv : L.bits n vector (Layout.bytesToBits iv.toList))
    (hm : L.bits n message (Layout.bytesToBits bytes))
    (counts : ∀ i < bytes.length, c.toNat + i / 16 < 2 ^ 32) (loc : String) :
    L.judges (counterXor size key vector c message loc) n fun r m => L.bits m r
      (Layout.bytesToBits (addKeystream
        (fun c => Cipher.encrypt size k (Cipher.counterBlock iv c)) c bytes)) := by
  have vector_length : vector.length = 8 * ivBytes := by
    rw [List.Forall₂.length_eq hiv, Layout.length_bytesToBits, Vector.length_toList]; rfl
  have length : message.length = 8 * bytes.length := by
    rw [List.Forall₂.length_eq hm, Layout.length_bytesToBits]
  have blocks : blocksOf (message.length / 8) = (bytes.length + 15) / 16 := by
    rw [length, Nat.mul_div_cancel_left _ (by decide)]; rfl
  unfold counterXor
  simp only [blocks]
  rw [if_neg (by simp [vector_length]), if_neg (by rw [length]; simp)]
  split
  · have empty : bytes = [] := List.length_eq_zero_iff.mp (by omega)
    rw [empty]
    exact L.pure .nil
  · have last := counts (bytes.length - 1) (by omega)
    have counters : UInt32.size = 2 ^ 32 := rfl
    rw [if_neg (by omega)]
    refine L.bind (judges_keyExpansion size hk) fun roundKeys m le hkeys => ?_
    refine L.bind (judges_keystream ((bytes.length + 15) / 16) c hkeys (L.stable_bytes.mono le
      (BitLogic.bytes_chunks hiv))) fun stream m' le' hs => ?_
    have bits := List.forall₂_take message.length (BitLogic.bits_flatten hs)
    have short : bytes.length ≤ 16 * ((bytes.length + 15) / 16) := by omega
    rw [← zipWith_keystreamFrom _ c short, Layout.zipWith_bytesToBits, ← zipWith_take,
      Layout.length_bytesToBits, ← length]
    exact BitLogic.judges_xor (L.stable_bits.mono (le.trans le') hm) bits
      (by simp [length, short]) loc

end Keystream

/-- A key of the size as a vector; bytes that are missing read as zero. -/
def KeySize.keyOf (size : KeySize) (key : List UInt8) : Vector UInt8 (4 * size.words) :=
  .ofFn fun i => key.getD i.val 0

theorem KeySize.toList_keyOf {size : KeySize} {key : List UInt8} (h : key.length = size.bytes) :
    (size.keyOf key).toList = key := by
  apply List.ext_getElem (by rw [Vector.length_toList, h]; rfl)
  intro i _ hi
  simp [keyOf, hi]

namespace CounterCircuit

/-- The input that an assignment spells: key, initialization vector and message are allocated
first, in this order. -/
def inputOf (self : CounterCircuit) (z : Assignment) : CounterInput where
  key := z.bytes 0 self.keySize.bytes
  iv := ⟨(z.bytes (8 * self.keySize.bytes) 12).toArray, by simp⟩
  message := z.bytes (8 * self.keySize.bytes + 96) self.lenBytes.toNat

/-- The message of an input, byte `i` of it added to byte `i % 16` of the encrypted counter
`i / 16`. -/
def encryption (self : CounterCircuit) (input : CounterInput) : List UInt8 :=
  addKeystream (fun counter => Cipher.encrypt self.keySize (self.keySize.keyOf input.key)
    (Cipher.counterBlock input.iv counter)) self.initialCounter input.message

/-- No counter of a block of the message overflows. -/
def Counts (self : CounterCircuit) : Prop :=
  ∀ i < self.lenBytes.toNat, self.initialCounter.toNat + i / 16 < 2 ^ 32

/-- An input has a key of the size, and a message of the length. -/
structure Valid (circuit : CounterCircuit) (input : CounterInput) : Prop where
  key : input.key.length = circuit.keySize.bytes
  message : input.message.length = circuit.lenBytes.toNat

variable {self : CounterCircuit} {input : CounterInput}

def opening (self : CounterCircuit) (input : Option CounterInput) : Circuit (Bits × Bits) := do
  let key ← Bits.witnessBytes "AES key" self.keySize.bytes (input.map (·.key)) gadgetLoc
  let iv ← Bits.witnessBytes "IV" ivBytes (input.map (·.iv.toList)) gadgetLoc
  return (key, iv)

def allocation (self : CounterCircuit) (input : Option CounterInput) :
    Circuit (Bits × Bits × Bits) := do
  let (key, iv) ← self.opening input
  let message ←
    Bits.witnessBytes "message" self.lenBytes.toNat (input.map (·.message)) gadgetLoc
  return (key, iv, message)

theorem circuit_eq (self : CounterCircuit) (input : Option CounterInput) :
    self.circuit input = self.allocation input >>= fun (key, iv, message) => do
      return ⟨← counterXor self.keySize key iv self.initialCounter message gadgetLoc⟩ := by
  simp only [allocation, opening, LawfulMonad.bind_assoc, pure_bind]
  rfl

theorem skeleton_allocation (valid : self.Valid input) :
    (self.allocation (some input)).skeleton = (self.allocation none).skeleton := by
  refine skeleton_bind_congr ?_ fun opened => ?_
  · refine skeleton_bind_congr (Bits.skeleton_witnessBytes valid.key _ _) fun key => ?_
    exact skeleton_bind_congr (Bits.skeleton_witnessBytes Vector.length_toList _ _) fun iv => rfl
  · exact skeleton_bind_congr (Bits.skeleton_witnessBytes valid.message _ _) fun message => rfl

theorem skeleton_circuit (valid : self.Valid input) :
    (self.circuit (some input)).skeleton = (self.circuit none).skeleton := by
  rw [circuit_eq, circuit_eq]
  exact skeleton_bind_congr (skeleton_allocation valid) fun _ => rfl

theorem exact_opening (key : input.key.length = self.keySize.bytes) (z : Assignment) :
    Exact z (input = self.inputOf z) (self.opening (some input)) 0 fun (key, iv) m =>
      m = 8 * self.keySize.bytes + 96 ∧ input.key = (self.inputOf z).key ∧
      input.iv = (self.inputOf z).iv ∧ z.IsBits 0 m ∧
      Bits.Carries z m key (Layout.bytesToBits input.key) ∧
      Bits.Carries z m iv (Layout.bytesToBits input.iv.toList) := by
  have keyRoom : 8 * self.keySize.bytes < 2 ^ 64 := by cases self.keySize <;> decide
  unfold opening
  refine (Bits.exact_witnessBytes key keyRoom _ _ fun h => ?_).bind fun key m₁ le₁ hk => ?_
  · rw [h]; rfl
  obtain ⟨rfl, key_eq, key_bits, hk⟩ := hk
  refine (Bits.exact_witnessBytes Vector.length_toList (by decide) _ _ fun h => ?_).bind
    fun iv m₂ le₂ hiv => Exact.pure ?_
  · rw [h, Nat.zero_add]; rfl
  obtain ⟨rfl, iv_eq, iv_bits, hiv⟩ := hiv
  have count : 0 + 8 * self.keySize.bytes + 8 * ivBytes = 8 * self.keySize.bytes + 96 := by
    rw [Nat.zero_add]; rfl
  have bits := key_bits.append iv_bits
  rw [Nat.zero_add] at iv_eq
  rw [count] at le₂ hiv ⊢
  exact ⟨rfl, key_eq, Vector.toList_inj.mp iv_eq, bits, Bits.Carries.mono hk le₂, hiv⟩

theorem exact_allocation (room : 8 * self.lenBytes.toNat < 2 ^ 64) (valid : self.Valid input)
    (z : Assignment) :
    Exact z (input = self.inputOf z) (self.allocation (some input)) 0 fun (key, iv, message) m =>
      m = 8 * self.keySize.bytes + 96 + 8 * self.lenBytes.toNat ∧ input = self.inputOf z ∧
      z.IsBits 0 m ∧ Bits.Carries z m key (Layout.bytesToBits input.key) ∧
      Bits.Carries z m iv (Layout.bytesToBits input.iv.toList) ∧
      Bits.Carries z m message (Layout.bytesToBits input.message) := by
  refine (exact_opening valid.key z).bind fun opened m le post => ?_
  obtain ⟨rfl, key_eq, iv_eq, bits, hk, hiv⟩ := post
  refine (Bits.exact_witnessBytes valid.message room _ _ fun h => ?_).bind
    fun message m₁ le₁ hm => Exact.pure ?_
  · rw [h]; rfl
  obtain ⟨rfl, message_eq, message_bits, hm⟩ := hm
  have spelled : input = self.inputOf z := by
    obtain ⟨key, iv, message⟩ := input
    simp only [inputOf, CounterInput.mk.injEq]
    exact ⟨key_eq, iv_eq, message_eq⟩
  rw [← Nat.zero_add (8 * self.keySize.bytes + 96)] at message_bits
  exact ⟨rfl, spelled, bits.append message_bits, Bits.Carries.mono hk le₁,
    Bits.Carries.mono hiv le₁, hm⟩

theorem exact_circuit (counts : self.Counts) (room : 8 * self.lenBytes.toNat < 2 ^ 64)
    (valid : self.Valid input) (z : Assignment) :
    Exact z (input = self.inputOf z) (self.circuit (some input)) 0 fun out m =>
      input = self.inputOf z ∧
      z.IsBits 0 (8 * self.keySize.bytes + 96 + 8 * self.lenBytes.toNat) ∧
      8 * self.keySize.bytes + 96 + 8 * self.lenBytes.toNat ≤ m ∧
      CircuitOutput.read (z.initial m) out = .ok (self.encryption input) := by
  rw [circuit_eq]
  refine (exact_allocation room valid z).bind fun allocated m le post => ?_
  obtain ⟨rfl, spelled, bits, hk, hiv, hm⟩ := post
  rw [← KeySize.toList_keyOf valid.key] at hk
  have sum : Exact z (input = self.inputOf z) _ _ _ :=
    judges_counterXor (L := .exact z (input = self.inputOf z)) hk hiv hm
      (by rwa [valid.message]) gadgetLoc
  exact sum.bind fun out m' le' carried =>
    Exact.pure ⟨spelled, bits, le', Bytes.read_of_carries carried⟩

theorem determined (counts : self.Counts) (room : 8 * self.lenBytes.toNat < 2 ^ 64) :
    Determined self.circuit self.Valid self.inputOf
      (8 * self.keySize.bytes + 96 + 8 * self.lenBytes.toNat) self.encryption where
  skeleton _ valid := skeleton_circuit valid
  spelled_valid z := ⟨z.length_bytes _ _, z.length_bytes _ _⟩
  determines _ valid z := exact_circuit counts room valid z

theorem counts_of_compile {compiled : CompiledCircuit CounterInput Bytes}
    (compiles : CompiledCircuit.compile (fun input => (self.circuit input).build) = .ok compiled) :
    self.Counts ∧ 8 * self.lenBytes.toNat < 2 ^ 64 := by
  obtain ⟨-, _, -, result, -⟩ := CompiledCircuit.of_compile compiles
  unfold circuit at result
  obtain ⟨key, _, -, result⟩ := outcome_of_bind result
  obtain ⟨iv, _, -, result⟩ := outcome_of_bind result
  obtain ⟨message, _, allocated, result⟩ := outcome_of_bind result
  obtain ⟨_, _, added, -⟩ := outcome_of_bind result
  refine ⟨?_, Bits.lt_of_witnessBytes allocated⟩
  have length := Bits.length_of_witnessBytes allocated
  have blocks : blocksOf (message.length / 8) = (self.lenBytes.toNat + 15) / 16 := by
    rw [length, Nat.mul_div_cancel_left _ (by decide)]; rfl
  have counters : UInt32.size = 2 ^ 32 := rfl
  intro i hi
  unfold counterXor at added
  simp only [blocks] at added
  split at added
  · cases added
  split at added
  · cases added
  split at added
  · omega
  split at added
  · cases added
  · omega

/-- Soundness: a witness that the constraints accept spells a key, an initialization vector and
a message by bits, gives the encryption of the message, and is the witness generated for them.
It is the only one. -/
theorem counterMode_of_check (self : CounterCircuit)
    {compiled : CompiledCircuit CounterInput Bytes} {w : Witness}
    (compiles : CompiledCircuit.compile (fun input => (self.circuit input).build) = .ok compiled)
    (accepted : compiled.system.check w = .ok ()) :
    Forced compiled w self.inputOf (8 * self.keySize.bytes + 96 + 8 * self.lenBytes.toNat)
      self.encryption ∧ self.Counts ∧
      ∀ input, self.Valid input →
        ∃! w', compiled.system.check w' = .ok () ∧ self.inputOf (.ofWitness w') = input := by
  obtain ⟨counts, room⟩ := counts_of_compile compiles
  have whole := determined counts room
  exact ⟨whole.forced compiles accepted, counts, whole.existsUnique compiles⟩

/-- Two blocks under the longest key, up to the last counter. -/
theorem counterMode_of_two_blocks : ∃ compiled w,
    let self : CounterCircuit := ⟨.aes256, 20, 0xfffffffe⟩
    CompiledCircuit.compile (fun input => (self.circuit input).build) = .ok compiled ∧
    compiled.system.check w = .ok () ∧
    Forced compiled w self.inputOf 512 self.encryption ∧ self.Counts ∧
    ∀ input, self.Valid input →
      ∃! w', compiled.system.check w' = .ok () ∧ self.inputOf (.ofWitness w') = input := by
  let self : CounterCircuit := ⟨.aes256, 20, 0xfffffffe⟩
  have counts : self.Counts := by
    intro i hi
    have small : i < 20 := hi
    change 0xfffffffe + i / 16 < 2 ^ 32
    omega
  have whole := determined counts (by decide)
  obtain ⟨compiled, compiles⟩ := whole.compiles
  obtain ⟨w, -, accepted, -⟩ := whole.generates compiles
    ⟨List.replicate 32 1, .replicate 12 2, List.replicate 20 3⟩ ⟨rfl, rfl⟩
  exact ⟨compiled, w, compiles, accepted, self.counterMode_of_check compiles accepted⟩

/-- The counters of all blocks are 32-bit numbers just when the last one is. -/
theorem counts_iff : self.Counts ↔ self.lenBytes.toNat = 0 ∨
    self.initialCounter.toNat + (self.lenBytes.toNat + 15) / 16 - 1 ≤ 2 ^ 32 - 1 := by
  constructor
  · intro counts
    by_cases empty : self.lenBytes.toNat = 0
    · exact .inl empty
    · have last := counts (self.lenBytes.toNat - 1) (by omega)
      exact .inr (by omega)
  · rintro (empty | last) i hi
    · omega
    · omega

/-- A message too long for the counters is refused once the input is allocated. -/
theorem compile_of_overflow (room : 8 * self.lenBytes.toNat < 2 ^ 64) (overflows : ¬self.Counts) :
    CompiledCircuit.compile (fun input => (self.circuit input).build) = .error (.compilation
      (.counterOverflow self.initialCounter.toNat ((self.lenBytes.toNat + 15) / 16))) := by
  have valid : self.Valid (self.inputOf fun _ => 0) :=
    ⟨Assignment.length_bytes _ _ _, Assignment.length_bytes _ _ _⟩
  rw [counts_iff, not_or] at overflows
  refine CompiledCircuit.compile_of_fail (self.circuit_eq none) (skeleton_allocation valid)
    (exact_allocation room valid) ?_
  rintro z ⟨key, iv, message⟩ m ⟨-, -, -, -, hiv, hm⟩
  have iv_length : iv.length = 8 * ivBytes := by
    rw [List.Forall₂.length_eq hiv, Layout.length_bytesToBits, Vector.length_toList]; rfl
  have length : message.length = 8 * self.lenBytes.toNat := by
    rw [List.Forall₂.length_eq hm, Layout.length_bytesToBits, valid.message]
  have blocks : blocksOf (message.length / 8) = (self.lenBytes.toNat + 15) / 16 := by
    rw [length, Nat.mul_div_cancel_left _ (by decide)]; rfl
  have counters : UInt32.size = 2 ^ 32 := rfl
  unfold counterXor
  simp only [blocks]
  rw [if_neg (by simp [iv_length]), if_neg (by rw [length]; simp), if_neg (by omega),
    if_pos (by omega)]
  rfl

section Compiled
variable {compiled : CompiledCircuit CounterInput Bytes}
  (compiles : CompiledCircuit.compile (fun input => (self.circuit input).build) = .ok compiled)
include compiles

/-- A key of another length is refused before anything is allocated. -/
theorem generateWitness_of_key_length (other : input.key.length ≠ self.keySize.bytes) :
    compiled.generateWitness input = .error (.runtime
      (.inputLength "AES key" self.keySize.bytes input.key.length)) := by
  refine CompiledCircuit.generateWitness_of_refusal compiles ?_
  unfold circuit
  change Bits.witnessBytes _ _ (some input.key) _ >>= _ = _
  rw [Bits.witnessBytes_of_length other]
  rfl

/-- A message of another length is refused once the rest of the input is allocated. -/
theorem generateWitness_of_message_length (key : input.key.length = self.keySize.bytes)
    (other : input.message.length ≠ self.lenBytes.toNat) :
    compiled.generateWitness input = .error (.runtime
      (.inputLength "message" self.lenBytes.toNat input.message.length)) := by
  refine CompiledCircuit.generateWitness_of_fail compiles ?_ (exact_opening key)
  rw [circuit_eq, allocation, LawfulMonad.bind_assoc]
  congr 1
  funext opened
  change (Bits.witnessBytes _ _ (some input.message) _ >>= _) >>= _ = _
  rw [Bits.witnessBytes_of_length other]
  rfl

end Compiled

/-- Completeness: a message whose bits a 64-bit number counts compiles just when no counter of a
block overflows, and it is the counter that is reported otherwise. A compiled circuit encrypts
every message of its length under every key of its size, and refuses other inputs. -/
theorem counterMode_of_generateWitness (self : CounterCircuit)
    (room : self.lenBytes.toNat < 2 ^ 61) :
    let blocks := (self.lenBytes.toNat + 15) / 16
    let fits := self.lenBytes.toNat = 0 ∨ self.initialCounter.toNat + blocks - 1 ≤ 2 ^ 32 - 1
    let compile := CompiledCircuit.compile fun input => (self.circuit input).build
    ((∃ compiled, compile = .ok compiled) ↔ fits) ∧
    (¬fits → compile =
      .error (.compilation (.counterOverflow self.initialCounter.toNat blocks))) ∧
    ∀ compiled, compile = .ok compiled →
      (∀ i < self.lenBytes.toNat, (self.initialCounter + UInt32.ofNat (i / 16)).toNat =
        self.initialCounter.toNat + i / 16) ∧
      ∀ input : CounterInput,
        (input.key.length = self.keySize.bytes → input.message.length = self.lenBytes.toNat →
          ∃ w, compiled.generateWitness input = .ok (w, self.encryption input)) ∧
        (input.key.length ≠ self.keySize.bytes → compiled.generateWitness input =
          .error (.runtime (.inputLength "AES key" self.keySize.bytes input.key.length))) ∧
        (input.key.length = self.keySize.bytes → input.message.length ≠ self.lenBytes.toNat →
          compiled.generateWitness input = .error (.runtime
            (.inputLength "message" self.lenBytes.toNat input.message.length))) := by
  intro blocks fits compile
  have room : 8 * self.lenBytes.toNat < 2 ^ 64 := by omega
  refine ⟨⟨?_, ?_⟩, fun overflows => ?_, fun compiled compiles => ⟨fun i hi => ?_, fun input => ?_⟩⟩
  · rintro ⟨compiled, compiles⟩
    exact counts_iff.mp (counts_of_compile compiles).1
  · intro counts
    exact (determined (counts_iff.mpr counts) room).compiles
  · exact compile_of_overflow room (mt counts_iff.mp overflows)
  · have counts := (counts_of_compile compiles).1 i hi
    rw [UInt32.toNat_add, UInt32.toNat_ofNat', Nat.add_mod_mod, Nat.mod_eq_of_lt counts]
  · have whole := determined (counts_of_compile compiles).1 room
    refine ⟨fun key message => ?_, generateWitness_of_key_length compiles,
      generateWitness_of_message_length compiles⟩
    obtain ⟨w, generated, -⟩ := whole.generates compiles input ⟨key, message⟩
    exact ⟨w, generated⟩

/-- The last counter serves one block. Three blocks do not compile from there. -/
theorem counterMode_of_last_counter :
    let short : CounterCircuit := ⟨.aes128, 16, 0xffffffff⟩
    let long : CounterCircuit := ⟨.aes128, 33, 0xffffffff⟩
    short.lenBytes.toNat < 2 ^ 61 ∧ long.lenBytes.toNat < 2 ^ 61 ∧
    (∃ compiled,
      CompiledCircuit.compile (fun input => (short.circuit input).build) = .ok compiled ∧
      ∀ input : CounterInput, input.key.length = 16 → input.message.length = 16 →
        ∃ w, compiled.generateWitness input = .ok (w, short.encryption input)) ∧
    CompiledCircuit.compile (fun input => (long.circuit input).build) =
      .error (.compilation (.counterOverflow 0xffffffff 3)) := by
  intro short long
  have shortRoom : short.lenBytes.toNat < 2 ^ 61 := by decide
  have longRoom : long.lenBytes.toNat < 2 ^ 61 := by decide
  obtain ⟨fits, -, runs⟩ := counterMode_of_generateWitness short shortRoom
  obtain ⟨-, overflows, -⟩ := counterMode_of_generateWitness long longRoom
  obtain ⟨compiled, compiles⟩ := fits.mpr (by decide)
  have counter : long.initialCounter.toNat = 0xffffffff := by decide
  have blocks : (long.lenBytes.toNat + 15) / 16 = 3 := by decide
  rw [counter, blocks] at overflows
  exact ⟨shortRoom, longRoom, ⟨compiled, compiles, fun input key message =>
    ((runs compiled compiles).2 input).1 key message⟩, overflows (by decide)⟩

end CounterCircuit
end RankOne.Aes
