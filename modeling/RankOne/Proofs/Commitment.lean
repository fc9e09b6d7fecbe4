import RankOne.Commitment
import RankOne.Proofs.ChaCha.Bits
import RankOne.Proofs.Mimc

/-! The commitment circuit. Its constraints determine every variable by the key, the nonce, the
counter and the ciphertext, and it gives the commitments that are computed without a circuit. -/
namespace RankOne.Commitment
open Circuit
variable {z : Assignment} {given : Prop} {n m : ℕ}

section Packing
variable {bits : Bits} {bytes : List UInt8}

theorem carries_arrange (order : BitOrder)
    (h : Bits.Carries z n bits (Layout.bytesToBits bytes)) :
    Bits.Carries z n (order.arrange bits) (order.expand bytes) := by
  cases order with
  | lsbFirst => exact h
  | msbFirst =>
    have reversed : List.Forall₂ (fun bits byte =>
        Bits.Carries z n bits.reverse (Layout.byteBits byte).reverse) (chunksOf 8 bits) bytes :=
      (Bits.carriesByte_chunks h).imp fun _ _ carried => List.rel_reverse carried
    change Bits.Carries z n ((chunksOf 8 bits).flatMap List.reverse)
      (bytes.flatMap fun byte => (Layout.byteBits byte).reverse)
    rw [List.flatMap_def, List.flatMap_def]
    apply Bits.carries_flatten
    rwa [List.forall₂_map_left_iff, List.forall₂_map_right_iff]

def packed (chunk : ℕ) (bs : List Bool) : List Fr :=
  (chunksOf chunk bs).map fun run => (Layout.bitsValue run : Fr)

theorem carries_packed {bs : List Bool} {chunk : ℕ} (positive : 0 < chunk)
    (h : Bits.Carries z n bits bs) :
    List.Forall₂ (Expr.Carries z n) ((chunksOf chunk bits).map Bits.toExpr) (packed chunk bs) := by
  rw [packed, List.forall₂_map_left_iff, List.forall₂_map_right_iff]
  exact (forall₂_chunksOf positive h).imp fun _ _ => Bits.carries_toExpr

/-- Runs of bits below the size of the field are canonical encodings. -/
theorem mapM_ofBits {chunk : ℕ} (positive : 0 < chunk) (narrow : chunk < modulusBits)
    (bs : List Bool) : (chunksOf chunk bs).mapM Fr.ofBits = .ok (packed chunk bs) := by
  apply mapM_ok
  rw [packed, List.forall₂_map_right_iff, List.forall₂_same]
  intro run member
  exact Fr.ofBits_of_short ((length_le_of_mem_chunksOf positive bs run member).trans_lt narrow)

theorem pack_eq {chunk : ℕ} (positive : 0 < chunk) (narrow : chunk < modulusBits) (bits : Bits) :
    Bits.pack chunk bits = pure ((chunksOf chunk bits).map Bits.toExpr) := by
  rw [Bits.pack, if_neg (Nat.ne_of_gt positive), if_neg (Nat.not_le.mpr narrow)]

theorem chunk_of_pack {chunk : ℕ} {r : List Expr × ℕ}
    (h : (Bits.pack chunk bits).outcome n = some r) : 0 < chunk ∧ chunk < modulusBits := by
  unfold Bits.pack at h
  split at h
  · cases h
  · split at h
    · obtain ⟨_, _, -, rejected⟩ := outcome_of_bind h
      cases rejected
    · omega

/-- The commitment to a byte string, where the runs of bits have a length that packs. -/
def digest (params : Mimc.Params) (order : BitOrder) (chunk : ℕ) (bytes : List UInt8) : Fr :=
  (Mimc.hash params (packed chunk (order.expand bytes)) 1).headD 0

theorem commitBytes_eq (params : Mimc.Params) (order : BitOrder) {chunk : ℕ}
    (positive : 0 < chunk) (narrow : chunk < modulusBits) (bytes : List UInt8) :
    commitBytes params order chunk bytes = .ok (digest params order chunk bytes) := by
  rw [commitBytes, if_neg (Nat.ne_of_gt positive), mapM_ofBits positive narrow]
  rfl

theorem exact_commit (params : Mimc.Params) (order : BitOrder) {chunk : ℕ}
    (positive : 0 < chunk) (narrow : chunk < modulusBits)
    (h : Bits.Carries z n bits (Layout.bytesToBits bytes)) :
    Exact z given (commit params order chunk bits) n fun r m =>
      r.Carries z m (digest params order chunk bytes) := by
  rw [commit, pack_eq positive narrow, pure_bind]
  refine (Mimc.exact_spongeGadget params (carries_packed positive (carries_arrange order h))
    1).bind fun out m _ hashed => Exact.pure ?_
  cases hashed with
  | cons head _ => exact head

end Packing

namespace CommitmentCircuit

/-- The input that an assignment spells: key, nonce, counter and ciphertext are allocated first,
in this order. -/
def inputOf (self : CommitmentCircuit) (z : Assignment) : CommitmentInput where
  key := ⟨(z.bytes 0 32).toArray, by simp⟩
  nonce := ⟨(z.bytes 256 12).toArray, by simp⟩
  counter := z.word 352
  ciphertext := z.bytes 384 self.lenBytes.toNat

def openings (self : CommitmentCircuit) (input : CommitmentInput) : Fr × Fr :=
  let commit := digest self.params self.bitOrder self.chunkBits.toNat
  (commit (ChaCha.xor input.key input.nonce input.counter input.ciphertext),
    commit input.ciphertext)

/-- Runs of bits are not empty and stay below the size of the field. -/
def Packs (self : CommitmentCircuit) : Prop :=
  0 < self.chunkBits.toNat ∧ self.chunkBits.toNat < modulusBits

variable {self : CommitmentCircuit} {input : CommitmentInput}

theorem commitments_eq (packs : self.Packs) (input : CommitmentInput) :
    commitments self input = .ok (self.openings input) := by
  rw [commitments, commitBytes_eq _ _ packs.1 packs.2, commitBytes_eq _ _ packs.1 packs.2]
  rfl

theorem skeleton_circuit (length : input.ciphertext.length = self.lenBytes.toNat) :
    (self.circuit (some input)).skeleton = (self.circuit none).skeleton := by
  unfold circuit
  refine skeleton_bind_congr (Bits.skeleton_witnessBytes Vector.length_toList _ _) fun key => ?_
  refine skeleton_bind_congr (Bits.skeleton_witnessBytes Vector.length_toList _ _) fun nonce => ?_
  refine skeleton_bind_congr (Word.skeleton_witness _ _) fun counter => ?_
  exact skeleton_bind_congr (Bits.skeleton_witnessBytes length _ _) fun ciphertext => rfl

def opening (input : CommitmentInput) : Circuit (Bits × Bits × Word) := do
  let key ← Bits.witnessBytes "ChaCha20 key" 32 input.key.toList gadgetLoc
  let nonce ← Bits.witnessBytes "ChaCha20 nonce" 12 input.nonce.toList gadgetLoc
  let counter ← Word.witness input.counter gadgetLoc
  return (key, nonce, counter)

theorem exact_opening (self : CommitmentCircuit) (input : CommitmentInput) (z : Assignment) :
    Exact z (input = self.inputOf z) (opening input) 0 fun out m => m = 384 ∧
      input.key.toList = z.bytes 0 32 ∧ input.nonce.toList = z.bytes 256 12 ∧
      input.counter = z.word 352 ∧ z.IsBits 0 384 ∧
      Bits.Carries z m out.1 (Layout.bytesToBits input.key.toList) ∧
      Bits.Carries z m out.2.1 (Layout.bytesToBits input.nonce.toList) ∧
      out.2.2.Carries z m input.counter := by
  unfold opening
  refine (Bits.exact_witnessBytes Vector.length_toList (by decide) _ _ fun h => ?_).bind
    fun key m₁ le₁ hk => ?_
  · rw [h]; rfl
  obtain ⟨rfl, key_eq, key_bits, hk⟩ := hk
  refine (Bits.exact_witnessBytes Vector.length_toList (by decide) _ _ fun h => ?_).bind
    fun nonce m₂ le₂ hn => ?_
  · rw [h]; rfl
  obtain ⟨rfl, nonce_eq, nonce_bits, hn⟩ := hn
  refine (Word.exact_witness input.counter gadgetLoc fun h => ?_).bind fun counter m₃ le₃ hc => ?_
  · rw [h]; rfl
  obtain ⟨rfl, counter_eq, counter_bits, hc⟩ := hc
  exact Exact.pure ⟨rfl, key_eq, nonce_eq, counter_eq,
    (key_bits.append nonce_bits).append counter_bits, Bits.Carries.mono hk (le₂.trans le₃),
    Bits.Carries.mono hn le₃, hc⟩

theorem circuit_eq (self : CommitmentCircuit) (input : CommitmentInput) :
    self.circuit (some input) = opening input >>= fun (key, nonce, counter) => do
      let ciphertext ←
        Bits.witnessBytes "ciphertext" self.lenBytes.toNat input.ciphertext gadgetLoc
      let plaintext ← ChaCha.xorBits key nonce counter ciphertext gadgetLoc
      let first ← commit self.params self.bitOrder self.chunkBits.toNat plaintext
      let second ← commit self.params self.bitOrder self.chunkBits.toNat ciphertext
      return (first, second) := by
  simp only [opening, LawfulMonad.bind_assoc, pure_bind]
  rfl

theorem exact_circuit (packs : self.Packs) (room : 8 * self.lenBytes.toNat < 2 ^ 64)
    (length : input.ciphertext.length = self.lenBytes.toNat) (z : Assignment) :
    Exact z (input = self.inputOf z) (self.circuit (some input)) 0 fun out m =>
      input = self.inputOf z ∧ z.IsBits 0 (384 + 8 * self.lenBytes.toNat) ∧
      384 + 8 * self.lenBytes.toNat ≤ m ∧
      CircuitOutput.read (z.initial m) out = .ok (self.openings input) := by
  rw [circuit_eq]
  refine (exact_opening self input z).bind fun out m le post => ?_
  obtain ⟨rfl, key_eq, nonce_eq, counter_eq, bits, hk, hn, hc⟩ := post
  refine (Bits.exact_witnessBytes length room _ _ fun h => ?_).bind fun ciphertext m₁ le₁ hm => ?_
  · rw [h]; rfl
  obtain ⟨rfl, ciphertext_eq, ciphertext_bits, hm⟩ := hm
  have spelled : input = self.inputOf z := by
    obtain ⟨key, nonce, counter, ciphertext⟩ := input
    simp only [inputOf, CommitmentInput.mk.injEq]
    exact ⟨Vector.toList_inj.mp key_eq, Vector.toList_inj.mp nonce_eq, counter_eq, ciphertext_eq⟩
  refine (ChaCha.exact_xorBits (Bits.Carries.mono hk le₁) (Bits.Carries.mono hn le₁)
    (Word.stable_carries.mono le₁ hc) hm gadgetLoc).bind fun plaintext m₂ le₂ hp => ?_
  refine (exact_commit self.params self.bitOrder packs.1 packs.2 hp).bind
    fun first m₃ le₃ h₁ => ?_
  refine (exact_commit self.params self.bitOrder packs.1 packs.2
    (Bits.Carries.mono hm (le₂.trans le₃))).bind fun second m₄ le₄ h₂ => Exact.pure ?_
  refine ⟨spelled, bits.append ciphertext_bits, (le₂.trans le₃).trans le₄, ?_⟩
  have read₁ := Expr.read_initial (z := z) (h₁.mono le₄).below
  have read₂ := Expr.read_initial (z := z) h₂.below
  change (do return (← first.read (z.initial m₄), ← second.read (z.initial m₄)) :
    Except RuntimeError (Fr × Fr)) = _
  rw [read₁, read₂, h₁.eval, h₂.eval]
  rfl

theorem determined (packs : self.Packs) (room : 8 * self.lenBytes.toNat < 2 ^ 64) :
    Determined self.circuit (fun input => input.ciphertext.length = self.lenBytes.toNat)
      self.inputOf (384 + 8 * self.lenBytes.toNat) self.openings where
  skeleton _ length := skeleton_circuit length
  spelled_valid z := z.length_bytes _ _
  determines _ length z := exact_circuit packs room length z

section Compiled
variable {compiled : CompiledCircuit CommitmentInput (Expr × Expr)}

/-- A circuit that compiles has room for the bits of the ciphertext, and packs them. -/
theorem packs_of_compile
    (compiles : CompiledCircuit.compile (fun input => (self.circuit input).build) = .ok compiled) :
    self.Packs ∧ 8 * self.lenBytes.toNat < 2 ^ 64 := by
  obtain ⟨-, _, -, result, -⟩ := CompiledCircuit.of_compile compiles
  unfold circuit at result
  obtain ⟨key, _, -, result⟩ := outcome_of_bind result
  obtain ⟨nonce, _, -, result⟩ := outcome_of_bind result
  obtain ⟨counter, _, -, result⟩ := outcome_of_bind result
  obtain ⟨ciphertext, _, allocated, result⟩ := outcome_of_bind result
  obtain ⟨plaintext, _, -, result⟩ := outcome_of_bind result
  obtain ⟨first, _, committed, -⟩ := outcome_of_bind result
  obtain ⟨_, _, packed, -⟩ := outcome_of_bind committed
  exact ⟨chunk_of_pack packed, Bits.lt_of_witnessBytes allocated⟩

/-- A ciphertext of another length is refused once the rest of the input is allocated. -/
theorem generateWitness_of_length
    (compiles : CompiledCircuit.compile (fun input => (self.circuit input).build) = .ok compiled)
    (other : input.ciphertext.length ≠ self.lenBytes.toNat) :
    compiled.generateWitness input = .error (.runtime
      (.inputLength "ciphertext" self.lenBytes.toNat input.ciphertext.length)) := by
  refine CompiledCircuit.generateWitness_of_fail compiles ?_ (exact_opening self input)
  rw [circuit_eq, Bits.witnessBytes_of_length other]
  rfl

/-- Completeness: a circuit whose runs of bits pack compiles just when a 64-bit number counts the
bits of the ciphertext. It gives the native commitments of every ciphertext of its length, and
refuses others. -/
theorem commitments_of_generateWitness (self : CommitmentCircuit)
    (packs : 1 ≤ self.chunkBits.toNat ∧ self.chunkBits.toNat ≤ 253) :
    let compile := CompiledCircuit.compile fun input => (self.circuit input).build
    ((∃ compiled, compile = .ok compiled) ↔ self.lenBytes.toNat < 2 ^ 61) ∧
    ∀ compiled, compile = .ok compiled →
      (∀ input : CommitmentInput, input.ciphertext.length = self.lenBytes.toNat →
        ∃ p c w, commitments self input = .ok (p, c) ∧
          compiled.generateWitness input = .ok (w, (p, c))) ∧
      ∀ input : CommitmentInput, input.ciphertext.length ≠ self.lenBytes.toNat →
        compiled.generateWitness input = .error (.runtime
          (.inputLength "ciphertext" self.lenBytes.toNat input.ciphertext.length)) := by
  intro compile
  have packs : self.Packs := ⟨packs.1, Nat.lt_succ_of_le packs.2⟩
  refine ⟨⟨?_, ?_⟩, fun compiled compiles => ⟨fun input length => ?_, fun input other => ?_⟩⟩
  · rintro ⟨compiled, compiles⟩
    have room := (packs_of_compile compiles).2
    omega
  · intro room
    exact (determined packs (by omega)).compiles
  · have whole := determined packs (packs_of_compile compiles).2
    obtain ⟨w, generated, -⟩ := whole.generates compiles input length
    exact ⟨_, _, w, commitments_eq packs input, generated⟩
  · exact generateWitness_of_length compiles other

/-- Seventy bytes compile, and 2^61 bytes do not. -/
theorem commitments_of_seventy_bytes :
    let self := (CommitmentCircuit.create 70).withPacking .msbFirst 253
    let large := (CommitmentCircuit.create 0x2000000000000000).withPacking .msbFirst 253
    (1 ≤ self.chunkBits.toNat ∧ self.chunkBits.toNat ≤ 253) ∧
    (1 ≤ large.chunkBits.toNat ∧ large.chunkBits.toNat ≤ 253) ∧
    (∃ compiled, CompiledCircuit.compile (fun input => (self.circuit input).build) = .ok compiled ∧
      (∀ input : CommitmentInput, input.ciphertext.length = 70 →
        ∃ p c w, commitments self input = .ok (p, c) ∧
          compiled.generateWitness input = .ok (w, (p, c))) ∧
      ∀ input : CommitmentInput, input.ciphertext.length ≠ 70 →
        compiled.generateWitness input = .error (.runtime
          (.inputLength "ciphertext" 70 input.ciphertext.length))) ∧
    ¬ ∃ compiled, CompiledCircuit.compile (fun input => (large.circuit input).build) =
      .ok compiled := by
  intro self large
  have packs : 1 ≤ self.chunkBits.toNat ∧ self.chunkBits.toNat ≤ 253 := by decide
  have largePacks : 1 ≤ large.chunkBits.toNat ∧ large.chunkBits.toNat ≤ 253 := by decide
  obtain ⟨fits, runs⟩ := commitments_of_generateWitness self packs
  obtain ⟨largeFits, -⟩ := commitments_of_generateWitness large largePacks
  obtain ⟨compiled, compiles⟩ := fits.mpr (by decide)
  exact ⟨packs, largePacks, ⟨compiled, compiles, runs compiled compiles⟩,
    mt largeFits.mp (by decide)⟩

/-- With the usual packing, a ciphertext of 2^61 bytes has more bits than a 64-bit number
counts. -/
theorem not_compile_of_size :
    let self := CommitmentCircuit.create 0x2000000000000000
    (1 ≤ self.chunkBits.toNat ∧ self.chunkBits.toNat ≤ 253) ∧
    ¬ ∃ compiled, CompiledCircuit.compile (fun input => (self.circuit input).build) =
      .ok compiled := by
  refine ⟨by decide, ?_⟩
  rintro ⟨compiled, compiles⟩
  exact absurd (packs_of_compile compiles).2 (by decide)

end Compiled
end CommitmentCircuit
end RankOne.Commitment
