import RankOne.Proofs.ChaCha.Bytes
import RankOne.Proofs.Commitment

/-! Which configurations and inputs have commitments without a circuit, and which with one. The
circuit looks at the size of the runs before it packs any; without a circuit each run is read as
it is, so that the bits decide. -/
namespace RankOne
namespace Commitment
open Circuit

section Loops
variable {α β ε : Type} {f : α → Except ε β} {e : ε}

theorem exists_mapM_iff (xs : List α) :
    (∃ ys, xs.mapM f = .ok ys) ↔ ∀ x ∈ xs, ∃ y, f x = .ok y := by
  simp only [mapM_ok_iff]
  induction xs with
  | nil => simp
  | cons x xs ih => simp [List.forall₂_cons_left_iff, ← ih]

theorem exceptBind_error {x : Except ε α} (h : (x >>= f) = .error e) :
    x = .error e ∨ ∃ a, f a = .error e := by
  cases x with
  | error e' => cases h; exact .inl rfl
  | ok a => exact .inr ⟨a, h⟩

theorem error_of_mapM {xs : List α} (h : xs.mapM f = .error e) : ∃ x, f x = .error e := by
  induction xs with
  | nil => cases h
  | cons x xs ih =>
    rw [List.mapM_cons] at h
    rcases exceptBind_error h with first | ⟨y, h⟩
    · exact ⟨x, first⟩
    · rcases exceptBind_error h with rest | ⟨ys, h⟩
      · exact ih rest
      · cases h

end Loops

section Bytes
variable {params : Mimc.Params} {order : BitOrder} {chunk : ℕ} {bytes : List UInt8}

theorem exists_commitBytes_iff : (∃ x, commitBytes params order chunk bytes = .ok x) ↔
    0 < chunk ∧ ∀ run ∈ chunksOf chunk (order.expand bytes), ∃ x, Fr.ofBits run = .ok x := by
  rcases Nat.eq_zero_or_pos chunk with rfl | positive
  · exact iff_of_false (by rintro ⟨x, h⟩; cases h) (by simp)
  · rw [← exists_mapM_iff, commitBytes, if_neg (Nat.ne_of_gt positive)]
    constructor
    · rintro ⟨x, h⟩
      obtain ⟨packed, h, -⟩ := exceptBind_ok h
      exact ⟨positive, packed, h⟩
    · rintro ⟨-, packed, h⟩
      exact ⟨_, by rw [h]; rfl⟩

/-- Only runs of no bits cannot be cut. -/
theorem zero_of_commitBytes (h : commitBytes params order chunk bytes = .error .zeroChunk) :
    chunk = 0 := by
  by_contra positive
  rw [commitBytes, if_neg positive] at h
  rcases exceptBind_error h with packed | ⟨packed, h⟩
  · obtain ⟨run, refused⟩ := error_of_mapM packed
    exact Fr.ofBits_ne_zeroChunk run refused
  · cases h

end Bytes

theorem length_expand (order : BitOrder) (bytes : List UInt8) :
    (order.expand bytes).length = 8 * bytes.length := by
  cases order with
  | lsbFirst => exact Layout.length_bytesToBits bytes
  | msbFirst => simp [BitOrder.expand, Layout.bytesToBitsMsb, List.length_flatMap, Nat.mul_comm]

namespace CommitmentCircuit
variable {self : CommitmentCircuit} {input : CommitmentInput}

/-- The runs of bits behind the two commitments. -/
def runs (self : CommitmentCircuit) (input : CommitmentInput) : List (List Bool) :=
  let cut (bytes : List UInt8) := chunksOf self.chunkBits.toNat (self.bitOrder.expand bytes)
  cut (ChaCha.xor input.key input.nonce input.counter input.ciphertext) ++ cut input.ciphertext

theorem exists_commitments_iff : (∃ out, commitments self input = .ok out) ↔
    0 < self.chunkBits.toNat ∧ ∀ run ∈ self.runs input, ∃ x, Fr.ofBits run = .ok x := by
  have both : (∃ out, commitments self input = .ok out) ↔
      (∃ x, commitBytes self.params self.bitOrder self.chunkBits.toNat
        (ChaCha.xor input.key input.nonce input.counter input.ciphertext) = .ok x) ∧
      ∃ y, commitBytes self.params self.bitOrder self.chunkBits.toNat input.ciphertext = .ok y := by
    unfold commitments
    constructor
    · rintro ⟨out, h⟩
      obtain ⟨x, hx, h⟩ := exceptBind_ok h
      obtain ⟨y, hy, -⟩ := exceptBind_ok h
      exact ⟨⟨x, hx⟩, y, hy⟩
    · rintro ⟨⟨x, hx⟩, y, hy⟩
      exact ⟨(x, y), by simp only [hx, hy]; rfl⟩
  rw [both, exists_commitBytes_iff, exists_commitBytes_iff, runs, List.forall_mem_append]
  tauto

theorem zeroChunk_iff :
    commitments self input = .error .zeroChunk ↔ self.chunkBits.toNat = 0 := by
  constructor
  · intro h
    rcases exceptBind_error h with first | ⟨x, h⟩
    · exact zero_of_commitBytes first
    · rcases exceptBind_error h with second | ⟨y, h⟩
      · exact zero_of_commitBytes second
      · cases h
  · intro zero
    rw [commitments, zero]
    rfl

/-- The circuit compiles, and a witness can be generated for the input. -/
def Accepts (self : CommitmentCircuit) (input : CommitmentInput) : Prop :=
  ∃ compiled w out, CompiledCircuit.compile (fun input => (self.circuit input).build) =
    .ok compiled ∧ compiled.generateWitness input = .ok (w, out)

theorem accepts_iff (length : input.ciphertext.length = self.lenBytes.toNat) :
    self.Accepts input ↔ self.Packs ∧ 8 * self.lenBytes.toNat < 2 ^ 64 := by
  constructor
  · rintro ⟨compiled, w, out, compiles, -⟩
    exact packs_of_compile compiles
  · rintro ⟨packs, room⟩
    have whole := determined packs room
    obtain ⟨compiled, compiles⟩ := whole.compiles
    obtain ⟨w, generated, -⟩ := whole.generates compiles input length
    exact ⟨compiled, w, _, compiles, generated⟩

theorem length_le_of_mem_runs {run : List Bool} (member : run ∈ self.runs input) :
    run.length ≤ 8 * input.ciphertext.length := by
  have bound {bytes : List UInt8} (few : bytes.length ≤ input.ciphertext.length)
      (here : run ∈ chunksOf self.chunkBits.toNat (self.bitOrder.expand bytes)) :
      run.length ≤ 8 * input.ciphertext.length := calc
    run.length ≤ (chunksOf self.chunkBits.toNat (self.bitOrder.expand bytes)).flatten.length :=
      (List.sublist_flatten_of_mem here).length_le
    _ = 8 * bytes.length := by rw [flatten_chunksOf, length_expand]
    _ ≤ 8 * input.ciphertext.length := Nat.mul_le_mul_left 8 few
  rcases List.mem_append.mp member with plaintext | ciphertext
  · exact bound (ChaCha.length_xor _ _ _ _).le plaintext
  · exact bound le_rfl ciphertext

/-- Runs of any size are read without a circuit where there are few bits in all. -/
theorem exists_commitments_of_short (positive : 0 < self.chunkBits.toNat)
    (short : 8 * input.ciphertext.length < modulusBits) :
    ∃ out, commitments self input = .ok out :=
  exists_commitments_iff.mpr ⟨positive, fun _ member =>
    ⟨_, Fr.ofBits_of_short ((length_le_of_mem_runs member).trans_lt short)⟩⟩

/-- An input has commitments without a circuit just when it has them with one, and there is no
attempt to cut bits into runs of none. -/
structure Agrees (config : CommitmentCircuit) (input : CommitmentInput) : Prop where
  accepts : (∃ out, commitments config input = .ok out) ↔ config.Accepts input
  returns : commitments config input ≠ .error .zeroChunk

/-- The two agree on runs that pack. On larger ones, which no circuit accepts, they agree just where
some run is no encoding. -/
theorem agrees_iff (self : CommitmentCircuit) (input : CommitmentInput)
    (length : input.ciphertext.length = self.lenBytes.toNat) :
    self.Agrees input ↔ (self.Packs ∧ self.lenBytes.toNat < 2 ^ 61) ∨
      (0 < self.chunkBits.toNat ∧ ∃ run ∈ self.runs input,
        ¬(run.length ≤ 256 ∧ Layout.bitsValue run < modulus)) := by
  have native : (∃ out, commitments self input = .ok out) ↔ _ := exists_commitments_iff
  simp only [Fr.exists_ofBits_iff] at native
  have encodes : self.Packs → ∃ out, commitments self input = .ok out :=
    fun packs => ⟨_, commitments_eq packs input⟩
  have room : 8 * self.lenBytes.toNat < 2 ^ 64 ↔ self.lenBytes.toNat < 2 ^ 61 := by omega
  have circuit := accepts_iff length
  rw [room] at circuit
  constructor
  · rintro ⟨accepts, returns⟩
    have positive : 0 < self.chunkBits.toNat :=
      Nat.pos_of_ne_zero fun zero => returns (zeroChunk_iff.mpr zero)
    by_cases commits : ∃ out, commitments self input = .ok out
    · exact .inl (circuit.mp (accepts.mp commits))
    · rw [native, not_and] at commits
      exact .inr ⟨positive, by simpa [Fr.encodedBytes] using commits positive⟩
  · rintro (⟨packs, small⟩ | ⟨positive, run, member, refused⟩)
    · exact ⟨iff_of_true (encodes packs) (circuit.mpr ⟨packs, small⟩),
        fun zero => Nat.ne_of_gt packs.1 (zeroChunk_iff.mp zero)⟩
    · have fails : ¬∃ out, commitments self input = .ok out := fun commits =>
        refused ((native.mp commits).2 run member)
      exact ⟨iff_of_false fails fun accepted => fails (encodes (circuit.mp accepted).1),
        fun zero => Nat.ne_of_gt positive (zeroChunk_iff.mp zero)⟩

/-- Five bytes, in the usual packing. -/
theorem agrees_of_five_bytes :
    let input : CommitmentInput := ⟨.replicate 32 0, .replicate 12 0, 0, [1, 2, 3, 4, 5]⟩
    input.ciphertext.length = (create 5).lenBytes.toNat ∧ (create 5).Agrees input := by
  intro input
  have length : input.ciphertext.length = (create 5).lenBytes.toNat := rfl
  exact ⟨length, ((create 5).agrees_iff input length).mpr
    (.inl ⟨⟨by decide, by decide⟩, by decide⟩)⟩

/-- Runs of no bits, and runs of one bit too many. -/
theorem not_agrees_of_five_bytes :
    let input : CommitmentInput := ⟨.replicate 32 0, .replicate 12 0, 0, [1, 2, 3, 4, 5]⟩
    let empty := (create 5).withPacking .lsbFirst 0
    let wide := (create 5).withPacking .lsbFirst 254
    (commitments empty input = .error .zeroChunk ∧ ¬empty.Agrees input) ∧
    ((∃ out, commitments wide input = .ok out) ∧ ¬wide.Accepts input ∧ ¬wide.Agrees input) := by
  intro input empty wide
  have panics : commitments empty input = .error .zeroChunk := zeroChunk_iff.mpr rfl
  have commits : ∃ out, commitments wide input = .ok out :=
    exists_commitments_of_short (by decide) (by decide)
  have refused : ¬wide.Accepts input := fun accepted =>
    absurd ((accepts_iff rfl).mp accepted).1.2 (by decide)
  exact ⟨⟨panics, fun agrees => agrees.returns panics⟩, commits, refused,
    fun agrees => refused (agrees.accepts.mp commits)⟩

end CommitmentCircuit
end Commitment
end RankOne
