import RankOne.Proofs.ChaCha.Block
import RankOne.Proofs.Determined
import RankOne.Proofs.Keystream

/-! The ChaCha20 circuit on words. Its constraints determine every variable by the key, the
nonce, the counter and the message, and its output is the encryption of the message. -/
namespace RankOne.ChaCha
open Circuit
variable {z : Assignment} {given : Prop} {n m : ℕ}

section Blocks
variable {ω ω' υ υ' : Type}

/-- Encryption of runs of wires, with a counter that is incremented between the runs. -/
def overBlocks (f : Word → List ω → Circuit (List ω')) (loc : String) :
    Word → List (List ω) → Circuit (List ω')
  | _, [] => pure []
  | counter, [chunk] => f counter chunk
  | counter, chunk :: chunks => do
    let out ← f counter chunk
    let counter ← counter.add (Word.const 1) loc
    return out ++ (← overBlocks f loc counter chunks)

/-- Encryption of runs of values, each under the next counter. -/
def blocksValue (g : UInt32 → List υ → List υ') : UInt32 → List (List υ) → List υ'
  | _, [] => []
  | c, chunk :: chunks => g c chunk ++ blocksValue g (c + 1) chunks

theorem xorBlocks_eq (key nonce : List Word) (loc : String) (counter : Word)
    (chunks : List (List Word)) : xorBlocks key nonce loc counter chunks =
      overBlocks (fun counter chunk => xorBlock key nonce counter chunk loc) loc counter
        chunks := by
  fun_induction xorBlocks key nonce loc counter chunks with
  | case1 => rfl
  | case2 => rfl
  | case3 counter chunk chunks several ih =>
    rw [overBlocks]
    · simp only [ih]
    · exact several

theorem xorBitBlocks_eq (key nonce : List Word) (loc : String) (counter : Word)
    (chunks : List Bits) : xorBitBlocks key nonce loc counter chunks =
      overBlocks (fun counter chunk => xorBitBlock key nonce counter chunk loc) loc counter
        chunks := by
  fun_induction xorBitBlocks key nonce loc counter chunks with
  | case1 => rfl
  | case2 => rfl
  | case3 counter chunk chunks several ih =>
    rw [overBlocks]
    · simp only [ih]
    · exact several

variable {R : ℕ → ω → υ → Prop} {S : ℕ → ω' → υ' → Prop} {f : Word → List ω → Circuit (List ω')}

/-- The counter of a later block is a sum in the circuit, and wraps around as the native one. -/
theorem exact_overBlocks (stableR : Stable R) (stableS : Stable S)
    (g : UInt32 → List υ → List υ') {p : List υ → Prop} {start : ℕ}
    (step : ∀ counter c ws vs m, start ≤ m → counter.Carries z m c →
      List.Forall₂ (R m) ws vs → p vs →
      Exact z given (f counter ws) m fun r k => List.Forall₂ (S k) r (g c vs))
    {counter : Word} {c : UInt32} {chunks : List (List ω)} {values : List (List υ)}
    (later : start ≤ n) (hc : counter.Carries z n c)
    (h : List.Forall₂ (List.Forall₂ (R n)) chunks values) (all : ∀ vs ∈ values, p vs)
    (loc : String) :
    Exact z given (overBlocks f loc counter chunks) n fun r m =>
      List.Forall₂ (S m) r (blocksValue g c values) := by
  induction chunks generalizing n counter c values with
  | nil => cases h; exact Exact.pure .nil
  | cons chunk chunks ih =>
    obtain ⟨vs, values, head, tail, rfl⟩ := List.forall₂_cons_left_iff.mp h
    have one := step counter c chunk vs n later hc head (all vs List.mem_cons_self)
    cases chunks with
    | nil =>
      cases tail
      simp only [blocksValue, List.append_nil]
      exact one
    | cons chunk' chunks =>
      refine one.bind fun out m le first => ?_
      refine (Word.exact_add (Word.stable_carries.mono le hc) (Word.carries_const 1) loc).bind
        fun counter' m' le' next => ?_
      have rest := stableR.list.list.mono (le.trans le') tail
      refine (ih ((later.trans le).trans le') next rest fun vs member =>
        all vs (List.mem_cons_of_mem _ member)).bind fun outs k le'' second => ?_
      exact Exact.pure (List.rel_append (stableS.list.mono (le'.trans le'') first) second)

end Blocks

section Words
variable {key nonce message : List Word} {counter : Word} {k : Vector UInt32 8} {c : UInt32}
  {iv : Vector UInt32 3} {values : List UInt32}

theorem exact_blockGadget (hk : List.Forall₂ (Word.Carries z n) key k.toList)
    (hc : counter.Carries z n c) (hiv : List.Forall₂ (Word.Carries z n) nonce iv.toList) :
    Exact z given (blockGadget key counter nonce) n fun r m =>
      List.Forall₂ (Word.Carries z m) r (block k c iv).toList :=
  judges_blockGadget (L := .exact z given) hk hc hiv

theorem exact_xorBlock (hk : List.Forall₂ (Word.Carries z n) key k.toList)
    (hc : counter.Carries z n c) (hiv : List.Forall₂ (Word.Carries z n) nonce iv.toList)
    (hm : List.Forall₂ (Word.Carries z n) message values) (loc : String) :
    Exact z given (xorBlock key nonce counter message loc) n fun r m =>
      List.Forall₂ (Word.Carries z m) r (values.zipWith (· ^^^ ·) (block k c iv).toList) := by
  unfold xorBlock
  refine (exact_blockGadget hk hc hiv).bind fun stream m le carried => ?_
  refine (Logic.exact z given).mapM_zip Word.stable_carries Word.stable_carries
    Word.stable_carries (· ^^^ ·) (fun _ _ _ _ _ ha hb => ?_)
    (Word.stable_carries.list.mono le hm) carried
  exact Word.exact_xor ha hb loc

theorem blocksValue_words (B : UInt32 → Vector UInt32 16) (c : UInt32) (values : List UInt32) :
    blocksValue (fun c vs => vs.zipWith (· ^^^ ·) (B c).toList) c (chunksOf 16 values) =
      addKeystream B c values := by
  induction values using chunksOf_induction (by decide : 0 < 16) generalizing c with
  | nil => rw [chunksOf_nil]; rfl
  | step values nonempty ih =>
    rw [chunksOf_of_ne_nil (by decide) nonempty, blocksValue, ih, ← addKeystream_eq]

theorem exact_xorWords (hk : List.Forall₂ (Word.Carries z n) key k.toList)
    (hc : counter.Carries z n c) (hiv : List.Forall₂ (Word.Carries z n) nonce iv.toList)
    (hm : List.Forall₂ (Word.Carries z n) message values) (loc : String) :
    Exact z given (xorWords key nonce counter message loc) n fun r m =>
      List.Forall₂ (Word.Carries z m) r (addKeystream (block k · iv) c values) := by
  rw [xorWords, xorBlocks_eq, ← blocksValue_words]
  have chunks := forall₂_chunksOf (n := blockWords) (by decide) hm
  refine exact_overBlocks Word.stable_carries Word.stable_carries _ (p := fun _ => True)
    (fun counter c ws vs m le hc hm _ => ?_) le_rfl hc chunks (fun _ _ => trivial) loc
  exact exact_xorBlock (Word.stable_carries.list.mono le hk) hc
    (Word.stable_carries.list.mono le hiv) hm loc

end Words

/-- The message of an input, encrypted by the native block function. -/
def StreamInput.encryption (input : StreamInput) : List UInt32 :=
  addKeystream (block input.key · input.nonce) input.counter input.message

namespace StreamCircuit

/-- The input that an assignment spells: key, nonce, counter and message are allocated first, in
this order. -/
def inputOf (self : StreamCircuit) (z : Assignment) : StreamInput where
  key := ⟨(z.words 0 8).toArray, by simp⟩
  nonce := ⟨(z.words 256 3).toArray, by simp⟩
  counter := z.word 352
  message := z.words 384 self.lenWords.toNat

theorem checkInput_eq (self : StreamCircuit) {input : StreamInput}
    (length : input.message.length = self.lenWords.toNat) :
    self.checkInput (some input) = pure () := if_pos length

theorem skeleton_circuit (self : StreamCircuit) {input : StreamInput}
    (length : input.message.length = self.lenWords.toNat) :
    (self.circuit (some input)).skeleton = (self.circuit none).skeleton := by
  rw [circuit, checkInput_eq self length]
  refine skeleton_bind_congr rfl fun _ => ?_
  refine skeleton_bind_congr (Word.skeleton_witnesses _ _ _) fun key => ?_
  refine skeleton_bind_congr (Word.skeleton_witnesses _ _ _) fun nonce => ?_
  refine skeleton_bind_congr (Word.skeleton_witness _ _) fun counter => ?_
  exact skeleton_bind_congr (Word.skeleton_witnesses _ _ _) fun message => rfl

theorem exact_circuit (self : StreamCircuit) {input : StreamInput}
    (length : input.message.length = self.lenWords.toNat) (z : Assignment) :
    Exact z (input = self.inputOf z) (self.circuit (some input)) 0 fun out m =>
      input = self.inputOf z ∧ z.IsBits 0 (32 * (12 + self.lenWords.toNat)) ∧
      32 * (12 + self.lenWords.toNat) ≤ m ∧
      CircuitOutput.read (z.initial m) out = .ok input.encryption := by
  rw [circuit, checkInput_eq self length, pure_bind]
  refine (Word.exact_witnesses Vector.length_toList gadgetLoc fun h => ?_).bind
    fun key m₁ le₁ hk => ?_
  · rw [h]; rfl
  obtain ⟨rfl, key_eq, key_bits, hk⟩ := hk
  refine (Word.exact_witnesses Vector.length_toList gadgetLoc fun h => ?_).bind
    fun nonce m₂ le₂ hn => ?_
  · rw [h]; rfl
  obtain ⟨rfl, nonce_eq, nonce_bits, hn⟩ := hn
  refine (Word.exact_witness input.counter gadgetLoc fun h => ?_).bind fun counter m₃ le₃ hc => ?_
  · rw [h]; rfl
  obtain ⟨rfl, counter_eq, counter_bits, hc⟩ := hc
  refine (Word.exact_witnesses length gadgetLoc fun h => ?_).bind fun message m₄ le₄ hm => ?_
  · rw [h]; rfl
  obtain ⟨rfl, message_eq, message_bits, hm⟩ := hm
  have spelled : input = self.inputOf z := by
    obtain ⟨key, nonce, counter, message⟩ := input
    simp only [inputOf, StreamInput.mk.injEq]
    exact ⟨Vector.toList_inj.mp key_eq, Vector.toList_inj.mp nonce_eq, counter_eq, message_eq⟩
  have bits := ((key_bits.append nonce_bits).append counter_bits).append message_bits
  have count : 32 * keyLength + 32 * nonceLength + 32 + 32 * self.lenWords.toNat =
      32 * (12 + self.lenWords.toNat) := by rw [Nat.mul_add]; rfl
  rw [count] at bits
  have stable := Word.stable_carries (z := z)
  refine (exact_xorWords (stable.list.mono (le₂.trans (le₃.trans le₄)) hk)
    (stable.mono le₄ hc) (stable.list.mono (le₃.trans le₄) hn) hm gadgetLoc).mono
    fun out m le carried => ⟨spelled, bits, ?_, ?_⟩
  · rw [← count, ← Nat.zero_add (32 * keyLength)]
    exact le
  · exact mapM_ok (carried.imp fun _ _ => Word.read_of_carries)

theorem determined (self : StreamCircuit) :
    Determined self.circuit (fun input => input.message.length = self.lenWords.toNat) self.inputOf
      (32 * (12 + self.lenWords.toNat)) StreamInput.encryption where
  skeleton _ length := self.skeleton_circuit length
  spelled_valid z := z.length_words _ _
  determines _ length z := self.exact_circuit length z

/-- Soundness: a witness that the constraints accept spells a key, a nonce, a counter and a
message by bits, gives the encryption of the message, and is the witness generated for them. It
is the only one. -/
theorem stream_of_check (self : StreamCircuit)
    {compiled : CompiledCircuit StreamInput (List Word)} {w : Witness}
    (compiles : CompiledCircuit.compile (fun input => (self.circuit input).build) = .ok compiled)
    (accepted : compiled.system.check w = .ok ()) :
    Forced compiled w self.inputOf (32 * (12 + self.lenWords.toNat)) StreamInput.encryption ∧
      ∀ input : StreamInput, input.message.length = self.lenWords.toNat →
        ∃! w', compiled.system.check w' = .ok () ∧ self.inputOf (.ofWitness w') = input :=
  ⟨self.determined.forced compiles accepted, self.determined.existsUnique compiles⟩

/-- A message of two blocks, the counter of the first one the last before it wraps around. -/
theorem stream_of_two_blocks : ∃ compiled w,
    CompiledCircuit.compile (fun input => ((⟨17⟩ : StreamCircuit).circuit input).build) =
      .ok compiled ∧
    compiled.system.check w = .ok () ∧
    Forced compiled w (⟨17⟩ : StreamCircuit).inputOf 928 StreamInput.encryption ∧
    ∀ input : StreamInput, input.message.length = 17 → ∃! w',
      compiled.system.check w' = .ok () ∧
        (⟨17⟩ : StreamCircuit).inputOf (.ofWitness w') = input := by
  let self : StreamCircuit := ⟨17⟩
  obtain ⟨compiled, compiles⟩ := self.determined.compiles
  obtain ⟨w, -, accepted, -⟩ := self.determined.generates compiles
    ⟨#v[1, 2, 3, 4, 5, 6, 7, 8], #v[9, 10, 11], 0xffffffff, List.replicate 17 12⟩ rfl
  exact ⟨compiled, w, compiles, accepted, self.stream_of_check compiles accepted⟩

end StreamCircuit
end RankOne.ChaCha
