import RankOne.Aes.Block
import RankOne.Proofs.Aes.Cipher
import RankOne.Proofs.Aes.Substitution

/-! The AES block cipher as a circuit. Blocks, columns and key words are lists of bytes in the
circuit, which carry the native ones step by step. -/
namespace RankOne.Aes
open Circuit
variable {L : BitLogic} {n m : ℕ}

section Bytes
variable {a b : Bits} {u v : UInt8} {bytes bytes' : List Bits} {us vs : List UInt8}

theorem judges_xorByte (ha : L.byte n a u) (hb : L.byte n b v) (loc : String) :
    L.judges (Bits.xor a b loc) n fun r m => L.byte m r (u ^^^ v) := by
  simp only [BitLogic.byte, Layout.byteBits_xor]
  exact BitLogic.judges_xor ha hb (by simp) loc

theorem judges_substituteBytes {k : ℕ} {block : Vector UInt8 k} (h : L.bytes n bytes block.toList) :
    L.judges (substituteBytes sbox bytes) n
      fun r m => L.bytes m r (Cipher.substitute block).toList := by
  rw [Cipher.substitute_eq, Vector.toList_map]
  exact L.mapM L.stable_byte L.stable_byte sbox.lookup
    (fun _ _ _ carried => judges_substitute sbox carried gadgetLoc) h

theorem judges_xorBytes (h : L.bytes n bytes us) (h' : L.bytes n bytes' vs) :
    L.judges (xorBytes bytes bytes') n fun r m => L.bytes m r (us.zipWith (· ^^^ ·) vs) :=
  L.mapM_zip L.stable_byte L.stable_byte L.stable_byte (· ^^^ ·)
    (fun _ _ _ _ _ ha hb => judges_xorByte ha hb gadgetLoc) h h'

/-- Doubling moves the bits, and adds the top one to three of them. -/
theorem judges_double (h : L.byte n a u) :
    L.judges (double a) n fun r m => L.byte m r (Cipher.timesX u) := by
  obtain ⟨a0, a1, a2, a3, a4, a5, a6, a7, v0, v1, v2, v3, v4, v5, v6, v7, rfl, spelled,
    ⟨h0, h1, h2, h3⟩, h4, h5, h6, h7⟩ := bits_of_byte h
  have stable := L.stable_bit
  unfold double
  refine L.bind (BitLogic.judges_xorBit h7 h0 gadgetLoc) fun b1 m₁ le₁ c1 => ?_
  refine L.bind (BitLogic.judges_xorBit (stable.mono le₁ h7) (stable.mono le₁ h2) gadgetLoc)
    fun b3 m₂ le₂ c3 => ?_
  have le := le₁.trans le₂
  refine L.bind (BitLogic.judges_xorBit (stable.mono le h7) (stable.mono le h3) gadgetLoc)
    fun b4 m₃ le₃ c4 => L.pure ?_
  have old {b : Bit} {v : Bool} (hb : L.bit n b v) : L.bit m₃ b v :=
    stable.mono (le.trans le₃) hb
  rw [BitLogic.byte, Cipher.byteBits_timesX, spelled]
  exact .cons (old h7) (.cons (stable.mono (le₂.trans le₃) c1) (.cons (old h1)
    (.cons (stable.mono le₃ c3) (.cons c4 (.cons (old h4) (.cons (old h5)
    (.cons (old h6) .nil)))))))

theorem judges_mixByte {sum : Bits} {s : UInt8} (hs : L.byte n sum s) (ha : L.byte n a u)
    (hb : L.byte n b v) :
    L.judges (mixByte sum a b) n fun r m =>
      L.byte m r (u ^^^ s ^^^ Cipher.timesX (u ^^^ v)) := by
  have stable := L.stable_byte
  unfold mixByte
  refine L.bind (judges_xorByte ha hb gadgetLoc) fun both m₁ le₁ h₁ => ?_
  refine L.bind (judges_double h₁) fun doubled m₂ le₂ h₂ => ?_
  have le := le₁.trans le₂
  refine L.bind (judges_xorByte (stable.mono le ha) (stable.mono le hs) gadgetLoc)
    fun outer m₃ le₃ h₃ => ?_
  exact judges_xorByte h₃ (stable.mono le₃ h₂) gadgetLoc

end Bytes

section Columns
variable {column : List Bits} {col : Cipher.Column} {state : List Bits} {s : Cipher.Block}

theorem bytes_of_column (h : L.bytes n column col.toList) :
    ∃ b0 b1 b2 b3 v0 v1 v2 v3, column = [b0, b1, b2, b3] ∧ col.toList = [v0, v1, v2, v3] ∧
      L.byte n b0 v0 ∧ L.byte n b1 v1 ∧ L.byte n b2 v2 ∧ L.byte n b3 v3 := by
  obtain ⟨v0, v1, v2, v3, bytes⟩ := Cipher.exists_toList col
  rw [BitLogic.bytes, bytes] at h
  obtain ⟨b0, _, h0, t0, rfl⟩ := List.forall₂_cons_right_iff.mp h
  obtain ⟨b1, _, h1, t1, rfl⟩ := List.forall₂_cons_right_iff.mp t0
  obtain ⟨b2, _, h2, t2, rfl⟩ := List.forall₂_cons_right_iff.mp t1
  obtain ⟨b3, _, h3, t3, rfl⟩ := List.forall₂_cons_right_iff.mp t2
  cases t3
  exact ⟨b0, b1, b2, b3, v0, v1, v2, v3, rfl, bytes, h0, h1, h2, h3⟩

theorem judges_mixColumn (h : L.bytes n column col.toList) :
    L.judges (mixColumn column) n fun r m => L.bytes m r (Cipher.mixed col.toList) := by
  have stable := L.stable_byte
  obtain ⟨b0, b1, b2, b3, v0, v1, v2, v3, rfl, bytes, h0, h1, h2, h3⟩ := bytes_of_column h
  rw [bytes]
  unfold mixColumn
  refine L.bind (judges_xorByte h0 h1 gadgetLoc) fun sum₁ m₁ le₁ s₁ => ?_
  refine L.bind (judges_xorByte s₁ (stable.mono le₁ h2) gadgetLoc) fun sum₂ m₂ le₂ s₂ => ?_
  have le := le₁.trans le₂
  refine L.bind (judges_xorByte s₂ (stable.mono le h3) gadgetLoc) fun sum m₃ le₃ hs => ?_
  have old {b : Bits} {v : UInt8} (hb : L.byte n b v) : L.byte m₃ b v :=
    stable.mono (le.trans le₃) hb
  have pairs : List.Forall₂ (fun w v => L.byte m₃ w.1 v.1 ∧ L.byte m₃ w.2 v.2)
      [(b0, b1), (b1, b2), (b2, b3), (b3, b0)] [(v0, v1), (v1, v2), (v2, v3), (v3, v0)] :=
    .cons ⟨old h0, old h1⟩ (.cons ⟨old h1, old h2⟩ (.cons ⟨old h2, old h3⟩
      (.cons ⟨old h3, old h0⟩ .nil)))
  rw [Cipher.mixed]
  generalize v0 ^^^ v1 ^^^ v2 ^^^ v3 = total at hs ⊢
  have withSum := pairs.imp fun _ _ h => (⟨hs, h⟩ : _ ∧ _)
  have together : Stable fun m (w : Bits × Bits) (v : UInt8 × UInt8) =>
      L.byte m sum total ∧ L.byte m w.1 v.1 ∧ L.byte m w.2 v.2 :=
    fun _ _ _ _ le h => ⟨stable.mono le h.1, stable.mono le h.2.1, stable.mono le h.2.2⟩
  exact L.mapM together stable (fun v => v.1 ^^^ total ^^^ Cipher.timesX (v.1 ^^^ v.2))
    (fun _ _ _ h => judges_mixByte h.1 h.2.1 h.2.2) withSum

theorem judges_mixColumns (h : L.bytes n state s.toList) :
    L.judges (mixColumns state) n fun r m => L.bytes m r (Cipher.mixColumns s).toList := by
  have columns := forall₂_chunksOf (n := 4) (by decide) h
  rw [Cipher.columns_eq, List.ofFn_eq_map] at columns
  unfold mixColumns
  refine L.bind (L.mapM (R := fun m w i => L.bytes m w (Cipher.column s i).toList) (S := L.bytes)
    (fun _ _ _ _ le h => L.stable_bytes.mono le h) L.stable_bytes
    (fun i => Cipher.mixed (Cipher.column s i).toList) (fun _ _ _ h => judges_mixColumn h)
    (List.forall₂_map_right_iff.mp columns)) fun mixed m le carried => L.pure ?_
  rw [Cipher.mixColumns_eq, List.ofFn_eq_map]
  exact List.rel_flatten carried

theorem judges_shiftRows (h : L.bytes n state s.toList) :
    L.judges (shiftRows state) n fun r m => L.bytes m r (Cipher.shiftRows s).toList := by
  have length : state.length = 16 := by rw [List.Forall₂.length_eq h, Vector.length_toList]
  have positions : List.Forall₂ (fun (k : ℕ) (i : Fin 16) => k = i.val ∧
      L.bytes n state s.toList) (List.range blockBytes) (List.finRange 16) := by
    rw [blockBytes, ← List.map_coe_finRange_eq_range, List.forall₂_map_left_iff, List.forall₂_same]
    exact fun _ _ => ⟨rfl, h⟩
  rw [Cipher.shiftRows, Vector.toList_ofFn, List.ofFn_eq_map]
  refine L.mapM (R := fun m (k : ℕ) (i : Fin 16) => k = i.val ∧ L.bytes m state s.toList)
    (fun _ _ _ _ le h => ⟨h.1, L.stable_bytes.mono le h.2⟩) L.stable_byte _ ?_ positions
  rintro k i m ⟨rfl, h⟩
  have inside : i.val % 4 + 4 * ((i.val / 4 + i.val % 4) % 4) < state.length := by omega
  dsimp only
  rw [List.getElem?_eq_getElem inside]
  have byte := List.Forall₂.get h inside (by simp; omega)
  exact L.pure (by simpa [Vector.get] using byte)

end Columns

section Rounds
variable {roundKeys : List (List Bits)} {keys : List Cipher.Block} {state : List Bits}
  {s : Cipher.Block}

def CarriesKeys (L : BitLogic) (n : ℕ) (roundKeys : List (List Bits))
    (keys : List Cipher.Block) : Prop :=
  List.Forall₂ (fun roundKey key => L.bytes n roundKey key.toList) roundKeys keys

theorem CarriesKeys.mono (h : CarriesKeys L n roundKeys keys) (le : n ≤ m) :
    CarriesKeys L m roundKeys keys :=
  List.Forall₂.imp (fun _ _ => L.stable_bytes.mono le) h

theorem judges_addKey {key : List Bits} {k : Cipher.Block} (h : L.bytes n state s.toList)
    (hk : L.bytes n key k.toList) :
    L.judges (xorBytes state key) n fun r m => L.bytes m r (Cipher.add s k).toList := by
  have sum : L.judges (xorBytes state key) n _ := judges_xorBytes h hk
  rwa [← Vector.toList_zipWith] at sum

theorem judges_encryptRounds (hk : CarriesKeys L n roundKeys keys)
    (h : L.bytes n state s.toList) :
    L.judges (encryptRounds sbox roundKeys state) n
      fun r m => L.bytes m r (Cipher.roundsWith keys s).toList := by
  induction roundKeys generalizing n keys state s with
  | nil => cases hk; exact L.pure h
  | cons roundKey roundKeys ih =>
    obtain ⟨key, keys, head, tail, rfl⟩ := List.forall₂_cons_left_iff.mp hk
    have opening {Q : List Bits → ℕ → Prop} {f : List Bits → Circuit (List Bits)}
        (next : ∀ r m, n ≤ m → L.bytes m r (Cipher.shiftRows (Cipher.substitute s)).toList →
          L.judges (f r) m Q) :
        L.judges (do f (← shiftRows (← substituteBytes sbox state))) n Q := by
      refine L.bind (judges_substituteBytes h) fun sub m le hs => ?_
      exact L.bind (judges_shiftRows hs) fun r m' le' hr => next r m' (le.trans le') hr
    cases roundKeys with
    | nil =>
      cases tail
      refine opening fun r m le hr => ?_
      exact judges_addKey hr (L.stable_bytes.mono le head)
    | cons roundKey' roundKeys =>
      obtain ⟨key', keys, head', tail', rfl⟩ := List.forall₂_cons_left_iff.mp tail
      refine opening fun r m le hr => ?_
      refine L.bind (judges_mixColumns hr) fun mixed m' le' hm => ?_
      refine L.bind (judges_addKey hm (L.stable_bytes.mono (le.trans le') head))
        fun next m'' le'' hn => ?_
      have rest := ih (CarriesKeys.mono tail ((le.trans le').trans le'')) hn
      exact rest

theorem judges_encryptBlock {whitening key : Cipher.Block}
    (hk : CarriesKeys L n roundKeys (whitening :: key :: keys))
    (h : L.bytes n state s.toList) :
    L.judges (encryptBlock sbox roundKeys state) n fun r m =>
      L.bytes m r (Cipher.roundsWith (key :: keys) (Cipher.add s whitening)).toList := by
  obtain ⟨roundKey, roundKeys, first, rest, rfl⟩ := List.forall₂_cons_right_iff.mp hk
  obtain ⟨roundKey', roundKeys, second, rest', rfl⟩ := List.forall₂_cons_right_iff.mp rest
  have length : state.length = blockBytes := by
    rw [List.Forall₂.length_eq h, Vector.length_toList]; rfl
  rw [encryptBlock, if_pos length]
  refine L.bind (judges_addKey h first) fun start m le hs => ?_
  exact judges_encryptRounds (CarriesKeys.mono rest le) hs

end Rounds
end RankOne.Aes
