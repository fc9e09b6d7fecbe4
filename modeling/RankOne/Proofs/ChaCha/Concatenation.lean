import RankOne.Proofs.ChaCha.Stream

/-! The ChaCha20 circuits on words and on bits. One cuts a message by words and the other by bits,
and they add the keystream in loops of their own; they allocate and constrain in one order, and what
the one returns as words the other returns as the bits of these words. -/
namespace RankOne
open Circuit

theorem Circuit.run_map {α β : Type} (g : α → β) (c : Circuit α) (s : Session) :
    (g <$> c).run s = (c.run s).map (Except.map g) id := by
  rw [map_eq_pure_bind, run_bind]
  rcases c.run s with ⟨e | a, s'⟩ <;> rfl

namespace Word

def Complete (word : Word) : Prop := word.bits.length = width

theorem complete_const (v : UInt32) : (const v).Complete := by
  simp [Complete, const, Bits.const, width]

theorem ofBits_bits {word : Word} (h : word.Complete) : ofBits word.bits = pure word := if_pos h

theorem returns_ofBits (bits : Bits) : (ofBits bits).Returns Complete := by
  unfold ofBits
  split
  · assumption
  · trivial

theorem returns_addMany (words : List Word) (loc : String) :
    (addMany words loc).Returns Complete := by
  unfold addMany
  split
  · exact complete_const 0
  · exact returns_bind fun bits => returns_ofBits _

theorem length_flatMap_bits {words : List Word} (h : ∀ word ∈ words, word.Complete) :
    (words.flatMap bits).length = width * words.length := by
  induction words with
  | nil => rfl
  | cons word words ih =>
    obtain ⟨first, rest⟩ := List.forall_mem_cons.mp h
    rw [List.flatMap_cons, List.length_append, ih rest, first, List.length_cons, Nat.mul_succ,
      Nat.add_comm]

end Word

theorem Bits.xor_append {a b a' b' : Bits} (h : a.length = b.length) (h' : a'.length = b'.length)
    (loc : String) : xor (a ++ a') (b ++ b') loc = do
      let front ← xor a b loc
      let rest ← xor a' b' loc
      return front ++ rest := by
  have whole : (a ++ a').length = (b ++ b').length := by simp [h, h']
  simp only [xor, zipWith, if_pos h, if_pos h', if_pos whole, List.zip_append h,
    List.mapM_append]

namespace ChaCha
variable {key nonce message stream words : List Word} {counter : Word} {loc : String}

section Keystream

theorem returns_lineGadget (state : List Word) (x y z k : ℕ) :
    (lineGadget state x y z k).Returns fun r => r.length = state.length := by
  unfold lineGadget
  refine returns_bind fun wx => returns_bind fun wz => returns_bind fun sum => ?_
  refine returns_bind fun wy => returns_bind fun wx' => returns_bind fun mixed => ?_
  change ((state.set x sum).set y (mixed.rotateLeft k)).length = state.length
  rw [List.length_set, List.length_set]

theorem returns_quarterRoundGadget (state : List Word) (a b c d : ℕ) :
    (quarterRoundGadget state a b c d).Returns fun r => r.length = state.length := by
  unfold quarterRoundGadget
  refine (returns_lineGadget state _ _ _ _).bind fun r₁ h₁ => ?_
  refine (returns_lineGadget r₁ _ _ _ _).bind fun r₂ h₂ => ?_
  refine (returns_lineGadget r₂ _ _ _ _).bind fun r₃ h₃ => ?_
  rw [← h₁, ← h₂, ← h₃]
  exact returns_lineGadget r₃ _ _ _ _

theorem returns_roundsGadget (state : List Word) :
    (roundsGadget state).Returns fun r => r.length = state.length := by
  refine Returns.foldlM (P := fun r : List Word => r.length = state.length)
    (fun r q kept => ?_) rfl schedule
  rw [← kept]
  exact returns_quarterRoundGadget r _ _ _ _

theorem returns_checkLength (what : String) (expected : ℕ) (words : List Word) :
    (checkLength what expected words).Returns fun _ => words.length = expected := by
  unfold checkLength
  split
  · assumption
  · trivial

/-- A block of keystream is sixteen words of all their bits, whatever the words it is made of: each
of them is a sum. -/
theorem returns_blockGadget (key : List Word) (counter : Word) (nonce : List Word) :
    (blockGadget key counter nonce).Returns fun stream =>
      stream.length = blockWords ∧ ∀ word ∈ stream, word.Complete := by
  unfold blockGadget
  refine (returns_checkLength _ _ key).bind fun _ hk => ?_
  refine (returns_checkLength _ _ nonce).bind fun _ hn => ?_
  refine (returns_roundsGadget _).bind fun mixed kept => ?_
  refine (Returns.mapM (fun pair => Word.returns_addMany _ gadgetLoc) _).weaken fun stream h => ?_
  refine ⟨?_, h.2⟩
  rw [h.1, List.length_zip, kept, Nat.min_self]
  simp [hk, hn, keyLength, nonceLength, blockWords]

end Keystream

section Blocks

theorem mapM_xor (hm : ∀ word ∈ message, word.Complete) (hs : ∀ word ∈ stream, word.Complete)
    (enough : message.length ≤ stream.length) (loc : String) :
    (·.flatMap Word.bits) <$> (message.zip stream).mapM (fun (m, k) => m.xor k loc) =
      Bits.xor (message.flatMap Word.bits)
        ((stream.flatMap Word.bits).take (message.flatMap Word.bits).length) loc := by
  induction message generalizing stream with
  | nil => rfl
  | cons m message ih =>
    obtain ⟨k, stream, rfl⟩ := List.exists_cons_of_length_pos (Nat.zero_lt_of_lt enough)
    obtain ⟨complete, hm⟩ := List.forall_mem_cons.mp hm
    obtain ⟨complete', hs⟩ := List.forall_mem_cons.mp hs
    have rest := Nat.le_of_succ_le_succ enough
    have same : m.bits.length = k.bits.length := complete.trans complete'.symm
    have length : (message.flatMap Word.bits).length =
        ((stream.flatMap Word.bits).take (message.flatMap Word.bits).length).length := by
      rw [List.length_take, Word.length_flatMap_bits hm, Word.length_flatMap_bits hs]
      exact (Nat.min_eq_left (Nat.mul_le_mul_left _ rest)).symm
    rw [List.flatMap_cons, List.flatMap_cons, List.length_append, same,
      List.take_length_add_append, Bits.xor_append same length, ← ih hm hs rest]
    simp [Word.xor, List.mapM_cons]

theorem xorBlock_bits (hm : ∀ word ∈ message, word.Complete) (short : message.length ≤ blockWords)
    (key nonce : List Word) (counter : Word) (loc : String) :
    (·.flatMap Word.bits) <$> xorBlock key nonce counter message loc =
      xorBitBlock key nonce counter (message.flatMap Word.bits) loc := by
  unfold xorBlock xorBitBlock
  rw [map_bind]
  refine (returns_blockGadget key counter nonce).bind_congr fun stream h => ?_
  exact mapM_xor hm h.2 (by rw [h.1]; exact short) loc

/-- Two ways of encrypting a run that agree on every run agree on a message. -/
theorem map_overBlocks {ω ω' υ υ' : Type} {f : Word → List ω → Circuit (List ω')}
    {f' : Word → List υ → Circuit (List υ')} (e : List ω → List υ) (g : ω' → List υ')
    {chunks : List (List ω)}
    (same : ∀ chunk ∈ chunks, ∀ counter, (·.flatMap g) <$> f counter chunk = f' counter (e chunk))
    (counter : Word) (loc : String) :
    (·.flatMap g) <$> overBlocks f loc counter chunks =
      overBlocks f' loc counter (chunks.map e) := by
  induction chunks generalizing counter with
  | nil => rfl
  | cons chunk chunks ih =>
    obtain ⟨first, rest⟩ := List.forall_mem_cons.mp same
    cases chunks with
    | nil => exact first counter
    | cons chunk' chunks =>
      simp only [List.map_cons, overBlocks, ← first, map_bind, map_pure, bind_map_left,
        List.flatMap_append]
      refine bind_congr fun out => bind_congr fun counter' => ?_
      rw [← List.map_cons, ← ih rest counter', bind_map_left]

end Blocks

theorem wordsOf_bits (complete : ∀ word ∈ words, word.Complete) :
    wordsOf (words.flatMap Word.bits) = pure words := by
  rw [wordsOf, chunksOf_flatMap (n := 32) (by decide) _ _ complete]
  induction words with
  | nil => rfl
  | cons word words ih =>
    obtain ⟨first, rest⟩ := List.forall_mem_cons.mp complete
    rw [List.map_cons, List.mapM_cons, ih rest, Word.ofBits_bits first]
    rfl

theorem map_xorWords (hk : key.length = keyLength) (hn : nonce.length = nonceLength)
    (completeKey : ∀ word ∈ key, word.Complete) (completeNonce : ∀ word ∈ nonce, word.Complete)
    (complete : ∀ word ∈ message, word.Complete) (counter : Word) (loc : String) :
    (·.flatMap Word.bits) <$> xorWords key nonce counter message loc =
      xorBits (key.flatMap Word.bits) (nonce.flatMap Word.bits) counter
        (message.flatMap Word.bits) loc := by
  have keyBits : (key.flatMap Word.bits).length = 32 * keyLength := by
    rw [Word.length_flatMap_bits completeKey, hk, Word.width]
  have nonceBits : (nonce.flatMap Word.bits).length = 32 * nonceLength := by
    rw [Word.length_flatMap_bits completeNonce, hn, Word.width]
  have runs : chunksOf (32 * blockWords) (message.flatMap Word.bits) =
      (chunksOf blockWords message).map (·.flatMap Word.bits) :=
    chunksOf_flatMap_mul (by decide) (by decide) _ _ complete
  rw [xorBits, if_neg (not_not.mpr keyBits), if_neg (not_not.mpr nonceBits),
    wordsOf_bits completeKey, wordsOf_bits completeNonce, pure_bind, pure_bind, runs, xorWords,
    xorBlocks_eq, xorBitBlocks_eq]
  refine map_overBlocks _ _ (fun chunk member counter => ?_) counter loc
  have inside (word : Word) (h : word ∈ chunk) : word ∈ message := by
    rw [← flatten_chunksOf blockWords message]
    exact List.mem_flatten_of_mem member h
  exact xorBlock_bits (fun word h => complete word (inside word h))
    (length_le_of_mem_chunksOf (by decide) message chunk member) key nonce counter loc

/-- Encrypting words and encrypting their bits is one circuit. From any session, in any mode, the
results are the same bits or the same error, and the sessions are equal after it: their rows, with
labels and places, their values and their number of variables. -/
theorem run_xorBits_eq_xorWords (key : Vector Word 8) (nonce : Vector Word 3) (counter : Word)
    (message : List Word)
    (complete : ∀ word ∈ key.toList ++ nonce.toList ++ message, word.Complete)
    (loc : String) (s : Session) :
    (xorBits (key.toList.flatMap Word.bits) (nonce.toList.flatMap Word.bits) counter
        (message.flatMap Word.bits) loc).run s =
      ((xorWords key.toList nonce.toList counter message loc).run s).map
        (Except.map (·.flatMap Word.bits)) id := by
  obtain ⟨⟨completeKey, completeNonce⟩, completeMessage⟩ :=
    List.forall_mem_append.mp complete |>.imp_left List.forall_mem_append.mp
  have hk : key.toList.length = keyLength := key.length_toList
  have hn : nonce.toList.length = nonceLength := nonce.length_toList
  rw [← map_xorWords hk hn completeKey completeNonce completeMessage, run_map]

/-- A message of two blocks, of words that all have the same variables. -/
theorem run_xorBits_of_two_blocks :
    let word : Word := ⟨(List.range 32).map fun i => ⟨.var i⟩⟩
    let key := Vector.replicate 8 word
    let nonce := Vector.replicate 3 word
    let message := List.replicate 17 word
    (∀ word ∈ key.toList ++ nonce.toList ++ message, word.Complete) ∧
    (xorBits (key.toList.flatMap Word.bits) (nonce.toList.flatMap Word.bits) word
        (message.flatMap Word.bits) gadgetLoc).run ⟨.compile, #[], #[], 32⟩ =
      ((xorWords key.toList nonce.toList word message gadgetLoc).run ⟨.compile, #[], #[], 32⟩).map
        (Except.map (·.flatMap Word.bits)) id := by
  intro word key nonce message
  have complete : ∀ w ∈ key.toList ++ nonce.toList ++ message, w.Complete := by
    have whole : word.Complete := by simp [word, Word.Complete, Word.width]
    simp [key, nonce, message, Vector.toList_replicate, whole]
  exact ⟨complete, run_xorBits_eq_xorWords key nonce word message complete gadgetLoc _⟩

end ChaCha
end RankOne
