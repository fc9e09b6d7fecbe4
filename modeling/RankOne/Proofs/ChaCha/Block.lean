import RankOne.ChaCha.Gadget
import RankOne.Proofs.Addition

/-! The ChaCha20 block function as a circuit, by any way of judging it. The circuit holds the state
as a list of words, which carries the native state through all rounds. The bits of the key, of the
counter and of the nonce may be any mixture of constants and variables; each addition and each
exclusive or folds what it can of them. -/
namespace RankOne
open Circuit
variable {L : BitLogic} {n m : ℕ}

theorem forall₂_set {ω υ : Type} {R : ω → υ → Prop} {xs : List ω} {vs : List υ}
    (h : List.Forall₂ R xs vs) (i : ℕ) {x : ω} {v : υ} (hx : R x v) :
    List.Forall₂ R (xs.set i x) (vs.set i v) := by
  induction h generalizing i with
  | nil => exact .nil
  | cons head tail ih =>
    cases i with
    | zero => exact .cons hx tail
    | succ i => exact .cons head (ih i)

theorem Word.mapM_read_of_readAs {w : Witness} {words : List Word} {values : List UInt32}
    (h : Bits.ReadAs w (words.map bits) (values.map Layout.wordBits)) :
    words.mapM (read w) = .ok values := by
  rw [← Assignment.initial_ofWitness w] at h ⊢
  exact mapM_ok ((forall₂_bits.mp (Bits.readAs_iff.mp h)).imp fun _ _ => read_of_carries)

namespace ChaCha

def Carries (L : BitLogic) (n : ℕ) (words : List Word) (s : State) : Prop :=
  List.Forall₂ (L.word n) words s.toList

variable {words : List Word} {s : State}

theorem stable_carries : Stable (Carries L) :=
  fun _ _ _ _ le h => L.stable_word.list.mono le h

theorem Carries.set (h : Carries L n words s) (i : Fin 16) {w : Word} {v : UInt32}
    (hw : L.word n w v) : Carries L n (words.set i w) (s.set i v i.isLt) := by
  rw [Carries, Vector.toList_set]
  exact forall₂_set h i hw

theorem wordAt_of_carries (h : Carries L n words s) (i : Fin 16) :
    ∃ w, wordAt words i = pure w ∧ L.word n w (s.get i) := by
  have length : words.length = 16 := by rw [h.length_eq, Vector.length_toList]
  have inside : i.val < words.length := by rw [length]; exact i.isLt
  refine ⟨words[i.val], by rw [wordAt, List.getElem?_eq_getElem inside], ?_⟩
  have word := h.get inside (by simp)
  change L.word n _ s[i.val]
  simpa using word

theorem judges_lineGadget (h : Carries L n words s) (a b c : Fin 16) {k : ℕ} (positive : 0 < k)
    (small : k < 32) :
    L.judges (lineGadget words a b c k) n fun r m => Carries L m r (line s a b c k) := by
  obtain ⟨wa, at_a, ha⟩ := wordAt_of_carries h a
  obtain ⟨wc, at_c, hc⟩ := wordAt_of_carries h c
  unfold lineGadget
  rw [at_a, at_c]
  simp only [pure_bind]
  refine L.bind (Word.judges_add ha hc gadgetLoc) fun sum m le carried => ?_
  have summed := (stable_carries.mono le h).set a carried
  obtain ⟨wb, at_b, hb⟩ := wordAt_of_carries summed b
  obtain ⟨wa', at_a', ha'⟩ := wordAt_of_carries summed a
  rw [at_b, at_a']
  simp only [pure_bind]
  refine L.bind (Word.judges_xor hb ha' gadgetLoc) fun mixed m' le' carried' => L.pure ?_
  exact (stable_carries.mono le' summed).set b (Word.carries_rotateLeft carried' positive small)

theorem judges_quarterRoundGadget (h : Carries L n words s) (q : Quarter) :
    L.judges (quarterRoundGadget words q.a q.b q.c q.d) n
      fun r m => Carries L m r (quarterRound s q) := by
  unfold quarterRoundGadget
  refine L.bind (judges_lineGadget h q.a q.d q.b (by decide) (by decide)) fun r₁ _ _ h₁ => ?_
  refine L.bind (judges_lineGadget h₁ q.c q.b q.d (by decide) (by decide)) fun r₂ _ _ h₂ => ?_
  refine L.bind (judges_lineGadget h₂ q.a q.d q.b (by decide) (by decide)) fun r₃ _ _ h₃ => ?_
  exact judges_lineGadget h₃ q.c q.b q.d (by decide) (by decide)

theorem repeat_foldl {σ υ : Type} (f : σ → υ → σ) (xs : List υ) (k : ℕ) (s : σ) :
    k.repeat (fun s => xs.foldl f s) s = (List.replicate k xs).flatten.foldl f s := by
  induction k with
  | zero => rfl
  | succ k ih =>
    rw [Nat.repeat, ih, List.replicate_succ', List.flatten_append, List.foldl_append]
    simp

theorem rounds_eq_foldl (s : State) : rounds s = schedule.foldl quarterRound s :=
  repeat_foldl quarterRound doubleRound doubleRounds s

theorem judges_roundsGadget (h : Carries L n words s) :
    L.judges (roundsGadget words) n fun r m => Carries L m r (rounds s) := by
  rw [rounds_eq_foldl]
  unfold roundsGadget
  apply L.foldlM (S := fun _ => Eq) (fun _ _ _ _ _ same => same) quarterRound _ (by simp) h
  rintro r t q _ m carried rfl
  exact judges_quarterRoundGadget carried q

variable {key nonce : List Word} {counter : Word} {k : Vector UInt32 8} {c : UInt32}
  {iv : Vector UInt32 3}

theorem toList_initialState (k : Vector UInt32 8) (c : UInt32) (iv : Vector UInt32 3) :
    (initialState k c iv).toList = constants.toList ++ k.toList ++ [c] ++ iv.toList := by
  change (constants ++ k ++ #v[c] ++ iv).toList = _
  rw [Vector.toList_append, Vector.toList_append, Vector.toList_append]
  rfl

theorem judges_blockGadget (hk : List.Forall₂ (L.word n) key k.toList) (hc : L.word n counter c)
    (hiv : List.Forall₂ (L.word n) nonce iv.toList) :
    L.judges (blockGadget key counter nonce) n fun r m => Carries L m r (block k c iv) := by
  have keyLength_eq : key.length = keyLength := by rw [hk.length_eq, Vector.length_toList]; rfl
  have nonceLength_eq : nonce.length = nonceLength := by
    rw [hiv.length_eq, Vector.length_toList]; rfl
  have fixed : List.Forall₂ (L.word n) (constants.toList.map Word.const) constants.toList := by
    rw [List.forall₂_map_left_iff, List.forall₂_same]
    exact fun v _ => BitLogic.word_const v
  have start : Carries L n (constants.toList.map Word.const ++ key ++ [counter] ++ nonce)
      (initialState k c iv) := by
    rw [Carries, toList_initialState]
    exact List.rel_append (List.rel_append (List.rel_append fixed hk) (.cons hc .nil)) hiv
  unfold blockGadget checkLength
  rw [if_pos keyLength_eq, if_pos nonceLength_eq]
  simp only [pure_bind]
  refine L.bind (judges_roundsGadget start) fun r m le mixed => ?_
  rw [show block k c iv = Vector.zipWith (· + ·) (rounds (initialState k c iv))
    (initialState k c iv) from rfl]
  unfold Carries
  simp only [Vector.toList_zipWith]
  refine L.mapM_zip L.stable_word L.stable_word L.stable_word (· + ·)
    (fun _ _ _ _ _ ha hb => ?_) mixed (stable_carries.mono le start)
  exact Word.judges_add ha hb gadgetLoc

section Keystream
variable (key : Vector Word 8) (counter : Word) (nonce : Vector Word 3)

theorem computes_blockGadget (k : Vector UInt32 8) (c : UInt32) (iv : Vector UInt32 3) :
    Computes (blockGadget key.toList counter nonce.toList) (·.map Word.bits)
      ((key.toList ++ counter :: nonce.toList).map Word.bits)
      ((k.toList ++ c :: iv.toList).map Layout.wordBits)
      ((block k c iv).toList.map Layout.wordBits) := by
  refine computes_of_judges fun L n carried => ?_
  have words : List.Forall₂ (L.word n) (key.toList ++ counter :: nonce.toList)
      (k.toList ++ c :: iv.toList) := Word.forall₂_bits.mp carried
  have hk := List.forall₂_take_append _ _ _ words
  have rest := List.forall₂_drop_append _ _ _ words
  rw [Vector.length_toList, List.take_left' Vector.length_toList] at hk
  rw [Vector.length_toList, List.drop_left' Vector.length_toList] at rest
  obtain ⟨hc, hiv⟩ := List.forall₂_cons.mp rest
  exact L.weaken (judges_blockGadget hk hc hiv) fun _ _ _ mixed => Word.forall₂_bits.mpr mixed

/-- Mixing a key, a counter and a nonce gives the block of keystream that the native cipher gives,
in any session: a witness reads its words back, and whatever satisfies the rows spells them. -/
theorem block_of_blockGadget (k : Vector UInt32 8) (c : UInt32) (iv : Vector UInt32 3) :
    Computes (blockGadget key.toList counter nonce.toList) (·.map Word.bits)
      ((key.toList ++ counter :: nonce.toList).map Word.bits)
      ((k.toList ++ c :: iv.toList).map Layout.wordBits)
      ((block k c iv).toList.map Layout.wordBits) ∧
    ∀ (s : Session) (checked : Bool), s.mode = .witness checked → s.Filled →
      Bits.ReadAs s.values ((key.toList ++ counter :: nonce.toList).map Word.bits)
        ((k.toList ++ c :: iv.toList).map Layout.wordBits) →
      ∃ words s', (blockGadget key.toList counter nonce.toList).run s = (.ok words, s') ∧
        words.mapM (Word.read s'.values) = .ok (block k c iv).toList := by
  have computes := computes_blockGadget key counter nonce k c iv
  refine ⟨computes, fun s checked mode filled given => ?_⟩
  obtain ⟨words, s', run, spelled⟩ := computes.generates s checked mode filled given
  exact ⟨words, s', run, Word.mapM_read_of_readAs spelled⟩

end Keystream
end ChaCha
end RankOne
