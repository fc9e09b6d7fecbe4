import RankOne.Proofs.Aes.Block
import RankOne.Proofs.Computes

/-! The AES key schedule as a circuit. The circuit keeps the words of the last key length in a
window, and the native cipher all of them; the window carries the end of the native schedule. The
bits of the key and of a block may be any mixture of constants and variables, and the circuit folds
in other places for each mixture. -/
namespace RankOne.Aes
open Circuit
variable {L : BitLogic} {n m : ℕ}

def CarriesWord (L : BitLogic) (n : ℕ) (word : List Bits) (w : Cipher.Column) : Prop :=
  L.bytes n word w.toList

theorem stable_carriesWord : Stable (CarriesWord L) :=
  fun _ _ _ _ le h => L.stable_bytes.mono le h

theorem constByte (c : UInt8) : L.byte n (Bits.constBytes [c]) c := by
  rw [Bits.constBytes, Layout.bytesToBits, List.flatMap_singleton]
  exact BitLogic.bits_const _

/-- The constant is added to the first byte; adding zeros to the others changes nothing. -/
theorem add_roundConstant {w : Cipher.Column} {v0 v1 v2 v3 : UInt8}
    (bytes : w.toList = [v0, v1, v2, v3]) (k : ℕ) :
    (Cipher.add w (Cipher.roundConstant k)).toList =
      [v0 ^^^ (k - 1).repeat Cipher.timesX 1, v1, v2, v3] := by
  rw [Cipher.add, Vector.toList_zipWith, bytes]
  simp [Cipher.roundConstant]

theorem judges_addWords {a b : List Bits} {u v : Cipher.Column} (ha : CarriesWord L n a u)
    (hb : CarriesWord L n b v) :
    L.judges (xorBytes a b) n fun r m => CarriesWord L m r (Cipher.add u v) := by
  have sum : L.judges (xorBytes a b) n _ := judges_xorBytes ha hb
  rwa [← Vector.toList_zipWith] at sum

/-- The word carries what the native key schedule adds, by whichever branch. -/
theorem judges_nextKeyWord {keyWords i : ℕ} {oldest newest : List Bits} {o w : Cipher.Column}
    (positive : 0 < keyWords) (first : keyWords ≤ i) (early : i / keyWords ≤ 10)
    (ho : CarriesWord L n oldest o) (hw : CarriesWord L n newest w) :
    L.judges (nextKeyWord sbox keyWords i oldest newest) n fun r m =>
      CarriesWord L m r (Cipher.add o (Cipher.scheduleTerm keyWords i w)) := by
  have finish {mixed : List Bits} {t : Cipher.Column} {k : ℕ} (le : n ≤ k)
      (h : CarriesWord L k mixed t) : L.judges (xorBytes oldest mixed) k
        fun r m => CarriesWord L m r (Cipher.add o t) :=
    judges_addWords (stable_carriesWord.mono le ho) h
  unfold nextKeyWord Cipher.scheduleTerm
  split
  · have quotient : 0 < i / keyWords := Nat.div_pos first positive
    rw [Cipher.roundConstants_eq _ (by omega)]
    obtain ⟨b0, b1, b2, b3, v0, v1, v2, v3, rfl, bytes, h0, h1, h2, h3⟩ := bytes_of_column hw
    obtain rfl : w = #v[v0, v1, v2, v3] := Vector.toList_inj.mp bytes
    have rotated : CarriesWord L n [b1, b2, b3, b0] #v[v1, v2, v3, v0] :=
      .cons h1 (.cons h2 (.cons h3 (.cons h0 .nil)))
    refine L.bind (judges_substituteBytes rotated) fun sub k le hs => ?_
    obtain ⟨s0, s1, s2, s3, _, _, _, _, rfl, bytes, h0, h1, h2, h3⟩ := bytes_of_column hs
    refine L.bind (judges_xorByte h0 (constByte _) gadgetLoc) fun x k' le' hx => ?_
    have stable := L.stable_byte
    apply finish (le.trans le')
    change L.bytes k' _ (Cipher.add (Cipher.substitute #v[v1, v2, v3, v0])
      (Cipher.roundConstant (i / keyWords))).toList
    rw [BitLogic.bytes, add_roundConstant bytes]
    exact .cons hx (.cons (stable.mono le' h1) (.cons (stable.mono le' h2)
      (.cons (stable.mono le' h3) .nil)))
  · dsimp only
    split
    · exact L.bind (judges_substituteBytes hw) fun sub k le hs => finish le hs
    · exact finish le_rfl hw

theorem forall₂_getD {ω υ : Type} {R : ω → υ → Prop} {xs : List ω} {vs : List υ}
    (h : List.Forall₂ R xs vs) {k : ℕ} (inside : k < vs.length) (x : ω) (v : υ) :
    R (xs.getD k x) (vs.getD k v) := by
  have inside' : k < xs.length := h.length_eq ▸ inside
  rw [List.getD_eq_getElem _ _ inside', List.getD_eq_getElem _ _ inside]
  exact h.get inside' inside

theorem getD_drop {υ : Type} (vs : List υ) (j k : ℕ) (v : υ) :
    (vs.drop j).getD k v = vs.getD (j + k) v := by
  rw [List.getD_eq_getElem?_getD, List.getElem?_drop, ← List.getD_eq_getElem?_getD]

/-- The schedule grows at its end, by the words that the circuit gives. The window holds the last
key length of it. -/
theorem judges_scheduleFrom {keyWords : ℕ} (positive : 0 < keyWords) (k : ℕ) {i : ℕ}
    {window : List (List Bits)} {words : List Cipher.Column} (count : words.length = i)
    (first : keyWords ≤ i) (room : i + k ≤ 11 * keyWords)
    (h : List.Forall₂ (CarriesWord L n) window (words.drop (i - keyWords))) :
    L.judges (scheduleFrom sbox keyWords k i window) n fun r m =>
      ∃ tail, Cipher.extendSchedule keyWords k words = words ++ tail ∧
        List.Forall₂ (CarriesWord L m) r tail := by
  induction k generalizing n i window words with
  | zero => exact L.pure ⟨[], by simp [Cipher.extendSchedule], .nil⟩
  | succ k ih =>
    have length : (words.drop (i - keyWords)).length = keyWords := by
      rw [List.length_drop]; omega
    have early : i / keyWords ≤ 10 := Nat.le_of_lt_succ (Nat.div_lt_of_lt_mul (by omega))
    have oldest := forall₂_getD h (k := 0) (by omega) [] (.replicate 4 0)
    have newest := forall₂_getD h (k := keyWords - 1) (by omega) [] (.replicate 4 0)
    rw [getD_drop, Nat.add_zero, ← List.headD_eq_getD] at oldest
    rw [getD_drop, show i - keyWords + (keyWords - 1) = i - 1 by omega,
      List.getD_eq_getElem?_getD, show keyWords - 1 = window.length - 1 by rw [h.length_eq, length],
      ← List.getLast?_eq_getElem?, ← List.getLastD_eq_getLast?] at newest
    rw [scheduleFrom, Cipher.extendSchedule, count]
    refine L.bind (judges_nextKeyWord positive first early oldest newest) fun word m le hw => ?_
    set w := Cipher.add (words.getD (i - keyWords) (.replicate 4 0))
      (Cipher.scheduleTerm keyWords i (words.getD (i - 1) (.replicate 4 0)))
    have next : List.Forall₂ (CarriesWord L m) (window.tail ++ [word])
        ((words ++ [w]).drop (i + 1 - keyWords)) := by
      rw [List.drop_append_of_le_length (by omega),
        show i + 1 - keyWords = i - keyWords + 1 by omega, ← List.tail_drop]
      have rest := List.forall₂_drop 1 h
      rw [List.drop_one, List.drop_one] at rest
      exact List.rel_append (stable_carriesWord.list.mono le rest) (.cons hw .nil)
    refine L.bind (ih (by simp [count]) (by omega) (by omega) next) fun rest m' le' post =>
      L.pure ?_
    obtain ⟨tail, extended, carried⟩ := post
    exact ⟨w :: tail, by rw [extended, List.append_assoc]; rfl,
      .cons (stable_carriesWord.mono le' hw) carried⟩

theorem carries_keyWords {size : KeySize} {key : Bits} {k : Vector UInt8 (4 * size.words)}
    (h : L.bytes n (chunksOf 8 key) k.toList) :
    List.Forall₂ (CarriesWord L n) (chunksOf 4 (chunksOf 8 key))
      (List.ofFn fun i : Fin size.words => .ofFn fun j =>
        k.get ⟨4 * i.val + j.val, index_lt i j⟩) := by
  have words := forall₂_chunksOf (n := 4) (by decide) h
  rw [toList_eq_ofFn, chunksOf_ofFn (by decide)] at words
  have lists : (List.ofFn fun i : Fin size.words => List.ofFn fun j : Fin 4 =>
      k[4 * i.val + j.val]) = (List.ofFn fun i : Fin size.words =>
        (.ofFn fun j => k.get ⟨4 * i.val + j.val, index_lt i j⟩ : Cipher.Column)).map
          Vector.toList := by
    rw [List.map_ofFn]
    simp only [Function.comp_def, Vector.toList_ofFn]
    rfl
  rw [lists] at words
  exact (List.forall₂_map_right_iff (f := Vector.toList)).mp words

theorem carries_roundKeys {words : List (List Bits)} {schedule : List Cipher.Column} {count : ℕ}
    (length : schedule.length = 4 * count)
    (h : List.Forall₂ (CarriesWord L n) words schedule) :
    CarriesKeys L n ((chunksOf 4 words).map List.flatten)
      ((List.range count).map (Cipher.roundKey schedule)) := by
  have runs : List.Forall₂ (L.bytes n) ((chunksOf 4 words).map List.flatten)
      ((chunksOf 4 schedule).map fun run => (run.map Vector.toList).flatten) := by
    rw [List.forall₂_map_left_iff, List.forall₂_map_right_iff]
    refine (forall₂_chunksOf (n := 4) (by decide) h).imp fun run values same => ?_
    exact List.rel_flatten ((List.forall₂_map_right_iff (f := Vector.toList)).mpr same)
  rw [Cipher.roundKeys_eq length] at runs
  rw [CarriesKeys, List.forall₂_map_right_iff]
  exact (List.forall₂_map_right_iff
    (f := fun r => (Cipher.roundKey schedule r).toList)).mp runs

theorem judges_keyExpansion (size : KeySize) {key : Bits} {k : Vector UInt8 (4 * size.words)}
    (h : L.bits n key (Layout.bytesToBits k.toList)) :
    L.judges (keyExpansion sbox size key) n fun r m => CarriesKeys L m r
      ((List.range (size.rounds + 1)).map (Cipher.roundKey (Cipher.schedule size k))) := by
  have length : key.length = 8 * size.bytes := by
    rw [List.Forall₂.length_eq h, Layout.length_bytesToBits, Vector.length_toList]; rfl
  have positive : 0 < size.words := by cases size <;> decide
  have room : size.words + (4 * (size.rounds + 1) - size.words) ≤ 11 * size.words := by
    cases size <;> decide
  have total : size.words + (4 * (size.rounds + 1) - size.words) = 4 * (size.rounds + 1) := by
    cases size <;> decide
  have initial := carries_keyWords (BitLogic.bytes_chunks h)
  rw [keyExpansion, if_pos length]
  refine L.bind (judges_scheduleFrom positive (4 * (size.rounds + 1) - size.words)
    List.length_ofFn le_rfl room (by rwa [Nat.sub_self])) fun words m le post => L.pure ?_
  obtain ⟨tail, extended, carried⟩ := post
  have schedule_eq : Cipher.schedule size k = _ ++ tail := extended
  have schedule_length : (Cipher.schedule size k).length = 4 * (size.rounds + 1) := by
    rw [Cipher.schedule, Cipher.length_extendSchedule, List.length_ofFn, total]
  apply carries_roundKeys schedule_length
  rw [schedule_eq]
  exact List.rel_append (stable_carriesWord.list.mono le initial) carried

theorem judges_encrypt {size : KeySize} {k : Vector UInt8 (4 * size.words)}
    {roundKeys : List (List Bits)} {block : List Bits} {b : Cipher.Block}
    (hk : CarriesKeys L n roundKeys
      ((List.range (size.rounds + 1)).map (Cipher.roundKey (Cipher.schedule size k))))
    (h : L.bytes n block b.toList) :
    L.judges (encryptBlock sbox roundKeys block) n
      fun r m => L.bytes m r (Cipher.encrypt size k b).toList := by
  obtain ⟨count, rounds⟩ : ∃ count, size.rounds = count + 1 := by cases size <;> exact ⟨_, rfl⟩
  rw [Cipher.encrypt_eq]
  rw [List.range_succ_eq_map, List.map_cons, List.map_map] at hk
  generalize Cipher.roundKey (Cipher.schedule size k) = key at hk ⊢
  rw [rounds, List.range_succ_eq_map, List.map_cons] at hk ⊢
  exact judges_encryptBlock hk h

/-- Expanding a key and encrypting a block gives what the cipher gives, in any session. -/
theorem encryption_of_encryptBlock (size : KeySize) (key : Bits) (block : List Bits)
    (k : Vector UInt8 (4 * size.words)) (b : Cipher.Block) :
    Computes (do encryptBlock sbox (← keyExpansion sbox size key) block) id (key :: block)
      (Layout.bytesToBits k.toList :: b.toList.map Layout.byteBits)
      ((Cipher.encrypt size k b).toList.map Layout.byteBits) := by
  refine computes_of_judges fun L n carried => ?_
  obtain ⟨hk, hb⟩ := List.forall₂_cons.mp carried
  have bytes : L.bytes n block b.toList :=
    (List.forall₂_map_right_iff (f := Layout.byteBits)).mp hb
  refine L.bind (judges_keyExpansion size hk) fun roundKeys m le keys => ?_
  refine L.weaken (judges_encrypt keys (L.stable_bytes.mono le bytes)) fun _ _ _ h => ?_
  exact List.forall₂_map_right_iff.mpr h

end RankOne.Aes
