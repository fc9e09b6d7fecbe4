import RankOne.Aes.Counter
import RankOne.ChaCha.Gadget
import RankOne.Mimc.Gadget
import RankOne.Proofs.Invariant.Gadgets

/-! The ciphers and the sponge keep every invariant of wires: their loops only pass wires on from
gadget to gadget. -/
namespace RankOne
namespace WireInvariant
variable {W : WireInvariant} {n m : ℕ}

section Aes
open Aes
variable {table : SubstitutionTable} {loc : String}

theorem keeps_pairSelectors {x y : Expr} (hx : W.Ok n x) (hy : W.Ok n y) :
    W.Keeps (pairSelectors x y loc) n := by
  refine (keeps_mul hx hy _ loc).bind fun p m le hp => Keeps.pure ?_
  have one : W.Ok m (1 : Expr) := W.const m 1
  have hx := hx.mono le
  have hy := hy.mono le
  simp only [ok_cons, ok_nil, and_true]
  exact ⟨ok_plus (ok_minus (ok_minus one hx) hy) hp, ok_minus hx hp, ok_minus hy hp, hp⟩

theorem keeps_nibbleSelectors {a b c d : Bit} (ha : W.Ok n a) (hb : W.Ok n b) (hc : W.Ok n c)
    (hd : W.Ok n d) : W.Keeps (nibbleSelectors a b c d loc) n := by
  have expr {x : Bit} {k : ℕ} (h : W.Ok k x) : W.Ok k x.expr := W.ofBit h
  refine (keeps_pairSelectors (expr ha) (expr hb)).bind fun low m le hl => ?_
  refine (keeps_pairSelectors (expr (hc.mono le)) (expr (hd.mono le))).bind fun high k le' hh => ?_
  have pairs : W.Ok k (high.flatMap fun h => low.map fun l => (l, h)) := by
    rw [List.flatMap_def, ok_flatten]
    exact hh.map fun h okH => (hl.mono le').map fun l okL => ok_pair.mpr ⟨okL, okH⟩
  exact Keeps.mapM pairs fun p k _ hp => keeps_mul hp.1 hp.2 _ loc

theorem keeps_selectEntry {rows : List (List Fr)} {columns selectors : List Expr}
    (hc : W.Ok n columns) (hs : W.Ok n selectors) :
    W.Keeps (selectEntry rows columns selectors loc) n := by
  have constants : W.Ok n rows := fun _ _ _ _ => trivial
  refine Keeps.foldlM (hs.zip constants) (W.const n 0) fun entry row m le he hr => ?_
  have value : W.Ok m (Expr.linearCombination (row.2.zip columns)) :=
    ok_linearCombination fun t member => hc.mono le t.2 (List.of_mem_zip member).2
  refine (keeps_mul hr.1 value _ loc).bind fun selected k le' hk => ?_
  exact Keeps.pure (ok_plus (he.mono le') hk)

theorem keeps_substitute {byte : Bits} (h : W.Ok n byte) :
    W.Keeps (substitute table byte loc) n := by
  unfold substitute
  split
  · split
    · exact Keeps.pure (ok_constBits _)
    · simp only [ok_cons, ok_nil, and_true] at h
      obtain ⟨h0, h1, h2, h3, h4, h5, h6, h7⟩ := h
      refine (keeps_nibbleSelectors h0 h1 h2 h3).bind fun low m le hl => ?_
      refine (keeps_nibbleSelectors (h4.mono le) (h5.mono le) (h6.mono le) (h7.mono le)).bind
        fun high k le' hh => ?_
      refine (keeps_selectEntry (hl.mono le') hh).bind fun entry _ _ he => ?_
      exact keeps_ofExpr he 8 loc
  · exact Keeps.reject _

variable {bytes a b : List Bits}

theorem keeps_substituteBytes (h : W.Ok n bytes) : W.Keeps (substituteBytes table bytes) n :=
  Keeps.mapM h fun _ _ _ hb => keeps_substitute hb

theorem keeps_xorBytes (ha : W.Ok n a) (hb : W.Ok n b) : W.Keeps (xorBytes a b) n :=
  Keeps.mapM (ha.zip hb) fun _ _ _ hp => keeps_bitsXor hp.1 hp.2 gadgetLoc

theorem keeps_nextKeyWord (keyWords i : ℕ) (ha : W.Ok n a) (hb : W.Ok n b) :
    W.Keeps (nextKeyWord table keyWords i a b) n := by
  have finish {mixed : List Bits} {m : ℕ} (le : n ≤ m) (hm : W.Ok m mixed) :
      W.Keeps (xorBytes a mixed) m := keeps_xorBytes (ha.mono le) hm
  unfold nextKeyWord
  dsimp only
  split
  · refine (keeps_substituteBytes (hb.rotateLeft 1)).bind fun word m le hw => ?_
    split
    · obtain ⟨first, rest⟩ := ok_cons.mp hw
      refine (keeps_bitsXor first (ok_constBits _) gadgetLoc).bind fun sum k le' hs => ?_
      exact finish (le.trans le') (ok_cons.mpr ⟨hs, rest.mono le'⟩)
    · exact Keeps.bind (Keeps.reject _) fun _ _ le' hm => finish (le.trans le') hm
  · split
    · exact (keeps_substituteBytes hb).bind fun _ _ le hm => finish le hm
    · exact finish (le_refl n) hb

theorem keeps_scheduleFrom (keyWords k i : ℕ) {window : List (List Bits)} (h : W.Ok n window) :
    W.Keeps (scheduleFrom table keyWords k i window) n := by
  induction k generalizing i window n with
  | zero => exact Keeps.pure ok_nil
  | succ k ih =>
    have oldest : W.Ok n (window.headD []) := by
      cases window with
      | nil => exact ok_nil
      | cons first rest => exact (ok_cons.mp h).1
    have newest : W.Ok n (window.getLastD []) := by
      cases window with
      | nil => exact ok_nil
      | cons first rest => exact h _ (List.getLast_mem _)
    refine (keeps_nextKeyWord keyWords i oldest newest).bind fun word m le hw => ?_
    have moved : W.Ok m (window.tail ++ [word]) :=
      ok_append.mpr ⟨(h.subset (List.tail_subset window)).mono le, ok_cons.mpr ⟨hw, ok_nil⟩⟩
    refine (ih (i + 1) moved).bind fun words _ le' hs => ?_
    exact Keeps.pure (ok_cons.mpr ⟨hw.mono le', hs⟩)

theorem keeps_keyExpansion (size : KeySize) {key : Bits} (h : W.Ok n key) :
    W.Keeps (keyExpansion table size key) n := by
  unfold keyExpansion
  split
  · have words := (h.chunksOf 8).chunksOf 4
    refine (keeps_scheduleFrom size.words _ _ words).bind fun more m le hm => Keeps.pure ?_
    have all : W.Ok m (chunksOf 4 (chunksOf 8 key) ++ more) := ok_append.mpr ⟨words.mono le, hm⟩
    exact (all.chunksOf 4).map fun _ => ok_flatten.mpr
  · exact Keeps.reject _

theorem keeps_shiftRows (h : W.Ok n bytes) : W.Keeps (shiftRows bytes) n := by
  have indices : W.Ok n (List.range blockBytes) := fun _ _ => trivial
  refine Keeps.mapM indices fun k m le _ => ?_
  dsimp only
  split
  · exact Keeps.pure ((h.mono le).get ‹_›)
  · exact Keeps.reject _

theorem keeps_double {byte : Bits} (h : W.Ok n byte) : W.Keeps (double byte) n := by
  unfold double
  split
  · simp only [ok_cons, ok_nil, and_true] at h
    obtain ⟨h0, h1, h2, h3, h4, h5, h6, h7⟩ := h
    refine (keeps_bitXor h7 h0 gadgetLoc).bind fun b1 m le hb1 => ?_
    refine (keeps_bitXor (h7.mono le) (h2.mono le) gadgetLoc).bind fun b3 k le' hb3 => ?_
    have le₂ := le.trans le'
    refine (keeps_bitXor (h7.mono le₂) (h3.mono le₂) gadgetLoc).bind fun b4 l le'' hb4 => ?_
    have le₃ := le₂.trans le''
    apply Keeps.pure
    simp only [ok_cons, ok_nil, and_true]
    exact ⟨h7.mono le₃, (hb1.mono le').mono le'', h1.mono le₃, hb3.mono le'', hb4, h4.mono le₃,
      h5.mono le₃, h6.mono le₃⟩
  · exact Keeps.reject _

theorem keeps_mixByte {sum byte below : Bits} (hs : W.Ok n sum) (hb : W.Ok n byte)
    (hl : W.Ok n below) : W.Keeps (mixByte sum byte below) n := by
  refine (keeps_bitsXor hb hl gadgetLoc).bind fun both m le hm => ?_
  refine (keeps_double hm).bind fun doubled k le' hd => ?_
  have le₂ := le.trans le'
  refine (keeps_bitsXor (hb.mono le₂) (hs.mono le₂) gadgetLoc).bind fun others l le'' ho => ?_
  exact keeps_bitsXor ho (hd.mono le'') gadgetLoc

theorem keeps_mixColumn (h : W.Ok n bytes) : W.Keeps (mixColumn bytes) n := by
  unfold mixColumn
  split
  · rename_i a b c d
    simp only [ok_cons, ok_nil, and_true] at h
    obtain ⟨ha, hb, hc, hd⟩ := h
    refine (keeps_bitsXor ha hb gadgetLoc).bind fun ab m le hs => ?_
    refine (keeps_bitsXor hs (hc.mono le) gadgetLoc).bind fun abc k le' hs => ?_
    have le₂ := le.trans le'
    refine (keeps_bitsXor hs (hd.mono le₂) gadgetLoc).bind fun sum l le'' hs => ?_
    have le₃ := le₂.trans le''
    have ha := ha.mono le₃
    have hb := hb.mono le₃
    have hc := hc.mono le₃
    have hd := hd.mono le₃
    have pairs : W.Ok l [(a, b), (b, c), (c, d), (d, a)] := by
      simp only [ok_cons, ok_nil, ok_pair, and_true]
      exact ⟨⟨ha, hb⟩, ⟨hb, hc⟩, ⟨hc, hd⟩, hd, ha⟩
    exact Keeps.mapM pairs fun p j le₄ hp => keeps_mixByte (hs.mono le₄) hp.1 hp.2
  · exact Keeps.reject _

theorem keeps_mixColumns (h : W.Ok n bytes) : W.Keeps (mixColumns bytes) n :=
  (Keeps.mapM (h.chunksOf 4) fun _ _ _ hc => keeps_mixColumn hc).map fun _ _ => ok_flatten.mpr

theorem keeps_encryptRounds {keys : List (List Bits)} (hk : W.Ok n keys) (h : W.Ok n bytes) :
    W.Keeps (encryptRounds table keys bytes) n := by
  induction keys generalizing bytes n with
  | nil => exact Keeps.pure h
  | cons key keys ih =>
    obtain ⟨first, rest⟩ := ok_cons.mp hk
    cases keys with
    | nil =>
      refine (keeps_substituteBytes h).bind fun _ m le hs => ?_
      refine (keeps_shiftRows hs).bind fun _ k le' hs => ?_
      exact keeps_xorBytes hs (first.mono (le.trans le'))
    | cons next keys =>
      refine (keeps_substituteBytes h).bind fun _ m le hs => ?_
      refine (keeps_shiftRows hs).bind fun _ k le' hs => ?_
      refine (keeps_mixColumns hs).bind fun _ l le'' hm => ?_
      have le₃ := (le.trans le').trans le''
      refine (keeps_xorBytes hm (first.mono le₃)).bind fun _ _ le₄ hx => ?_
      exact ih (rest.mono (le₃.trans le₄)) hx

theorem keeps_encryptBlock {keys : List (List Bits)} (hk : W.Ok n keys) (h : W.Ok n bytes) :
    W.Keeps (encryptBlock table keys bytes) n := by
  unfold encryptBlock
  split
  · split
    · obtain ⟨whitening, rest⟩ := ok_cons.mp hk
      refine (keeps_xorBytes h whitening).bind fun state m le hs => ?_
      exact keeps_encryptRounds (rest.mono le) hs
    · exact Keeps.reject _
  · exact Keeps.reject _

theorem keeps_keystream {keys : List (List Bits)} {iv : List Bits} (hk : W.Ok n keys)
    (hv : W.Ok n iv) (blocks : ℕ) (counter : UInt32) :
    W.Keeps (keystream keys iv blocks counter) n := by
  induction blocks generalizing counter n with
  | zero => exact Keeps.pure ok_nil
  | succ blocks ih =>
    have suffix : W.Ok n (chunksOf 8 (Bits.constBytes (Layout.wordBytesMsb counter))) :=
      (ok_constBits (Layout.bytesToBits _)).chunksOf 8
    refine (keeps_encryptBlock hk (ok_append.mpr ⟨hv, suffix⟩)).bind fun block m le hb => ?_
    refine (ih (hk.mono le) (hv.mono le) _).bind fun rest k le' hr => ?_
    exact Keeps.pure (ok_append.mpr ⟨hb.mono le', hr⟩)

theorem keeps_counterXor (size : KeySize) {key iv message : Bits} (counter : UInt32)
    (hk : W.Ok n key) (hv : W.Ok n iv) (hm : W.Ok n message) :
    W.Keeps (counterXor size key iv counter message loc) n := by
  unfold counterXor
  dsimp only
  split
  · exact Keeps.reject _
  · split
    · exact Keeps.reject _
    · split
      · exact Keeps.pure ok_nil
      · split
        · exact Keeps.reject _
        · refine (keeps_keyExpansion size hk).bind fun keys m le hk => ?_
          refine (keeps_keystream hk ((hv.mono le).chunksOf 8) _ _).bind fun stream k le' hs => ?_
          exact keeps_bitsXor (hm.mono (le.trans le')) ((ok_flatten.mpr hs).take _) loc

end Aes

section ChaCha
open ChaCha
variable {state key nonce words : List Word} {counter : Word} {loc : String}

theorem keeps_wordAt (h : W.Ok n state) (i : ℕ) : W.Keeps (wordAt state i) n := by
  unfold wordAt
  split
  · exact Keeps.pure (h.get ‹_›)
  · exact Keeps.reject _

theorem keeps_lineGadget (h : W.Ok n state) (x y z k : ℕ) :
    W.Keeps (lineGadget state x y z k) n := by
  refine (keeps_wordAt h x).bind fun a m₁ le hx => ?_
  have h := h.mono le
  refine (keeps_wordAt h z).bind fun b m₂ le hz => ?_
  have h := h.mono le
  refine (keeps_add (hx.mono le) hz gadgetLoc).bind fun sum m₃ le hs => ?_
  have h := (h.mono le).set x hs
  refine (keeps_wordAt h y).bind fun c m₄ le hy => ?_
  have h := h.mono le
  refine (keeps_wordAt h x).bind fun d m₅ le hd => ?_
  have h := h.mono le
  refine (keeps_wordXor (hy.mono le) hd gadgetLoc).bind fun mixed m₆ le hm => ?_
  exact Keeps.pure ((h.mono le).set y (ok_wordRotateLeft hm k))

theorem keeps_quarterRound (h : W.Ok n state) (a b c d : ℕ) :
    W.Keeps (quarterRoundGadget state a b c d) n := by
  refine (keeps_lineGadget h a d b _).bind fun state _ _ h => ?_
  refine (keeps_lineGadget h c b d _).bind fun state _ _ h => ?_
  refine (keeps_lineGadget h a d b _).bind fun state _ _ h => ?_
  exact keeps_lineGadget h c b d _

instance : Wired Quarter := ⟨fun _ _ _ => True, fun _ h => h⟩

theorem keeps_roundsGadget (h : W.Ok n state) : W.Keeps (roundsGadget state) n := by
  have indices : W.Ok n schedule := fun _ _ => trivial
  exact Keeps.foldlM indices h fun state q _ _ h _ => keeps_quarterRound h q.a q.b q.c q.d

theorem keeps_checkLength (what : String) (expected : ℕ) (words : List Word) :
    W.Keeps (checkLength what expected words) n := by
  unfold checkLength
  split
  · exact Keeps.pure trivial
  · exact Keeps.reject _

theorem keeps_blockGadget (hk : W.Ok n key) (hc : W.Ok n counter) (hn : W.Ok n nonce) :
    W.Keeps (blockGadget key counter nonce) n := by
  refine (keeps_checkLength _ _ key).bind fun _ m le _ => ?_
  refine (keeps_checkLength _ _ nonce).bind fun _ k le' _ => ?_
  have le₂ := le.trans le'
  have fixed : W.Ok k (constants.toList.map Word.const) := by
    intro word member
    obtain ⟨v, -, rfl⟩ := List.mem_map.mp member
    exact ok_word v
  have start : W.Ok k (constants.toList.map Word.const ++ key ++ [counter] ++ nonce) := by
    simp only [ok_append, ok_cons, ok_nil, and_true]
    exact ⟨⟨⟨fixed, hk.mono le₂⟩, hc.mono le₂⟩, hn.mono le₂⟩
  refine (keeps_roundsGadget start).bind fun mixed l le'' hm => ?_
  exact Keeps.mapM (hm.zip (start.mono le'')) fun _ _ _ hp => keeps_add hp.1 hp.2 gadgetLoc

theorem keeps_xorBlock (hk : W.Ok n key) (hn : W.Ok n nonce) (hc : W.Ok n counter)
    (hw : W.Ok n words) : W.Keeps (xorBlock key nonce counter words loc) n := by
  refine (keeps_blockGadget hk hc hn).bind fun stream m le hs => ?_
  exact Keeps.mapM ((hw.mono le).zip hs) fun _ _ _ hp => keeps_wordXor hp.1 hp.2 loc

theorem keeps_xorBlocks {chunks : List (List Word)} (hk : W.Ok n key) (hn : W.Ok n nonce)
    (hc : W.Ok n counter) (h : W.Ok n chunks) :
    W.Keeps (xorBlocks key nonce loc counter chunks) n := by
  induction chunks generalizing counter n with
  | nil => exact Keeps.pure ok_nil
  | cons chunk chunks ih =>
    obtain ⟨first, rest⟩ := ok_cons.mp h
    cases chunks with
    | nil => exact keeps_xorBlock hk hn hc first
    | cons next chunks =>
      refine (keeps_xorBlock hk hn hc first).bind fun out m le ho => ?_
      refine (keeps_add (hc.mono le) (ok_word 1) loc).bind fun counter k le' hc => ?_
      have le₂ := le.trans le'
      refine (ih (hk.mono le₂) (hn.mono le₂) hc (rest.mono le₂)).bind fun more l le'' hm => ?_
      exact Keeps.pure (ok_append.mpr ⟨ho.mono (le'.trans le''), hm⟩)

theorem keeps_xorWords (hk : W.Ok n key) (hn : W.Ok n nonce) (hc : W.Ok n counter)
    (hw : W.Ok n words) : W.Keeps (xorWords key nonce counter words loc) n :=
  keeps_xorBlocks hk hn hc (hw.chunksOf _)

theorem keeps_wordsOf {bits : Bits} (h : W.Ok n bits) : W.Keeps (wordsOf bits) n :=
  Keeps.mapM (h.chunksOf 32) fun _ _ _ hb => keeps_wordOfBits hb

theorem keeps_xorBitBlock {message : Bits} (hk : W.Ok n key) (hn : W.Ok n nonce)
    (hc : W.Ok n counter) (hm : W.Ok n message) :
    W.Keeps (xorBitBlock key nonce counter message loc) n := by
  refine (keeps_blockGadget hk hc hn).bind fun stream m le hs => ?_
  have bits : W.Ok m (stream.flatMap Word.bits) := by
    rw [List.flatMap_def, ok_flatten]
    exact hs.map fun _ h => h
  exact keeps_bitsXor (hm.mono le) (bits.take _) loc

theorem keeps_xorBitBlocks {chunks : List Bits} (hk : W.Ok n key) (hn : W.Ok n nonce)
    (hc : W.Ok n counter) (h : W.Ok n chunks) :
    W.Keeps (xorBitBlocks key nonce loc counter chunks) n := by
  induction chunks generalizing counter n with
  | nil => exact Keeps.pure ok_nil
  | cons chunk chunks ih =>
    obtain ⟨first, rest⟩ := ok_cons.mp h
    cases chunks with
    | nil => exact keeps_xorBitBlock hk hn hc first
    | cons next chunks =>
      refine (keeps_xorBitBlock hk hn hc first).bind fun out m le ho => ?_
      refine (keeps_add (hc.mono le) (ok_word 1) loc).bind fun counter k le' hc => ?_
      have le₂ := le.trans le'
      refine (ih (hk.mono le₂) (hn.mono le₂) hc (rest.mono le₂)).bind fun more l le'' hm => ?_
      exact Keeps.pure (ok_append.mpr ⟨ho.mono (le'.trans le''), hm⟩)

theorem keeps_xorBits {key nonce message : Bits} (hk : W.Ok n key) (hn : W.Ok n nonce)
    (hc : W.Ok n counter) (hm : W.Ok n message) :
    W.Keeps (xorBits key nonce counter message loc) n := by
  unfold xorBits
  split
  · exact Keeps.reject _
  · split
    · exact Keeps.reject _
    · refine (keeps_wordsOf hk).bind fun key m le hk => ?_
      refine (keeps_wordsOf (hn.mono le)).bind fun nonce k le' hn => ?_
      have le₂ := le.trans le'
      exact keeps_xorBitBlocks (hk.mono le') hn (hc.mono le₂) ((hm.mono le₂).chunksOf _)

end ChaCha

section Mimc
open Mimc
variable {params : Params} {x : Expr} {state : Expr × Expr} {loc : String}

theorem keeps_powFrom {res : Expr} (hx : W.Ok n x) (hr : W.Ok n res) (exponent k : ℕ) :
    W.Keeps (x.powFrom exponent loc k res) n := by
  induction k generalizing res n with
  | zero => exact Keeps.pure hr
  | succ k ih =>
    refine (keeps_square hr loc).bind fun squared m le hs => ?_
    have hx := hx.mono le
    dsimp only
    split
    · exact (keeps_mul hs hx _ loc).bind fun _ _ le hp => ih (hx.mono le) hp
    · exact ih hx hs

theorem keeps_pow (hx : W.Ok n x) (exponent : ℕ) : W.Keeps (x.pow exponent loc) n := by
  unfold Expr.pow
  split
  · exact Keeps.pure (W.const n 1)
  · exact keeps_powFrom hx hx _ _

theorem keeps_gadgetRounds (constants : List Fr) (h : W.Ok n state) :
    W.Keeps (gadgetRounds params constants state) n := by
  induction constants generalizing state n with
  | nil => exact Keeps.pure h
  | cons c constants ih =>
    obtain ⟨left, right⟩ := state
    obtain ⟨hl, hr⟩ := ok_pair.mp h
    have input : W.Ok n (left + .const (params.key + c)) := ok_plus hl (W.const n _)
    cases constants with
    | nil =>
      refine (keeps_pow input _).bind fun t m le ht => ?_
      exact Keeps.pure (ok_pair.mpr ⟨hl.mono le, ok_plus (hr.mono le) ht⟩)
    | cons next constants =>
      refine (keeps_pow input _).bind fun t m le ht => ?_
      exact ih (ok_pair.mpr ⟨ok_plus (hr.mono le) ht, hl.mono le⟩)

theorem keeps_feistelGadget (h : W.Ok n state) : W.Keeps (feistelGadget params state) n :=
  keeps_gadgetRounds params.constants h

theorem keeps_squeezeGadget (outputs : ℕ) (h : W.Ok n state) :
    W.Keeps (squeezeGadget params outputs state) n := by
  induction outputs generalizing state n with
  | zero => exact Keeps.pure ok_nil
  | succ outputs ih =>
    cases outputs with
    | zero => exact Keeps.pure (ok_cons.mpr ⟨h.1, ok_nil⟩)
    | succ outputs =>
      refine (keeps_feistelGadget h).bind fun next m le hn => ?_
      refine (ih hn).bind fun rest k le' hr => ?_
      exact Keeps.pure (ok_cons.mpr ⟨h.1.mono (le.trans le'), hr⟩)

theorem keeps_spongeGadget {inputs : List Expr} (h : W.Ok n inputs) (outputs : ℕ) :
    W.Keeps (spongeGadget params inputs outputs) n := by
  have start : W.Ok n ((0, 0) : Expr × Expr) := ok_pair.mpr ⟨W.const n 0, W.const n 0⟩
  refine Keeps.bind ?_ fun state m _ hs => keeps_squeezeGadget outputs hs
  exact Keeps.foldlM h start fun state x m _ hs hx =>
    keeps_feistelGadget (ok_pair.mpr ⟨ok_plus hs.1 hx, hs.2⟩)

end Mimc
end WireInvariant
end RankOne
