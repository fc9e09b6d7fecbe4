import RankOne.Word
import RankOne.Proofs.Invariant.Basic

/-! Every gadget keeps every invariant of wires. -/
namespace RankOne
namespace WireInvariant
variable {W : WireInvariant} {n m : ℕ}

section Bits
variable {a b : Bit} {bits bits' : Bits}

theorem keeps_bitAnd (ha : W.Ok n a) (hb : W.Ok n b) (loc : String) : W.Keeps (a.and b loc) n := by
  have mono {x : Bit} (h : W.Ok n x) : W.Ok (n + 1) x := h.mono (Nat.le_succ n)
  obtain ⟨x⟩ := a
  obtain ⟨y⟩ := b
  unfold Bit.and Expr.mul
  dsimp only
  split
  · exact Keeps.pure (W.bitScaled ha hb)
  · exact Keeps.pure (W.bitScaled hb ha)
  · have fresh : W.Ok (n + 1) (Expr.var n) := W.var (Nat.lt_succ_self n)
    refine Keeps.witness (Keeps.constrain ?_ fun granted => Keeps.pure ?_)
    · exact List.forall_mem_singleton.mpr ⟨W.ofBit (mono ha), W.ofBit (mono hb), fresh⟩
    · exact W.bitProduct (mono ha) (mono hb) fresh (granted _ (List.mem_singleton_self _))

theorem keeps_bitXor (ha : W.Ok n a) (hb : W.Ok n b) (loc : String) : W.Keeps (a.xor b loc) n := by
  have mono {x : Bit} (h : W.Ok n x) : W.Ok (n + 1) x := h.mono (Nat.le_succ n)
  unfold Bit.xor
  split
  · exact Keeps.pure (W.bitNot hb)
  · exact Keeps.pure (W.bitNot ha)
  · exact Keeps.pure hb
  · exact Keeps.pure ha
  · have exprA : W.Ok (n + 1) a.expr := W.ofBit (mono ha)
    have exprB : W.Ok (n + 1) b.expr := W.ofBit (mono hb)
    have fresh : W.Ok (n + 1) (Expr.var n) := W.var (Nat.lt_succ_self n)
    refine Keeps.witness (Keeps.constrain ?_ fun granted => Keeps.pure ?_)
    · exact List.forall_mem_singleton.mpr
        ⟨ok_plus exprA exprA, exprB, ok_minus (ok_plus exprA exprB) fresh⟩
    · exact W.bitXor (mono ha) (mono hb) fresh (granted _ (List.mem_singleton_self _))

theorem ok_constBits (bs : List Bool) : W.Ok n (Bits.const bs) := by
  intro b member
  obtain ⟨v, -, rfl⟩ := List.mem_map.mp member
  exact W.bitConst n v

theorem ok_bitsNot (h : W.Ok n bits) : W.Ok n (Bits.not bits) := h.map fun _ => W.bitNot

theorem ok_reverseInBytes (h : W.Ok n bits) : W.Ok n (Bits.reverseInBytes bits) := by
  rw [Bits.reverseInBytes, List.flatMap_def, ok_flatten]
  exact (h.chunksOf 8).map fun chunk hc => hc.subset (List.reverse_subset.mpr (List.Subset.refl _))

theorem ok_weigh (c : Fr) (h : W.Ok n bits) : ∀ t ∈ Bits.weigh c bits, W.Ok n t.2 := by
  induction bits generalizing c with
  | nil => simp [Bits.weigh]
  | cons b bits ih =>
    obtain ⟨head, tail⟩ := ok_cons.mp h
    exact List.forall_mem_cons.mpr ⟨W.ofBit head, ih _ tail⟩

theorem ok_toExpr (h : W.Ok n bits) : W.Ok n (Bits.toExpr bits) :=
  ok_linearCombination (ok_weigh 1 h)

def okVar (W : WireInvariant) (n : ℕ) : (s : Shape) → s.Var → Prop
  | .field, e => W.Ok n e
  | .bit, b => W.Ok n b
  | .unit, () => True
  | .pair a b, (x, y) => okVar W n a x ∧ okVar W n b y

instance (s : Shape) : Wired s.Var where
  Ok W n := okVar W n s
  mono {W n m v} le h := by
    induction s with
    | field => exact Ok.mono h le
    | bit => exact Ok.mono h le
    | unit => trivial
    | pair a b iha ihb => exact ⟨iha h.1, ihb h.2⟩

/-- The variables of a new value satisfy the invariant of expressions, and that of bits where the
constraints of the shape are granted. -/
theorem okVar_varsFrom {s : Shape} {i : ℕ} (inside : i + s.size ≤ n) :
    W.Ok n (s.constraints (s.varsFrom i)) ∧
      ((∀ k ∈ s.constraints (s.varsFrom i), W.granted k) → W.Ok n (s.varsFrom i)) := by
  induction s generalizing i with
  | field => exact ⟨ok_nil, fun _ => W.var inside⟩
  | bit =>
    have fresh : W.Ok n (Expr.var i) := W.var inside
    exact ⟨List.forall_mem_singleton.mpr fresh,
      fun granted => W.bitChecked fresh (granted _ (List.mem_singleton_self _))⟩
  | unit => exact ⟨ok_nil, fun _ => trivial⟩
  | pair a b iha ihb =>
    rw [Shape.size] at inside
    obtain ⟨first, okA⟩ := iha (i := i) (by omega)
    obtain ⟨second, okB⟩ := ihb (i := i + a.size) (by omega)
    refine ⟨ok_append.mpr ⟨first, second⟩, fun granted => ?_⟩
    obtain ⟨left, right⟩ := List.forall_mem_append.mp granted
    exact ⟨okA left, okB right⟩

theorem keeps_compute (s : Shape) (loc : String)
    (hint : Witness → Except RuntimeError s.Value) :
    W.Keeps (Circuit.compute s loc hint) n := by
  have fresh : n + s.size ≤ n + 1 * s.size := by omega
  obtain ⟨constraints, ok⟩ := okVar_varsFrom (W := W) fresh
  exact Keeps.witness (Keeps.constrain constraints fun granted => Keeps.pure (ok granted))

theorem keeps_computeMany (s : Shape) (len : ℕ) (loc : String)
    (hint : Witness → Except RuntimeError (List s.Value)) :
    W.Keeps (Circuit.computeMany s len loc hint) n := by
  have fresh (i : ℕ) (h : i < len) := okVar_varsFrom (W := W) (s := s) (n := n + len * s.size)
    (i := n + i * s.size) (by
      have := Nat.mul_le_mul_right s.size (Nat.succ_le_of_lt h)
      rw [Nat.succ_mul] at this
      omega)
  refine Keeps.witness (Keeps.constrain ?_ fun granted => Keeps.pure ?_)
  · intro k member
    simp only [List.mem_flatMap, List.mem_map, List.mem_range] at member
    obtain ⟨v, ⟨i, inside, rfl⟩, member⟩ := member
    exact (fresh i inside).1 k member
  · intro v member
    obtain ⟨i, inside, rfl⟩ := List.mem_map.mp member
    refine (fresh i (List.mem_range.mp inside)).2 fun k hk => granted k ?_
    exact List.mem_flatMap.mpr ⟨_, member, hk⟩

theorem keeps_witness (len : ℕ) (value : Option (List Bool)) (loc : String) :
    W.Keeps (Bits.witness len value loc) n := keeps_computeMany .bit len loc _

theorem keeps_size (k : ℕ) : W.Keeps (Circuit.size k) n := by
  unfold Circuit.size
  split
  · exact Keeps.pure trivial
  · exact Keeps.reject _

theorem keeps_witnessBytes (what : String) (len : ℕ) (value : Option (List UInt8))
    (loc : String) : W.Keeps (Bits.witnessBytes what len value loc) n := by
  unfold Bits.witnessBytes
  split
  · split
    · exact (keeps_size _).bind fun k m _ _ => keeps_witness k _ loc
    · exact Keeps.fail _
  · exact (keeps_size _).bind fun k m _ _ => keeps_witness k _ loc

theorem keeps_ofExpr {x : Expr} (h : W.Ok n x) (width : ℕ) (loc : String) :
    W.Keeps (Bits.ofExpr x width loc) n := by
  unfold Bits.ofExpr
  split
  · exact (keeps_size _).bind fun _ _ _ _ => Keeps.reject _
  · split
    · split
      · exact Keeps.pure (ok_constBits _)
      · exact Keeps.reject _
    · refine (keeps_computeMany .bit width loc _).bind fun bits m le hb => ?_
      refine (keeps_assertEquals (ok_toExpr hb) (h.mono le) loc).bind fun _ k le' _ => ?_
      exact Keeps.pure (hb.mono le')

theorem keeps_zipWith {op : Bit → Bit → Circuit Bit} (what : String) (h : W.Ok n bits)
    (h' : W.Ok n bits') (step : ∀ a b m, W.Ok m a → W.Ok m b → W.Keeps (op a b) m) :
    W.Keeps (Bits.zipWith what op bits bits') n := by
  unfold Bits.zipWith
  split
  · exact Keeps.mapM (h.zip h') fun p m _ hp => step p.1 p.2 m hp.1 hp.2
  · exact Keeps.reject _

theorem keeps_bitsXor (h : W.Ok n bits) (h' : W.Ok n bits') (loc : String) :
    W.Keeps (Bits.xor bits bits' loc) n :=
  keeps_zipWith _ h h' fun _ _ _ ha hb => keeps_bitXor ha hb loc

theorem keeps_bitsAnd (h : W.Ok n bits) (h' : W.Ok n bits') (loc : String) :
    W.Keeps (Bits.and bits bits' loc) n :=
  keeps_zipWith _ h h' fun _ _ _ ha hb => keeps_bitAnd ha hb loc

theorem keeps_chunks (k : ℕ) (h : W.Ok n bits) : W.Keeps (Bits.chunks k bits) n := by
  unfold Bits.chunks
  split
  · exact Keeps.reject _
  · exact Keeps.pure (h.chunksOf k)

theorem keeps_pack (chunk : ℕ) (h : W.Ok n bits) : W.Keeps (Bits.pack chunk bits) n := by
  unfold Bits.pack
  split
  · exact Keeps.reject _
  · split
    · exact (keeps_size _).bind fun _ _ _ _ => Keeps.reject _
    · exact Keeps.pure ((h.chunksOf chunk).map fun _ => ok_toExpr)

end Bits

section Words
variable {a b : Word} {words : List Word}

instance : Wired Word := ⟨fun W n word => W.Ok n word.bits, fun le h => Ok.mono h le⟩

theorem ok_word (v : UInt32) : W.Ok n (Word.const v) := ok_constBits _

theorem keeps_wordWitness (value : Option UInt32) (loc : String) :
    W.Keeps (Word.witness value loc) n :=
  (keeps_witness _ _ loc).map fun _ _ h => h

theorem keeps_wordWitnesses (len : ℕ) (values : List UInt32) (loc : String) :
    W.Keeps (Word.witnesses len values loc) n := by
  induction len generalizing values n with
  | zero => exact Keeps.pure ok_nil
  | succ len ih =>
    refine (keeps_wordWitness _ loc).bind fun word m _ h => ?_
    exact (ih _).bind fun rest k le hr => Keeps.pure (ok_cons.mpr ⟨h.mono le, hr⟩)

theorem keeps_wordOfBits {bits : Bits} (h : W.Ok n bits) : W.Keeps (Word.ofBits bits) n := by
  unfold Word.ofBits
  split
  · exact Keeps.pure h
  · exact Keeps.reject _

theorem ok_wordToExpr (h : W.Ok n a) : W.Ok n a.toExpr := ok_toExpr h

theorem keeps_wordXor (ha : W.Ok n a) (hb : W.Ok n b) (loc : String) : W.Keeps (a.xor b loc) n :=
  (keeps_bitsXor ha hb loc).map fun _ _ h => h

theorem ok_wordRotateLeft (h : W.Ok n a) (k : ℕ) : W.Ok n (a.rotateLeft k) :=
  have bits : W.Ok n a.bits := h
  bits.rotateRight k

theorem keeps_addMany (h : W.Ok n words) (loc : String) : W.Keeps (Word.addMany words loc) n := by
  unfold Word.addMany
  split
  · exact Keeps.pure (ok_word 0)
  · have sum := ok_sum (h.map fun _ => ok_wordToExpr)
    exact (keeps_ofExpr sum _ loc).bind fun bits m _ hb => keeps_wordOfBits (hb.take _)

theorem keeps_add (ha : W.Ok n a) (hb : W.Ok n b) (loc : String) : W.Keeps (a.add b loc) n :=
  keeps_addMany (ok_cons.mpr ⟨ha, ok_cons.mpr ⟨hb, ok_nil⟩⟩) loc

end Words
end WireInvariant
end RankOne
