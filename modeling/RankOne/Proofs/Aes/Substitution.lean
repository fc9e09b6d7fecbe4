import RankOne.Aes.Substitution
import RankOne.Proofs.Computes

/-! Byte substitution as a circuit. The selectors are one at the value of their bits and zero
elsewhere, so that the selected entry is the one looked up. The table need not be a permutation, and
the bits of the byte may be folded one by one. -/
namespace RankOne
open Circuit
variable {L : BitLogic} {n m : ℕ}

theorem getD_chunksOf {υ : Type} {k : ℕ} (positive : 0 < k) (d : υ) (xs : List υ) (r : ℕ) {c : ℕ}
    (h : c < k) : ((chunksOf k xs).getD r []).getD c d = xs.getD (k * r + c) d := by
  induction xs using chunksOf_induction positive generalizing r with
  | nil => simp
  | step xs nonempty ih =>
    rw [chunksOf_of_ne_nil positive nonempty]
    cases r with
    | zero => simp [List.getD_eq_getElem?_getD, h]
    | succ r =>
      rw [List.getD_cons_succ, ih, List.getD_eq_getElem?_getD, List.getElem?_drop,
        List.getD_eq_getElem?_getD, Nat.mul_succ]
      congr 2
      omega

namespace Aes

/-- One at position `k` and zero at the others, `len` of them. -/
def oneHot (len k : ℕ) : List Fr := (List.range len).map fun i => Fr.ofBool (decide (i = k))

theorem oneHot_succ (len k : ℕ) : oneHot (len + 1) (k + 1) = 0 :: oneHot len k := by
  simp [oneHot, List.range_succ_eq_map, Fr.ofBool]

/-- A sum weighted by a position is the element at this position. -/
theorem sum_oneHot (xs : List Fr) (k : ℕ) :
    (xs.zipWith (· * ·) (oneHot xs.length k)).sum = xs.getD k 0 := by
  induction xs generalizing k with
  | nil => simp
  | cons x xs ih =>
    cases k with
    | zero =>
      have others : xs.zipWith (· * ·) ((List.range xs.length).map fun i =>
          Fr.ofBool (decide (i + 1 = 0))) = List.replicate xs.length 0 := by
        apply List.ext_getElem (by simp)
        intro i _ _
        simp [Fr.ofBool]
      simp only [oneHot, List.length_cons, List.range_succ_eq_map, List.map_cons, List.map_map,
        List.zipWith_cons_cons, List.sum_cons, List.getD_cons_zero]
      rw [show (fun i => Fr.ofBool (decide (i = 0))) ∘ Nat.succ =
        fun i => Fr.ofBool (decide (i + 1 = 0)) from rfl, others]
      simp [Fr.ofBool]
    | succ k =>
      rw [List.length_cons, oneHot_succ, List.zipWith_cons_cons, List.sum_cons, ih, mul_zero,
        zero_add, List.getD_cons_succ]

theorem judges_pairSelectors {x y : Bit} {a b : Bool} (hx : L.bit n x a) (hy : L.bit n y b)
    (loc : String) :
    L.judges (pairSelectors x.expr y.expr loc) n fun r m =>
      List.Forall₂ (L.carries m) r (oneHot 4 (a.toNat + 2 * b.toNat)) := by
  unfold pairSelectors
  refine L.bind (L.mul hx hy _ loc) fun p m le hp => L.pure ?_
  have hx := L.mono hx le
  have hy := L.mono hy le
  have values : oneHot 4 (a.toNat + 2 * b.toNat) =
      [1 - Fr.ofBool a - Fr.ofBool b + Fr.ofBool a * Fr.ofBool b,
        Fr.ofBool a - Fr.ofBool a * Fr.ofBool b, Fr.ofBool b - Fr.ofBool a * Fr.ofBool b,
        Fr.ofBool a * Fr.ofBool b] := by
    cases a <;> cases b <;> decide
  rw [values]
  have neither := L.plus (BitLogic.minus (BitLogic.minus (L.const m 1) hx) hy) hp
  exact .cons neither (.cons (BitLogic.minus hx hp) (.cons (BitLogic.minus hy hp) (.cons hp .nil)))

theorem judges_nibbleSelectors {a b c d : Bit} {p q r s : Bool} (ha : L.bit n a p)
    (hb : L.bit n b q) (hc : L.bit n c r) (hd : L.bit n d s) (loc : String) :
    L.judges (nibbleSelectors a b c d loc) n fun out m =>
      List.Forall₂ (L.carries m) out (oneHot 16 (Layout.bitsValue [p, q, r, s])) := by
  unfold nibbleSelectors
  refine L.bind (judges_pairSelectors ha hb loc) fun low m le hl => ?_
  refine L.bind (judges_pairSelectors (L.stable_bit.mono le hc) (L.stable_bit.mono le hd) loc)
    fun high m' le' hh => ?_
  have hl := L.stable_carries.list.mono le' hl
  have pairs : List.Forall₂ (fun w v => L.carries m' w.1 v.1 ∧ L.carries m' w.2 v.2)
      (high.flatMap fun h => low.map fun l => (l, h))
      ((oneHot 4 (r.toNat + 2 * s.toNat)).flatMap fun h =>
        (oneHot 4 (p.toNat + 2 * q.toNat)).map fun l => (l, h)) := by
    apply List.rel_flatMap hh
    intro h v hv
    rw [List.forall₂_map_left_iff, List.forall₂_map_right_iff]
    exact hl.imp fun _ _ carried => ⟨carried, hv⟩
  have values : oneHot 16 (Layout.bitsValue [p, q, r, s]) =
      ((oneHot 4 (r.toNat + 2 * s.toNat)).flatMap fun h =>
        (oneHot 4 (p.toNat + 2 * q.toNat)).map fun l => (l, h)).map fun v => v.1 * v.2 := by
    cases p <;> cases q <;> cases r <;> cases s <;> decide
  have stable : Stable fun m (w : Expr × Expr) (v : Fr × Fr) =>
      L.carries m w.1 v.1 ∧ L.carries m w.2 v.2 :=
    fun _ _ _ _ le h => ⟨L.mono h.1 le, L.mono h.2 le⟩
  rw [values]
  exact L.mapM stable L.stable_carries (fun v => v.1 * v.2)
    (fun _ _ _ h => L.mul h.1 h.2 _ loc) pairs

theorem carries_row {columns : List Expr} {xs row : List Fr}
    (h : List.Forall₂ (L.carries n) columns xs) :
    L.carries n (Expr.linearCombination (row.zip columns)) (row.zipWith (· * ·) xs).sum := by
  obtain ⟨short, terms, same⟩ : ∃ short, List.Forall₂ (fun term v => L.carries n term.2 v)
      (row.zip columns) short ∧ (row.zip columns).zipWith (fun term v => term.1 * v) short =
        row.zipWith (· * ·) xs := by
    induction h generalizing row with
    | nil => exact ⟨[], by simp, by simp⟩
    | @cons _ x _ _ head _ ih =>
      cases row with
      | nil => exact ⟨[], .nil, rfl⟩
      | cons c row =>
        obtain ⟨short, terms, same⟩ := @ih row
        exact ⟨x :: short, .cons head terms, congrArg (c * x :: ·) same⟩
  rw [← same]
  exact BitLogic.carries_linearCombination terms

/-- The selected entry is the sum of the rows' weighted sums, each weighted by its row. -/
theorem judges_selectEntry {columns rowSelectors : List Expr} {xs ys : List Fr}
    (hx : List.Forall₂ (L.carries n) columns xs)
    (hy : List.Forall₂ (L.carries n) rowSelectors ys) (rows : List (List Fr)) (loc : String) :
    L.judges (selectEntry rows columns rowSelectors loc) n fun r m =>
      L.carries m r
        ((rows.map fun row => (row.zipWith (· * ·) xs).sum).zipWith (· * ·) ys).sum := by
  have pairs : List.Forall₂ (fun w v => L.carries n w.1 v.1 ∧ w.2 = v.2)
      (rowSelectors.zip rows) (ys.zip rows) :=
    Bits.forall₂_zip hy (List.forall₂_same.mpr fun _ _ => rfl)
  have stable : Stable fun m (w : Expr × List Fr) (v : Fr × List Fr) =>
      L.carries m w.1 v.1 ∧ w.2 = v.2 := fun _ _ _ _ le h => ⟨L.mono h.1 le, h.2⟩
  have total : ((rows.map fun row => (row.zipWith (· * ·) xs).sum).zipWith (· * ·) ys).sum =
      (ys.zip rows).foldl (fun entry v => entry + v.1 * (v.2.zipWith (· * ·) xs).sum) 0 := by
    rw [← List.foldl_map (f := fun v : Fr × List Fr => v.1 * (v.2.zipWith (· * ·) xs).sum)
      (g := (· + ·)), ← List.sum_eq_foldl, List.zipWith_map_left, List.zipWith_comm,
      List.map_zip_eq_zipWith]
    congr 2
    funext y row
    exact mul_comm _ _
  rw [total]
  refine L.weaken (L.foldlM (R := fun m entry v => L.carries m entry v ∧
    List.Forall₂ (L.carries m) columns xs) stable
    (fun entry v => entry + v.1 * (v.2.zipWith (· * ·) xs).sum) ?_ pairs
    ⟨L.const n 0, hx⟩) fun _ _ _ h => h.1
  rintro entry v ⟨selector, row⟩ ⟨y, row'⟩ m ⟨he, hx⟩ ⟨hs, rfl⟩
  refine L.bind (L.mul hs (carries_row hx) _ loc) fun p m' le hp => L.pure ?_
  exact ⟨L.plus (L.mono he le) hp, L.stable_carries.list.mono le hx⟩

namespace SubstitutionTable
variable (table : SubstitutionTable)

theorem length_rows : table.rows.length = 16 :=
  length_chunksOf (by decide) (by simp)

theorem length_row : ∀ row ∈ table.rows, row.length = 16 :=
  length_of_mem_chunksOf (by decide) (by simp)

/-- The entry of a byte is in the row of its high half and the column of its low half. -/
theorem sum_rows {low high : ℕ} {v : UInt8} (small : low < 16) (index : v.toNat = low + 16 * high) :
    ((table.rows.map fun row => (row.zipWith (· * ·) (oneHot 16 low)).sum).zipWith (· * ·)
      (oneHot 16 high)).sum = ((table.lookup v).toNat : Fr) := by
  have columns : (table.rows.map fun row => (row.zipWith (· * ·) (oneHot 16 low)).sum) =
      table.rows.map fun row => row.getD low 0 := by
    apply List.map_congr_left
    intro row member
    rw [← table.length_row row member, sum_oneHot]
  have length : (table.rows.map fun row => row.getD low (0 : Fr)).length = 16 := by
    rw [List.length_map, table.length_rows]
  have inside : v.toNat < 256 := v.toNat_lt
  have entry := getD_chunksOf (k := 16) (by decide) (0 : Fr)
    (table.entries.toList.map fun entry => Fr.ofNat entry.toNat) high small
  rw [columns, ← length, sum_oneHot]
  have row : (table.rows.map fun row => row.getD low (0 : Fr)).getD high 0 =
      (table.rows.getD high []).getD low 0 := by
    simp only [List.getD_eq_getElem?_getD, List.getElem?_map]
    cases table.rows[high]? <;> simp
  rw [row, rows, entry, Nat.add_comm, ← index]
  simp only [List.getD_eq_getElem?_getD, List.getElem?_map]
  rw [List.getElem?_eq_getElem (by simpa using inside)]
  rfl

end SubstitutionTable

theorem bits_of_byte {byte : Bits} {v : UInt8} (h : L.byte n byte v) :
    ∃ b0 b1 b2 b3 b4 b5 b6 b7 v0 v1 v2 v3 v4 v5 v6 v7,
      byte = [b0, b1, b2, b3, b4, b5, b6, b7] ∧
      Layout.byteBits v = [v0, v1, v2, v3, v4, v5, v6, v7] ∧
      (L.bit n b0 v0 ∧ L.bit n b1 v1 ∧ L.bit n b2 v2 ∧ L.bit n b3 v3) ∧
      L.bit n b4 v4 ∧ L.bit n b5 v5 ∧ L.bit n b6 v6 ∧ L.bit n b7 v7 := by
  obtain ⟨v0, v1, v2, v3, v4, v5, v6, v7, spelled⟩ : ∃ v0 v1 v2 v3 v4 v5 v6 v7,
      Layout.byteBits v = [v0, v1, v2, v3, v4, v5, v6, v7] := ⟨_, _, _, _, _, _, _, _, rfl⟩
  rw [BitLogic.byte, spelled] at h
  obtain ⟨b0, _, h0, t0, rfl⟩ := List.forall₂_cons_right_iff.mp h
  obtain ⟨b1, _, h1, t1, rfl⟩ := List.forall₂_cons_right_iff.mp t0
  obtain ⟨b2, _, h2, t2, rfl⟩ := List.forall₂_cons_right_iff.mp t1
  obtain ⟨b3, _, h3, t3, rfl⟩ := List.forall₂_cons_right_iff.mp t2
  obtain ⟨b4, _, h4, t4, rfl⟩ := List.forall₂_cons_right_iff.mp t3
  obtain ⟨b5, _, h5, t5, rfl⟩ := List.forall₂_cons_right_iff.mp t4
  obtain ⟨b6, _, h6, t6, rfl⟩ := List.forall₂_cons_right_iff.mp t5
  obtain ⟨b7, _, h7, t7, rfl⟩ := List.forall₂_cons_right_iff.mp t6
  cases t7
  exact ⟨b0, b1, b2, b3, b4, b5, b6, b7, v0, v1, v2, v3, v4, v5, v6, v7, rfl, spelled,
    ⟨h0, h1, h2, h3⟩, h4, h5, h6, h7⟩

theorem judges_substitute (table : SubstitutionTable) {byte : Bits} {v : UInt8}
    (h : L.byte n byte v) (loc : String) :
    L.judges (substitute table byte loc) n fun r m => L.byte m r (table.lookup v) := by
  obtain ⟨b0, b1, b2, b3, b4, b5, b6, b7, v0, v1, v2, v3, v4, v5, v6, v7, rfl, spelled,
    ⟨h0, h1, h2, h3⟩, h4, h5, h6, h7⟩ := bits_of_byte h
  unfold substitute
  dsimp only
  split
  · rename_i bs constant
    have value : UInt8.ofNat (Layout.bitsValue bs) = v := by
      rw [BitLogic.eq_of_bits h constant, Layout.bitsValue_byteBits, UInt8.ofNat_toNat]
    rw [value, Bits.constBytes, Layout.bytesToBits, List.flatMap_singleton]
    exact L.pure (BitLogic.bits_const _)
  · have small : Layout.bitsValue [v0, v1, v2, v3] < 16 := Layout.bitsValue_lt _
    have index : v.toNat = Layout.bitsValue [v0, v1, v2, v3] +
        16 * Layout.bitsValue [v4, v5, v6, v7] := by
      rw [← Layout.bitsValue_byteBits, spelled]
      exact Layout.bitsValue_append [v0, v1, v2, v3] [v4, v5, v6, v7]
    have stable := L.stable_bit
    refine L.bind (judges_nibbleSelectors h0 h1 h2 h3 loc) fun low m le hl => ?_
    refine L.bind (judges_nibbleSelectors (stable.mono le h4) (stable.mono le h5)
      (stable.mono le h6) (stable.mono le h7) loc) fun high m' le' hh => ?_
    refine L.bind (judges_selectEntry (L.stable_carries.list.mono le' hl) hh table.rows loc)
      fun entry k _ selected => ?_
    rw [table.sum_rows small index] at selected
    have byte : ((table.lookup v).toNat : Fr).val = (table.lookup v).toNat :=
      Fr.val_natCast_of_lt ((table.lookup v).toNat_lt.trans (by decide))
    have bits : L.judges (Bits.ofExpr entry 8 loc) k _ :=
      BitLogic.judges_ofExpr selected (by decide)
        (by rw [byte]; exact (table.lookup v).toNat_lt) loc
    rwa [byte] at bits

/-- A byte has eight bits. -/
theorem substitute_of_length (table : SubstitutionTable) {byte : Bits} (other : byte.length ≠ 8)
    (loc : String) :
    substitute table byte loc = reject (.width "S-box input" 8 byte.length) := by
  unfold substitute
  split
  · exact absurd rfl other
  · rfl

/-- Substituting looks up the byte that the bits spell, in any session, and leaves none of the
variables of its products free. Another number of bits is refused at once. -/
theorem table_of_substitute (table : SubstitutionTable) (byte : Bits) (loc : String) :
    (∀ v : UInt8, Computes (substitute table byte loc) (fun bits => [bits]) [byte]
      [Layout.byteBits v] [Layout.byteBits (table.lookup v)]) ∧
    ∀ s : Session, byte.length ≠ 8 → (substitute table byte loc).run s =
      (.error (.compilation (.width "S-box input" 8 byte.length)), s) := by
  refine ⟨fun v => computes_of_judges fun L n carried => ?_, fun s other => ?_⟩
  · have operand : L.byte n byte v := (List.forall₂_cons.mp carried).1
    exact L.weaken (judges_substitute table operand loc) fun _ _ _ h => .cons h .nil
  · rw [substitute_of_length table other]
    rfl

/-- A table of one entry repeated: a byte with one variable is looked up all the same. -/
theorem table_of_repeated_entry :
    let table : SubstitutionTable := ⟨.replicate 256 7⟩
    let byte : Bits := ⟨.var 0⟩ :: Bits.const (List.replicate 7 false)
    ∃ bits s', (substitute table byte gadgetLoc).run ⟨.witness true, #[], #[1], 1⟩ =
        (.ok bits, s') ∧
      Bits.ReadAs s'.values [bits] [Layout.byteBits 7] := by
  intro table byte
  have spelled : Bits.ReadAs #[1] [byte] [Layout.byteBits 1] := rfl
  have entry : table.lookup 1 = 7 := by decide
  have found := ((table_of_substitute table byte gadgetLoc).1 1).generates
    ⟨.witness true, #[], #[1], 1⟩ true rfl rfl spelled
  rwa [entry] at found

end Aes
end RankOne
