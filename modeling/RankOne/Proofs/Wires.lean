import RankOne.Output
import RankOne.Proofs.Circuit
import RankOne.Proofs.Layout

/-! Wires that carry values. An expression, a bit, a vector of bits or a word carries a value
when its variables are among those allocated and the assignment gives it this value. What is
read from a witness is the value carried. -/
namespace RankOne
variable {z : Assignment} {n m : ℕ}

/-- The expression has the value, and its variables are among the first `n`. -/
structure Expr.Carries (z : Assignment) (n : ℕ) (e : Expr) (x : Fr) : Prop where
  below : e.Below n
  eval : e.eval z = x

def Bit.Carries (z : Assignment) (n : ℕ) (b : Bit) (v : Bool) : Prop :=
  b.expr.Carries z n (Fr.ofBool v)

def Bits.Carries (z : Assignment) (n : ℕ) (bits : Bits) (bs : List Bool) : Prop :=
  List.Forall₂ (Bit.Carries z n) bits bs

def Word.Carries (z : Assignment) (n : ℕ) (word : Word) (v : UInt32) : Prop :=
  Bits.Carries z n word.bits (Layout.wordBits v)

def Bits.CarriesByte (z : Assignment) (n : ℕ) (bits : Bits) (byte : UInt8) : Prop :=
  Bits.Carries z n bits (Layout.byteBits byte)

namespace Expr

theorem Carries.mono {e : Expr} {x : Fr} (h : e.Carries z n x) (le : n ≤ m) : e.Carries z m x :=
  ⟨h.below.mono le, h.eval⟩

theorem carries_const (c : Fr) : (const c).Carries z n c := ⟨trivial, rfl⟩

variable {a b : Expr} {x y : Fr}

theorem Carries.plus (ha : a.Carries z n x) (hb : b.Carries z n y) :
    (a + b).Carries z n (x + y) :=
  ⟨ha.below.plus hb.below, by rw [eval_plus, ha.eval, hb.eval]⟩

theorem Carries.scaleBy (ha : a.Carries z n x) (s : Fr) : (a.scaleBy s).Carries z n (s * x) :=
  ⟨ha.below.scaleBy s, by rw [eval_scaleBy, ha.eval]⟩

theorem carries_of_read {e : Expr} {x : Fr} (h : e.read (z.initial n) = .ok x) :
    e.Carries z n x := by
  have below : e.Below n := by
    induction e generalizing x with
    | const c => trivial
    | var i =>
      rw [read] at h
      split at h
      · rename_i found
        have inside := (Array.getElem?_eq_some_iff.mp found).1
        rwa [Assignment.size_initial] at inside
      · cases h
    | add a b iha ihb =>
      obtain ⟨u, first, h⟩ := exceptBind_ok h
      obtain ⟨v, second, -⟩ := exceptBind_ok h
      exact ⟨iha first, ihb second⟩
    | scale s e ih =>
      obtain ⟨u, inner, -⟩ := exceptBind_ok h
      exact ih inner
  exact ⟨below, Except.ok.inj ((read_initial below).symm.trans h)⟩

theorem read_initial_iff {e : Expr} {x : Fr} : e.read (z.initial n) = .ok x ↔ e.Carries z n x :=
  ⟨carries_of_read, fun h => by rw [read_initial h.below, h.eval]⟩

end Expr

namespace Bit

theorem stable_carries : Circuit.Stable fun n => Bit.Carries z n :=
  fun _ _ _ _ le h => Expr.Carries.mono h le

theorem carries_const (b : Bool) : (const b).Carries z n b := Expr.carries_const _

theorem read_of_carries {a : Bit} {v : Bool} (h : a.Carries z n v) :
    a.read (z.initial n) = .ok v := by
  rw [read, Expr.read_initial h.below]
  have value : a.expr.eval z = Fr.ofBool v := h.eval
  change Except.ok (decide (a.expr.eval z ≠ 0)) = _
  rw [value]
  cases v <;> simp

end Bit

theorem mapM_ok {α β ε : Type} {f : α → Except ε β} {xs : List α} {ys : List β}
    (h : List.Forall₂ (fun x y => f x = .ok y) xs ys) : xs.mapM f = .ok ys := by
  induction h with
  | nil => rfl
  | cons head _ ih => rw [List.mapM_cons, head, ih]; rfl

theorem forall₂_of_mapM {α β ε : Type} {f : α → Except ε β} {xs : List α} {ys : List β}
    (h : xs.mapM f = .ok ys) : List.Forall₂ (fun x y => f x = .ok y) xs ys := by
  induction xs generalizing ys with
  | nil => cases h; exact .nil
  | cons x xs ih =>
    rw [List.mapM_cons] at h
    obtain ⟨y, first, h⟩ := exceptBind_ok h
    obtain ⟨ys, rest, h⟩ := exceptBind_ok h
    cases h
    exact .cons first (ih rest)

theorem mapM_ok_iff {α β ε : Type} {f : α → Except ε β} {xs : List α} {ys : List β} :
    xs.mapM f = .ok ys ↔ List.Forall₂ (fun x y => f x = .ok y) xs ys :=
  ⟨forall₂_of_mapM, mapM_ok⟩

namespace Bits
variable {bits : Bits} {bs : List Bool}

theorem Carries.mono (h : Bits.Carries z n bits bs) (le : n ≤ m) : Bits.Carries z m bits bs :=
  List.Forall₂.imp (fun _ _ => Bit.stable_carries.mono le) h

theorem carries_const (bs : List Bool) : Bits.Carries z n (const bs) bs := by
  induction bs with
  | nil => exact .nil
  | cons b bs ih => exact .cons (Bit.carries_const b) ih

theorem Carries.append {bits' : Bits} {bs' : List Bool} (h : Bits.Carries z n bits bs)
    (h' : Bits.Carries z n bits' bs') : Bits.Carries z n (bits ++ bits') (bs ++ bs') :=
  List.rel_append h h'

theorem carries_flatten {parts : List Bits} {values : List (List Bool)}
    (h : List.Forall₂ (Bits.Carries z n) parts values) :
    Bits.Carries z n parts.flatten values.flatten := by
  induction h with
  | nil => exact .nil
  | cons head _ ih => exact Carries.append head ih

theorem read_of_carries (h : Bits.Carries z n bits bs) : read (z.initial n) bits = .ok bs :=
  mapM_ok (List.Forall₂.imp (fun _ _ => Bit.read_of_carries) h)

theorem weigh_forall {R : Bit → Bool → Prop} (c : Fr) (h : List.Forall₂ R bits bs) :
    List.Forall₂ (fun term b => R ⟨term.2⟩ b) (weigh c bits) bs := by
  induction h generalizing c with
  | nil => exact .nil
  | cons head _ ih => exact .cons head (ih (c + c))

/-- The values of bits, each with its weight, add up to the number that they spell. -/
theorem sum_weigh (length : bits.length = bs.length) (c : Fr) :
    ((weigh c bits).zipWith (fun term v => term.1 * v) (bs.map Fr.ofBool)).sum =
      c * (Layout.bitsValue bs : Fr) := by
  induction bits generalizing bs c with
  | nil =>
    obtain rfl := List.length_eq_zero_iff.mp length.symm
    simp [weigh, Layout.bitsValue]
  | cons a bits ih =>
    obtain ⟨b, bs, rfl⟩ := List.exists_cons_of_length_eq_add_one length.symm
    rw [weigh, List.map_cons, List.zipWith_cons_cons, List.sum_cons, ih (Nat.succ.inj length),
      Fr.ofBool_eq_natCast, Layout.bitsValue]
    push_cast
    ring

/-- The expression of a vector of bits has the number that they spell, be its variables allocated
or not. -/
theorem eval_toExpr (h : List.Forall₂ (fun b v => b.expr.eval z = Fr.ofBool v) bits bs) :
    (toExpr bits).eval z = (Layout.bitsValue bs : Fr) := by
  have terms (c : Fr) : ((weigh c bits).map fun term => term.1 * term.2.eval z) =
      (weigh c bits).zipWith (fun term v => term.1 * v) (bs.map Fr.ofBool) := by
    induction h generalizing c with
    | nil => rfl
    | cons head _ ih =>
      rw [weigh, List.map_cons, List.map_cons, List.zipWith_cons_cons, ih, head]
  rw [toExpr, Expr.eval_linearCombination, terms, sum_weigh h.length_eq, one_mul]

theorem carries_toExpr (h : Bits.Carries z n bits bs) :
    (toExpr bits).Carries z n (Layout.bitsValue bs : Fr) := by
  constructor
  · apply Expr.Below.linearCombination
    intro term member
    obtain ⟨i, hi, rfl⟩ := List.mem_iff_getElem.mp member
    have same := (weigh_forall 1 h).length_eq
    have inside : i < bs.length := same ▸ hi
    exact ((weigh_forall 1 h).get hi inside).below
  · exact eval_toExpr (List.Forall₂.imp (fun _ _ carried => carried.eval) h)

theorem carriesByte_chunks {bytes : List UInt8}
    (h : Bits.Carries z n bits (Layout.bytesToBits bytes)) :
    List.Forall₂ (Bits.CarriesByte z n) (chunksOf 8 bits) bytes := by
  have chunks := forall₂_chunksOf (n := 8) (by decide) h
  rw [Layout.chunksOf_bytesToBits] at chunks
  exact (List.forall₂_map_right_iff (f := Layout.byteBits)).mp chunks

end Bits

theorem Bytes.read_of_carries {bytes : Bytes} {values : List UInt8}
    (h : Bits.Carries z n bytes.bits (Layout.bytesToBits values)) :
    bytes.read (z.initial n) = .ok values := by
  rw [Bytes.read, Bits.read_of_carries h]
  exact congrArg Except.ok (Layout.bitsToBytes_bytesToBits values)

namespace Word

theorem stable_carries : Circuit.Stable fun n => Word.Carries z n :=
  fun _ _ _ _ le h => Bits.Carries.mono h le

theorem carries_const (v : UInt32) : (const v).Carries z n v := Bits.carries_const _

theorem read_of_carries {word : Word} {v : UInt32} (h : word.Carries z n v) :
    word.read (z.initial n) = .ok v := by
  rw [read, Bits.read_of_carries h]
  exact congrArg Except.ok (Layout.bitsToWord_wordBits v)

end Word
end RankOne
