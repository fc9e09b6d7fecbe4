import RankOne.Proofs.BitLogic
import RankOne.Proofs.Runs

/-! Gadgets on bits, run in the middle of a session. The vectors of bits that a gadget takes may be
made of constants, variables and expressions of any kind; what it does once they spell given bits
follows from any way of judging it. -/
namespace RankOne
open Circuit
variable {α : Type} {z z' : Assignment} {n : ℕ}

namespace Bits

/-- Under the assignment the vectors are zeros and ones that spell the bits. -/
def Spell (z : Assignment) (vectors : List Bits) (bss : List (List Bool)) : Prop :=
  vectors.map (fun bits => bits.map fun b => b.expr.eval z) = bss.map fun bs => bs.map Fr.ofBool

/-- The vectors can be read, as zeros and ones that spell the bits. -/
def ReadAs (w : Witness) (vectors : List Bits) (bss : List (List Bool)) : Prop :=
  vectors.mapM (fun bits => bits.mapM fun b => b.expr.read w) =
    .ok (bss.map fun bs => bs.map Fr.ofBool)

variable {vectors : List Bits} {bss : List (List Bool)}

theorem spell_iff : Spell z vectors bss ↔
    List.Forall₂ (List.Forall₂ fun b v => b.expr.eval z = Fr.ofBool v) vectors bss := by
  have vector {bits : Bits} {bs : List Bool} :
      (bits.map fun b => b.expr.eval z) = bs.map Fr.ofBool ↔
        List.Forall₂ (fun b v => b.expr.eval z = Fr.ofBool v) bits bs := by
    rw [← List.forall₂_eq_eq_eq, List.forall₂_map_left_iff, List.forall₂_map_right_iff]
  rw [Spell, ← List.forall₂_eq_eq_eq, List.forall₂_map_left_iff, List.forall₂_map_right_iff]
  simp only [vector]

theorem readAs_iff : ReadAs (z.initial n) vectors bss ↔
    List.Forall₂ (Bits.Carries z n) vectors bss := by
  have vector {bits : Bits} {bs : List Bool} :
      (bits.mapM fun b => b.expr.read (z.initial n)) = .ok (bs.map Fr.ofBool) ↔
        Bits.Carries z n bits bs := by
    rw [mapM_ok_iff, List.forall₂_map_right_iff]
    simp only [Expr.read_initial_iff]
    rfl
  rw [ReadAs, mapM_ok_iff, List.forall₂_map_right_iff]
  simp only [vector]

theorem read_of_readAs {w : Witness} {bits : Bits} {bs : List Bool} (h : ReadAs w [bits] [bs]) :
    read w bits = .ok bs := by
  rw [← Assignment.initial_ofWitness w] at h ⊢
  exact read_of_carries (List.forall₂_cons.mp (readAs_iff.mp h)).1

theorem spell_of_carries {bits : Bits} {bs : List Bool} (h : Bits.Carries z n bits bs) :
    Spell z [bits] [bs] :=
  spell_iff.mpr (.cons (List.Forall₂.imp (fun _ _ carried => carried.eval) h) .nil)

/-- What vectors spell is a matter of the variables that they are about. -/
theorem carries_of_spell (scope : ∀ bits ∈ vectors, ∀ b ∈ bits, b.expr.Below n)
    (spelled : Spell z vectors bss) (agree : Agree n z z') :
    List.Forall₂ (Bits.Carries z' n) vectors bss := by
  have vector {bits : Bits} {bs : List Bool} (scope : ∀ b ∈ bits, b.expr.Below n)
      (h : List.Forall₂ (fun b v => b.expr.eval z = Fr.ofBool v) bits bs) :
      Bits.Carries z' n bits bs :=
    (List.forall₂_and_left _ _ |>.mpr ⟨scope, h⟩).imp fun _ _ h =>
      ⟨h.1, (Expr.eval_of_agree h.1 agree).trans h.2⟩
  exact (List.forall₂_and_left _ _ |>.mpr ⟨scope, spell_iff.mp spelled⟩).imp fun _ _ h =>
    vector h.1 h.2

theorem pinned_iff : List.Forall₂ ((BitLogic.pins z z').bits n) vectors bss ↔
    Spell z vectors bss ∧ Spell z' vectors bss := by
  rw [spell_iff, spell_iff]
  constructor
  · intro h
    exact ⟨h.imp fun _ _ => List.Forall₂.imp fun _ _ h => h.1,
      h.imp fun _ _ => List.Forall₂.imp fun _ _ h => h.2⟩
  · rintro ⟨h, h'⟩
    exact List.Forall₂.mp (fun _ _ => List.Forall₂.mp fun _ _ h h' => ⟨h, h'⟩) h h'

theorem folds_iff : List.Forall₂ (BitLogic.folds.bits n) vectors bss ↔
    vectors = bss.map Bits.const := by
  have single : BitLogic.folds.bit n = fun b v => b = Bit.const v := by
    funext ⟨e⟩ v
    exact propext ⟨congrArg Bit.mk, Bit.mk.inj⟩
  have vector : BitLogic.folds.bits n = fun bits bs => bits = Bits.const bs := by
    funext bits bs
    rw [Bits.const, ← List.forall₂_eq_eq_eq, List.forall₂_map_right_iff, BitLogic.bits, single]
  rw [← List.forall₂_eq_eq_eq, List.forall₂_map_right_iff, vector]

def carrier : Carrier (List Bits) (List (List Bool)) where
  carries L n := List.Forall₂ (L.bits n)
  reads := ReadAs
  spells := Spell
  folded vectors bss := vectors = bss.map Bits.const
  exact_iff := readAs_iff.symm
  pins_iff := pinned_iff
  folds_iff := folds_iff

end Bits

/-- What a gadget does with vectors of bits, once they spell given ones, in any session. Its result
spells others. -/
structure Circuit.Computes (c : Circuit α) (result : α → List Bits) (operands : List Bits)
    (bss rss : List (List Bool)) : Prop where
  /-- A witness session takes it to its end, be the constraints checked or not. -/
  generates : ∀ (s : Session) (checked : Bool), s.mode = .witness checked → s.Filled →
    Bits.ReadAs s.values operands bss →
    ∃ a s', c.run s = (.ok a, s') ∧ Bits.ReadAs s'.values (result a) rss
  /-- It compiles where its operands are about allocated variables, some values of which make them
  spell the bits. -/
  compiles : ∀ (s : Session) (z : Assignment), s.mode = .compile →
    (∀ bits ∈ operands, ∀ b ∈ bits, b.expr.Below s.nextVar) → Bits.Spell z operands bss →
    ∃ a s', c.run s = (.ok a, s')
  /-- Compiled, it adds rows that force its result and leave none of its variables free. -/
  forces : ∀ (s s' : Session) (a : α), s.mode = .compile → c.run s = (.ok a, s') →
    ∃ rows, s'.rows.toList = s.rows.toList ++ rows ∧
      (∀ z, (∀ row ∈ rows, row.Holds z) → Bits.Spell z operands bss →
        Bits.Spell z (result a) rss) ∧
      ∀ z z', (∀ row ∈ rows, row.Holds z) → (∀ row ∈ rows, row.Holds z') →
        Bits.Spell z operands bss → Bits.Spell z' operands bss →
        ∀ i, s.nextVar ≤ i → i < s'.nextVar → z i = z' i
  /-- With constants it gives constants, and leaves the session as it is. -/
  folds : operands = bss.map Bits.const →
    ∃ a, result a = rss.map Bits.const ∧ ∀ s : Session, c.run s = (.ok a, s)

/-- A gadget computes what every judgement says that it does. -/
theorem Circuit.computes_of_judges {c : Circuit α} {result : α → List Bits} {operands : List Bits}
    {bss rss : List (List Bool)}
    (judged : ∀ (L : BitLogic) (n : ℕ), List.Forall₂ (L.bits n) operands bss →
      L.judges c n fun a m => List.Forall₂ (L.bits m) (result a) rss) :
    Computes c result operands bss rss := by
  have given (s : Session) {z z' : Assignment} (agree : Agree s.nextVar z z')
      (scope : ∀ bits ∈ operands, ∀ b ∈ bits, b.expr.Below s.nextVar)
      (spelled : Bits.Spell z operands bss) : Exact z' True c s.nextVar _ :=
    judged (.exact z' True) s.nextVar (Bits.carries_of_spell scope spelled agree)
  let R := Bits.carrier.comap result
  refine ⟨fun s checked => ?generates, fun s z mode scope spelled => ?compiles,
    fun s s' a => ?forces, ?folds⟩
  case generates => exact generates_of_judges (K := Bits.carrier) (R := R) judged
  case compiles => exact run_compile_exact mode fun _ agree => given s agree scope spelled
  case forces => exact forces_of_judges (K := Bits.carrier) (R := R) judged
  case folds => exact folds_of_judges (K := Bits.carrier) (R := R) judged

end RankOne
