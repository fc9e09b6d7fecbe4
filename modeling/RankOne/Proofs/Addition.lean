import Mathlib.Data.Nat.Log
import RankOne.Proofs.Decomposition
import RankOne.Proofs.Word

/-! Addition of words, in any session. Its operands may be constant in part, and may be words
whose variables cancel out. -/
namespace RankOne
open Circuit
variable {words : List Word} {values : List UInt32} {s : Session}

namespace Word

/-- The bits of the carry are as many as it takes to count the words. -/
theorem bitLength_pred (k : ℕ) : bitLength (k - 1) = Nat.clog 2 k := by
  refine eq_of_forall_ge_iff fun w => ?_
  rw [bitLength_le_iff, Nat.clog_le_iff_le_pow (by decide)]
  have := Nat.two_pow_pos w
  omega

theorem forall₂_bits {R : Bits → List Bool → Prop} :
    List.Forall₂ R (words.map bits) (values.map Layout.wordBits) ↔
      List.Forall₂ (fun word v => R word.bits (Layout.wordBits v)) words values := by
  rw [List.forall₂_map_left_iff, List.forall₂_map_right_iff]

theorem read_of_readAs {w : Witness} {word : Word} {v : UInt32}
    (h : Bits.ReadAs w [word.bits] [Layout.wordBits v]) : word.read w = .ok v := by
  rw [read, Bits.read_of_readAs h]
  exact congrArg Except.ok (Layout.bitsToWord_wordBits v)

theorem computes_addMany (values : List UInt32)
    (narrow : 32 + Nat.clog 2 words.length < modulusBits) (loc : String) :
    Computes (addMany words loc) (fun word => [word.bits]) (words.map bits)
      (values.map Layout.wordBits)
      [Layout.wordBits (UInt32.ofNat (values.map UInt32.toNat).sum)] := by
  refine computes_of_judges fun L n carried => ?_
  have operands : List.Forall₂ (L.word n) words values := forall₂_bits.mp carried
  rw [← bitLength_pred, operands.length_eq] at narrow
  exact L.weaken (judges_addMany operands narrow loc) fun _ _ _ h => .cons h .nil

/-- A sum that depends on no variable leaves the session as it is, also where it is refused. -/
theorem run_addMany_constant (constant : (Expr.sum (words.map toExpr)).constant?.isSome)
    (loc : String) (s : Session) : ((addMany words loc).run s).2 = s := by
  obtain ⟨c, constant⟩ := Option.isSome_iff_exists.mp constant
  unfold addMany
  split
  · rfl
  · rw [run_bind]
    rcases Nat.lt_or_ge (width + bitLength (words.length - 1)) modulusBits with narrow | wide
    · rw [Bits.run_ofExpr_constant constant narrow]
      split <;> rename_i run
      · obtain ⟨-, rfl⟩ := Prod.mk.inj run
        unfold ofBits
        split <;> rfl
      · exact (Prod.mk.inj run).2.symm
    · rw [Bits.run_ofExpr_wide wide]

/-- Adding words gives their sum modulo 2^32, in any session: a witness reads it back, and whatever
satisfies the rows spells it. A sum that depends on no variable takes no variable and no row. -/
theorem sum_of_addMany (words : List Word) (values : List UInt32) (loc : String)
    (narrow : 32 + Nat.clog 2 words.length < modulusBits) :
    Computes (addMany words loc) (fun word => [word.bits]) (words.map bits)
      (values.map Layout.wordBits)
      [Layout.wordBits (UInt32.ofNat (values.map UInt32.toNat).sum)] ∧
    (∀ (s : Session) (checked : Bool), s.mode = .witness checked → s.Filled →
      Bits.ReadAs s.values (words.map bits) (values.map Layout.wordBits) →
      ∃ word s', (addMany words loc).run s = (.ok word, s') ∧
        word.read s'.values = .ok (UInt32.ofNat (values.map UInt32.toNat).sum)) ∧
    ∀ s : Session, (Expr.sum (words.map toExpr)).constant?.isSome →
      ((addMany words loc).run s).2 = s := by
  have computes := computes_addMany values narrow loc
  refine ⟨computes, fun s checked mode filled given => ?_, fun s constant =>
    run_addMany_constant constant loc s⟩
  obtain ⟨word, s', run, spelled⟩ := computes.generates s checked mode filled given
  exact ⟨word, s', run, read_of_readAs spelled⟩

/-- One word, constant but for its top bit, added to itself. -/
theorem sum_of_repeated_word :
    let word : Word := ⟨Bits.const (List.replicate 31 true) ++ [⟨.var 0⟩]⟩
    32 + Nat.clog 2 [word, word].length < modulusBits ∧
    ∃ sum s', (addMany [word, word] gadgetLoc).run ⟨.witness true, #[], #[1], 1⟩ = (.ok sum, s') ∧
      sum.read s'.values = .ok 0xfffffffe := by
  intro word
  have narrow : 32 + Nat.clog 2 [word, word].length < modulusBits := by decide
  exact ⟨narrow, (sum_of_addMany [word, word] [0xffffffff, 0xffffffff] gadgetLoc narrow).2.1
    ⟨.witness true, #[], #[1], 1⟩ true rfl rfl rfl⟩

end Word
end RankOne
