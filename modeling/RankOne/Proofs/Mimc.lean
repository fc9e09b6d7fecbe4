import RankOne.Mimc.Gadget
import RankOne.Proofs.Runs

/-! The MiMC sponge as a circuit. The gadget raises to powers by the binary digits of the
exponent, and computes what the native permutation and sponge do, however it is judged. Its inputs
may be expressions of any kind, and the session may have come to any state before. -/
namespace RankOne
open Circuit
variable {L : Logic} {z : Assignment} {given : Prop} {n m : ℕ}

namespace Expr

/-- One digit of the exponent is one squaring, and a product where the digit is set. -/
theorem pow_div_two_pow (v : Fr) (e k : ℕ) :
    v ^ (e / 2 ^ k) = v ^ (e / 2 ^ (k + 1)) * v ^ (e / 2 ^ (k + 1)) *
      if e.testBit k then v else 1 := by
  have digits : e / 2 ^ k = e / 2 ^ (k + 1) + e / 2 ^ (k + 1) + (e.testBit k).toNat := by
    have digit := Nat.toNat_testBit e k
    rw [pow_succ, ← Nat.div_div_eq_div_mul]
    omega
  rw [digits, pow_add, pow_add]
  cases e.testBit k <;> simp

theorem judges_powFrom {x : Expr} {v : Fr} (hx : L.carries n x v) (e k : ℕ) (loc : String)
    {res : Expr} (h : L.carries n res (v ^ (e / 2 ^ k))) :
    L.judges (x.powFrom e loc k res) n fun r m => L.carries m r (v ^ e) := by
  induction k generalizing n res with
  | zero =>
    rw [pow_zero, Nat.div_one] at h
    exact L.pure h
  | succ k ih =>
    refine L.bind (L.square h loc) fun res m le squared => ?_
    have digit := pow_div_two_pow v e k
    change L.judges (if e.testBit k then _ else _) m _
    split
    · rename_i one
      rw [if_pos one] at digit
      refine L.bind (L.mul squared (L.mono hx le) _ loc) fun res m' le' next => ?_
      exact ih (L.mono hx (le.trans le')) (by rwa [digit])
    · rename_i zero
      rw [if_neg zero, mul_one] at digit
      exact ih (L.mono hx le) (by rwa [digit])

theorem judges_pow {x : Expr} {v : Fr} (hx : L.carries n x v) (e : ℕ) (loc : String) :
    L.judges (x.pow e loc) n fun r m => L.carries m r (v ^ e) := by
  unfold pow
  split
  · rename_i zero
    rw [zero, pow_zero]
    exact L.pure (L.const n 1)
  · rename_i positive
    apply judges_powFrom hx
    have leading : e / 2 ^ e.log2 = 1 := by
      apply Nat.div_eq_of_lt_le
      · rw [one_mul]; exact Nat.log2_self_le positive
      · rw [← pow_succ']; exact Nat.lt_log2_self
    rw [leading, pow_one]
    exact hx

end Expr

namespace Mimc

def Carries (L : Logic) (n : ℕ) (state : Expr × Expr) (v : Fr × Fr) : Prop :=
  L.carries n state.1 v.1 ∧ L.carries n state.2 v.2

variable {params : Params} {state : Expr × Expr} {v : Fr × Fr}

theorem judges_round {x : Expr} {u : Fr} (hx : L.carries n x u) (c : Fr) :
    L.judges ((x + .const (params.key + c)).pow params.exponent.toNat gadgetLoc) n
      fun r m => L.carries m r (params.round c u) := by
  have keyed := L.plus hx (L.const n (params.key + c))
  rw [← add_assoc] at keyed
  exact Expr.judges_pow keyed _ _

theorem judges_gadgetRounds (params : Params) (cs : List Fr) (h : Carries L n state v) :
    L.judges (gadgetRounds params cs state) n
      fun r m => Carries L m r (feistelRounds params cs v) := by
  induction cs generalizing n state v with
  | nil => exact L.pure h
  | cons c cs ih =>
    obtain ⟨left, right⟩ := state
    obtain ⟨u, w⟩ := v
    cases cs with
    | nil =>
      refine L.bind (judges_round h.1 c) fun t m le ht => L.pure ?_
      exact ⟨L.mono h.1 le, L.plus (L.mono h.2 le) ht⟩
    | cons c' cs =>
      refine L.bind (judges_round h.1 c) fun t m le ht => ?_
      exact ih ⟨L.plus (L.mono h.2 le) ht, L.mono h.1 le⟩

theorem judges_feistelGadget (params : Params) (h : Carries L n state v) :
    L.judges (feistelGadget params state) n fun r m => Carries L m r (feistel params v) :=
  judges_gadgetRounds params params.constants h

/-- Squeezing once more is permuting, and then squeezing as right after absorbing. -/
theorem squeezeMany_succ (params : Params) (k : ℕ) (s : Fr × Fr) :
    Sponge.squeezeMany params (k + 2) ⟨s, .absorbing⟩ =
      s.1 :: Sponge.squeezeMany params (k + 1) ⟨feistel params s, .absorbing⟩ := rfl

theorem judges_squeezeGadget (params : Params) (k : ℕ) (h : Carries L n state v) :
    L.judges (squeezeGadget params k state) n fun r m =>
      List.Forall₂ (L.carries m) r (Sponge.squeezeMany params k ⟨v, .absorbing⟩) := by
  induction k generalizing n state v with
  | zero => exact L.pure .nil
  | succ k ih =>
    cases k with
    | zero => exact L.pure (.cons h.1 .nil)
    | succ k =>
      refine L.bind (judges_feistelGadget params h) fun next m le hn => ?_
      refine L.bind (ih hn) fun outs m' le' rest => L.pure ?_
      rw [squeezeMany_succ]
      exact .cons (L.mono h.1 (le.trans le')) rest

theorem judges_absorb (params : Params) {inputs : List Expr} {xs : List Fr}
    (h : List.Forall₂ (L.carries n) inputs xs) (hs : Carries L n state v) :
    L.judges (inputs.foldlM (fun state x => feistelGadget params (state.1 + x, state.2)) state) n
      fun r m => Carries L m r (xs.foldl (Sponge.absorbOne params) v) := by
  induction inputs generalizing xs n state v with
  | nil => cases h; exact L.pure hs
  | cons x inputs ih =>
    obtain ⟨u, us, head, tail, rfl⟩ := List.forall₂_cons_left_iff.mp h
    simp only [List.foldlM_cons, List.foldl_cons]
    have added : Carries L n (state.1 + x, state.2) (v.1 + u, v.2) := ⟨L.plus hs.1 head, hs.2⟩
    refine L.bind (judges_feistelGadget params added) fun next m le hn => ?_
    exact ih (tail.imp fun _ _ hx => L.mono hx le) hn

theorem judges_spongeGadget (params : Params) {inputs : List Expr} {xs : List Fr}
    (h : List.Forall₂ (L.carries n) inputs xs) (outputs : ℕ) :
    L.judges (spongeGadget params inputs outputs) n fun r m =>
      List.Forall₂ (L.carries m) r (hash params xs outputs) := by
  have start : Carries L n (0, 0) (0, 0) := ⟨L.const n 0, L.const n 0⟩
  refine L.bind (judges_absorb params h start) fun state m _ hs => ?_
  exact judges_squeezeGadget params outputs hs

theorem exact_spongeGadget (params : Params) {inputs : List Expr} {xs : List Fr}
    (h : List.Forall₂ (Expr.Carries z n) inputs xs) (outputs : ℕ) :
    Exact z given (spongeGadget params inputs outputs) n fun r m =>
      List.Forall₂ (Expr.Carries z m) r (hash params xs outputs) :=
  judges_spongeGadget (L := .exact z given) params h outputs

theorem carries_eval {z z' : Assignment} {es : List Expr} {n : ℕ}
    (same : es.map (Expr.eval z) = es.map (Expr.eval z')) :
    List.Forall₂ ((Logic.pins z z').carries n) es (es.map (Expr.eval z)) := by
  rw [List.forall₂_map_right_iff, List.forall₂_same]
  exact fun e member => ⟨rfl, (List.map_inj_left.mp same e member).symm⟩

/-- What the constraints of a sponge leave to two assignments that give its inputs the same
values: nothing about its variables, and the hash for its outputs. -/
theorem hash_of_holds {params : Params} {inputs outs : List Expr} {outputs n m : ℕ}
    {z z' : Assignment} (result : (spongeGadget params inputs outputs).outcome n = some (outs, m))
    (holds : (spongeGadget params inputs outputs).Holds z n)
    (holds' : (spongeGadget params inputs outputs).Holds z' n)
    (same : inputs.map (Expr.eval z) = inputs.map (Expr.eval z')) :
    (∀ i, n ≤ i → i < m → z i = z' i) ∧
      outs.map (Expr.eval z) = hash params (inputs.map (Expr.eval z)) outputs := by
  have judged := judges_spongeGadget (n := n) params (carries_eval same) outputs
  obtain ⟨agree, values⟩ := judged holds holds' outs m result
  refine ⟨agree, ?_⟩
  rw [← List.forall₂_eq_eq_eq, List.forall₂_map_left_iff]
  exact values.imp fun _ _ h => h.1

/-- A sponge hashes as the native one. A witness session takes it to its end once its inputs can be
read, be the constraints checked or not. Compiled, it adds rows that force its outputs to be the
hash and leave none of its variables free, once the values of the inputs are given. -/
theorem hash_of_spongeGadget (params : Params) (inputs : List Expr) (outputs : ℕ) :
    (∀ (s : Session) (checked : Bool) (xs : List Fr), s.mode = .witness checked → s.Filled →
      inputs.mapM (Expr.read s.values) = .ok xs →
      ∃ outs s', (spongeGadget params inputs outputs).run s = (.ok outs, s') ∧
        outs.mapM (Expr.read s'.values) = .ok (hash params xs outputs)) ∧
    ∀ s : Session, s.mode = .compile →
      ∃ outs s' rows, (spongeGadget params inputs outputs).run s = (.ok outs, s') ∧
        s'.rows.toList = s.rows.toList ++ rows ∧
        (∀ z, (∀ row ∈ rows, row.Holds z) →
          outs.map (Expr.eval z) = hash params (inputs.map (Expr.eval z)) outputs) ∧
        ∀ z z', (∀ row ∈ rows, row.Holds z) → (∀ row ∈ rows, row.Holds z') →
          inputs.map (Expr.eval z) = inputs.map (Expr.eval z') →
          ∀ i, s.nextVar ≤ i → i < s'.nextVar → z i = z' i := by
  constructor
  · intro s checked xs mode filled given
    exact generates_of_judges (K := Expr.list) (R := Expr.list)
      (fun L n carried => judges_spongeGadget params carried outputs) mode filled given
  · intro s mode
    have unread : List.Forall₂ (Logic.compiles.carries s.nextVar) inputs
        (inputs.map (Expr.eval fun _ => 0)) := by
      rw [List.forall₂_map_right_iff, List.forall₂_same]
      exact fun _ _ => trivial
    obtain ⟨outs, s', run, outcome, ⟨rows, appended, meaning⟩, -⟩ :=
      run_compiles mode (judges_spongeGadget params unread outputs)
    refine ⟨outs, s', rows, run, appended, fun z satisfied => ?_,
      fun z z' satisfied satisfied' same => ?_⟩
    · have holds := (meaning z).mp satisfied
      exact (hash_of_holds outcome holds holds rfl).2
    · have holds := (meaning z).mp satisfied
      have holds' := (meaning z').mp satisfied'
      exact (hash_of_holds outcome holds holds' same).1

/-- Two rounds of the cube. -/
def twoRounds : Params where
  rounds := 2
  exponent := 3
  key := 1
  constants := [0, 4]
  rounds_pos := by decide
  length_constants := rfl
  odd_exponent := by decide

/-- Two outputs for a sum with a variable, whose value is 5. -/
theorem hash_of_two_rounds :
    ∃ outs s', (spongeGadget twoRounds [.add (.var 0) (.const 2)] 2).run
        ⟨.witness true, #[], #[5], 1⟩ = (.ok outs, s') ∧
      outs.mapM (Expr.read s'.values) = .ok (hash twoRounds [7] 2) :=
  (hash_of_spongeGadget twoRounds [.add (.var 0) (.const 2)] 2).1 ⟨.witness true, #[], #[5], 1⟩ true
    [7] rfl rfl rfl

end Mimc
end RankOne
