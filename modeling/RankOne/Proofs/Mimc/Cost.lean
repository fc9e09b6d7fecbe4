import RankOne.Proofs.Power

/-! What hashing costs in a circuit: a power for every round of every permutation. Nothing is folded
once an element has been absorbed, and everything before. -/
namespace RankOne.Mimc
open Circuit
variable {params : Params} {folded : Bool} {state : Expr × Expr}

/-- The products of a round, squares included: one for each digit of the exponent after the leading
one, and one more where the digit is set. -/
def roundCost (params : Params) : ℕ :=
  params.exponent.toNat.log2 + (Nat.digits 2 params.exponent.toNat).sum - 1

/-- Whether the branches of a state fold: before an element is absorbed both are constants, and
afterwards the left one is not. -/
def Folds (folded : Bool) (state : Expr × Expr) : Prop :=
  state.1.isConst = folded ∧ (folded → state.2.isConst)

theorem costs_round (params : Params) {x : Expr} (hx : x.isConst = folded) (c : Fr) (n : ℕ) :
    Costs ((x + .const (params.key + c)).pow params.exponent.toNat gadgetLoc) n
      (if folded then 0 else roundCost params) fun r => r.isConst = folded := by
  have positive : params.exponent.toNat ≠ 0 := by
    have odd := params.odd_exponent
    omega
  have keyed : (x + .const (params.key + c)).isConst = folded := by
    rw [Expr.isConst_plus, hx]
    exact Bool.and_true folded
  have cost := Expr.costs_pow (x + .const (params.key + c)) positive gadgetLoc n
  rwa [keyed] at cost

theorem costs_gadgetRounds (params : Params) (cs : List Fr) (h : Folds folded state) (n : ℕ) :
    Costs (gadgetRounds params cs state) n (cs.length * if folded then 0 else roundCost params)
      (Folds folded) := by
  induction cs generalizing n state with
  | nil =>
    rw [List.length_nil, Nat.zero_mul]
    exact .pure h
  | cons c cs ih =>
    obtain ⟨left, right⟩ := state
    obtain ⟨hl, hr⟩ := h
    have added {t : Expr} (ht : t.isConst = folded) : (right + t).isConst = folded := by
      rw [Expr.isConst_plus, ht]
      cases folded with
      | false => exact Bool.and_false _
      | true => exact (Bool.and_true _).trans (hr rfl)
    cases cs with
    | nil =>
      rw [List.length_singleton, Nat.one_mul]
      exact (costs_round params hl c n).bind fun t ht =>
        .pure ⟨hl, fun known => (added ht).trans known⟩
    | cons c' cs =>
      rw [List.length_cons, Nat.succ_mul, Nat.add_comm]
      exact (costs_round params hl c n).bind fun t ht =>
        ih ⟨added ht, fun known => hl.trans known⟩ _

def permutationCost (params : Params) : ℕ := params.rounds.toNat * roundCost params

theorem costs_feistelGadget (params : Params) (h : Folds folded state) (n : ℕ) :
    Costs (feistelGadget params state) n (if folded then 0 else permutationCost params)
      (Folds folded) := by
  have cost := costs_gadgetRounds params params.constants h n
  rwa [params.length_constants, mul_ite, Nat.mul_zero] at cost

theorem costs_absorb (params : Params) {inputs : List Expr} (hs : Folds folded state)
    (unknown : ∀ x ∈ inputs, x.isConst = false) (n : ℕ) :
    Costs (inputs.foldlM (fun state x => feistelGadget params (state.1 + x, state.2)) state) n
      (inputs.length * permutationCost params) (Folds (folded && inputs.isEmpty)) := by
  induction inputs generalizing n folded state with
  | nil =>
    rw [List.length_nil, Nat.zero_mul, List.isEmpty_nil, Bool.and_true]
    exact .pure hs
  | cons x inputs ih =>
    obtain ⟨hx, hxs⟩ := List.forall_mem_cons.mp unknown
    have added : Folds false (state.1 + x, state.2) :=
      ⟨by rw [Expr.isConst_plus, hx, Bool.and_false],
        fun known => absurd known Bool.false_ne_true⟩
    rw [List.foldlM_cons, List.length_cons, Nat.succ_mul, Nat.add_comm, List.isEmpty_cons,
      Bool.and_false]
    exact (costs_feistelGadget params added n).bind fun state hs => ih hs hxs _

/-- The first output is free, and every other one costs a permutation. -/
theorem costs_squeezeGadget (params : Params) (outputs : ℕ) (h : Folds folded state) (n : ℕ) :
    Costs (squeezeGadget params outputs state) n
      (if folded then 0 else (outputs - 1) * permutationCost params) fun _ => True := by
  induction outputs generalizing n state with
  | zero =>
    rw [Nat.zero_sub, Nat.zero_mul, ite_self]
    exact .pure trivial
  | succ k ih =>
    cases k with
    | zero =>
      rw [Nat.zero_add, Nat.sub_self, Nat.zero_mul, ite_self]
      exact .pure trivial
    | succ k =>
      have next := (costs_feistelGadget params h n).bind fun next hn =>
        (ih hn _).bind fun outs _ => Costs.pure (a := state.1 :: outs) (P := fun _ => True) trivial
      have steps : (if folded then 0 else (k + 1 + 1 - 1) * permutationCost params) =
          (if folded then 0 else permutationCost params) +
            ((if folded then 0 else (k + 1 - 1) * permutationCost params) + 0) := by
        cases folded
        · simp [Nat.succ_mul, Nat.add_comm]
        · rfl
      rw [steps]
      exact next

/-- A permutation for every input, and one for every output after the first; nothing without
inputs. -/
def spongeCost (params : Params) (inputs outputs : ℕ) : ℕ :=
  if inputs = 0 then 0 else permutationCost params * (inputs + max outputs 1 - 1)

theorem costs_spongeGadget (params : Params) {inputs : List Expr}
    (unknown : ∀ x ∈ inputs, x.isConst = false) (outputs n : ℕ) :
    Costs (spongeGadget params inputs outputs) n (spongeCost params inputs.length outputs)
      fun _ => True := by
  have start : Folds true ((0, 0) : Expr × Expr) := ⟨rfl, fun _ => rfl⟩
  have cost := (costs_absorb params start unknown n).bind fun state hs =>
    costs_squeezeGadget params outputs hs _
  have total : spongeCost params inputs.length outputs =
      inputs.length * permutationCost params +
        if true && inputs.isEmpty then 0 else (outputs - 1) * permutationCost params := by
    cases inputs with
    | nil =>
      rw [List.length_nil, Nat.zero_mul]
      rfl
    | cons x inputs =>
      have permutations : (x :: inputs).length + max outputs 1 - 1 =
          (x :: inputs).length + (outputs - 1) := by
        rw [List.length_cons]
        omega
      rw [spongeCost, if_neg (by simp), permutations, Nat.mul_add, Nat.mul_comm,
        Nat.mul_comm _ (outputs - 1)]
      rfl
  rw [total]
  exact cost

/-- The inputs are variables, on which compiling records nothing. -/
theorem run_allocateInputs (self : SpongeCircuit) :
    (self.allocateInputs none).run (.start .compile) =
      (.ok ((List.range self.inputs.toNat).map fun i => .var (0 + i * 1)),
        (Session.start .compile).reserve (self.inputs.toNat * 1)) := by
  have unconstrained (vars : List Expr) : vars.flatMap Shape.field.constraints = [] :=
    List.flatMap_eq_nil_iff.mpr fun _ _ => rfl
  change Circuit.run (.constrain (List.flatMap Shape.field.constraints _) _ _ _) _ = _
  rw [unconstrained]
  rfl

/-- A sponge compiles to as many rows as it has variables that are not inputs: with an input, a
power in every round of a permutation for each input and each output after the first, and none
without an input. A power takes a square for each binary digit of the exponent after the leading
one, and a product for each digit among these that is set. -/
theorem size_of_compile (self : SpongeCircuit) :
    let inputs := self.inputs.toNat
    let exponent := self.params.exponent.toNat
    let products := if inputs = 0 then 0 else
      self.params.rounds.toNat * (exponent.log2 + (Nat.digits 2 exponent).sum - 1) *
        (inputs + max self.outputs.toNat 1 - 1)
    ∃ compiled, CompiledCircuit.compile (fun input => (self.circuit input).build) = .ok compiled ∧
      compiled.system.variableCount = inputs + products ∧ compiled.system.rows.size = products := by
  intro inputs exponent products
  have unknown : ∀ x ∈ (List.range inputs).map fun i => Expr.var (0 + i * 1),
      x.isConst = false := by
    simp
  have takes := takes_of_costs (costs_spongeGadget self.params unknown self.outputs.toNat)
  rw [List.length_map, List.length_range] at takes
  obtain ⟨outs, s, rows, run, recorded, length⟩ :=
    takes.rows ((Session.start .compile).reserve (inputs * 1)) rfl
  have allocated := takes.allocates _ s outs run
  have whole : (self.circuit none).run (.start .compile) = (.ok outs, s) := by
    rw [SpongeCircuit.circuit, run_bind, run_allocateInputs]
    exact run
  refine ⟨_, by rw [CompiledCircuit.compile_run, whole], ?_, ?_⟩
  · exact allocated.trans (congrArg (· + products) ((Nat.zero_add _).trans (Nat.mul_one inputs)))
  · change s.rows.size = products
    rw [← Array.length_toList, recorded]
    exact length

end RankOne.Mimc
