import RankOne.Mimc.Gadget
import RankOne.Proofs.Field.Ring

/-! The permutation by index. Its rounds look their constants up in a table, and compare their
number with that of the last one. A table that nothing has checked may end early, or have no last
round: none stands for an index out of bounds, and for a number below zero. -/
namespace RankOne.Mimc

/-- Parameters as they stand in a text. -/
structure RawParams where
  rounds : UInt64
  exponent : UInt64
  key : Fr
  constants : List Fr
  deriving DecidableEq

def Params.raw (p : Params) : RawParams := ⟨p.rounds, p.exponent, p.key, p.constants⟩

theorem Params.raw_of_create {rounds exponent : UInt64} {key : Fr} {constants : List Fr}
    {p : Params} (h : Params.create rounds exponent key constants = .ok p) :
    p.raw = ⟨rounds, exponent, key, constants⟩ := by
  unfold Params.create at h
  split at h
  · split at h
    · split at h
      · cases h
        rfl
      · cases h
    · cases h
  · cases h

namespace RawParams

structure Valid (raw : RawParams) : Prop where
  rounds_pos : 1 ≤ raw.rounds.toNat
  length_constants : raw.constants.length = raw.rounds.toNat
  odd_exponent : raw.exponent.toNat % 2 = 1

/-- The number of the last round. -/
def last? (raw : RawParams) : Option ℕ :=
  if raw.rounds.toNat = 0 then none else some (raw.rounds.toNat - 1)

def power (x : Fr) (exponent : ℕ) : Fr :=
  if exponent = 5 then
    let square := x * x
    square * square * x
  else x.pow exponent

def round? (raw : RawParams) (x : Fr) (r : ℕ) : Option Fr := do
  let c ← raw.constants[r]?
  return power (x + raw.key + c) raw.exponent.toNat

def step? (raw : RawParams) (last : ℕ) (state : Fr × Fr) (r : ℕ) : Option (Fr × Fr) := do
  let t ← raw.round? state.1 r
  return if r < last then (state.2 + t, state.1) else (state.1, state.2 + t)

def feistel? (raw : RawParams) (state : Fr × Fr) : Option (Fr × Fr) := do
  let last ← raw.last?
  (List.range raw.rounds.toNat).foldlM (raw.step? last) state

def squeeze? (raw : RawParams) (sponge : Sponge) : Option (Fr × Sponge) := do
  let state ← match sponge.phase with
    | .absorbing => some sponge.state
    | .squeezed => raw.feistel? sponge.state
  return (state.1, ⟨state, .squeezed⟩)

def squeezeMany? (raw : RawParams) : ℕ → Sponge → Option (List Fr)
  | 0, _ => some []
  | n + 1, sponge => do
    let (out, next) ← raw.squeeze? sponge
    return out :: (← raw.squeezeMany? n next)

def hash? (raw : RawParams) (inputs : List Fr) (outputs : ℕ) : Option (List Fr) := do
  let state ← inputs.foldlM (fun state x => raw.feistel? (state.1 + x, state.2)) (0, 0)
  raw.squeezeMany? outputs ⟨state, .absorbing⟩

/-- The rounds of the gadget are those of the constants, whatever their number. -/
def gadgetStep (raw : RawParams) (last : ℕ) (state : Expr × Expr) (entry : Fr × ℕ) :
    Circuit (Expr × Expr) := do
  let t ← (state.1 + .const (raw.key + entry.1)).pow raw.exponent.toNat gadgetLoc
  return if entry.2 < last then (state.2 + t, state.1) else (state.1, state.2 + t)

def feistelGadget? (raw : RawParams) (state : Expr × Expr) : OptionT Circuit (Expr × Expr) := do
  let last ← OptionT.mk (pure raw.last?)
  OptionT.lift (raw.constants.zipIdx.foldlM (raw.gadgetStep last) state)

end RawParams

/-- One more output, which follows a permutation unless it is the first one. -/
def squeezeStep {m : Type → Type} [Monad m] (permute : Expr × Expr → m (Expr × Expr))
    (squeezed : (Expr × Expr) × List Expr) (i : ℕ) : m ((Expr × Expr) × List Expr) := do
  let state ← if 0 < i then permute squeezed.1 else pure squeezed.1
  return (state, squeezed.2 ++ [state.1])

def RawParams.spongeGadget? (raw : RawParams) (inputs : List Expr) (outputs : ℕ) :
    OptionT Circuit (List Expr) := do
  let state ← inputs.foldlM (fun state x => raw.feistelGadget? (state.1 + x, state.2)) (0, 0)
  let squeezed ← (List.range outputs).foldlM (squeezeStep raw.feistelGadget?) (state, [])
  return squeezed.2

variable (p : Params)

theorem power_eq_pow (x : Fr) (exponent : ℕ) : RawParams.power x exponent = x.pow exponent := by
  unfold RawParams.power
  split
  · rename_i five
    rw [five, Fr.pow_eq]
    ring
  · rfl

theorem last?_raw : p.raw.last? = some (p.rounds.toNat - 1) :=
  if_neg p.rounds_pos.ne'

theorem step?_raw {last r : ℕ} {c : Fr} (found : p.constants[r]? = some c) (state : Fr × Fr) :
    p.raw.step? last state r = some (if r < last then (state.2 + p.round c state.1, state.1)
      else (state.1, state.2 + p.round c state.1)) := by
  have round : p.raw.round? state.1 r = some (p.round c state.1) := by
    change (do return RawParams.power (state.1 + p.key + (← p.constants[r]?)) p.exponent.toNat) = _
    rw [found]
    exact congrArg some (power_eq_pow _ _)
  rw [RawParams.step?, round]
  rfl

/-- The rounds from `k` on are those of the constants from there on. -/
theorem foldlM_step? {k last : ℕ} {cs : List Fr} (rest : p.constants.drop k = cs)
    (finish : last + 1 = k + cs.length) (state : Fr × Fr) :
    (List.range' k cs.length).foldlM (p.raw.step? last) state =
      some (feistelRounds p cs state) := by
  induction cs generalizing k state with
  | nil => rfl
  | cons c cs ih =>
    have found : p.constants[k]? = some c := by
      rw [← List.head?_drop, rest, List.head?_cons]
    have tail : p.constants.drop (k + 1) = cs := by
      rw [← List.tail_drop, rest, List.tail_cons]
    rw [List.length_cons] at finish ⊢
    rw [List.range'_succ, List.foldlM_cons, step?_raw p found]
    cases cs with
    | nil =>
      simp at finish
      simp [finish, feistelRounds]
    | cons c' cs =>
      rw [List.length_cons] at finish
      rw [if_pos (by omega)]
      exact ih tail (by rw [List.length_cons]; omega) _

theorem feistel?_raw (state : Fr × Fr) : p.raw.feistel? state = some (feistel p state) := by
  have positive := p.rounds_pos
  have length := p.length_constants
  have finish : p.rounds.toNat - 1 + 1 = 0 + p.constants.length := by omega
  have rounds := foldlM_step? p List.drop_zero finish state
  rw [length] at rounds
  rw [RawParams.feistel?, last?_raw, List.range_eq_range', feistel]
  exact rounds

theorem squeezeMany?_raw (n : ℕ) (sponge : Sponge) :
    p.raw.squeezeMany? n sponge = some (sponge.squeezeMany p n) := by
  have squeeze (sponge : Sponge) : p.raw.squeeze? sponge = some (sponge.squeeze p) := by
    obtain ⟨state, phase⟩ := sponge
    cases phase with
    | absorbing => rfl
    | squeezed =>
      rw [RawParams.squeeze?, feistel?_raw]
      rfl
  induction n generalizing sponge with
  | zero => rfl
  | succ n ih =>
    simp only [RawParams.squeezeMany?, squeeze, Option.bind_eq_bind, Option.bind_some, ih]
    rfl

theorem hash?_raw (inputs : List Fr) (outputs : ℕ) :
    p.raw.hash? inputs outputs = some (hash p inputs outputs) := by
  simp only [RawParams.hash?, feistel?_raw]
  rw [← Option.pure_def, List.foldlM_pure]
  exact squeezeMany?_raw p outputs _

/-- The rounds from `k` on, as the gadget counts them. -/
theorem foldlM_gadgetStep {k last : ℕ} {cs : List Fr} (finish : last + 1 = k + cs.length)
    (state : Expr × Expr) :
    (cs.zipIdx k).foldlM (p.raw.gadgetStep last) state = gadgetRounds p cs state := by
  induction cs generalizing k state with
  | nil => rfl
  | cons c cs ih =>
    rw [List.length_cons] at finish
    rw [List.zipIdx_cons, List.foldlM_cons, RawParams.gadgetStep, bind_assoc]
    cases cs with
    | nil =>
      rw [List.length_nil] at finish
      simp only [if_neg (show ¬k < last by omega)]
      rfl
    | cons c' cs =>
      rw [List.length_cons] at finish
      simp only [if_pos (show k < last by omega)]
      refine congrArg _ (funext fun t => ?_)
      exact ih (by rw [List.length_cons]; omega) _

theorem feistelGadget?_raw (state : Expr × Expr) :
    p.raw.feistelGadget? state = OptionT.lift (feistelGadget p state) := by
  have positive := p.rounds_pos
  have length := p.length_constants
  have finish : p.rounds.toNat - 1 + 1 = 0 + p.constants.length := by omega
  have rounds := foldlM_gadgetStep p finish state
  rw [RawParams.feistelGadget?, last?_raw, feistelGadget, ← rounds]
  rfl

/-- Outputs after the first one each follow a permutation. -/
theorem foldlM_squeezeStep {k n : ℕ} (later : 0 < k) (state : Expr × Expr) (outs : List Expr) :
    (do
      let squeezed ← (List.range' k n).foldlM (squeezeStep (feistelGadget p))
        (state, outs ++ [state.1])
      return squeezed.2) = (do return outs ++ (← squeezeGadget p (n + 1) state)) := by
  induction n generalizing k state outs with
  | zero => rfl
  | succ n ih =>
    have permuted : squeezeGadget p (n + 1 + 1) state = (do
        let next ← feistelGadget p state
        return state.1 :: (← squeezeGadget p (n + 1) next)) := rfl
    rw [List.range'_succ, List.foldlM_cons, squeezeStep, if_pos later, permuted]
    simp only [bind_assoc, pure_bind]
    refine congrArg _ (funext fun next => ?_)
    rw [ih (Nat.succ_pos k)]
    simp

theorem squeezed_eq_squeezeGadget (n : ℕ) (state : Expr × Expr) :
    (do
      let squeezed ← (List.range n).foldlM (squeezeStep (feistelGadget p)) (state, [])
      return squeezed.2) = squeezeGadget p n state := by
  cases n with
  | zero => rfl
  | succ n =>
    rw [List.range_eq_range', List.range'_succ, List.foldlM_cons]
    have later := foldlM_squeezeStep p (n := n) Nat.one_pos state []
    simpa [squeezeStep] using later

theorem foldlM_lift {α β : Type} (f : β → α → Circuit β) (xs : List α) (b : β) :
    xs.foldlM (fun b x => OptionT.lift (f b x)) b = OptionT.lift (xs.foldlM f b) := by
  induction xs generalizing b with
  | nil => rfl
  | cons x xs ih =>
    rw [List.foldlM_cons, List.foldlM_cons, OptionT.lift_bind]
    exact congrArg _ (funext ih)

theorem spongeGadget?_raw (inputs : List Expr) (outputs : ℕ) :
    p.raw.spongeGadget? inputs outputs = OptionT.lift (spongeGadget p inputs outputs) := by
  have step : squeezeStep p.raw.feistelGadget? =
      fun squeezed i => OptionT.lift (squeezeStep (feistelGadget p) squeezed i) := by
    funext squeezed i
    unfold squeezeStep
    split
    · simp only [feistelGadget?_raw, OptionT.lift_bind, OptionT.lift_pure]
    · simp only [OptionT.lift_bind, OptionT.lift_pure]
  have squeezed (state : Expr × Expr) :
      (do
        let squeezed ← (List.range outputs).foldlM (squeezeStep p.raw.feistelGadget?) (state, [])
        return squeezed.2) = OptionT.lift (squeezeGadget p outputs state) := by
    rw [step, foldlM_lift, ← squeezed_eq_squeezeGadget, OptionT.lift_bind]
    simp only [OptionT.lift_pure]
  simp only [RawParams.spongeGadget?, squeezed, feistelGadget?_raw, foldlM_lift]
  rw [spongeGadget, OptionT.lift_bind]

end RankOne.Mimc
