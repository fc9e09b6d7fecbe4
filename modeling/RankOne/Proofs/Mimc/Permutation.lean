import RankOne.Mimc.Sponge
import RankOne.Proofs.Field.Power
import RankOne.Proofs.Mimc.Indexed

/-! The permutation loses nothing. Each round adds to one branch a value of the other one, which it
keeps, so that it can be undone whatever the round function is. A sponge therefore tells apart what
it absorbs. The round function is itself a permutation for some of the exponents only. -/
namespace RankOne.Mimc
variable {params : Params}

section Feistel

def exchange (params : Params) (state : Fr × Fr) (c : Fr) : Fr × Fr :=
  (state.2 + params.round c state.1, state.1)

def finish (params : Params) (state : Fr × Fr) (c : Fr) : Fr × Fr :=
  (state.1, state.2 + params.round c state.1)

def undoExchange (params : Params) (state : Fr × Fr) (c : Fr) : Fr × Fr :=
  (state.2, state.1 - params.round c state.2)

def undoFinish (params : Params) (state : Fr × Fr) (c : Fr) : Fr × Fr :=
  (state.1, state.2 - params.round c state.1)

/-- The rounds backwards: the last one, and then the others up to the first one. -/
def feistelInverse (params : Params) (state : Fr × Fr) : Fr × Fr :=
  match params.constants.reverse with
  | [] => state
  | last :: before => before.foldl (undoExchange params) (undoFinish params state last)

theorem undoExchange_exchange (params : Params) (state : Fr × Fr) (c : Fr) :
    undoExchange params (exchange params state c) c = state :=
  Prod.ext rfl (add_sub_cancel_right state.2 _)

theorem exchange_undoExchange (params : Params) (state : Fr × Fr) (c : Fr) :
    exchange params (undoExchange params state c) c = state :=
  Prod.ext (sub_add_cancel state.1 _) rfl

theorem undoFinish_finish (state : Fr × Fr) (c : Fr) :
    undoFinish params (finish params state c) c = state :=
  Prod.ext rfl (add_sub_cancel_right state.2 _)

theorem finish_undoFinish (state : Fr × Fr) (c : Fr) :
    finish params (undoFinish params state c) c = state :=
  Prod.ext rfl (sub_add_cancel state.2 _)

theorem feistelRounds_concat (cs : List Fr) (last : Fr) (state : Fr × Fr) :
    feistelRounds params (cs ++ [last]) state =
      finish params (cs.foldl (exchange params) state) last := by
  induction cs generalizing state with
  | nil => rfl
  | cons c cs ih =>
    rw [List.foldl_cons, ← ih]
    cases cs <;> rfl

/-- The permutation and its inverse, by the constants before the last one and the last one. -/
theorem exists_rounds (params : Params) : ∃ (before : List Fr) (last : Fr),
    (∀ state, feistel params state =
      finish params (before.foldl (exchange params) state) last) ∧
    ∀ state, feistelInverse params state =
      before.reverse.foldl (undoExchange params) (undoFinish params state last) := by
  rcases List.eq_nil_or_concat params.constants with empty | ⟨before, last, rounds⟩
  · have length := params.length_constants
    rw [empty] at length
    exact absurd length.symm (Nat.ne_of_gt params.rounds_pos)
  · rw [List.concat_eq_append] at rounds
    refine ⟨before, last, fun state => ?_, fun state => ?_⟩
    · rw [feistel, rounds, feistelRounds_concat]
    · rw [feistelInverse, rounds, List.reverse_append]
      rfl

/-- Steps that are undone one by one, the last one first. -/
theorem foldl_reverse_foldl {σ α : Type} {f g : σ → α → σ} (h : ∀ s a, g (f s a) a = s)
    (xs : List α) (s : σ) : xs.reverse.foldl g (xs.foldl f s) = s := by
  induction xs generalizing s with
  | nil => rfl
  | cons x xs ih =>
    rw [List.foldl_cons, List.reverse_cons, List.foldl_append, ih]
    exact h s x

theorem feistelInverse_feistel (state : Fr × Fr) :
    feistelInverse params (feistel params state) = state := by
  obtain ⟨before, last, forwards, backwards⟩ := exists_rounds params
  rw [backwards, forwards, undoFinish_finish]
  exact foldl_reverse_foldl (undoExchange_exchange params) before state

theorem feistel_feistelInverse (state : Fr × Fr) :
    feistel params (feistelInverse params state) = state := by
  obtain ⟨before, last, forwards, backwards⟩ := exists_rounds params
  have undone (state : Fr × Fr) : before.foldl (exchange params)
      (before.reverse.foldl (undoExchange params) state) = state := by
    have backwards := foldl_reverse_foldl (exchange_undoExchange params) before.reverse state
    rwa [List.reverse_reverse] at backwards
  rw [forwards, backwards, undone, finish_undoFinish]

theorem feistel_injective (params : Params) : Function.Injective (feistel params) := by
  intro state state' same
  rw [← feistelInverse_feistel state, same, feistelInverse_feistel]

namespace Sponge

theorem absorbOne_injective (params : Params) (state : Fr × Fr) :
    Function.Injective (absorbOne params state) := by
  intro x y same
  exact add_left_cancel (congrArg Prod.fst (feistel_injective params same))

theorem foldl_absorbOne_injective (params : Params) (xs : List Fr) :
    Function.Injective fun state => xs.foldl (absorbOne params) state := by
  induction xs with
  | nil => exact fun _ _ same => same
  | cons x xs ih =>
    intro state state' same
    have added : (state.1 + x, state.2) = (state'.1 + x, state'.2) :=
      feistel_injective params (ih same)
    obtain ⟨left, right⟩ := Prod.mk.inj added
    exact Prod.ext (add_right_cancel left) right

/-- The elements that differ lead to different states, and what follows keeps these apart. -/
theorem absorb_ne (params : Params) (sponge : Sponge) (before after : List Fr) {x y : Fr}
    (differ : x ≠ y) : (sponge.absorb params (before ++ x :: after)).state ≠
      (sponge.absorb params (before ++ y :: after)).state := by
  intro same
  simp only [absorb, List.foldl_append, List.foldl_cons] at same
  exact differ (absorbOne_injective params _ (foldl_absorbOne_injective params after same))

end Sponge

/-- The permutation is one of the pairs of branches, with the rounds backwards as its inverse. Lists
that differ in one element only are absorbed from one state to different ones. -/
theorem feistel_permutes (params : Params) :
    Function.LeftInverse (feistelInverse params) (feistel params) ∧
    Function.RightInverse (feistelInverse params) (feistel params) ∧
    Function.Bijective (feistel params) ∧
    ∀ (sponge : Sponge) (before after : List Fr) (x y : Fr), x ≠ y →
      (sponge.absorb params (before ++ x :: after)).state ≠
        (sponge.absorb params (before ++ y :: after)).state := by
  refine ⟨feistelInverse_feistel, feistel_feistelInverse,
    ⟨feistel_injective params, ?onto⟩, ?apart⟩
  case onto => exact fun state => ⟨_, feistel_feistelInverse state⟩
  case apart => exact fun sponge before after _ _ => sponge.absorb_ne params before after

/-- Two rounds of the cube, which takes the value 1 three times. -/
theorem feistel_permutes_with_cubes : ∃ params, Params.create 2 3 1 [0, 4] = .ok params ∧
    Function.Bijective (feistel params) ∧ (0 : Fr) ≠ 5 ∧
    (Sponge.start.absorb params [7, 0, 9]).state ≠ (Sponge.start.absorb params [7, 5, 9]).state := by
  have differ : (0 : Fr) ≠ 5 := by decide
  refine ⟨_, rfl, ?_⟩
  obtain ⟨-, -, bijective, apart⟩ := feistel_permutes ⟨2, 3, 1, [0, 4], by decide, rfl, by decide⟩
  exact ⟨bijective, differ, apart .start [7] [9] 0 5 differ⟩

end Feistel

section Rounds

theorem bijective_round_iff (params : Params) (c : Fr) :
    Function.Bijective (params.round c) ↔ params.exponent.toNat.Coprime (modulus - 1) := by
  have shifted : params.round c =
      (fun x : Fr => x.pow params.exponent.toNat) ∘ Equiv.addRight (params.key + c) := by
    funext x
    rw [Params.round, Function.comp_apply, Equiv.coe_addRight, add_assoc]
  rw [shifted, Equiv.bijective_comp, Fr.bijective_pow_iff]

/-- There are as many elements other than zero as an even number. -/
theorem not_bijective_pow_of_even {e : ℕ} (even : e % 2 = 0) :
    ¬Function.Bijective fun x : Fr => x.pow e := by
  rw [Fr.bijective_pow_iff]
  exact Nat.not_coprime_of_dvd_of_dvd one_lt_two (Nat.dvd_of_mod_eq_zero even) (by decide)

/-- The rounds of accepted parameters permute the field just when the exponent has no factor in
common with the number of elements other than zero. The check of the exponent is for one factor
only, and refuses no permutation. -/
theorem rounds_bijective_iff (rounds exponent : UInt64) (key : Fr) (constants : List Fr) :
    (∀ params, Params.create rounds exponent key constants = .ok params →
      ∀ r < rounds.toNat, ∃ c, constants[r]? = some c ∧
        (∀ x, params.roundAt? r x = some ((x + key + c).pow exponent.toNat)) ∧
        (Function.Bijective (fun x => (x + key + c).pow exponent.toNat) ↔
          exponent.toNat.Coprime (modulus - 1))) ∧
    ∀ e, Params.create rounds exponent key constants = .error (.evenExponent e) →
      e = exponent.toNat ∧ ¬Function.Bijective fun x : Fr => x.pow e := by
  constructor
  · intro params accepted r inside
    obtain ⟨rfl, rfl, rfl, rfl⟩ := RawParams.mk.inj (params.raw_of_create accepted)
    rw [← params.length_constants] at inside
    have found := List.getElem?_eq_getElem inside
    exact ⟨_, found, fun x => by rw [Params.roundAt?, found]; rfl, bijective_round_iff params _⟩
  · intro e refused
    unfold Params.create at refused
    split at refused
    · split at refused
      · split at refused
        · cases refused
        · rename_i even
          cases refused
          exact ⟨rfl, not_bijective_pow_of_even (Nat.mod_two_ne_one.mp even)⟩
      · cases refused
    · cases refused

/-- A round of the fifth power. -/
theorem rounds_bijective_of_fifth_power : ∃ params, Params.create 1 5 2 [3] = .ok params ∧
    ∃ c, [(3 : Fr)][0]? = some c ∧ Function.Bijective fun x : Fr => (x + 2 + c).pow 5 := by
  obtain ⟨rounds, -⟩ := rounds_bijective_iff 1 5 2 [3]
  obtain ⟨c, found, -, bijective⟩ := rounds _ rfl 0 (by decide)
  exact ⟨_, rfl, c, found, bijective.mpr (by decide)⟩

/-- A round of the cube is accepted, and takes two elements to one. -/
theorem not_bijective_of_cube :
    let root : Fr := 4407920970296243842393367215006156084916469457145843978461
    ∃ params, Params.create 1 3 0 [0] = .ok params ∧ root ≠ 1 ∧
      params.roundAt? 0 root = some 1 ∧ params.roundAt? 0 1 = some 1 ∧
      ¬Function.Bijective (params.round 0) := by
  intro root
  let params : Params := ⟨1, 3, 0, [0], by decide, rfl, by decide⟩
  have cube (x : Fr) : params.roundAt? 0 x = some (x * x * x) := by
    change some ((x + 0 + 0).pow 3) = _
    rw [add_zero, add_zero, Fr.pow_eq, pow_three']
  have divides : ¬Nat.Coprime 3 (modulus - 1) := by decide
  exact ⟨params, rfl, by decide, by rw [cube]; decide, by rw [cube]; decide,
    mt (bijective_round_iff params 0).mp divides⟩

end Rounds

end RankOne.Mimc
