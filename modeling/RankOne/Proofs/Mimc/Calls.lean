import RankOne.Mimc.Sponge
import RankOne.Proofs.Field.Ring

/-! Calls on a sponge, one after the other. Absorbing is a matter of the elements and not of the
calls that bring them, and after a reset nothing of the calls before is left. Squeezing depends on
the call before it: a call that brings no element makes the sponge squeeze its state once more. -/
namespace RankOne.Mimc
variable {params : Params}

namespace Sponge

theorem after_append (sponge : Sponge) (calls calls' : List Call) :
    sponge.after params (calls ++ calls') =
      (sponge.after params calls).after params calls' :=
  List.foldl_append

theorem outputs_append (sponge : Sponge) (calls calls' : List Call) :
    sponge.outputs params (calls ++ calls') =
      sponge.outputs params calls ++ (sponge.after params calls).outputs params calls' := by
  induction calls generalizing sponge with
  | nil => rfl
  | cons call calls ih =>
    simp only [List.cons_append, outputs, ih, List.append_assoc]
    rfl

section Pieces

theorem absorb_append (sponge : Sponge) (xs ys : List Fr) :
    (sponge.absorb params xs).absorb params ys = sponge.absorb params (xs ++ ys) := by
  simp [absorb, List.foldl_append]

theorem after_absorb_pieces {sponge : Sponge} (phase : sponge.phase = .absorbing)
    (pieces : List (List Fr)) :
    sponge.after params (pieces.map .absorb) = sponge.absorb params pieces.flatten := by
  induction pieces generalizing sponge with
  | nil =>
    obtain ⟨state, _⟩ := sponge
    cases phase
    rfl
  | cons piece pieces ih =>
    rw [List.flatten_cons, ← absorb_append, ← ih rfl]
    rfl

theorem outputs_absorb_pieces (sponge : Sponge) (pieces : List (List Fr)) :
    sponge.outputs params (pieces.map .absorb) = [] := by
  induction pieces generalizing sponge with
  | nil => rfl
  | cons piece pieces ih => exact ih _

theorem outputs_replicate_squeeze (sponge : Sponge) (n : ℕ) :
    sponge.outputs params (.replicate n .squeeze) = sponge.squeezeMany params n := by
  induction n generalizing sponge with
  | zero => rfl
  | succ n ih => exact congrArg _ (ih _)

@[simp] theorem length_squeezeMany (sponge : Sponge) (n : ℕ) :
    (sponge.squeezeMany params n).length = n := by
  induction n generalizing sponge with
  | zero => rfl
  | succ n ih => simp [squeezeMany, ih]

theorem squeezeMany_prefix {n m : ℕ} (le : n ≤ m) (sponge : Sponge) :
    sponge.squeezeMany params n <+: sponge.squeezeMany params m := by
  induction n generalizing m sponge with
  | zero => exact List.nil_prefix
  | succ n ih =>
    cases m with
    | zero => exact absurd le (Nat.not_succ_le_zero n)
    | succ m => exact List.cons_prefix_cons.mpr ⟨rfl, ih (Nat.le_of_succ_le_succ le) _⟩

theorem outputs_pieces (pieces : List (List Fr)) (n : ℕ) :
    start.outputs params (pieces.map .absorb ++ .replicate n .squeeze) =
      hash params pieces.flatten n := by
  rw [outputs_append, outputs_absorb_pieces, after_absorb_pieces rfl, outputs_replicate_squeeze]
  rfl

end Pieces
end Sponge

/-- Hashing in pieces: whatever calls came before a reset, and however the elements are cut into
calls after it, as many outputs follow as are squeezed, and they are the hash of the elements. The
same holds of a new sponge. A hash with fewer outputs is the beginning of one with more. -/
theorem hash_of_pieces (params : Params) :
    (∀ (history : List Sponge.Call) (pieces : List (List Fr)) (n : ℕ),
      let calls := pieces.map .absorb ++ .replicate n .squeeze
      Sponge.start.outputs params calls = hash params pieces.flatten n ∧
      Sponge.start.outputs params (history ++ .reset :: calls) =
        Sponge.start.outputs params history ++ hash params pieces.flatten n) ∧
    ∀ (inputs : List Fr) (n m : ℕ), n ≤ m →
      (hash params inputs n).length = n ∧ hash params inputs n <+: hash params inputs m := by
  refine ⟨fun history pieces n => ⟨Sponge.outputs_pieces pieces n, ?_⟩, fun inputs n m le => ?_⟩
  · rw [Sponge.outputs_append, ← Sponge.outputs_pieces]
    rfl
  · exact ⟨Sponge.length_squeezeMany _ n, Sponge.squeezeMany_prefix le _⟩

/-- Two elements in three calls, one of them without an element. -/
theorem hash_of_two_elements : ∃ params, Params.create 2 3 1 [0, 4] = .ok params ∧
    Sponge.start.outputs params [.absorb [1], .squeeze, .reset, .absorb [7], .absorb [],
        .absorb [9], .squeeze, .squeeze] =
      Sponge.start.outputs params [.absorb [1], .squeeze] ++ hash params [7, 9] 2 ∧
    1 ≤ 2 ∧ hash params [7, 9] 1 <+: hash params [7, 9] 2 := by
  refine ⟨_, rfl, ?_⟩
  obtain ⟨pieces, beginning⟩ := hash_of_pieces ⟨2, 3, 1, [0, 4], by decide, rfl, by decide⟩
  exact ⟨(pieces [.absorb [1], .squeeze] [[7], [], [9]] 2).2, one_le_two,
    (beginning [7, 9] 1 2 one_le_two).2⟩

namespace Sponge

theorem squeezed_after_iff (calls : List Call) :
    (start.after params calls).phase = .squeezed ↔ calls.getLast? = some .squeeze := by
  rcases List.eq_nil_or_concat calls with rfl | ⟨before, call, rfl⟩
  · simp [after, start]
  · rw [List.concat_eq_append, after_append, List.getLast?_concat]
    cases call <;> simp [after, call, absorb, squeeze, reset]

/-- Only a call to squeeze looks at the phase. -/
theorem outputs_of_head {calls : List Call} (head : calls.head? ≠ some .squeeze)
    (state : Fr × Fr) (phase phase' : Phase) :
    outputs params ⟨state, phase⟩ calls = outputs params ⟨state, phase'⟩ calls := by
  cases calls with
  | nil => rfl
  | cons call calls =>
    cases call with
    | absorb xs => rfl
    | squeeze => exact absurd rfl head
    | reset => rfl

/-- What comes out behind the outputs of the calls before, with a call that absorbs nothing. -/
theorem outputs_absorb_nil (before after : List Call) :
    start.outputs params (before ++ .absorb [] :: after) =
      start.outputs params before ++
        outputs params ⟨(start.after params before).state, .absorbing⟩ after :=
  outputs_append start before _

section Apart

/-- Two rounds of the first power, which fix one state. -/
def fixing (w : Fr × Fr) : Params where
  rounds := 2
  exponent := 1
  key := 0
  constants := [-w.2, w.2 - (w.1 + w.1)]
  rounds_pos := Nat.two_pos
  length_constants := rfl
  odd_exponent := by decide

/-- What they do to the difference from the fixed state. -/
def turn (v : Fr × Fr) : Fr × Fr := (v.1 + v.2, v.1 + v.1 + v.2)

theorem turn_surjective : Function.Surjective turn := by
  rintro ⟨x, y⟩
  refine ⟨(y - x, x + x - y), Prod.ext ?_ ?_⟩
  · change y - x + (x + x - y) = x
    ring
  · change y - x + (y - x) + (x + x - y) = y
    ring

theorem feistel_fixing (w v : Fr × Fr) : feistel (fixing w) v - w = turn (v - w) := by
  have round (c x : Fr) : (fixing w).round c x = x + c := by
    change (x + 0 + c).pow 1 = _
    rw [Fr.pow_eq, pow_one, add_zero]
  refine Prod.ext ?_ ?_
  · change v.2 + (fixing w).round _ v.1 - w.1 = v.1 - w.1 + (v.2 - w.2)
    rw [round]
    ring
  · change v.1 + (fixing w).round _ (v.2 + (fixing w).round _ v.1) - w.2 =
      v.1 - w.1 + (v.1 - w.1) + (v.2 - w.2)
    rw [round, round]
    ring

/-- One sponge for each fixed state. All of them are in the same phase, and the differences of their
states from the fixed ones are everything there is. -/
structure Spread (sponges : Fr × Fr → Sponge) : Prop where
  phase : ∀ w w', (sponges w).phase = (sponges w').phase
  surjective : Function.Surjective fun w => (sponges w).state - w

theorem surjective_feistel {states : Fr × Fr → Fr × Fr}
    (h : Function.Surjective fun w => states w - w) :
    Function.Surjective fun w => Mimc.feistel (fixing w) (states w) - w := by
  simp only [feistel_fixing]
  exact turn_surjective.comp h

theorem surjective_absorb {states : Fr × Fr → Fr × Fr}
    (h : Function.Surjective fun w => states w - w) (xs : List Fr) :
    Function.Surjective fun w => xs.foldl (absorbOne (fixing w)) (states w) - w := by
  induction xs generalizing states with
  | nil => exact h
  | cons x xs ih =>
    refine ih (@surjective_feistel (fun w => ((states w).1 + x, (states w).2)) ?_)
    have shifted := (Equiv.addRight (x, (0 : Fr))).surjective.comp h
    convert shifted using 2 with w
    refine Prod.ext ?_ ?_
    · exact add_sub_right_comm (states w).1 x w.1
    · exact (add_zero ((states w).2 - w.2)).symm

theorem spread_start : Spread fun _ => start := by
  refine ⟨fun _ _ => rfl, fun v => ⟨-v, ?_⟩⟩
  change (0, 0) - -v = v
  simp

theorem Spread.call {sponges : Fr × Fr → Sponge} (h : Spread sponges) (call : Call) :
    Spread fun w => ((sponges w).call (fixing w) call).2 := by
  cases call with
  | absorb xs => exact ⟨fun _ _ => rfl, surjective_absorb h.surjective xs⟩
  | squeeze =>
    refine ⟨fun _ _ => rfl, ?_⟩
    have phase (w : Fr × Fr) := h.phase w 0
    cases common : (sponges 0).phase with
    | absorbing => simpa [Sponge.call, squeeze, phase, common] using h.surjective
    | squeezed => simpa [Sponge.call, squeeze, phase, common] using surjective_feistel h.surjective
  | reset => exact spread_start

theorem Spread.after {sponges : Fr × Fr → Sponge} (h : Spread sponges) (calls : List Call) :
    Spread fun w => (sponges w).after (fixing w) calls := by
  induction calls generalizing sponges with
  | nil => exact h
  | cons call calls ih => exact ih (h.call call)

/-- After any calls there are parameters whose permutation changes the output. -/
theorem exists_feistel_ne (calls : List Call) : ∃ params,
    let state := (start.after params calls).state
    (feistel params state).1 ≠ state.1 := by
  obtain ⟨w, apart⟩ := (spread_start.after calls).surjective (0, 1)
  refine ⟨fixing w, fun same => ?_⟩
  have turned := (feistel_fixing w _).trans (congrArg turn apart)
  have before : (start.after (fixing w) calls).state.1 - w.1 = 0 := congrArg Prod.fst apart
  have permuted : (feistel (fixing w) (start.after (fixing w) calls).state).1 - w.1 = 0 + 1 :=
    congrArg Prod.fst turned
  rw [same, before, zero_add] at permuted
  exact zero_ne_one permuted

end Apart

/-- Between two calls to squeeze it is the state before the permutation that is squeezed again. -/
theorem outputs_ne_of_squeeze {before after : List Call}
    (last : before.getLast? = some .squeeze) (next : after.head? = some .squeeze) :
    ∃ params, start.outputs params (before ++ .absorb [] :: after) ≠
      start.outputs params (before ++ after) := by
  obtain ⟨params, changed⟩ := exists_feistel_ne before
  refine ⟨params, fun same => changed ?_⟩
  rw [outputs_absorb_nil, outputs_append, List.append_cancel_left_eq] at same
  obtain ⟨rest, rfl⟩ := List.head?_eq_some_iff.mp next
  have squeezed : (start.after params before).phase = .squeezed :=
    (squeezed_after_iff before).mpr last
  simp only [outputs, call, squeeze, squeezed] at same
  exact (List.head_eq_of_cons_eq same).symm

theorem outputs_absorb_nil_of_apart {before after : List Call}
    (apart : ¬(before.getLast? = some .squeeze ∧ after.head? = some .squeeze)) :
    start.outputs params (before ++ .absorb [] :: after) =
      start.outputs params (before ++ after) := by
  rw [outputs_absorb_nil, outputs_append, List.append_cancel_left_eq]
  by_cases next : after.head? = some .squeeze
  · have absorbing : (start.after params before).phase = .absorbing := by
      cases phase : (start.after params before).phase with
      | absorbing => rfl
      | squeezed => exact absurd ⟨(squeezed_after_iff before).mp phase, next⟩ apart
    rw [← absorbing]
  · exact outputs_of_head next _ _ _

/-- What is squeezed after an output: the state that the elements absorbed in between lead to, each
with a permutation, or that of one more permutation if there was no call in between. -/
theorem outputs_between (sponge : Sponge) (pieces : List (List Fr)) :
    let state := (sponge.squeeze params).2.state
    let next := if pieces = [] then feistel params state
      else pieces.flatten.foldl (absorbOne params) state
    sponge.outputs params (.squeeze :: (pieces.map .absorb ++ [.squeeze])) =
      [state.1, next.1] := by
  intro state next
  change state.1 :: outputs params ⟨state, .squeezed⟩ (pieces.map .absorb ++ [.squeeze]) = _
  rw [outputs_append, outputs_absorb_pieces, List.nil_append]
  refine congrArg (state.1 :: ·) ?_
  cases pieces with
  | nil => rfl
  | cons piece pieces =>
    have after : Sponge.after params (absorb params ⟨state, .squeezed⟩ piece) (pieces.map .absorb) =
        absorb params (absorb params ⟨state, .squeezed⟩ piece) pieces.flatten :=
      after_absorb_pieces rfl pieces
    rw [absorb_append] at after
    change outputs params (Sponge.after params (absorb params ⟨state, .squeezed⟩ piece) _) _ = _
    rw [after]
    rfl

end Sponge

/-- A call that absorbs nothing leaves all outputs as they are, whatever the parameters, just where
it does not come between two calls to squeeze. From one output to the next there is a permutation
for each element absorbed in between, and one if there is no call in between: after calls that
absorb nothing it is the same output again. -/
theorem unchanged_by_nothing_iff (before after : List Sponge.Call) :
    ((∀ params, Sponge.start.outputs params (before ++ .absorb [] :: after) =
        Sponge.start.outputs params (before ++ after)) ↔
      ¬(before.getLast? = some .squeeze ∧ after.head? = some .squeeze)) ∧
    ∀ (params : Params) (pieces : List (List Fr)),
      let state := (Sponge.start.after params (before ++ [.squeeze])).state
      let next := if pieces = [] then feistel params state
        else pieces.flatten.foldl (Sponge.absorbOne params) state
      Sponge.start.outputs params (before ++ .squeeze :: (pieces.map .absorb ++ [.squeeze])) =
        Sponge.start.outputs params before ++ [state.1, next.1] := by
  refine ⟨⟨fun unchanged between => ?_, fun apart params => ?_⟩, fun params pieces => ?_⟩
  · obtain ⟨params, changed⟩ := Sponge.outputs_ne_of_squeeze between.1 between.2
    exact changed (unchanged params)
  · exact Sponge.outputs_absorb_nil_of_apart apart
  · rw [Sponge.outputs_append, Sponge.after_append]
    exact congrArg _ (Sponge.outputs_between _ pieces)

/-- The call between two calls to squeeze makes the sponge give 512 again. -/
theorem not_unchanged_between_squeezes : ∃ params, Params.create 2 3 1 [0, 4] = .ok params ∧
    let before : List Sponge.Call := [.absorb [7], .squeeze]
    Sponge.start.outputs params (before ++ [.squeeze]) = [512, 273194117] ∧
    Sponge.start.outputs params (before ++ .absorb [] :: [.squeeze]) = [512, 512] ∧
    Sponge.start.outputs params (before ++ .absorb [] :: [.squeeze]) ≠
      Sponge.start.outputs params (before ++ [.squeeze]) := by
  refine ⟨_, rfl, ?_⟩
  let params : Params := ⟨2, 3, 1, [0, 4], by decide, rfl, by decide⟩
  have round (c x : Fr) : params.round c x = (x + 1 + c) * (x + 1 + c) * (x + 1 + c) := by
    change (x + 1 + c).pow 3 = _
    rw [Fr.pow_eq, pow_three']
  have rounds (v : Fr × Fr) : feistel params v =
      (v.2 + params.round 0 v.1, v.1 + params.round 4 (v.2 + params.round 0 v.1)) := rfl
  have first : feistel params (0 + 7, 0) = (512, 138188420) := by
    rw [rounds, round, round]
    decide
  have second : (feistel params (512, 138188420)).1 = 273194117 := by
    rw [rounds, round]
    decide
  intro before
  have outputs : Sponge.start.outputs params (before ++ [.squeeze]) = [512, 273194117] := by
    change [(feistel params (0 + 7, 0)).1, (feistel params (feistel params (0 + 7, 0))).1] = _
    rw [first, second]
  have again : Sponge.start.outputs params (before ++ .absorb [] :: [.squeeze]) = [512, 512] := by
    change [(feistel params (0 + 7, 0)).1, (feistel params (0 + 7, 0)).1] = _
    rw [first]
  refine ⟨outputs, again, fun same => ?_⟩
  rw [outputs, again] at same
  exact absurd same (by decide)

end RankOne.Mimc
