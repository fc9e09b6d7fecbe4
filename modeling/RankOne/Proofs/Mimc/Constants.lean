import RankOne.Mimc.Params
import RankOne.Proofs.Field.Encoding

/-! Round constants as iterated digests of a seed. The table can be filled round by round while one
digest is kept. The first round leaves the digest of the seed as it is, so that the digest of a
round was taken once more than the number of the round says. -/
namespace RankOne.Mimc
variable (hash : List UInt8 → List UInt8) {digest : List UInt8} {rounds i : ℕ}

/-- The constant of round `i`. The digest that is kept is replaced by its digest, but not in the
first round. -/
def constantStep (rounds i : ℕ) : StateM (List UInt8) Fr := do
  if i = 0 then return 0
  else
    modify hash
    if i = rounds - 1 then return 0 else return Fr.ofBytesMsb (← get)

theorem run_constantStep_zero : (constantStep hash rounds 0).run digest = pure (0, digest) := rfl

theorem run_constantStep_succ : (constantStep hash rounds (i + 1)).run digest =
    pure (if i + 1 = rounds - 1 then 0 else Fr.ofBytesMsb (hash digest), hash digest) := by
  unfold constantStep
  rw [if_neg i.succ_ne_zero]
  by_cases last : i + 1 = rounds - 1
  · simp only [if_pos last]
    rfl
  · simp only [if_neg last]
    rfl

/-- The rounds from one on that is not the first find the digests in turn. -/
theorem run_mapM_constantStep (k n : ℕ) (digest : List UInt8) :
    ((List.range' (k + 1) n).mapM (constantStep hash rounds)).run digest =
      pure (((digestChain hash digest n).zipIdx (k + 1)).map fun entry =>
        if entry.2 = rounds - 1 then 0 else Fr.ofBytesMsb entry.1, hash^[n] digest) := by
  induction n generalizing k digest with
  | zero => rfl
  | succ n ih =>
    rw [List.range'_succ, List.mapM_cons, StateT.run_bind, run_constantStep_succ, pure_bind,
      StateT.run_bind, ih, pure_bind]
    rfl

/-- The table is the one that is filled round by round, from the digest of the seed. -/
theorem deriveConstants_eq_mapM (seed : List UInt8) (rounds : ℕ) :
    deriveConstants hash seed rounds =
      Id.run (((List.range rounds).mapM (constantStep hash rounds)).run' (hash seed)) := by
  cases rounds with
  | zero => rfl
  | succ n =>
    have later : ∀ entry ∈ (digestChain hash (hash seed) n).zipIdx 1,
        (if entry.2 = 0 ∨ entry.2 + 1 = n + 1 then 0 else Fr.ofBytesMsb entry.1) =
          if entry.2 = n + 1 - 1 then 0 else Fr.ofBytesMsb entry.1 := by
      intro entry member
      have positive := List.le_snd_of_mem_zipIdx member
      simp [show entry.2 ≠ 0 by omega]
    rw [List.range_eq_range', List.range'_succ, List.mapM_cons, StateT.run'_eq, StateT.run_bind,
      run_constantStep_zero, pure_bind, StateT.run_bind, run_mapM_constantStep, pure_bind,
      ← List.map_congr_left later]
    rfl

theorem getElem?_digestChain (seed : List UInt8) (n i : ℕ) :
    (digestChain hash seed n)[i]? = if i < n then some (hash^[i + 1] seed) else none := by
  induction n generalizing seed i with
  | zero => rfl
  | succ n ih =>
    cases i with
    | zero => simp [digestChain]
    | succ i => simp [digestChain, ih]

theorem getElem?_deriveConstants (seed : List UInt8) (rounds i : ℕ) :
    (deriveConstants hash seed rounds)[i]? = if i < rounds then
      some (if i = 0 ∨ i + 1 = rounds then 0 else Fr.ofBytesMsb (hash^[i + 1] seed)) else none := by
  rw [deriveConstants, List.getElem?_map, List.getElem?_zipIdx, getElem?_digestChain]
  split <;> simp

@[simp] theorem length_deriveConstants (seed : List UInt8) (rounds : ℕ) :
    (deriveConstants hash seed rounds).length = rounds := by
  simp [deriveConstants]

theorem take_deriveConstants {shorter longer : ℕ} (le : shorter ≤ longer) (seed : List UInt8) :
    (deriveConstants hash seed longer).take (shorter - 1) =
      (deriveConstants hash seed shorter).take (shorter - 1) := by
  apply List.ext_getElem?
  intro i
  rw [List.getElem?_take, List.getElem?_take]
  split
  · rename_i before
    have place : i < longer ∧ i < shorter ∧ i + 1 ≠ longer ∧ i + 1 ≠ shorter := by omega
    rw [getElem?_deriveConstants, getElem?_deriveConstants]
    simp [place]
  · rfl

/-- There is one constant for each round, whatever the digest. The first and the last one are zero,
and the one of round `i` between them is the digest of the seed, taken `i + 1` times and read with
the most significant byte first. So tables for different numbers of rounds agree up to the last
constant of the shorter one. -/
theorem constants_of_digests (seed : List UInt8) (rounds : ℕ) :
    deriveConstants hash seed rounds =
      Id.run (((List.range rounds).mapM (constantStep hash rounds)).run' (hash seed)) ∧
    (deriveConstants hash seed rounds).length = rounds ∧
    (∀ i, (deriveConstants hash seed rounds)[i]? = if i < rounds then
      some (if i = 0 ∨ i = rounds - 1 then 0
        else Fr.ofNat (Nat.ofDigits 256 ((hash^[i + 1] seed).reverse.map UInt8.toNat)))
      else none) ∧
    ∀ longer, rounds ≤ longer → (deriveConstants hash seed longer).take (rounds - 1) =
      (deriveConstants hash seed rounds).take (rounds - 1) := by
  refine ⟨deriveConstants_eq_mapM hash seed rounds, length_deriveConstants hash seed rounds,
    fun i => ?_, fun longer le => take_deriveConstants hash le seed⟩
  rw [getElem?_deriveConstants, Fr.ofBytesMsb_eq]
  split
  · rename_i inside
    have last : i + 1 = rounds ↔ i = rounds - 1 := by omega
    simp only [last]
  · rfl

end RankOne.Mimc
