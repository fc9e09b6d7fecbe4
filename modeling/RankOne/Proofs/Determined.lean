import RankOne.Proofs.Gadgets
import RankOne.Proofs.Session

/-! Circuits determined by their input. Whatever satisfies the compiled constraints is then the
witness generated for the input that it spells, and the output is a function of this input. -/
namespace RankOne
open Circuit
variable {ι β γ : Type} [CircuitOutput β γ] {circuit : Option ι → Circuit β} {valid : ι → Prop}
  {inputOf : Assignment → ι} {free : ℕ} {f : ι → γ} {compiled : CompiledCircuit ι β}

/-- The first `free` variables are bits that spell an input. A valid input fixes all variables,
and gives the value `f` as the output. -/
structure Determined (circuit : Option ι → Circuit β) (valid : ι → Prop)
    (inputOf : Assignment → ι) (free : ℕ) (f : ι → γ) : Prop where
  skeleton : ∀ input, valid input → (circuit (some input)).skeleton = (circuit none).skeleton
  spelled_valid : ∀ z, valid (inputOf z)
  determines : ∀ input, valid input → ∀ z,
    Exact z (input = inputOf z) (circuit (some input)) 0 fun out m =>
      input = inputOf z ∧ z.IsBits 0 free ∧ free ≤ m ∧
      CircuitOutput.read (z.initial m) out = .ok (f input)

/-- What the constraints leave to a witness: to spell an input by bits. All else is the witness
generated for this input. -/
structure Forced (compiled : CompiledCircuit ι β) (w : Witness) (inputOf : Assignment → ι)
    (free : ℕ) (f : ι → γ) : Prop where
  isBits : ∀ i < free, w[i]? = some 0 ∨ w[i]? = some 1
  output : ∃ out, compiled.Exposes out ∧
    CircuitOutput.read w out = .ok (f (inputOf (.ofWitness w)))
  generated : compiled.generateWitness (inputOf (.ofWitness w)) =
    .ok (w, f (inputOf (.ofWitness w)))

namespace Determined

theorem compiles (h : Determined circuit valid inputOf free f) :
    ∃ compiled, CompiledCircuit.compile (fun i => (circuit i).build) = .ok compiled :=
  have valid := h.spelled_valid fun _ => 0
  CompiledCircuit.exists_compile (h.skeleton _ valid) (h.determines _ valid)

variable (h : Determined circuit valid inputOf free f)
  (compiles : CompiledCircuit.compile (fun i => (circuit i).build) = .ok compiled)
include h compiles

theorem generates (input : ι) (hi : valid input) :
    ∃ w, compiled.generateWitness input = .ok (w, f input) ∧ compiled.system.check w = .ok () ∧
      inputOf (.ofWitness w) = input := by
  obtain ⟨w, generated, _, spelled, -⟩ := CompiledCircuit.exists_generateWitness compiles
    (h.skeleton input hi) (h.determines input hi) fun _ _ _ post => post.2.2.2
  exact ⟨w, generated, CompiledCircuit.check_of_generateWitness generated, spelled.symm⟩

theorem forced {w : Witness} (accepted : compiled.system.check w = .ok ()) :
    Forced compiled w inputOf free f := by
  have valid := h.spelled_valid (.ofWitness w)
  obtain ⟨generated, out, exposes, -, isBits, enough, read⟩ :=
    CompiledCircuit.generateWitness_of_check compiles (h.skeleton _ valid)
      (h.determines _ valid (.ofWitness w)) (fun _ _ post => post.2.2.2) rfl accepted
  have size := (ConstraintSystem.holds_of_check accepted).1
  rw [← size, Assignment.initial_ofWitness] at read
  rw [← size] at enough
  refine ⟨fun i hi => ?_, ⟨out, exposes, read⟩, generated⟩
  have inside : i < w.size := hi.trans_le enough
  have value := isBits i hi
  rw [Nat.zero_add, Assignment.ofWitness_eq (Array.getElem?_eq_getElem inside)] at value
  rw [Array.getElem?_eq_getElem inside, Option.some_inj, Option.some_inj]
  exact value

/-- Generating a witness is a function of the input, so that no two witnesses spell the same. -/
theorem existsUnique (input : ι) (hi : valid input) :
    ∃! w, compiled.system.check w = .ok () ∧ inputOf (.ofWitness w) = input := by
  obtain ⟨w, generated, accepted, spelled⟩ := h.generates compiles input hi
  refine ⟨w, ⟨accepted, spelled⟩, ?_⟩
  rintro w' ⟨accepted', spelled'⟩
  have other := (h.forced compiles accepted').generated
  rw [spelled', generated] at other
  cases other
  rfl

end Determined
end RankOne
