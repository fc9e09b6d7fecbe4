import RankOne.Proofs.Json.Config
import RankOne.Proofs.Mimc.Indexed

/-! Configurations through their texts. What is written is read back, and parameters that are read
at all are valid, whether they are given on their own or with a circuit, by name or in order. -/
namespace RankOne

/-- No index is out of bounds, and by index the parameters do what valid ones do. -/
structure Mimc.RawParams.Computes (raw : RawParams) (p : Params) : Prop where
  feistel (state : Fr × Fr) : raw.feistel? state = some (feistel p state)
  hash (inputs : List Fr) (outputs : ℕ) : raw.hash? inputs outputs = some (hash p inputs outputs)
  feistelGadget (state : Expr × Expr) :
    raw.feistelGadget? state = OptionT.lift (feistelGadget p state)
  spongeGadget (inputs : List Expr) (outputs : ℕ) :
    raw.spongeGadget? inputs outputs = OptionT.lift (spongeGadget p inputs outputs)

theorem Mimc.Params.valid_raw (p : Params) : p.raw.Valid :=
  ⟨p.rounds_pos, p.length_constants, p.odd_exponent⟩

theorem Mimc.Params.computes_raw (p : Params) : p.raw.Computes p :=
  ⟨feistel?_raw p, hash?_raw p, feistelGadget?_raw p, spongeGadget?_raw p⟩

namespace Json

/-- Parameters as they stand in a text. -/
def readRaw : Reader Mimc.RawParams := Fields.record <|
  ((member UInt64 "rounds").and <| (member UInt64 "exponent").and <|
    (member Fr "key").and <| member (List Fr) "round_constants").map
    fun (rounds, exponent, key, constants) => ⟨rounds, exponent, key, constants⟩

def readRawOfSponge : Reader Mimc.RawParams := Fields.record <|
  ((Fields.required "params".toList readRaw).and <| (member UInt64 "num_inputs").and <|
    member UInt64 "num_outputs").map fun (raw, _, _) => raw

def readRawOfCommitment : Reader Mimc.RawParams := Fields.record <|
  ((member UInt64 "len_bytes").and <| (member UInt64 "chunk_bits").and <|
    (Fields.withDefault "bit_order".toList JsonForm.read Commitment.BitOrder.lsbFirst).and <|
    Fields.required "params".toList readRaw).map fun (_, _, _, raw) => raw

theorem raw_of_createParams {rounds exponent : UInt64} {key : Fr} {constants : List Fr}
    {p : Mimc.Params} (h : createParams rounds exponent key constants = .ok p) :
    p.raw = ⟨rounds, exponent, key, constants⟩ := by
  unfold createParams at h
  split at h
  · rename_i created
    cases h
    exact Mimc.Params.raw_of_create created
  · cases h

theorem refines_params : Reader.Refines Mimc.Params.raw JsonForm.read readRaw := by
  refine Fields.Refines.record ((Fields.Refines.refl _).andThen fun a p created => ?_)
  exact congrArg Except.ok (raw_of_createParams created).symm

theorem refines_sponge :
    Reader.Refines (fun c : Mimc.SpongeCircuit => c.params.raw) JsonForm.read readRawOfSponge := by
  have fields := (Fields.Refines.required refines_params "params".toList).and
    (Fields.Refines.refl ((member UInt64 "num_inputs").and (member UInt64 "num_outputs")))
  refine Fields.Refines.record (fields.andThen fun a c built => ?_)
  cases built
  rfl

theorem refines_commitment : Reader.Refines (fun c : Commitment.CommitmentCircuit => c.params.raw)
    JsonForm.read readRawOfCommitment := by
  have fields := (Fields.Refines.refl (member UInt64 "len_bytes")).and <|
    (Fields.Refines.refl (member UInt64 "chunk_bits")).and <|
    (Fields.Refines.refl (Fields.withDefault "bit_order".toList JsonForm.read
      Commitment.BitOrder.lsbFirst)).and <|
    Fields.Refines.required refines_params "params".toList
  refine Fields.Refines.record (fields.andThen fun a c built => ?_)
  cases built
  rfl

def RoundTrips (α : Type) [JsonForm α] : Prop := ∀ a : α, parse (write a) = .ok a

/-- Every configuration survives its text. Parameters that are read, alone or with a circuit, are
those that stand in the text, which are valid: by index they do what they do by definition. -/
theorem parse_write_and_valid :
    (RoundTrips Mimc.Params ∧ RoundTrips Mimc.SpongeCircuit ∧
      RoundTrips Aes.KeySize ∧ RoundTrips Commitment.BitOrder ∧
      RoundTrips Aes.BlockCircuit ∧ RoundTrips Aes.CounterCircuit ∧ RoundTrips Aes.CounterInput ∧
      RoundTrips ChaCha.StreamCircuit ∧ RoundTrips ChaCha.StreamInput ∧
      RoundTrips Commitment.CommitmentCircuit ∧ RoundTrips Commitment.CommitmentInput) ∧
    (∀ (text : String) (p : Mimc.Params), parse text = .ok p →
      readRaw.run text = .ok p.raw ∧ p.raw.Valid ∧ p.raw.Computes p) ∧
    (∀ (text : String) (c : Mimc.SpongeCircuit), parse text = .ok c →
      readRawOfSponge.run text = .ok c.params.raw ∧ c.params.raw.Valid ∧
        c.params.raw.Computes c.params) ∧
    ∀ (text : String) (c : Commitment.CommitmentCircuit), parse text = .ok c →
      readRawOfCommitment.run text = .ok c.params.raw ∧ c.params.raw.Valid ∧
        c.params.raw.Computes c.params := by
  refine ⟨⟨parse_write, parse_write, parse_write, parse_write, parse_write, parse_write,
    parse_write, parse_write, parse_write, parse_write, parse_write⟩, ?_, ?_, ?_⟩
  · intro text p read
    exact ⟨refines_params.run read, p.valid_raw, p.computes_raw⟩
  · intro text c read
    exact ⟨refines_sponge.run read, c.params.valid_raw, c.params.computes_raw⟩
  · intro text c read
    exact ⟨refines_commitment.run read, c.params.valid_raw, c.params.computes_raw⟩

def oneRound : Mimc.Params where
  rounds := 1
  exponent := 7
  key := 7
  constants := [5]
  rounds_pos := by decide
  length_constants := rfl
  odd_exponent := by decide

/-- The round without the names of its members. -/
def oneRoundInOrder : String :=
  "[1, 7, [7,0,0,0,0,0,0,0,0,0,0,0,0,0,0,0,0,0,0,0,0,0,0,0,0,0,0,0,0,0,0,0], " ++
    "[[5,0,0,0,0,0,0,0,0,0,0,0,0,0,0,0,0,0,0,0,0,0,0,0,0,0,0,0,0,0,0,0]]]"

/-- Members in order are checked like members by name. -/
theorem valid_in_order :
    (readRaw.run oneRoundInOrder = .ok oneRound.raw ∧
      oneRound.raw.Valid ∧ oneRound.raw.Computes oneRound) ∧
    readRawOfSponge.run ("[" ++ oneRoundInOrder ++ ", 2, 1]") = .ok oneRound.raw ∧
    readRawOfCommitment.run ("[64, 248, \"MsbFirst\", " ++ oneRoundInOrder ++ "]") =
      .ok oneRound.raw := by
  refine ⟨?_, ?_, ?_⟩
  · exact parse_write_and_valid.2.1 _ oneRound (by decide +kernel)
  · exact (parse_write_and_valid.2.2.1 _ ⟨oneRound, 2, 1⟩ (by decide +kernel)).1
  · exact (parse_write_and_valid.2.2.2 _ ⟨64, 248, .msbFirst, oneRound⟩ (by decide +kernel)).1

end Json
end RankOne
