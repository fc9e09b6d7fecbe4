import RankOne.Aes.Cipher
import RankOne.Compiled
import RankOne.Json.Config
import RankOne.Program.Task
import RankOne.Proofs.Constraint
import RankOne.Proofs.Layout
import RankOne.Proofs.Circuit
import RankOne.Proofs.Session
import RankOne.Proofs.Wires
import RankOne.Proofs.Gadgets
import RankOne.Proofs.BitLogic
import RankOne.Proofs.Word
import RankOne.Proofs.ChaCha.Block
import RankOne.Proofs.Determined
import RankOne.Proofs.ChaCha.Stream
import RankOne.Proofs.Bytes
import RankOne.Proofs.ChaCha.Bits
import RankOne.Proofs.ChaCha.Concatenation
import RankOne.Proofs.Mimc
import RankOne.Proofs.Commitment
import RankOne.Proofs.Aes.Substitution
import RankOne.Proofs.Aes.Block
import RankOne.Proofs.Aes.KeySchedule
import RankOne.Proofs.Aes.Counter
import RankOne.Proofs.Emission
import RankOne.Proofs.Lockstep
import RankOne.Proofs.Storage
import RankOne.Proofs.Booleanity
import RankOne.Proofs.Computes
import RankOne.Proofs.Evaluates
import RankOne.Proofs.Bitwise
import RankOne.Proofs.Power
import RankOne.Proofs.Packing
import RankOne.Proofs.Commitment.Acceptance
import RankOne.Proofs.Decomposition
import RankOne.Proofs.Addition
import RankOne.Proofs.Canonical
import RankOne.Proofs.Json.Accepted
import RankOne.Proofs.Field.Power
import RankOne.Proofs.Mimc.Permutation
import RankOne.Proofs.Widths
import RankOne.Proofs.Mimc.Calls
import RankOne.Proofs.Mimc.Cost
import RankOne.Proofs.Allocation
import RankOne.Proofs.Mimc.Constants
