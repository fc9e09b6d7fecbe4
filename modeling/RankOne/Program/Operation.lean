import RankOne.Aes.Counter
import RankOne.ChaCha.Gadget
import RankOne.Mimc.Gadget
import RankOne.Program.Value

/-! The operations of a straight-line program. Their operands are results of earlier steps, and
each of them describes a circuit, whose result later steps may use. -/
namespace RankOne.Program

/-- A constraint on operands. -/
inductive Condition where
  | isBit (x : Operand)
  | equal (x y : Operand)
  | square (x z : Operand)
  | product (a b c : Operand)

def Condition.constraint (results : Results) : Condition → Except CompilationError Constraint
  | isBit x => do return .isBit (← x.expr results)
  | equal x y => do return .equal (← x.expr results) (← y.expr results)
  | square x z => do return .square (← x.expr results) (← z.expr results)
  | product a b c => do
    return .product (← a.expr results) (← b.expr results) (← c.expr results)

inductive Operation where
  | expr (e : Operand)
  | store (x : Fr)
  /-- Allocates a value. The hint may read the results so far. -/
  | compute (s : Shape) (hint : Results → Witness → Except RuntimeError s.Value)
  | computeMany (s : Shape) (len : Nat)
      (hint : Results → Witness → Except RuntimeError (List s.Value))
  /-- Constrains a bit again; an element has nothing to constrain. -/
  | check (x : Ref)
  | mul (a b : Operand) (label : Option String)
  | square (a : Operand)
  | assertEquals (a b : Operand)
  | assert (conditions : List Condition) (label : Option String)
  | bit (b : Bool)
  /-- Takes an expression for a bit without a check. -/
  | bitUnchecked (e : Operand)
  | bitNot (a : Ref)
  | bitAnd (a b : Ref)
  | bitXor (a b : Ref)
  | bitExpr (a : Ref)
  | bits (bs : List Bool)
  | bytes (bytes : List UInt8)
  | bitsOf (refs : List Ref)
  | witnessBits (len : Nat) (value : Option (List Bool))
  | witnessBytes (what : String) (len : Nat) (value : Option (List UInt8))
  | bitsOfExpr (e : Operand) (width : Nat)
  | bitsToExpr (x : Ref)
  | bitsXor (a b : Ref)
  | bitsAnd (a b : Ref)
  | bitsNot (a : Ref)
  | rotateLeft (a : Ref) (n : Nat)
  | rotateRight (a : Ref) (n : Nat)
  | reverseInBytes (a : Ref)
  | concat (parts : Refs)
  | take (a : Ref) (n : Nat)
  | chunks (a : Ref) (n : Nat)
  | split (a : Ref)
  | pack (x : Ref) (chunk : Nat)
  | word (w : UInt32)
  | words (ws : List UInt32)
  | wordWitness (value : Option UInt32)
  /-- Allocates `len` words, whose values are taken in order. -/
  | wordWitnesses (len : Nat) (values : List UInt32)
  | wordOfBits (x : Ref)
  | wordBits (x : Ref)
  | wordToExpr (x : Ref)
  | wordXor (a b : Ref)
  | wordAddMany (words : Refs)
  | substitute (x : Ref) (table : Aes.SubstitutionTable)
  | keyExpansion (keyBytes : Nat) (key : Ref) (table : Aes.SubstitutionTable)
  | encryptBlock (keys : Refs) (block : Refs) (table : Aes.SubstitutionTable)
  | counterXor (keyBytes : Nat) (key iv : Ref) (counter : UInt32) (message : Ref)
  | quarterRound (state : Refs) (a b c d : Nat)
  | chachaBlock (key : Refs) (counter : Ref) (nonce : Refs)
  | chachaWords (key nonce : Refs) (counter : Ref) (message : Refs)
  | chachaBits (key nonce : Ref) (counter : Ref) (message : Ref)
  | pow (e : Operand) (exponent : Nat)
  | feistel (params : Mimc.Params) (left right : Operand)
  | sponge (params : Mimc.Params) (inputs : Operands) (outputs : Nat)

/-- Operands that cannot be resolved make the circuit fail. -/
instance : MonadLift (Except CompilationError) Circuit where
  monadLift
    | .ok a => pure a
    | .error e => Circuit.reject e

namespace Operation

def bitsList (vs : List Bits) : Value := .list (vs.map .bits)

def wordList (vs : List Word) : Value := .list (vs.map .word)

def circuit (results : Results) (loc : String) : Operation → Circuit Value
  | expr e => do return .field (← e.expr results)
  | store x => do return .field (← Circuit.storeValue x)
  | compute s hint => do return .ofVar s (← Circuit.compute s loc (hint results))
  | computeMany s len hint => do
    return .list ((← Circuit.computeMany s len loc (hint results)).map (.ofVar s))
  | check x => do
    match ← x.value results with
    | .bit b => Circuit.constrain [.isBit b.expr] "boolean check" loc (pure .unit)
    | .field _ => return .unit
    | _ => Circuit.reject .badReference
  | mul a b label => do
    return .field (← (← a.expr results).mul (← b.expr results) label loc)
  | square a => do return .field (← (← a.expr results).square loc)
  | assertEquals a b => do
    (← a.expr results).assertEquals (← b.expr results) loc
    return .unit
  | assert conditions label => do
    Circuit.assert label loc (← conditions.mapM (·.constraint results) : List Constraint)
    return .unit
  | bit b => return .bit (.const b)
  | bitUnchecked e => do return .bit ⟨← e.expr results⟩
  | bitNot a => do return .bit (← a.bit results : Bit).not
  | bitAnd a b => do return .bit (← (← a.bit results : Bit).and (← b.bit results) loc)
  | bitXor a b => do return .bit (← (← a.bit results : Bit).xor (← b.bit results) loc)
  | bitExpr a => do return .field (← a.bit results : Bit).expr
  | bits bs => return .bits (Bits.const bs)
  | bytes bs => return .bits (Bits.constBytes bs)
  | bitsOf refs => do return .bits (← refs.mapM (·.bit results) : List Bit)
  | witnessBits len value => do return .bits (← Bits.witness len value loc)
  | witnessBytes what len value => do return .bits (← Bits.witnessBytes what len value loc)
  | bitsOfExpr e width => do return .bits (← Bits.ofExpr (← e.expr results) width loc)
  | bitsToExpr x => do return .field (Bits.toExpr (← x.bits results))
  | bitsXor a b => do return .bits (← Bits.xor (← a.bits results) (← b.bits results) loc)
  | bitsAnd a b => do return .bits (← Bits.and (← a.bits results) (← b.bits results) loc)
  | bitsNot a => do return .bits (Bits.not (← a.bits results))
  | rotateLeft a n => do
    match ← a.value results with
    | .bits bs => return .bits (Bits.rotateLeft bs n)
    | .word w => return .word (w.rotateLeft n)
    | _ => Circuit.reject .badReference
  | rotateRight a n => do return .bits (Bits.rotateRight (← a.bits results) n)
  | reverseInBytes a => do return .bits (Bits.reverseInBytes (← a.bits results))
  | concat parts => do return .bits (← parts.bits results : List Bits).flatten
  | take a n => do return .bits ((← a.bits results : Bits).take n)
  | chunks a n => do return bitsList (← Bits.chunks n (← a.bits results))
  | split a => do return .list ((← a.bits results : Bits).map .bit)
  | pack x chunk => do return .list ((← Bits.pack chunk (← x.bits results)).map .field)
  | word w => return .word (Word.const w)
  | words ws => return wordList (ws.map Word.const)
  | wordWitness value => do return .word (← Word.witness value loc)
  | wordWitnesses len values => do
    return wordList (← Word.witnesses len values loc)
  | wordOfBits x => do return .word (← Word.ofBits (← x.bits results))
  | wordBits x => do return .bits (← x.word results : Word).bits
  | wordToExpr x => do return .field (← x.word results : Word).toExpr
  | wordXor a b => do
    return .word (← (← a.word results : Word).xor (← b.word results) loc)
  | wordAddMany ws => do return .word (← Word.addMany (← ws.words results) loc)
  | substitute x table => do return .bits (← Aes.substitute table (← x.bits results) loc)
  | keyExpansion keyBytes key table => do
    let size ← Aes.KeySize.ofBytes keyBytes
    return .list ((← Aes.keyExpansion table size (← key.bits results)).map bitsList)
  | encryptBlock keys block table => do
    let keys ← keys.bitsLists results
    return bitsList (← Aes.encryptBlock table keys (← block.bits results))
  | counterXor keyBytes key iv counter message => do
    let size ← Aes.KeySize.ofBytes keyBytes
    let key ← key.bits results
    let iv ← iv.bits results
    return .bits (← Aes.counterXor size key iv counter (← message.bits results) loc)
  | quarterRound state a b c d => do
    return wordList (← ChaCha.quarterRoundGadget (← state.words results) a b c d)
  | chachaBlock key counter nonce => do
    let key ← key.words results
    let counter ← counter.word results
    return wordList (← ChaCha.blockGadget key counter (← nonce.words results))
  | chachaWords key nonce counter message => do
    let key ← key.words results
    let nonce ← nonce.words results
    let counter ← counter.word results
    return wordList (← ChaCha.xorWords key nonce counter (← message.words results) loc)
  | chachaBits key nonce counter message => do
    let key ← key.bits results
    let nonce ← nonce.bits results
    let counter ← counter.word results
    return .bits (← ChaCha.xorBits key nonce counter (← message.bits results) loc)
  | pow e exponent => do return .field (← (← e.expr results).pow exponent loc)
  | feistel params left right => do
    let left ← left.expr results
    let (left, right) ← Mimc.feistelGadget params (left, ← right.expr results)
    return .list [.field left, .field right]
  | sponge params inputs outputs => do
    let inputs ← inputs.exprs results
    return .list ((← Mimc.spongeGadget params inputs outputs).map .field)

end Operation

/-- A step of a program, with the place it stands for. -/
structure Step where
  operation : Operation
  loc : String

/-- Runs the steps in order, each after the results of those before it. -/
def circuitFrom (results : Results) : List Step → Circuit Results
  | [] => pure results
  | step :: steps => do
    let v ← step.operation.circuit results step.loc
    circuitFrom (results.push v) steps

end RankOne.Program

/-- A straight-line program over the operations of this library. -/
abbrev RankOne.Program := List RankOne.Program.Step

/-- The circuit of a program, which gives the results of its steps. -/
def RankOne.Program.circuit (program : RankOne.Program) : RankOne.Circuit RankOne.Program.Results :=
  RankOne.Program.circuitFrom #[] program
