import RankOne.Aes.Counter
import RankOne.Commitment
import RankOne.Json.Record

/-! The JSON forms of circuits and of their inputs. A field element is the array of its encoded
bytes. Parameters are validated when they are read. Text is written without blanks. -/
namespace RankOne.Json

def numberText (n : Nat) : String := toString n

def listText (items : List String) : String := "[" ++ ",".intercalate items ++ "]"

/-- A string of characters that need no escape. -/
def nameText (name : String) : String := "\"" ++ name ++ "\""

def objectText (members : List (String × String)) : String :=
  "\x7b" ++ ",".intercalate (members.map fun (name, value) => nameText name ++ ":" ++ value) ++ "\x7d"

class JsonForm (α : Type) where
  write : α → String
  read : Reader α

export JsonForm (write)

def parse [JsonForm α] (text : String) : Except ReadError α := Reader.run JsonForm.read text

instance : JsonForm UInt8 := ⟨fun n => numberText n.toNat, Reader.byte⟩
instance : JsonForm UInt32 := ⟨fun n => numberText n.toNat, Reader.word⟩
instance : JsonForm UInt64 := ⟨fun n => numberText n.toNat, Reader.long⟩

instance [JsonForm α] : JsonForm (List α) :=
  ⟨fun xs => listText (xs.map write), Reader.list JsonForm.read⟩

instance [JsonForm α] : JsonForm (Vector α n) :=
  ⟨fun xs => listText (xs.toList.map write), Reader.vector n JsonForm.read⟩

def readElement : Reader Fr := do
  match Fr.ofBytes (← Reader.byteString) with
  | .ok x => return x
  | .error _ => Reader.malformed

instance : JsonForm Fr := ⟨fun x => write x.toBytes, readElement⟩

/-- A required member that is read by its type. -/
def member (α : Type) [JsonForm α] (name : String) : Fields (Option α) α :=
  .required name.toList JsonForm.read

def createParams (rounds exponent : UInt64) (key : Fr) (constants : List Fr) :
    Except ReadError Mimc.Params :=
  match Mimc.Params.create rounds exponent key constants with
  | .ok params => .ok params
  | .error e => .error (.invalidParams e)

instance : JsonForm Mimc.Params where
  write p := objectText [("rounds", write p.rounds), ("exponent", write p.exponent),
    ("key", write p.key), ("round_constants", write p.constants)]
  read := Fields.record <|
    ((member UInt64 "rounds").and <| (member UInt64 "exponent").and <|
      (member Fr "key").and <| member (List Fr) "round_constants").andThen
      fun (rounds, exponent, key, constants) => createParams rounds exponent key constants

instance : JsonForm Mimc.SpongeCircuit where
  write c := objectText [("params", write c.params), ("num_inputs", write c.inputs),
    ("num_outputs", write c.outputs)]
  read := Fields.record <|
    ((member Mimc.Params "params").and <| (member UInt64 "num_inputs").and <|
      member UInt64 "num_outputs").map fun (params, inputs, outputs) => ⟨params, inputs, outputs⟩

def readNamed (values : List α) (name : α → String) : Reader α :=
  Reader.variant (values.map fun a => ((name a).toList, a))

instance : JsonForm Aes.KeySize :=
  ⟨fun size => nameText size.name, readNamed [.aes128, .aes192, .aes256] Aes.KeySize.name⟩

instance : JsonForm Commitment.BitOrder :=
  ⟨fun order => nameText order.name, readNamed [.lsbFirst, .msbFirst] Commitment.BitOrder.name⟩

instance : JsonForm Aes.BlockCircuit where
  write c := objectText [("key_size", write c.keySize)]
  read := ((member Aes.KeySize "key_size").map Aes.BlockCircuit.mk).record

instance : JsonForm Aes.CounterCircuit where
  write c := objectText [("key_size", write c.keySize), ("len_bytes", write c.lenBytes),
    ("initial_counter", write c.initialCounter)]
  read := Fields.record <|
    ((member Aes.KeySize "key_size").and <| (member UInt64 "len_bytes").and <|
      member UInt32 "initial_counter").map fun (size, len, counter) => ⟨size, len, counter⟩

instance : JsonForm Aes.CounterInput where
  write i := objectText [("key", write i.key), ("iv", write i.iv), ("message", write i.message)]
  read := Fields.record <|
    ((member (List UInt8) "key").and <| (member (Vector UInt8 12) "iv").and <|
      member (List UInt8) "message").map fun (key, iv, message) => ⟨key, iv, message⟩

instance : JsonForm ChaCha.StreamCircuit where
  write c := objectText [("len_words", write c.lenWords)]
  read := ((member UInt64 "len_words").map ChaCha.StreamCircuit.mk).record

instance : JsonForm ChaCha.StreamInput where
  write i := objectText [("key", write i.key), ("nonce", write i.nonce),
    ("counter", write i.counter), ("message", write i.message)]
  read := Fields.record <|
    ((member (Vector UInt32 8) "key").and <| (member (Vector UInt32 3) "nonce").and <|
      (member UInt32 "counter").and <| member (List UInt32) "message").map
      fun (key, nonce, counter, message) => ⟨key, nonce, counter, message⟩

instance : JsonForm Commitment.CommitmentCircuit where
  write c := objectText [("len_bytes", write c.lenBytes), ("chunk_bits", write c.chunkBits),
    ("bit_order", write c.bitOrder), ("params", write c.params)]
  read := Fields.record <|
    ((member UInt64 "len_bytes").and <| (member UInt64 "chunk_bits").and <|
      (Fields.withDefault "bit_order".toList JsonForm.read Commitment.BitOrder.lsbFirst).and <|
      member Mimc.Params "params").map
      fun (len, chunk, order, params) => ⟨len, chunk, order, params⟩

instance : JsonForm Commitment.CommitmentInput where
  write i := objectText [("key", write i.key), ("nonce", write i.nonce),
    ("counter", write i.counter), ("ciphertext", write i.ciphertext)]
  read := Fields.record <|
    ((member (Vector UInt8 32) "key").and <| (member (Vector UInt8 12) "nonce").and <|
      (member UInt32 "counter").and <| member (List UInt8) "ciphertext").map
      fun (key, nonce, counter, ciphertext) => ⟨key, nonce, counter, ciphertext⟩

structure ElementTable where
  values : List Fr
  deriving DecidableEq

instance : JsonForm ElementTable where
  write c := objectText [("values", write c.values)]
  read := ((member (List Fr) "values").map ElementTable.mk).record

end RankOne.Json
