import RankOne.Proofs.Json.Refinement
import RankOne.Proofs.Field.Encoding

/-! The JSON forms read back what they write. Numbers, field elements and names are the leaves;
lists, vectors and records are put together from forms that are lawful themselves. -/
namespace RankOne

namespace Json
variable {α β : Type}

/-- A form whose written values are read back, and are not taken for the end of a list. -/
class LawfulForm (α : Type) [JsonForm α] : Prop where
  undoes (a : α) : Undoes JsonForm.read (write a).toList a
  opens (a : α) : Opens (write a).toList

theorem parse_write [JsonForm α] [LawfulForm α] (a : α) : parse (write a) = .ok a := by
  have whole := LawfulForm.undoes a [] (by simp [Delimited])
  rw [List.append_nil] at whole
  rw [parse, Reader.run, whole]
  rfl

theorem opens_numberText (n : ℕ) : Opens (numberText n).toList := by
  rw [numberText, Nat.toString_eq_repr, Nat.toList_repr]
  cases text : Nat.toDigits 10 n with
  | nil => exact absurd text Nat.toDigits_ne_nil
  | cons c cs =>
    have digit : c.isDigit = true :=
      Nat.isDigit_of_mem_toDigits (by decide) (by decide) (text ▸ List.mem_cons_self)
    refine ⟨c, cs, rfl, Reader.isBlank_of_isDigit digit, ?_⟩
    rintro rfl
    cases digit

theorem undoes_numberText {n bound : ℕ} {build : ℕ → α} {a : α} (small : n < bound)
    (back : build n = a) : Undoes (do return build (← Reader.nat bound)) (numberText n).toList a :=
  back ▸ (Reader.undoes_nat small).map build

instance : LawfulForm UInt8 where
  undoes n := undoes_numberText n.toNat_lt UInt8.ofNat_toNat
  opens n := opens_numberText n.toNat

instance : LawfulForm UInt32 where
  undoes n := undoes_numberText n.toNat_lt UInt32.ofNat_toNat
  opens n := opens_numberText n.toNat

instance : LawfulForm UInt64 where
  undoes n := undoes_numberText n.toNat_lt UInt64.ofNat_toNat
  opens n := opens_numberText n.toNat

theorem toList_listText (items : List String) :
    (listText items).toList = '[' :: (joined (items.map String.toList) ++ [']']) := by
  rw [listText, String.toList_append, String.toList_append, toList_intercalate]
  rfl

theorem opens_listText (items : List String) : Opens (listText items).toList :=
  ⟨_, _, toList_listText items, rfl, by decide⟩

theorem undoes_listText [JsonForm α] [LawfulForm α] (xs : List α) :
    Undoes (Reader.list JsonForm.read) (listText (xs.map write)).toList xs := by
  rw [toList_listText, List.map_map]
  exact Reader.undoes_list (fun x _ => LawfulForm.undoes x) fun x _ => LawfulForm.opens x

instance [JsonForm α] [LawfulForm α] : LawfulForm (List α) where
  undoes := undoes_listText
  opens xs := opens_listText (xs.map write)

instance {n : ℕ} [JsonForm α] [LawfulForm α] : LawfulForm (Vector α n) where
  undoes xs := Reader.undoes_vector (undoes_listText xs.toList)
  opens xs := opens_listText (xs.toList.map write)

instance : LawfulForm Fr where
  undoes x := by
    have bytes := undoes_listText x.toBytes
    intro rest delimited
    change readElement ((listText (x.toBytes.map write)).toList ++ rest) = _
    rw [toList_listText] at bytes ⊢
    rw [readElement, Reader.bind_ok (Reader.undoes_byteString bytes rest delimited),
      Fr.ofBytes_toBytes]
    rfl
  opens x := opens_listText (x.toBytes.map write)

section Names

theorem toList_nameText (name : String) :
    (nameText name).toList = '"' :: (name.toList ++ ['"']) := by
  rw [nameText, String.toList_append, String.toList_append]
  rfl

theorem opens_nameText (name : String) : Opens (nameText name).toList :=
  ⟨_, _, toList_nameText name, rfl, by decide⟩

theorem undoes_nameText {values : List α} {name : α → String} {a : α}
    (found : (values.map fun a => ((name a).toList, a)).lookup (name a).toList = some a)
    (plain : Reader.Plain (name a).toList) :
    Undoes (readNamed values name) (nameText (name a)).toList a := by
  rw [toList_nameText]
  exact Reader.undoes_variant found plain

instance : LawfulForm Aes.KeySize where
  undoes size := by cases size <;> exact undoes_nameText (by decide) (by decide)
  opens size := opens_nameText size.name

instance : LawfulForm Commitment.BitOrder where
  undoes order := by cases order <;> exact undoes_nameText (by decide) (by decide)
  opens order := opens_nameText order.name

end Names

section Objects

def entriesOf (members : List (String × String)) : Entries :=
  members.map fun (name, value) => (name.toList, value.toList)

theorem toList_objectText (members : List (String × String)) :
    (objectText members).toList =
      '\x7b' :: (joined ((entriesOf members).map memberText) ++ ['\x7d']) := by
  have member : (String.toList ∘ fun (name, value) => nameText name ++ ":" ++ value) =
      memberText ∘ fun (name, value) => (name.toList, value.toList) := by
    funext ⟨name, value⟩
    simp [toList_nameText, memberText]
  rw [objectText, String.toList_append, String.toList_append, toList_intercalate, List.map_map,
    member, entriesOf, List.map_map]
  rfl

theorem opens_objectText (members : List (String × String)) : Opens (objectText members).toList :=
  ⟨_, _, toList_objectText members, rfl, by decide⟩

theorem undoes_objectText {σ : Type} {f : Fields σ α} {members : List (String × String)} {a : α}
    (writes : f.Writes (entriesOf members) a) (named : Fields.Named f.members) :
    Undoes f.record (objectText members).toList a := by
  rw [toList_objectText]
  exact writes.undoes_record named

theorem writes_member [JsonForm α] [LawfulForm α] (name : String) (a : α) :
    (member α name).Writes (entriesOf [(name, write a)]) a :=
  Fields.writes_slot (LawfulForm.undoes a)

theorem writes_withDefault [JsonForm α] [LawfulForm α] (name : String) (a default : α) :
    (Fields.withDefault name.toList JsonForm.read default).Writes
      (entriesOf [(name, write a)]) a :=
  Fields.writes_slot (LawfulForm.undoes a)

theorem createParams_self (p : Mimc.Params) :
    createParams p.rounds p.exponent p.key p.constants = .ok p := by
  rw [createParams, Mimc.Params.create, dif_pos p.rounds_pos, dif_pos p.length_constants,
    dif_pos p.odd_exponent]

instance : LawfulForm Mimc.Params where
  undoes p := by
    have writes := (writes_member "rounds" p.rounds).and
      ((writes_member "exponent" p.exponent).and ((writes_member "key" p.key).and
        (writes_member "round_constants" p.constants) (by decide)) (by decide)) (by decide)
    exact undoes_objectText (writes.andThen (createParams_self p)) (by decide)
  opens _ := opens_objectText _

instance : LawfulForm Mimc.SpongeCircuit where
  undoes c := by
    have writes := (writes_member "params" c.params).and
      ((writes_member "num_inputs" c.inputs).and (writes_member "num_outputs" c.outputs)
        (by decide)) (by decide)
    exact undoes_objectText (writes.andThen rfl) (by decide)
  opens _ := opens_objectText _

instance : LawfulForm Aes.BlockCircuit where
  undoes c := undoes_objectText ((writes_member "key_size" c.keySize).andThen rfl) (by decide)
  opens _ := opens_objectText _

instance : LawfulForm Aes.CounterCircuit where
  undoes c := by
    have writes := (writes_member "key_size" c.keySize).and
      ((writes_member "len_bytes" c.lenBytes).and
        (writes_member "initial_counter" c.initialCounter) (by decide)) (by decide)
    exact undoes_objectText (writes.andThen rfl) (by decide)
  opens _ := opens_objectText _

instance : LawfulForm Aes.CounterInput where
  undoes i := by
    have writes := (writes_member "key" i.key).and
      ((writes_member "iv" i.iv).and (writes_member "message" i.message) (by decide)) (by decide)
    exact undoes_objectText (writes.andThen rfl) (by decide)
  opens _ := opens_objectText _

instance : LawfulForm ChaCha.StreamCircuit where
  undoes c := undoes_objectText ((writes_member "len_words" c.lenWords).andThen rfl) (by decide)
  opens _ := opens_objectText _

instance : LawfulForm ChaCha.StreamInput where
  undoes i := by
    have writes := (writes_member "key" i.key).and
      ((writes_member "nonce" i.nonce).and ((writes_member "counter" i.counter).and
        (writes_member "message" i.message) (by decide)) (by decide)) (by decide)
    exact undoes_objectText (writes.andThen rfl) (by decide)
  opens _ := opens_objectText _

instance : LawfulForm Commitment.CommitmentCircuit where
  undoes c := by
    have writes := (writes_member "len_bytes" c.lenBytes).and
      ((writes_member "chunk_bits" c.chunkBits).and
        ((writes_withDefault "bit_order" c.bitOrder Commitment.BitOrder.lsbFirst).and
          (writes_member "params" c.params) (by decide)) (by decide)) (by decide)
    exact undoes_objectText (writes.andThen rfl) (by decide)
  opens _ := opens_objectText _

instance : LawfulForm Commitment.CommitmentInput where
  undoes i := by
    have writes := (writes_member "key" i.key).and
      ((writes_member "nonce" i.nonce).and ((writes_member "counter" i.counter).and
        (writes_member "ciphertext" i.ciphertext) (by decide)) (by decide)) (by decide)
    exact undoes_objectText (writes.andThen rfl) (by decide)
  opens _ := opens_objectText _

end Objects
end Json
end RankOne
