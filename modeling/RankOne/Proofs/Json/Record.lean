import RankOne.Proofs.Json.Reader

/-! Records, written with their members in order and read back by name. -/
namespace RankOne.Json
variable {σ τ α β : Type}

/-- The names of members with the texts of their values. -/
abbrev Entries := List (List Char × List Char)

def memberText (entry : List Char × List Char) : List Char :=
  '"' :: entry.1 ++ '"' :: ':' :: entry.2

/-- A text that turns slots without a value for the member into the next ones. -/
structure Member.Takes (m : Member σ) (text : List Char) (s s' : σ) : Prop where
  absent : m.given s = false
  undoes : Undoes (m.read s) text s'

/-- Entries that fill slots one after the other. -/
inductive Fills (members : List (Member σ)) : Entries → σ → σ → Prop
  | nil (s : σ) : Fills members [] s s
  | cons {name text : List Char} {m : Member σ} {entries : Entries} {s s' s'' : σ}
      (found : members.find? (·.name = name) = some m) (takes : m.Takes text s s')
      (rest : Fills members entries s' s'') : Fills members ((name, text) :: entries) s s''

namespace Fills
variable {members : List (Member σ)} {es es' : Entries} {s s' s'' : σ}

theorem append (h : Fills members es s s') (h' : Fills members es' s' s'') :
    Fills members (es ++ es') s s'' := by
  induction h with
  | nil s => exact h'
  | cons found takes _ ih => exact .cons found takes (ih h')

end Fills

namespace Fields
variable {f : Fields σ α} {g : Fields τ β} {es es' : Entries} {a : α} {b : β}

/-- The value of a member of an object, or of one that the record does not know. -/
def memberFrom (members : List (Member σ)) (name : List Char) (s : σ) : Reader σ :=
  match members.find? (·.name = name) with
  | some m => if m.given s then Reader.malformed else m.read s
  | none => do
    Reader.skip
    pure s

theorem membersFrom_succ (members : List (Member σ)) (fuel : ℕ) (s : σ) :
    membersFrom members (fuel + 1) s = (do
      let name ← Reader.text
      Reader.expect ':'
      let s ← memberFrom members name s
      match ← Reader.token with
      | ',' => membersFrom members fuel s
      | '\x7d' => return s
      | _ => Reader.malformed) := by
  rw [membersFrom]
  refine congrArg _ (funext fun name => congrArg _ (funext fun _ => ?_))
  rw [memberFrom]
  cases members.find? (·.name = name) with
  | none => exact (bind_assoc ..).symm
  | some m => exact (apply_ite (· >>= _) ..).symm

theorem membersFrom_member {members : List (Member σ)} {m : Member σ} {s s' : σ}
    {name text rest : List Char} (found : members.find? (·.name = name) = some m)
    (takes : m.Takes text s s') (plain : Reader.Plain name) (delimited : Delimited rest)
    (fuel : ℕ) : membersFrom members (fuel + 1) s (memberText (name, text) ++ rest) =
      (Reader.token >>= fun c => match c with
        | ',' => membersFrom members fuel s'
        | '\x7d' => pure s'
        | _ => Reader.malformed) rest := by
  have named : Reader.text (memberText (name, text) ++ rest) =
      .ok (name, ':' :: (text ++ rest)) := by
    rw [← Reader.text_plain plain, memberText]
    simp
  have read : memberFrom members name s (text ++ rest) = .ok (s', rest) := by
    rw [memberFrom, found]
    simp only [takes.absent]
    exact takes.undoes rest delimited
  rw [membersFrom_succ, Reader.bind_ok named, Reader.bind_ok (Reader.expect_cons rfl),
    Reader.bind_ok read]

theorem membersFrom_joined {members : List (Member σ)} {s s' : σ} {rest : List Char} {fuel : ℕ}
    (fills : Fills members es s s') (nonempty : es ≠ []) (plain : ∀ e ∈ es, Reader.Plain e.1)
    (enough : es.length ≤ fuel) :
    membersFrom members fuel s (joined (es.map memberText) ++ '\x7d' :: rest) = .ok (s', rest) := by
  induction fills generalizing fuel with
  | nil s => exact absurd rfl nonempty
  | @cons name text m es s s₁ s' found takes fills ih =>
    obtain ⟨fuel, rfl⟩ := Nat.exists_eq_succ_of_ne_zero (n := fuel) (by simp at enough; omega)
    obtain ⟨first, others⟩ := List.forall_mem_cons.mp plain
    cases es with
    | nil =>
      cases fills
      rw [List.map_singleton, joined, membersFrom_member found takes first (by simp [Delimited]),
        Reader.bind_ok (Reader.token_cons rfl)]
      rfl
    | cons e es =>
      rw [List.map_cons, List.map_cons, joined_cons_cons, List.append_assoc, List.cons_append,
        membersFrom_member found takes first (by simp [Delimited]),
        Reader.bind_ok (Reader.token_cons rfl)]
      exact ih (by simp) others (Nat.le_of_succ_le_succ enough)

/-- Entries in the order of the members, which are read as a record. -/
structure Writes (f : Fields σ α) (es : Entries) (a : α) : Prop where
  names : es.map Prod.fst = f.members.map Member.name
  fills : ∃ s, Fills f.members es f.empty s ∧ f.finish s = .ok a

/-- Members with names that can be written, at least one of them. -/
def Named (members : List (Member σ)) : Prop :=
  members ≠ [] ∧ ∀ m ∈ members, Reader.Plain m.name

instance (members : List (Member σ)) : Decidable (Named members) :=
  have : Decidable (∀ m ∈ members, Reader.Plain m.name) := List.decidableBAll _ members
  instDecidableAnd

theorem Writes.undoes_record (h : f.Writes es a) (named : Named f.members) :
    Undoes f.record ('\x7b' :: (joined (es.map memberText) ++ ['\x7d'])) a := by
  obtain ⟨names, s, fills, finished⟩ := h
  have nonempty : es ≠ [] := by
    rintro rfl
    exact named.1 (List.map_eq_nil_iff.mp names.symm)
  have plain : ∀ e ∈ es, Reader.Plain e.1 := by
    intro e member
    have inside := List.mem_map_of_mem (f := Prod.fst) member
    rw [names] at inside
    obtain ⟨m, found, same⟩ := List.mem_map.mp inside
    rw [← same]
    exact named.2 m found
  intro rest _
  have enough := length_le_joined (es.map memberText)
  rw [List.length_map] at enough
  have members : membersFrom f.members (joined (es.map memberText) ++ '\x7d' :: rest).length
      f.empty (joined (es.map memberText) ++ '\x7d' :: rest) = .ok (s, rest) := by
    refine membersFrom_joined fills nonempty plain ?_
    simp only [List.length_append, List.length_cons]
    omega
  have quoted : ∃ cs, joined (es.map memberText) ++ '\x7d' :: rest = '"' :: cs := by
    match es with
    | [] => exact absurd rfl nonempty
    | [_] => exact ⟨_, rfl⟩
    | _ :: _ :: _ => exact ⟨_, rfl⟩
  obtain ⟨cs, quoted⟩ := quoted
  have slots : f.slots ('\x7b' :: (joined (es.map memberText) ++ '\x7d' :: rest)) =
      .ok (s, rest) := by
    rw [Fields.slots, Reader.bind_ok (Reader.token_cons rfl)]
    rw [quoted] at members ⊢
    refine (Reader.bind_ok (Reader.peek_cons rfl)).trans ?_
    exact members
  have text : '\x7b' :: (joined (es.map memberText) ++ ['\x7d']) ++ rest =
      '\x7b' :: (joined (es.map memberText) ++ '\x7d' :: rest) := by simp
  rw [text, record, Reader.bind_ok slots, finished]
  rfl

theorem writes_slot {name : List Char} {reader : Reader α} {absent : Except ReadError α}
    {text : List Char} (undoes : Undoes reader text a) :
    (slot name reader absent).Writes [(name, text)] a := by
  refine ⟨rfl, some a, .cons (m := ⟨name, Option.isSome, fun _ => do return some (← reader)⟩)
    (by simp [slot]) ⟨rfl, undoes.map some⟩ (.nil _), rfl⟩

theorem Writes.andThen (h : f.Writes es a) {build : α → Except ReadError β}
    (built : build a = .ok b) : (f.andThen build).Writes es b := by
  obtain ⟨names, s, fills, finished⟩ := h
  refine ⟨names, s, fills, ?_⟩
  change f.finish s >>= build = _
  rw [finished]
  exact built

theorem fills_left (g : Fields τ β) {s s' : σ} (h : Fills f.members es s s') (u : τ) :
    Fills (f.and g).members es (s, u) (s', u) := by
  induction h with
  | nil s => exact .nil _
  | @cons name text m es s s₁ s' found takes _ ih =>
    refine .cons (m := ⟨m.name, fun s => m.given s.1, fun s => do return (← m.read s.1, s.2)⟩) ?_
      ⟨takes.absent, takes.undoes.map (·, u)⟩ ih
    simp [Fields.and, List.find?_append, List.find?_map, found]

theorem fills_right {s s' : τ} (h : Fills g.members es s s') (u : σ)
    (other : ∀ e ∈ es, ∀ m ∈ f.members, m.name ≠ e.1) :
    Fills (f.and g).members es (u, s) (u, s') := by
  induction h with
  | nil s => exact .nil _
  | @cons name text m es s s₁ s' found takes _ ih =>
    obtain ⟨first, others⟩ := List.forall_mem_cons.mp other
    refine .cons (m := ⟨m.name, fun s => m.given s.2, fun s => do return (s.1, ← m.read s.2)⟩) ?_
      ⟨takes.absent, takes.undoes.map (u, ·)⟩ (ih others)
    have absent : f.members.find? (·.name = name) = none := by
      simpa [List.find?_eq_none] using first
    simp [Fields.and, List.find?_append, List.find?_map, found, absent]

theorem Writes.and (hf : f.Writes es a) (hg : g.Writes es' b)
    (disjoint : ∀ m' ∈ g.members, ∀ m ∈ f.members, m.name ≠ m'.name) :
    (f.and g).Writes (es ++ es') (a, b) := by
  obtain ⟨names, s, fills, finished⟩ := hf
  obtain ⟨names', s', fills', finished'⟩ := hg
  refine ⟨?_, (s, s'), (fills_left g fills g.empty).append (fills_right fills' s ?_), ?_⟩
  · rw [List.map_append, names, names']
    simp [Fields.and, Function.comp_def]
  · intro e member
    have inside := List.mem_map_of_mem (f := Prod.fst) member
    rw [names'] at inside
    obtain ⟨m', found, same⟩ := List.mem_map.mp inside
    rw [← same]
    exact disjoint m' found
  · change (do return (← f.finish s, ← g.finish s')) = _
    rw [finished, finished']
    rfl

end Fields
end RankOne.Json
