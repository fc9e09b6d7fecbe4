import RankOne.Json.Reader

/-! Records in JSON text: objects with members in any order, or arrays with all members in order.
Unknown members of objects are dropped, repeated ones are refused. -/
namespace RankOne.Json

/-- A named member, read into the slots of a record. -/
structure Member (σ : Type) where
  name : List Char
  given : σ → Bool
  read : σ → Reader σ

/-- How a record is read: into slots, which are put together at the end. -/
structure Fields (σ α : Type) where
  members : List (Member σ)
  empty : σ
  finish : σ → Except ReadError α

namespace Fields

def slot (name : List Char) (read : Reader α) (absent : Except ReadError α) :
    Fields (Option α) α where
  members := [⟨name, Option.isSome, fun _ => do return some (← read)⟩]
  empty := none
  finish
    | some a => .ok a
    | none => absent

def required (name : List Char) (read : Reader α) : Fields (Option α) α :=
  slot name read (.error .malformed)

def withDefault (name : List Char) (read : Reader α) (default : α) : Fields (Option α) α :=
  slot name read (.ok default)

/-- The members of both, those of the first before those of the second. -/
def and (f : Fields σ α) (g : Fields τ β) : Fields (σ × τ) (α × β) where
  members :=
    f.members.map (fun m =>
      ⟨m.name, fun s => m.given s.1, fun s => do return (← m.read s.1, s.2)⟩) ++
    g.members.map (fun m =>
      ⟨m.name, fun s => m.given s.2, fun s => do return (s.1, ← m.read s.2)⟩)
  empty := (f.empty, g.empty)
  finish s := do return (← f.finish s.1, ← g.finish s.2)

def andThen (f : Fields σ α) (build : α → Except ReadError β) : Fields σ β where
  members := f.members
  empty := f.empty
  finish s := do build (← f.finish s)

def map (build : α → β) (f : Fields σ α) : Fields σ β := f.andThen fun a => .ok (build a)

/-- The members of an object from a name on; `fuel` bounds their number. -/
def membersFrom (members : List (Member σ)) : Nat → σ → Reader σ
  | 0, _ => Reader.malformed
  | fuel + 1, slots => do
    let name ← Reader.text
    Reader.expect ':'
    let slots ←
      match members.find? (·.name = name) with
      | some m => if m.given slots then Reader.malformed else m.read slots
      | none => do
        Reader.skip
        pure slots
    match ← Reader.token with
    | ',' => membersFrom members fuel slots
    | '\x7d' => return slots
    | _ => Reader.malformed

/-- The members in order, after the bracket that opens an array. -/
def elementsFrom : List (Member σ) → σ → Reader σ
  | [], slots => do
    Reader.expect ']'
    return slots
  | m :: ms, slots => do
    let slots ← m.read slots
    match ← Reader.token, ms with
    | ']', _ => return slots
    | ',', _ :: _ => elementsFrom ms slots
    | _, _ => Reader.malformed

def slots (f : Fields σ α) : Reader σ := do
  match ← Reader.token with
  | '[' =>
    if (← Reader.peek) = ']' then
      Reader.expect ']'
      return f.empty
    else elementsFrom f.members f.empty
  | '\x7b' =>
    if (← Reader.peek) = '\x7d' then
      Reader.expect '\x7d'
      return f.empty
    else membersFrom f.members (← get).length f.empty
  | _ => Reader.malformed

def record (f : Fields σ α) : Reader α := do
  match f.finish (← f.slots) with
  | .ok a => return a
  | .error e => throw e

end Fields
end RankOne.Json
