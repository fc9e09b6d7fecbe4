import RankOne.Word

/-! What circuits expose, and how it is read from a witness and written in messages. -/
namespace RankOne

/-- Something exposed by a circuit, with a value behind it. -/
class CircuitOutput (β : Type) (γ : outParam Type) where
  read : Witness → β → Except RuntimeError γ

namespace CircuitOutput

instance : CircuitOutput Expr Fr := ⟨fun w e => e.read w⟩
instance : CircuitOutput Bit Bool := ⟨Bit.read⟩
instance : CircuitOutput Word UInt32 := ⟨Word.read⟩
instance : CircuitOutput Bytes (List UInt8) := ⟨Bytes.read⟩
instance : CircuitOutput Unit Unit := ⟨fun _ _ => .ok ()⟩

instance [CircuitOutput β γ] [CircuitOutput δ ε] : CircuitOutput (β × δ) (γ × ε) :=
  ⟨fun w out => do return (← read w out.1, ← read w out.2)⟩

instance [CircuitOutput β γ] : CircuitOutput (List β) (List γ) := ⟨fun w outs => outs.mapM (read w)⟩

end CircuitOutput

/-- The text of a value in a message about an unexpected output. -/
class DebugText (γ : Type) where
  text : γ → String

namespace DebugText

def listText (texts : List String) : String := "[" ++ ", ".intercalate texts ++ "]"

def pairText (first second : String) : String := "(" ++ first ++ ", " ++ second ++ ")"

/-- An element is written by its limbs. -/
instance : DebugText Fr := ⟨fun x => "BigInt(" ++ listText (x.limbs.map toString) ++ ")"⟩
instance : DebugText Bool := ⟨fun b => if b then "true" else "false"⟩
instance : DebugText UInt8 := ⟨fun n => toString n.toNat⟩
instance : DebugText UInt32 := ⟨fun n => toString n.toNat⟩
instance : DebugText Unit := ⟨fun _ => "()"⟩

instance [DebugText γ] [DebugText δ] : DebugText (γ × δ) :=
  ⟨fun p => pairText (text p.1) (text p.2)⟩

instance [DebugText γ] : DebugText (List γ) := ⟨fun xs => listText (xs.map text)⟩

end DebugText
end RankOne
