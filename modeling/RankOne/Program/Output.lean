import RankOne.Program.Value

/-! Outputs of programs. -/
namespace RankOne.Program

inductive Output where
  | unit
  | field (x : Expr)
  | bit (b : Bit)
  | bits (bs : Bits)
  | word (w : Word)
  | bytes (bs : Bytes)
  | pair (a b : Output)
  | list (outs : List Output)

inductive OutputValue where
  | unit
  | field (x : Fr)
  | bit (b : Bool)
  | bits (bs : List Bool)
  | word (w : UInt32)
  | bytes (bs : List UInt8)
  | pair (a b : OutputValue)
  | list (vs : List OutputValue)

mutual

/-- A result of a step, exposed whole. -/
def Value.output : Value → Output
  | .unit => .unit
  | .field x => .field x
  | .bit b => .bit b
  | .bits bs => .bits bs
  | .word w => .word w
  | .list vs => .list (Value.outputs vs)

def Value.outputs : List Value → List Output
  | [] => []
  | v :: vs => v.output :: Value.outputs vs

end

namespace Output

mutual

def read (w : Witness) : Output → Except RuntimeError OutputValue
  | unit => .ok .unit
  | field x => do return .field (← x.read w)
  | bit b => do return .bit (← b.read w)
  | bits bs => do return .bits (← Bits.read w bs)
  | word x => do return .word (← x.read w)
  | bytes bs => do return .bytes (← bs.read w)
  | pair a b => do return .pair (← a.read w) (← b.read w)
  | list outs => do return .list (← readAll w outs)

def readAll (w : Witness) : List Output → Except RuntimeError (List OutputValue)
  | [] => .ok []
  | out :: outs => do return (← out.read w) :: (← readAll w outs)

end

instance : CircuitOutput Output OutputValue := ⟨read⟩

end Output

namespace OutputValue

mutual

def beq : OutputValue → OutputValue → Bool
  | unit, unit => true
  | field x, field y => x == y
  | bit b, bit c => b == c
  | bits bs, bits cs => bs == cs
  | word w, word v => w == v
  | bytes bs, bytes cs => bs == cs
  | pair a b, pair c d => beq a c && beq b d
  | list vs, list ws => beqAll vs ws
  | _, _ => false

def beqAll : List OutputValue → List OutputValue → Bool
  | [], [] => true
  | v :: vs, w :: ws => beq v w && beqAll vs ws
  | _, _ => false

end

instance : BEq OutputValue := ⟨beq⟩

mutual

def debugText : OutputValue → String
  | unit => DebugText.text ()
  | field x => DebugText.text x
  | bit b => DebugText.text b
  | bits bs => DebugText.text bs
  | word w => DebugText.text w
  | bytes bs => DebugText.text bs
  | pair a b => DebugText.pairText a.debugText b.debugText
  | list vs => DebugText.listText (debugTexts vs)

def debugTexts : List OutputValue → List String
  | [] => []
  | v :: vs => v.debugText :: debugTexts vs

end

instance : DebugText OutputValue := ⟨debugText⟩

end OutputValue
end RankOne.Program
