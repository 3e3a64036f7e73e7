import MachineAbi.Passing.Class
import MachineAbi.Passing.Members

/-!
# x86-64 Windows

Every argument takes one register or one stack slot: values of 1, 2, 4 or 8 bytes as integers, floats and vectors in
vector registers, everything else by its address.
-/

namespace MachineAbi.Win64

inductive Kind where
  | integer
  | sse
  /-- A wide integer, which is returned in a vector register. -/
  | wideInt
  | memory
deriving DecidableEq, Repr

def kind (Z : Sizing) (t : TypeId) : Kind :=
  let bySize (other : Kind) : Kind := if (Z.layout t).size ∈ [1, 2, 4, 8] then .integer else other
  match Z.get t with
  | .float _ | .vector _ _ => .sse
  | .int _ _ => bySize .wideInt
  | .struct s => bySize (if s.isPacked then .wideInt else .memory)
  | .union u => bySize (if u.isPacked then .wideInt else .memory)
  | _ => bySize .memory

def name : String := "x86_64-win64"

def classifyParam (Z : Sizing) (t : TypeId) : ParamClass :=
  match kind Z t with
  | .integer => if Z.isScalar t then .byValue else .abiSizedInt
  | .sse => .byValue
  | .wideInt => .byReference false false
  | .memory => .byReference true false

def classifyReturn (Z : Sizing) (t : TypeId) : ReturnClass :=
  match kind Z t with
  | .integer => if Z.isScalar t then .byValue else .abiSizedInt
  | .sse => .byValue
  | .wideInt => .widened (.intVector 2 64)
  | .memory => .sret

end MachineAbi.Win64
