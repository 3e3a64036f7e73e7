import MachineAbi.Passing.Class
import MachineAbi.Passing.Members

/-!
# 32-bit ARM

Aggregates travel in core registers as words, or as double words if they are aligned to more than a word. With hardware
floats, aggregates of a few equal floats travel in float registers.
-/

namespace MachineAbi.Arm

/-- The largest aggregate that is not passed in memory, in bytes. -/
def maxByValue : Nat := 64

/-- The most floats that an aggregate may consist of to be passed in float registers. -/
def maxFloats : Nat := 4

inductive Kind where
  | byValue
  | memory
  | words (count : Nat)
  | doubleWords (count : Nat)
deriving DecidableEq, Repr

/-- How an aggregate travels, by its layout. -/
def aggregateKind (Z : Sizing) (hardFloat : Bool) (t : TypeId) : Kind :=
  let l := Z.layout t
  if maxByValue < l.size then .memory
  else if hardFloat ∧ (Z.homogeneousFloats? t maxFloats).isSome then .byValue
  else if 4 < l.align then .doubleWords (alignUp l.size 8 / 8)
  else .words (alignUp l.size 4 / 4)

def kind (Z : Sizing) (hardFloat isReturn : Bool) (t : TypeId) : Kind :=
  let upTo (limit : Nat) : Kind := if limit < Z.packedWidth t then .memory else .byValue
  let other : Kind := if Z.isScalar t then .byValue else aggregateKind Z hardFloat t
  match Z.get t with
  | .struct s => if s.isPacked then upTo 64 else other
  | .union u => if u.isPacked then upTo 64 else other
  | .enum _ _ _ | .errorSet _ => upTo 64
  | .vector _ _ => upTo (if isReturn then 128 else 512)
  | _ => other

/-- Half floats travel as integers where their arithmetic is not native. -/
def widenedHalf? (Z : Sizing) (t : TypeId) : Option Slot :=
  if Z.get t = .float 16 ∧ !Z.target.features.armFullFp16 then some (.int 16) else none

def name (hardFloat : Bool) : String := if hardFloat then "arm-aapcs-vfp" else "arm-aapcs"

def classifyParam (Z : Sizing) (hardFloat : Bool) (t : TypeId) : ParamClass :=
  match kind Z hardFloat false t with
  | .byValue => ((widenedHalf? Z t).map .widened).getD .byValue
  | .memory => .byReference false true
  | .words count => .split (.replicate count (.int 32))
  | .doubleWords count => .split (.replicate count (.int 64))

/-- Only an aggregate of a single word comes back in a register. -/
def classifyReturn (Z : Sizing) (hardFloat : Bool) (t : TypeId) : ReturnClass :=
  match kind Z hardFloat true t with
  | .byValue => ((widenedHalf? Z t).map .widened).getD .byValue
  | .words 1 => .split [.int 32]
  | .memory | .words _ | .doubleWords _ => .sret

end MachineAbi.Arm
