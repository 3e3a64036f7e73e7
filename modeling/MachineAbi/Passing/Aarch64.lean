import MachineAbi.Passing.Class
import MachineAbi.Passing.Members

/-!
# AArch64

Aggregates of a few equal floats travel in float registers, other aggregates of up to 16 bytes in one or two integer
registers, and the rest by their address.
-/

namespace MachineAbi.Aarch64

/-- The most floats that an aggregate may consist of to be passed in float registers. -/
def maxFloats : Nat := 4

inductive Kind where
  | byValue
  | memory
  /-- One 64-bit register. -/
  | integer
  /-- Two 64-bit registers. -/
  | doubleInteger
  | floats (elem : FloatKind) (count : Nat)
deriving DecidableEq, Repr

def kind (Z : Sizing) (t : TypeId) : Kind :=
  if Z.isScalar t then
    match Z.get t with
    | .vector _ _ => if 128 < Z.packedWidth t then .memory else .byValue
    | _ => .byValue
  else
    match Z.homogeneousFloats? t maxFloats with
    | some (elem, count) => .floats elem count
    | none =>
      let bits := (Z.layout t).size * 8
      if bits ≤ 64 then .integer else if bits ≤ 128 then .doubleInteger else .memory

def registerPair : List Slot := [.int 64, .int 64]

def name : String := "aarch64-aapcs64"

def classifyParam (Z : Sizing) (t : TypeId) : ParamClass :=
  match kind Z t with
  | .byValue => .byValue
  | .memory => .byReference true false
  | .integer => .abiSizedInt
  | .doubleInteger => .split registerPair
  | .floats elem count => .packedArray elem count

def classifyReturn (Z : Sizing) (t : TypeId) : ReturnClass :=
  match kind Z t with
  | .byValue => .byValue
  | .memory => .sret
  | .integer => .abiSizedInt
  | .doubleInteger => .split registerPair
  | .floats elem count => .packedArray elem count

end MachineAbi.Aarch64
