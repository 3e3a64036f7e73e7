import MachineAbi.Passing.Class
import MachineAbi.Passing.Members

/-!
# RISC-V

Aggregates of up to two registers travel in one or two integer registers. Where doubles are passed in float registers, a
struct of at most two fields of which one is a float travels field by field.
-/

namespace MachineAbi.RiscV

inductive Kind where
  | byValue
  | memory
  | integer
  | doubleInteger
  | fields (slots : List Slot)
deriving DecidableEq, Repr

/-- The width of a register. -/
def xlen (T : Target) : Nat := T.ptrBits

/-- What a field contributes to a struct that travels field by field. -/
inductive FieldKind where
  | float
  | register
  /-- Does not travel on its own. -/
  | other
deriving DecidableEq, Repr

def fieldKind (Z : Sizing) (t : TypeId) : FieldKind :=
  match Z.get t with
  | .float bits => if bits ≤ 64 then .float else .other
  | .int _ _ | .bool | .enum _ _ _ => if Z.packedWidth t ≤ xlen Z.target then .register else .other
  | .pointer p => if p.isSlice then .other else .register
  | _ => .other

/-- The fields of a struct or tuple that take room. -/
def storedFields? (Z : Sizing) (t : TypeId) : Option (List TypeId) :=
  match Z.get t with
  | .struct s => if s.isPacked then none else some (s.stored.filter Z.takesRoom)
  | .tuple fields => some ((storedTypes fields).filter Z.takesRoom)
  | _ => none

/-- The fields of a struct that travels field by field. -/
def floatFields? (Z : Sizing) (t : TypeId) : Option (List Slot) := do
  let fields ← storedFields? Z t
  let kinds := fields.map (fieldKind Z)
  if fields.length ≤ 2 ∧ .other ∉ kinds ∧ .float ∈ kinds then some (fields.map .source) else none

/-- How an aggregate travels, by its size. -/
def aggregateKind (Z : Sizing) (t : TypeId) : Kind :=
  let bits := (Z.layout t).size * 8
  if 2 * xlen Z.target < bits then .memory else if xlen Z.target < bits then .doubleInteger else .integer

def kind (Z : Sizing) (t : TypeId) : Kind :=
  let upToPair (small : Kind) : Kind := if 2 * xlen Z.target < Z.packedWidth t then .memory else small
  let other : Kind :=
    if Z.isScalar t then .byValue
    else
      match if Z.target.features.riscvD then floatFields? Z t else none with
      | some slots => .fields slots
      | none => aggregateKind Z t
  match Z.get t with
  | .struct s => if s.isPacked then upToPair .byValue else other
  | .union u => if u.isPacked then upToPair .byValue else other
  | .int _ _ | .enum _ _ _ | .errorSet _ => upToPair .byValue
  | .vector _ _ => upToPair .integer
  | _ => other

/-- Half floats travel as integers where there are no float registers. -/
def widenedHalf? (Z : Sizing) (t : TypeId) : Option Slot :=
  if Z.get t = .float 16 ∧ !Z.target.features.riscvD then some (.int 16) else none

def registerPair (T : Target) : List Slot := [.int (xlen T), .int (xlen T)]

def name : String := "riscv"

def classifyParam (Z : Sizing) (t : TypeId) : ParamClass :=
  match kind Z t with
  | .byValue => ((widenedHalf? Z t).map .widened).getD .byValue
  | .memory => .byReference true false
  | .integer => .abiSizedInt
  | .doubleInteger => .split (registerPair Z.target)
  | .fields slots => .split slots

def classifyReturn (Z : Sizing) (t : TypeId) : ReturnClass :=
  match kind Z t with
  | .byValue => ((widenedHalf? Z t).map .widened).getD .byValue
  | .memory => .sret
  | .integer => .abiSizedInt
  | .doubleInteger => .split (registerPair Z.target)
  | .fields slots => .split slots

end MachineAbi.RiscV
