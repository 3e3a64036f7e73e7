import MachineAbi.Machine.Layout
import MachineAbi.Source.TypeId

/-!
# Layout of aggregates

Aggregates become machine structs in which all padding is spelled out as bytes, so that the offset of every field is
fixed here and not left to the code generator.

- `AggregateBuilder.push` places one value, `AggregateBuilder.finish` pads the end;
- `AggregateLayout` records where the values of an aggregate are, and `AggregateLayout.access?` how they are reached.
-/

namespace MachineAbi

/-- Raised whenever a lowered aggregate could change shape. -/
def layoutVersion : Nat := 1

/-- The place of one value in an aggregate. -/
structure FieldPlace where
  /-- The machine field that holds the value; values that take no room have none. -/
  machineIndex : Option Nat
  source : TypeId
  align : Nat
  offset : Nat
deriving DecidableEq, Repr

/-- How a field is reached from the address of its aggregate. -/
inductive FieldAccess where
  /-- As this machine field. -/
  | index (n : Nat)
  /-- At this many bytes; there is nothing stored there. -/
  | byteOffset (n : Nat)
  /-- Behind the aggregate; there is nothing stored there. -/
  | pastEnd
deriving DecidableEq, Repr

/-- The places of all values in an aggregate. The members of a union share one place. Optionals and error unions list
their payload; the flag, the error code or the tag of a union is in `tag`. -/
structure AggregateLayout where
  machineFields : List Handle
  fields : List FieldPlace
  tag : Option FieldPlace
  size : Nat
  align : Nat
deriving DecidableEq, Repr

/-- How field number `index` is reached, if there is one. -/
def AggregateLayout.access? (l : AggregateLayout) (index : Nat) : Option FieldAccess :=
  l.fields[index]?.map fun field =>
    match field.machineIndex with
    | some n => .index n
    | none => if l.size ≤ field.offset then .pastEnd else .byteOffset field.offset

/-- An aggregate under construction: its machine fields, and the size and alignment reached so far. -/
structure AggregateBuilder where
  machine : List Handle
  offset : Nat
  align : Nat
deriving DecidableEq, Repr

namespace AggregateBuilder

def empty : AggregateBuilder := ⟨[], 0, 1⟩

/-- Fills up to `offset` with bytes. -/
def padTo (b : AggregateBuilder) (offset : Nat) : StateM Table AggregateBuilder :=
  if b.offset < offset then do
    let pad ← Table.bytes (offset - b.offset)
    return { b with machine := b.machine ++ [pad], offset := offset }
  else return b

/-- Places one value of machine type `h?` at the next offset aligned for it. A value without a machine type, or whose
machine type takes no room, gets the offset reached and no machine field. -/
def push (T : Target) (source : TypeId) (h? : Option Handle) (b : AggregateBuilder) :
    StateM Table (FieldPlace × AggregateBuilder) := do
  let table ← get
  let layout := (h?.bind (table.layoutOf T)).getD .zero
  match h? with
  | some h =>
    if 0 < layout.size then
      let b ← b.padTo (alignUp b.offset layout.align)
      return (⟨some b.machine.length, source, layout.align, b.offset⟩,
        ⟨b.machine ++ [h], b.offset + layout.size, max b.align layout.align⟩)
    else return (⟨none, source, layout.align, b.offset⟩, b)
  | none => return (⟨none, source, layout.align, b.offset⟩, b)

/-- Places several values in order. -/
def pushAll (T : Target) : List (TypeId × Option Handle) → AggregateBuilder →
    StateM Table (List FieldPlace × AggregateBuilder)
  | [], b => return ([], b)
  | (source, h?) :: rest, b => do
    let (field, b) ← b.push T source h?
    let (fields, b) ← pushAll T rest b
    return (field :: fields, b)

/-- Pads the end; the result is what was placed, its size and its alignment. -/
def finish (b : AggregateBuilder) : StateM Table AggregateBuilder := b.padTo (alignUp b.offset b.align)

/-- The layout of a finished aggregate whose values were placed at `fields` and `tag`. -/
def layout (b : AggregateBuilder) (fields : List FieldPlace) (tag : Option FieldPlace) : AggregateLayout :=
  ⟨b.machine, fields, tag, b.offset, b.align⟩

end AggregateBuilder

end MachineAbi
