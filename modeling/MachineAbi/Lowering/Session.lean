import Std.Data.HashMap
import MachineAbi.Aggregate.Builder

/-!
# Sessions

The state of the lowering of one compilation unit: the machine types so far, the machine type of each type lowered, and
the layouts of the aggregates among them.
-/

namespace MachineAbi

structure Session where
  table : Table
  lowered : Std.HashMap TypeId Handle
  layouts : Std.HashMap TypeId AggregateLayout

namespace Session

def empty : Session := ⟨.empty, ∅, ∅⟩

/-- The number of types lowered. -/
def size (s : Session) : Nat := s.lowered.size

/-- An action on the machine types of a session. -/
def onTable {α : Type} (act : StateM Table α) : StateM Session α := fun s =>
  let (a, table) := act s.table
  (a, { s with table := table })

/-- Notes the machine type of a type. -/
def remember (t : TypeId) (h : Handle) : StateM Session Unit :=
  modify fun s => { s with lowered := s.lowered.insert t h }

/-- Notes the layout of an aggregate. -/
def record (t : TypeId) (l : AggregateLayout) : StateM Session Unit :=
  modify fun s => { s with layouts := s.layouts.insert t l }

/-- The machine type noted for a type, or else the one that `act` gives it, which is noted. -/
def memoized (t : TypeId) (act : StateM Session Handle) : StateM Session Handle := do
  match (← get).lowered[t]? with
  | some h => return h
  | none =>
    let h ← act
    remember t h
    return h

end Session

end MachineAbi
