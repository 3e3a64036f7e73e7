import MachineAbi.Machine.FloatKind

/-!
# Machine types

A `Table` is an append-only store of machine types, which refer to one another by `Handle`.

- `Table.intern`: a type known by its structure has one handle, however often it is asked for;
- `Table.declare`: a named struct has a fresh handle each time, and a body that is set later and once
  (`Table.setBody`). So a struct can refer to itself while its fields are not known yet. A second body would be a
  mistake of the caller, and is noted as such (`Table.refused`).
-/

namespace MachineAbi

/-- The position of a machine type in its table. -/
structure Handle where
  raw : Nat
deriving DecidableEq, Hashable, Repr, Inhabited

inductive MachineType where
  | void
  | int (bits : Nat)
  | float (kind : FloatKind)
  /-- A pointer into an address space, whatever it points at. -/
  | ptr (space : Nat)
  | array (len : Nat) (elem : Handle)
  | vector (len : Nat) (elem : Handle)
  | struct (packed : Bool) (fields : List Handle)
  /-- A named struct, by its position among the named ones. -/
  | named (id : Nat)
  | function (ret : Handle) (params : List Handle) (varargs : Bool)
deriving DecidableEq, Repr, Inhabited

/-- The fields of a struct, named or not. -/
structure StructBody where
  packed : Bool
  fields : List Handle
deriving DecidableEq, Repr

structure NamedStruct where
  /-- The name asked for. -/
  stem : String
  /-- The name given. -/
  name : String
  /-- The fields, once they are known. -/
  body : Option StructBody
deriving DecidableEq, Repr

/-- Machine types by handle, and the named structs among them. -/
structure Table where
  types : Array MachineType
  named : Array NamedStruct
  /-- The names of structs that were to get a second body. -/
  refused : List String
deriving DecidableEq, Repr

namespace Table

def empty : Table := ⟨.empty, .empty, []⟩

def size (t : Table) : Nat := t.types.size

def isEmpty (t : Table) : Bool := t.types.isEmpty

/-- The type of this handle; `void` for a handle that the table has not given out. -/
def get (t : Table) (h : Handle) : MachineType := t.types[h.raw]?.getD .void

/-! ## Adding types -/

/-- Adds a type under a fresh handle. -/
def push (m : MachineType) : StateM Table Handle := fun t => (⟨t.size⟩, { t with types := t.types.push m })

/-- The handle of a type, if it is in the table. -/
def find? (t : Table) (m : MachineType) : Option Handle := (t.types.idxOf? m).map Handle.mk

/-- The handle of a type known by its structure, which is added the first time. -/
def intern (m : MachineType) : StateM Table Handle := fun t =>
  match t.find? m with
  | some h => (h, t)
  | none => push m t

def void : StateM Table Handle := intern .void

def int (bits : Nat) : StateM Table Handle := intern (.int bits)

def float (kind : FloatKind) : StateM Table Handle := intern (.float kind)

def ptr (space : Nat) : StateM Table Handle := intern (.ptr space)

def array (len : Nat) (elem : Handle) : StateM Table Handle := intern (.array len elem)

def vector (len : Nat) (elem : Handle) : StateM Table Handle := intern (.vector len elem)

/-- `len` bytes, as they are used for padding. -/
def bytes (len : Nat) : StateM Table Handle := do
  let byte ← int 8
  array len byte

def struct (fields : List Handle) (packed : Bool) : StateM Table Handle := intern (.struct packed fields)

def function (ret : Handle) (params : List Handle) (varargs : Bool) : StateM Table Handle :=
  intern (.function ret params varargs)

/-- The name of the next struct that asks for `stem`: the later ones get a number. -/
def nextName (t : Table) (stem : String) : String :=
  match t.named.countP (·.stem = stem) with
  | 0 => stem
  | uses => stem ++ "." ++ toString uses

/-- A fresh struct named after `stem`, without a body. -/
def declare (stem : String) : StateM Table Handle := fun t =>
  push (.named t.named.size) { t with named := t.named.push ⟨stem, t.nextName stem, none⟩ }

/-- Gives a named struct its body. If it has one already, the second is refused; another type stays as it is. -/
def setBody (h : Handle) (body : StructBody) : StateM Table Unit := fun t =>
  match t.get h with
  | .named id =>
    ((), { t with
      named := t.named.modify id fun n => if n.body.isNone then { n with body := some body } else n
      refused := t.refused ++ (t.named[id]?.filter (·.body.isSome)).toList.map (·.name) })
  | _ => ((), t)

/-! ## Questions -/

/-- The named struct of a handle. -/
def namedStruct? (t : Table) (h : Handle) : Option NamedStruct :=
  match t.get h with
  | .named id => t.named[id]?
  | _ => none

def name? (t : Table) (h : Handle) : Option String := (t.namedStruct? h).map (·.name)

/-- The fields of a struct, unless they are not known yet. -/
def body? (t : Table) (h : Handle) : Option StructBody :=
  match t.get h with
  | .struct packed fields => some ⟨packed, fields⟩
  | _ => (t.namedStruct? h).bind (·.body)

/-- Whether a handle is a named struct without a body. -/
def isOpaque (t : Table) (h : Handle) : Bool := (t.namedStruct? h).any (·.body.isNone)

end Table

end MachineAbi
