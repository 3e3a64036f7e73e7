/-!
# Identities of types

A `TypeId` names a type of a pool. The first identities belong to the primitive types, in the order of
`primitiveNames`; all others are handed out as types are added.
-/

namespace MachineAbi

/-- The position of a type in its pool. -/
structure TypeId where
  raw : Nat
deriving DecidableEq, Hashable, Repr, Inhabited

/-- The names of the primitive types, in the order of their identities. -/
def primitiveNames : List String :=
  ["void", "noreturn", "bool", "u1", "u8", "i8", "u16", "i16", "u32", "i32", "u64", "i64", "u128", "i128", "f16", "f32",
    "f64", "f80", "f128", "anyerror", "comptime_int"]

namespace TypeId

def primitiveCount : Nat := 21

/-- The first identity that is not a primitive's. -/
def firstDynamic : Nat := primitiveCount

/-- Stands for the absence of a type. -/
def none : TypeId := ⟨0xffffffff⟩

def void : TypeId := ⟨0⟩

def bool : TypeId := ⟨2⟩

def u8 : TypeId := ⟨4⟩

/-- The set of all errors. -/
def anyError : TypeId := ⟨19⟩

def isPrimitive (t : TypeId) : Bool := t.raw < primitiveCount

def isNone (t : TypeId) : Bool := t == none

def primitiveName? (t : TypeId) : Option String := primitiveNames[t.raw]?

/-- The primitive type of this name. -/
def ofPrimitive? (name : String) : Option TypeId := (primitiveNames.idxOf? name).map TypeId.mk

/-- A text that tells identities apart, for messages. -/
def debug (t : TypeId) : String :=
  let inner :=
    match t.primitiveName? with
    | some name => name
    | Option.none => if t.isNone then "NONE" else toString t.raw
  "Idx(" ++ inner ++ ")"

end TypeId

end MachineAbi
