import MachineAbi.Source.TypeId

/-!
# Types of the language

A `Ty` describes one type; the types it is made of are named by their `TypeId`.

- `Ty.parts`: the types whose values lie inside a value of the type. Pointers, slices and functions have none, and
  neither have fields that exist at compile time only, sequences without elements or tags without a place. Of an error
  union only the payload is a part: beside it lies an error code, whatever the set.
- `Ty.isNominal`: declared types have an identity of their own; all others are known by their structure.
-/

namespace MachineAbi

inductive Signedness where
  | signed
  | unsigned
deriving DecidableEq, Repr

/-- How many items a pointer points at. -/
inductive PointerSize where
  | one
  | many
  /-- A pointer with a length beside it. -/
  | slice
  /-- A C pointer, which may be null. -/
  | c
deriving DecidableEq, Repr

/-- Pointer qualifiers. -/
structure PointerFlags where
  isConst : Bool
  isVolatile : Bool
  /-- Zero is a valid address. -/
  allowZero : Bool
deriving DecidableEq, Repr

namespace PointerFlags

def none : PointerFlags := ⟨false, false, false⟩

def const : PointerFlags := ⟨true, false, false⟩

def ofBits (n : Nat) : PointerFlags := ⟨n.testBit 0, n.testBit 1, n.testBit 2⟩

def toBits (f : PointerFlags) : Nat := f.isConst.toNat + 2 * f.isVolatile.toNat + 4 * f.allowZero.toNat

end PointerFlags

structure PointerTy where
  child : TypeId
  size : PointerSize
  addrSpace : Nat
  flags : PointerFlags
deriving DecidableEq, Repr

namespace PointerTy

def isSlice (p : PointerTy) : Bool := p.size == .slice

/-- Whether zero is a value of the pointer, so that it cannot stand for its absence. -/
def allowsZero (p : PointerTy) : Bool := p.size == .c || p.flags.allowZero

end PointerTy

/-- The layout asked for in a declaration. -/
inductive ContainerLayout where
  /-- Declaration order, natural alignment. -/
  | auto
  /-- As a C compiler lays it out. -/
  | c
  /-- Packed bit by bit into one integer. -/
  | packed
deriving DecidableEq, Repr

/-- Calling conventions. -/
inductive CallConv where
  /-- The internal convention. -/
  | auto
  /-- The C convention of the target. -/
  | c
  | sysv
  | win64
  /-- ARM, floats in integer registers. -/
  | aapcs
  /-- ARM, floats in float registers. -/
  | aapcsVfp
  | async
deriving DecidableEq, Repr

/-- The type of a field, and whether the field exists at compile time only. -/
structure FieldTy where
  ty : TypeId
  isComptime : Bool
deriving DecidableEq, Repr

structure StructField extends FieldTy where
  name : String
deriving DecidableEq, Repr

/-- The types of the fields that are stored, in order. -/
def storedTypes (fields : List FieldTy) : List TypeId := (fields.filter (!·.isComptime)).map (·.ty)

structure StructTy where
  name : String
  layout : ContainerLayout
  fields : List StructField
deriving DecidableEq, Repr

namespace StructTy

def fieldTys (s : StructTy) : List FieldTy := s.fields.map (·.toFieldTy)

def stored (s : StructTy) : List TypeId := storedTypes s.fieldTys

def isPacked (s : StructTy) : Bool := s.layout == .packed

end StructTy

structure UnionMember where
  name : String
  ty : TypeId
deriving DecidableEq, Repr

structure UnionTy where
  name : String
  layout : ContainerLayout
  /-- The enum that tells which member is held. -/
  tag : Option TypeId
  fields : List UnionMember
deriving DecidableEq, Repr

namespace UnionTy

def memberTypes (u : UnionTy) : List TypeId := u.fields.map (·.ty)

def isPacked (u : UnionTy) : Bool := u.layout == .packed

/-- The tag, unless there is at most one member and so nothing to tell apart. -/
def usedTag? (u : UnionTy) : Option TypeId := if 1 < u.fields.length then u.tag else none

/-- The tag that may lie beside the members; a packed union has no place for it. -/
def placedTag? (u : UnionTy) : Option TypeId := if u.isPacked then none else u.usedTag?

end UnionTy

inductive ErrorSet where
  /-- Every error of the program. -/
  | global
  | named (names : List String)
deriving DecidableEq, Repr

namespace ErrorSet

/-- The set of these names, in increasing order and each once. -/
def ofNames (names : List String) : ErrorSet := .named (names.mergeSort (· ≤ ·)).eraseReps

/-- Whether a member of the set has to be stored. -/
def hasBits : ErrorSet → Bool
  | global => true
  | named names => !names.isEmpty

end ErrorSet

structure FnTy where
  params : List TypeId
  ret : TypeId
  cc : CallConv
  varargs : Bool
  /-- Bit `i` says that nothing else points at what parameter `i` points at. -/
  noalias : Nat
deriving DecidableEq, Repr

/-- Only the first 32 parameters can be marked. -/
def FnTy.isNoalias (f : FnTy) (index : Nat) : Bool := index < 32 && f.noalias.testBit index

/-- A type of the language. -/
inductive Ty where
  | void
  | noreturn
  | bool
  /-- Values that exist at compile time only. -/
  | comptime
  | int (bits : Nat) (sign : Signedness)
  | float (bits : Nat)
  | pointer (p : PointerTy)
  /-- With a sentinel, one more element follows the last. -/
  | array (len : Nat) (child : TypeId) (sentinel : Bool)
  | vector (len : Nat) (child : TypeId)
  | optional (child : TypeId)
  | errorUnion (set payload : TypeId)
  | errorSet (set : ErrorSet)
  | enum (name : String) (tag : TypeId) (variants : List String)
  | struct (s : StructTy)
  | tuple (fields : List FieldTy)
  | union (u : UnionTy)
  | function (f : FnTy)
  /-- Declared, but without a known content. -/
  | opaqueType (name : String)
deriving DecidableEq, Repr, Inhabited

/-- The number of elements stored. -/
def elementCount (len : Nat) (sentinel : Bool) : Nat := len + sentinel.toNat

namespace Ty

/-- Declared types have a fresh identity; all others are equal when their descriptions are. -/
def isNominal : Ty → Bool
  | struct _ | union _ | enum _ _ _ | opaqueType _ => true
  | _ => false

def kindName : Ty → String
  | void => "void"
  | noreturn => "noreturn"
  | bool => "bool"
  | comptime => "comptime"
  | int _ _ => "int"
  | float _ => "float"
  | pointer _ => "pointer"
  | array _ _ _ => "array"
  | vector _ _ => "vector"
  | optional _ => "optional"
  | errorUnion _ _ => "error_union"
  | errorSet _ => "error_set"
  | enum _ _ _ => "enum"
  | struct _ => "struct"
  | tuple _ => "tuple"
  | union _ => "union"
  | function _ => "function"
  | opaqueType _ => "opaque"

/-- The types of values inside a value of this type. -/
def parts : Ty → List TypeId
  | array len child sentinel => if elementCount len sentinel = 0 then [] else [child]
  | vector len child => if len = 0 then [] else [child]
  | optional child => [child]
  | errorUnion _ payload => [payload]
  | enum _ tag _ => [tag]
  | struct s => s.stored
  | tuple fields => storedTypes fields
  | union u => u.placedTag?.toList ++ u.memberTypes
  | void | noreturn | bool | comptime | int _ _ | float _ | pointer _ | errorSet _ | function _ | opaqueType _ => []

end Ty

/-- The primitive types, in the order of `primitiveNames`. -/
def primitiveTypes : List Ty :=
  [.void, .noreturn, .bool, .int 1 .unsigned, .int 8 .unsigned, .int 8 .signed, .int 16 .unsigned, .int 16 .signed,
    .int 32 .unsigned, .int 32 .signed, .int 64 .unsigned, .int 64 .signed, .int 128 .unsigned, .int 128 .signed,
    .float 16, .float 32, .float 64, .float 80, .float 128, .errorSet .global, .comptime]

end MachineAbi
