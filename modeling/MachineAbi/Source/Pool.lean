import MachineAbi.Source.Ty

/-!
# Pools of types

A pool owns the types of one compilation and hands out their identities.

- `Pool.intern`: a type known by its structure has one identity, however often it is asked for;
- `Pool.declare`: a declared type has a fresh identity each time;
- `Pool.defineStruct`, `Pool.defineUnion`: the fields of a declared container are filled in later, which is how a type
  comes to contain a pointer to itself.
-/

namespace MachineAbi

/-- The types of one compilation, by identity. -/
structure Pool where
  items : Array Ty
deriving DecidableEq, Repr

namespace Pool

/-- The pool of the primitive types. -/
def empty : Pool := ⟨primitiveTypes.toArray⟩

def size (p : Pool) : Nat := p.items.size

/-- The type of this identity; `void` for an identity the pool has not handed out. -/
def get (p : Pool) (t : TypeId) : Ty := p.items[t.raw]?.getD .void

theorem get_of_size_le {p : Pool} {t : TypeId} (h : p.size ≤ t.raw) : p.get t = .void := by
  have hn : p.items[t.raw]? = none := Array.getElem?_eq_none h
  simp [get, hn]

/-- The types of values inside a value of type `t`. -/
def parts (p : Pool) (t : TypeId) : List TypeId := (p.get t).parts

/-! ## Adding types -/

/-- Adds a type under a fresh identity. -/
def push (p : Pool) (d : Ty) : TypeId × Pool := (⟨p.size⟩, ⟨p.items.push d⟩)

/-- The identity of a type, if it is in the pool. -/
def find? (p : Pool) (d : Ty) : Option TypeId := (p.items.idxOf? d).map TypeId.mk

/-- The identity of a type known by its structure, which is added the first time. -/
def intern (p : Pool) (d : Ty) : TypeId × Pool :=
  match p.find? d with
  | some t => (t, p)
  | none => p.push d

/-- A fresh identity for a declared type. -/
def declare (p : Pool) (d : Ty) : TypeId × Pool := p.push d

/-- Replaces the type of an identity that the pool has handed out. -/
def set (p : Pool) (t : TypeId) (d : Ty) : Pool := ⟨p.items.setIfInBounds t.raw d⟩

/-- Gives a struct its fields; another type stays as it is. -/
def defineStruct (p : Pool) (t : TypeId) (fields : List StructField) : Pool :=
  match p.get t with
  | .struct s => p.set t (.struct { s with fields := fields })
  | _ => p

/-- Gives a union its members; another type stays as it is. -/
def defineUnion (p : Pool) (t : TypeId) (fields : List UnionMember) : Pool :=
  match p.get t with
  | .union u => p.set t (.union { u with fields := fields })
  | _ => p

/-! ## Constructors -/

def int (p : Pool) (bits : Nat) (sign : Signedness) : TypeId × Pool := p.intern (.int bits sign)

def float (p : Pool) (bits : Nat) : TypeId × Pool := p.intern (.float bits)

def pointer (p : Pool) (q : PointerTy) : TypeId × Pool := p.intern (.pointer q)

def array (p : Pool) (len : Nat) (child : TypeId) (sentinel : Bool) : TypeId × Pool :=
  p.intern (.array len child sentinel)

def vector (p : Pool) (len : Nat) (child : TypeId) : TypeId × Pool := p.intern (.vector len child)

def optional (p : Pool) (child : TypeId) : TypeId × Pool := p.intern (.optional child)

/-- The set of these names; neither their order nor their number matters. -/
def errorSet (p : Pool) (names : List String) : TypeId × Pool := p.intern (.errorSet (.ofNames names))

def errorUnion (p : Pool) (set payload : TypeId) : TypeId × Pool := p.intern (.errorUnion set payload)

def tuple (p : Pool) (fields : List FieldTy) : TypeId × Pool := p.intern (.tuple fields)

def function (p : Pool) (f : FnTy) : TypeId × Pool := p.intern (.function f)

/-- A struct whose fields are defined later. -/
def declareStruct (p : Pool) (name : String) (layout : ContainerLayout) : TypeId × Pool :=
  p.declare (.struct ⟨name, layout, []⟩)

/-- A union whose members are defined later. -/
def declareUnion (p : Pool) (name : String) (layout : ContainerLayout) (tag : Option TypeId) : TypeId × Pool :=
  p.declare (.union ⟨name, layout, tag, []⟩)

def struct (p : Pool) (name : String) (layout : ContainerLayout) (fields : List StructField) : TypeId × Pool :=
  let (t, p) := p.declareStruct name layout
  (t, p.defineStruct t fields)

def union (p : Pool) (name : String) (layout : ContainerLayout) (tag : Option TypeId) (fields : List UnionMember) :
    TypeId × Pool :=
  let (t, p) := p.declareUnion name layout tag
  (t, p.defineUnion t fields)

def enum (p : Pool) (name : String) (tag : TypeId) (variants : List String) : TypeId × Pool :=
  p.declare (.enum name tag variants)

def opaqueType (p : Pool) (name : String) : TypeId × Pool := p.declare (.opaqueType name)

/-! ## Questions about one type -/

/-- The function type of this identity, if it is one. -/
def fnTy? (p : Pool) (t : TypeId) : Option FnTy :=
  match p.get t with
  | .function f => some f
  | _ => none

/-- Error sets and error unions. -/
def isErrorType (p : Pool) (t : TypeId) : Bool :=
  match p.get t with
  | .errorSet _ | .errorUnion _ _ => true
  | _ => false

def isSlice (p : Pool) (t : TypeId) : Bool :=
  match p.get t with
  | .pointer q => q.isSlice
  | _ => false

def isOptionalSlice (p : Pool) (t : TypeId) : Bool :=
  match p.get t with
  | .optional child => p.isSlice child
  | _ => false

end Pool

end MachineAbi
