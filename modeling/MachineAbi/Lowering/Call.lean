import MachineAbi.Call.Signature
import MachineAbi.Lowering.Options
import MachineAbi.Lowering.Value
import MachineAbi.Passing.Classifier

/-!
# Lowering of calls

`Lowering.signature` gives the machine signature of a function type: first what comes back, then the hidden pointers,
then each parameter in order. `Lowering.lower` gives the machine type of any type, function types included.

A request fails only if it asks for a convention without machine form, and then before anything has changed.
-/

namespace MachineAbi

open Session

/-- What the lowering of a compilation unit depends on. -/
structure Lowering extends Sizing where
  options : Options

/-- A request, which may fail. -/
abbrev Request (α : Type) : Type := ExceptT LowerError (StateM Session) α

namespace Lowering

/-! ## Machine values -/

/-- The machine type of a slot. -/
def lowerSlot (L : Lowering) : Slot → StateM Session Handle
  | .int bits => onTable (Table.int bits)
  | .float kind => onTable (Table.float kind)
  | .floatVector len elem => onTable do Table.vector len (← Table.float elem)
  | .intVector len bits => onTable do Table.vector len (← Table.int bits)
  | .source t => L.lowerValue t

/-- The machine types of slots, in order. -/
def lowerSlots (L : Lowering) : List Slot → StateM Session (List Handle)
  | [] => return []
  | slot :: slots => do
    let h ← L.lowerSlot slot
    let hs ← L.lowerSlots slots
    return h :: hs

/-- One integer as wide as the values of type `t` are large. -/
def abiSizedInt (L : Lowering) (t : TypeId) : StateM Table Handle :=
  Table.int ((L.layout t).size * 8)

def floatArray (elem : FloatKind) (count : Nat) : StateM Table Handle := do
  let elem ← Table.float elem
  Table.array count elem

def errorCode : StateM Table Handle := Table.int errorCodeBits

/-! ## Return values -/

/-- Whether a function of this convention hands over its error code or an error trace. -/
def reportsErrors (L : Lowering) (f : FnTy) : Bool := f.cc == .auto && L.isErrorType f.ret

/-- The machine return type with its attributes, and the hidden pointer if there is one. An internal function that
returns an error through the pointer returns its code as well. -/
def lowerReturn (L : Lowering) (f : FnTy) : ReturnClass → StateM Session (Handle × AttrSet × List MachineParam)
  | .noBits => return (← onTable Table.void, .none, [])
  | .errorCode => return (← onTable errorCode, .none, [])
  | .byValue => return (← L.lowerValue f.ret, L.returnAttrs f.cc f.ret, [])
  | .sret => do
    let pointee ← L.lowerValue f.ret
    let ptr ← onTable (Table.ptr 0)
    let attrs := AttrSet.sret (L.layout f.ret) pointee
    let ret ← onTable (if L.reportsErrors f then errorCode else Table.void)
    return (ret, .none, [⟨ptr, .returnPointer, attrs⟩])
  | .abiSizedInt => return (← onTable (L.abiSizedInt f.ret), .none, [])
  | .split [slot] => return (← L.lowerSlot slot, .none, [])
  | .split slots => do
    let fields ← L.lowerSlots slots
    return (← onTable (Table.struct fields false), .none, [])
  | .widened slot => return (← L.lowerSlot slot, .none, [])
  | .packedArray elem count => return (← onTable (floatArray elem count), .none, [])

/-- The hidden pointer to an error trace, if there is one. -/
def lowerErrorTrace (L : Lowering) (f : FnTy) : StateM Session (List MachineParam) :=
  if L.options.errorTracing ∧ L.reportsErrors f then do
    let ptr ← onTable (Table.ptr 0)
    return [⟨ptr, .errorTrace, .nonNull⟩]
  else return []

/-! ## Parameters -/

/-- The attributes of the part of a parameter that a slot carries. -/
def slotAttrs (L : Lowering) (cc : CallConv) : Slot → AttrSet
  | .source t => L.byValueAttrs cc t false
  | _ => .none

/-- The machine parameters of slots, numbered from `part` on. -/
def lowerSplit (L : Lowering) (cc : CallConv) (index part : Nat) : List Slot → StateM Session (List MachineParam)
  | [] => return []
  | slot :: slots => do
    let h ← L.lowerSlot slot
    let rest ← L.lowerSplit cc index (part + 1) slots
    return ⟨h, .source index part, L.slotAttrs cc slot⟩ :: rest

/-- The address space of a slice or an optional slice. -/
def sliceSpace (L : Lowering) (t : TypeId) : Nat :=
  let slice :=
    match L.get t with
    | .optional child => child
    | _ => t
  match L.get slice with
  | .pointer p => p.addrSpace
  | _ => 0

/-- The machine parameters of source parameter `index`, which has type `t`. -/
def lowerParam (L : Lowering) (f : FnTy) (index : Nat) (t : TypeId) : ParamClass → StateM Session (List MachineParam)
  | .noBits => return []
  | .byValue => do
    let h ← L.lowerValue t
    return [⟨h, .source index 0, L.byValueAttrs f.cc t (f.isNoalias index)⟩]
  | .byReference isMutable callerCopy => do
    let pointee ← L.lowerValue t
    let ptr ← onTable (Table.ptr 0)
    let layout := L.layout t
    return [⟨ptr, .source index 0, .byReference layout isMutable callerCopy pointee⟩]
  | .abiSizedInt => return [⟨← onTable (L.abiSizedInt t), .source index 0, .none⟩]
  | .split slots => L.lowerSplit f.cc index 0 slots
  | .slice => do
    let ptr ← onTable (Table.ptr (L.sliceSpace t))
    let len ← onTable (Table.int L.target.ptrBits)
    return [⟨ptr, .source index 0, L.slicePointerAttrs t (f.isNoalias index)⟩,
      ⟨len, .source index 1, .noUndef⟩]
  | .widened slot => return [⟨← L.lowerSlot slot, .source index 0, .none⟩]
  | .packedArray elem count => return [⟨← onTable (floatArray elem count), .source index 0, .none⟩]

/-- The machine parameters of source parameters, numbered from `index` on. -/
def lowerParams (L : Lowering) (c : Option Classifier) (f : FnTy) (index : Nat) :
    List TypeId → StateM Session (List MachineParam)
  | [] => return []
  | t :: ts => do
    let params ← L.lowerParam f index t (L.paramClass c t)
    let rest ← L.lowerParams c f (index + 1) ts
    return params ++ rest

/-! ## Signatures -/

/-- The machine signature of a function type whose convention means the classifier `c`. -/
def signatureWith (L : Lowering) (c : Option Classifier) (f : FnTy) : StateM Session Signature := do
  let returnClass := L.returnClass c f.ret
  let (ret, retAttrs, hidden) ← L.lowerReturn f returnClass
  let trace ← L.lowerErrorTrace f
  let params ← L.lowerParams c f 0 f.params
  return {
    cc := f.cc
    params := hidden ++ trace ++ params
    ret := ret
    retAttrs := retAttrs
    paramClasses := f.params.map (L.paramClass c)
    returnClass := returnClass
    varargs := f.varargs }

/-- The machine signature of a function type. -/
def signature (L : Lowering) (f : FnTy) : Request Signature := do
  let c ← classifierFor f.cc L.target
  ExceptT.lift (L.signatureWith c f)

/-- The machine signature of the function type with this identity, if it is one. -/
def signature? (L : Lowering) (t : TypeId) : Request (Option Signature) :=
  match L.fnTy? t with
  | some f => some <$> L.signature f
  | none => return none

/-- The machine type of a function with this signature. -/
def functionType (s : Signature) : StateM Table Handle := Table.function s.ret (s.params.map (·.ty)) s.varargs

/-- The machine type of type `t`. -/
def lower (L : Lowering) (t : TypeId) : Request Handle :=
  match L.get t with
  | .function f => do
    let c ← classifierFor f.cc L.target
    ExceptT.lift (memoized t do
      let s ← L.signatureWith c f
      onTable (functionType s))
  | _ => ExceptT.lift (L.lowerValue t)

/-- The machine type of a slot, which may be that of a function. -/
def lowerAnySlot (L : Lowering) : Slot → Request Handle
  | .source t => L.lower t
  | slot => ExceptT.lift (L.lowerSlot slot)

/-! ## Fields -/

/-- The layout of an aggregate that is stored with explicit padding. -/
def aggregateLayout? (L : Lowering) (t : TypeId) : Request (Option AggregateLayout) := do
  let _ ← L.lower t
  return (← get).layouts[t]?

/-- How field number `index` of type `t` is reached. -/
def fieldAccess? (L : Lowering) (t : TypeId) (index : Nat) : Request (Option FieldAccess) := do
  let layout ← L.aggregateLayout? t
  return layout.bind (·.access? index)

end Lowering

end MachineAbi
