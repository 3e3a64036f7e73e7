import MachineAbi.Lowering.Call
import MachineAbi.Proofs.Aggregate.Placement
import MachineAbi.Proofs.Machine.Tree

/-!
# What lowering gives, told by the types alone

Lowering works on a session: it looks up what is noted, adds machine types, and hands out their handles. What it gives
is a function of the type all the same.

* `Sizing.form`: the machine type of the values of a type, and the plan of an aggregate among them.
* `Lowering.signatureForm`: the machine signature of a function type; so `Lowering.form` covers function types as well.

No table and no session occurs in these. That the lowering follows them is proved in
`MachineAbi.Proofs.Lowering.Determined`.
-/

namespace MachineAbi

/-! ## Aggregates -/

/-- The machine fields of an arrangement of machine types. -/
def Arrangement.trees (a : Arrangement MachineTree) : List MachineTree :=
  a.pieces.map fun (tree?, l) => tree?.getD (.bytes l.size)

/-- Where the values of an aggregate are, and what it is built of. -/
structure Plan where
  fields : List FieldPlace
  tag : Option FieldPlace
  built : Arrangement MachineTree

/-- A machine type to be placed for a value of type `source`; one that has no layout takes no room. -/
def Target.treeItem (T : Target) (source : TypeId) (tree : MachineTree) : Item MachineTree :=
  ⟨source, tree, (tree.layout? T).getD .zero⟩

namespace Plan

/-- Values in order. -/
def inOrder (items : List (Item MachineTree)) : Plan :=
  let placed := Arrangement.empty.pushAll items
  ⟨placed.1, none, placed.2.finish⟩

/-- A value and its tag; the fields follow from the place of the value. -/
def besideTag (tagFirst : Bool) (tag held : Option (Item MachineTree)) (fields : Option FieldPlace → List FieldPlace) :
    Plan :=
  let placed := Arrangement.tagged tagFirst tag held
  ⟨fields placed.slot, placed.tag, placed.built.finish⟩

end Plan

/-- The machine type of a type, and the plan of an aggregate. -/
structure Form where
  tree : MachineTree
  plan? : Option Plan

namespace Form

def plain (tree : MachineTree) : Form := ⟨tree, none⟩

/-- An unnamed struct. -/
def unnamed (p : Plan) : Form := ⟨.struct false p.built.trees, some p⟩

/-- The named struct of type `t`. -/
def named (t : TypeId) (p : Plan) : Form := ⟨.named t p.built.trees, some p⟩

end Form

namespace Sizing

section

variable (Z : Sizing) (known : TypeId → MachineTree)

/-- The machine type of a field; one of compile time or without bits has none. -/
def fieldTree (f : FieldTy) : MachineTree := if f.isComptime = false ∧ Z.takesRoom f.ty then known f.ty else .void

def fieldsPlan (fields : List FieldTy) : Plan :=
  .inOrder (fields.map fun f => Z.target.treeItem f.ty (Z.fieldTree known f))

/-- A payload with a byte behind it. -/
def flaggedPlan (child : TypeId) : Plan :=
  .besideTag false (some (Z.target.treeItem .u8 (.int 8))) (some (Z.target.treeItem child (known child))) (·.toList)

/-- An error code and a payload. -/
def halvesPlan (codeFirst : Bool) (set payload : TypeId) : Plan :=
  .besideTag codeFirst (some (Z.target.treeItem set (.int errorCodeBits)))
    (some (Z.target.treeItem payload (known payload))) (·.toList)

/-- The payload of a union: the widest member, padded unless it fills the payload. -/
def heldTree? (u : UnionTy) : Option (TypeId × MachineTree) :=
  (Z.widestMember? u).map fun m =>
    (m.1, if (Z.layout m.1).size < (Z.payloadLayout u).size then
      .struct false [known m.1, .bytes ((Z.payloadLayout u).size - (Z.layout m.1).size)] else known m.1)

def unionPlan (u : UnionTy) : Plan :=
  .besideTag (Z.tagComesFirst u) ((Z.storedTag? u).map fun tag => Z.target.treeItem tag (known tag))
    ((Z.heldTree? known u).map fun held => Z.target.treeItem held.1 held.2) (Z.memberPlaces u (Z.filledBy? u))

/-- A slice is built of a pointer and a length. -/
def sliceTree (t : TypeId) (space : Nat) : MachineTree :=
  .struct false (Arrangement.empty.pushAll
    [Z.target.treeItem t (.ptr space), Z.target.treeItem t (.int Z.target.ptrBits)]).2.finish.trees

/-! ## Values -/

/-- An optional in any representation. -/
def optionalForm (child : TypeId) : Form :=
  match Z.optionalRepr child with
  | .flagOnly => .plain (.int 8)
  | .payload => .plain (known child)
  | .payloadAndFlag => .unnamed (Z.flaggedPlan known child)

/-- An error union in any representation. -/
def errorUnionForm (set payload : TypeId) : Form :=
  match Z.errorUnionRepr set payload with
  | .empty => .plain .void
  | .payloadOnly => .plain (known payload)
  | .errorOnly => .plain (.int errorCodeBits)
  | .errorFirst => .unnamed (Z.halvesPlan known true set payload)
  | .payloadFirst => .unnamed (Z.halvesPlan known false set payload)

/-- The form of type `t`, whose parts have the machine types `known`. -/
def formNew (t : TypeId) : Form :=
  let stored (f : Form) : Form := if Z.takesRoom t then f else .plain .void
  match Z.get t with
  | .void | .noreturn | .comptime | .function _ => .plain .void
  | .opaqueType _ => .plain (.unknown t)
  | .bool => .plain (.int 1)
  | .int bits _ => stored (.plain (.int bits))
  | .float bits => .plain (Z.target.floatTree bits)
  | .pointer p => .plain (if p.isSlice then Z.sliceTree t p.addrSpace else .ptr p.addrSpace)
  | .array len child sentinel =>
    let count := elementCount len sentinel
    if count = 0 then .plain .void
    else .plain (if Z.takesRoom child then .array count (known child) else .bytes count)
  | .vector len child =>
    if len = 0 then .plain .void
    else stored (.plain (.vector len (if Z.get child = .bool then .int 1 else known child)))
  | .optional child => Z.optionalForm known child
  | .errorSet _ => stored (.plain (.int errorCodeBits))
  | .errorUnion set payload => Z.errorUnionForm known set payload
  | .enum _ tag _ => stored (.plain (known tag))
  | .struct s =>
    stored (if s.isPacked then .plain (.int (Z.packedWidth t % packedWidthModulus))
      else .named t (Z.fieldsPlan known s.fieldTys))
  | .tuple fields => stored (.unnamed (Z.fieldsPlan known fields))
  | .union u =>
    stored (if u.isPacked then .plain (.int (Z.packedWidth t % packedWidthModulus)) else .named t (Z.unionPlan known u))

end

/-- The form of the values of type `t`. -/
def form (Z : Sizing) (t : TypeId) : Form :=
  Z.formNew (fun c => if _h : c ∈ Z.parts t then (Z.form c).tree else .void) t
termination_by Z.rank t
decreasing_by exact Z.rank_lt _h

/-- The machine types of the parts of type `t`. -/
def partTree (Z : Sizing) (t c : TypeId) : MachineTree := if c ∈ Z.parts t then (Z.form c).tree else .void

theorem form_eq (Z : Sizing) (t : TypeId) : Z.form t = Z.formNew (Z.partTree t) t := by
  rw [form]
  rfl

theorem partTree_of_mem {Z : Sizing} {t c : TypeId} (hc : c ∈ Z.parts t) : Z.partTree t c = (Z.form c).tree := if_pos hc

end Sizing

/-! ## Signatures -/

/-- The attributes of a machine parameter, with the machine type pointed at written out. -/
structure AttrForm where
  flags : ParamFlags
  align : Option Nat
  pointee : Option MachineTree

/-- Attributes, with this machine type in place of the one pointed at. -/
def AttrSet.form (a : AttrSet) (pointee : MachineTree) : AttrForm := ⟨a.flags, a.align, a.pointee.map fun _ => pointee⟩

structure ParamForm where
  ty : MachineTree
  origin : ParamOrigin
  attrs : AttrForm

structure SignatureForm where
  cc : CallConv
  params : List ParamForm
  ret : MachineTree
  retAttrs : AttrForm
  paramClasses : List ParamClass
  returnClass : ReturnClass
  varargs : Bool

/-- The machine type of a function with this signature. -/
def SignatureForm.tree (f : SignatureForm) : MachineTree := .function f.ret (f.params.map (·.ty)) f.varargs

namespace Lowering

variable (L : Lowering)

/-- The machine type of the values of type `t`. -/
def valueTree (t : TypeId) : MachineTree := (L.toSizing.form t).tree

def slotTree : Slot → MachineTree
  | .int bits => .int bits
  | .float kind => .float kind
  | .floatVector len elem => .vector len (.float elem)
  | .intVector len bits => .vector len (.int bits)
  | .source t => L.valueTree t

/-- The machine return type with its attributes, and the hidden pointer if there is one. -/
def returnForm (f : FnTy) : ReturnClass → MachineTree × AttrForm × List ParamForm
  | .noBits => (.void, AttrSet.none.form .void, [])
  | .errorCode => (.int errorCodeBits, AttrSet.none.form .void, [])
  | .byValue => (L.valueTree f.ret, (L.returnAttrs f.cc f.ret).form .void, [])
  | .sret =>
    (if L.reportsErrors f then .int errorCodeBits else .void, AttrSet.none.form .void,
      [⟨.ptr 0, .returnPointer, (AttrSet.sret (L.layout f.ret) default).form (L.valueTree f.ret)⟩])
  | .abiSizedInt => (.int ((L.layout f.ret).size * 8), AttrSet.none.form .void, [])
  | .split [slot] => (L.slotTree slot, AttrSet.none.form .void, [])
  | .split slots => (.struct false (slots.map L.slotTree), AttrSet.none.form .void, [])
  | .widened slot => (L.slotTree slot, AttrSet.none.form .void, [])
  | .packedArray elem count => (.array count (.float elem), AttrSet.none.form .void, [])

variable {L} in
/-- Several slots are returned as the fields of a struct. -/
theorem returnForm_split {f : FnTy} {slots : List Slot} (h : ∀ slot, slots = [slot] → False) :
    L.returnForm f (.split slots) = (.struct false (slots.map L.slotTree), AttrSet.none.form .void, []) := by
  cases slots with
  | nil => rfl
  | cons slot rest =>
    cases rest with
    | nil => exact (h slot rfl).elim
    | cons slot' rest => rfl

def errorTraceForm (f : FnTy) : List ParamForm :=
  if L.options.errorTracing ∧ L.reportsErrors f then [⟨.ptr 0, .errorTrace, AttrSet.nonNull.form .void⟩] else []

/-- The machine parameters of slots, numbered from `part` on. -/
def splitForm (cc : CallConv) (index part : Nat) : List Slot → List ParamForm
  | [] => []
  | slot :: slots =>
    ⟨L.slotTree slot, .source index part, (L.slotAttrs cc slot).form .void⟩ :: splitForm cc index (part + 1) slots

/-- The machine parameters of source parameter `index`, which has type `t`. -/
def paramForm (f : FnTy) (index : Nat) (t : TypeId) : ParamClass → List ParamForm
  | .noBits => []
  | .byValue => [⟨L.valueTree t, .source index 0, (L.byValueAttrs f.cc t (f.isNoalias index)).form .void⟩]
  | .byReference isMutable callerCopy =>
    [⟨.ptr 0, .source index 0, (AttrSet.byReference (L.layout t) isMutable callerCopy default).form (L.valueTree t)⟩]
  | .abiSizedInt => [⟨.int ((L.layout t).size * 8), .source index 0, AttrSet.none.form .void⟩]
  | .split slots => L.splitForm f.cc index 0 slots
  | .slice =>
    [⟨.ptr (L.sliceSpace t), .source index 0, (L.slicePointerAttrs t (f.isNoalias index)).form .void⟩,
      ⟨.int L.target.ptrBits, .source index 1, AttrSet.noUndef.form .void⟩]
  | .widened slot => [⟨L.slotTree slot, .source index 0, AttrSet.none.form .void⟩]
  | .packedArray elem count => [⟨.array count (.float elem), .source index 0, AttrSet.none.form .void⟩]

/-- The machine parameters of source parameters, numbered from `index` on. -/
def paramsForm (c : Option Classifier) (f : FnTy) (index : Nat) : List TypeId → List ParamForm
  | [] => []
  | t :: ts => L.paramForm f index t (L.paramClass c t) ++ paramsForm c f (index + 1) ts

/-- The machine signature of a function type whose convention means the classifier `c`. -/
def signatureForm (c : Option Classifier) (f : FnTy) : SignatureForm :=
  let returned := L.returnForm f (L.returnClass c f.ret)
  { cc := f.cc
    params := returned.2.2 ++ L.errorTraceForm f ++ L.paramsForm c f 0 f.params
    ret := returned.1
    retAttrs := returned.2.1
    paramClasses := f.params.map (L.paramClass c)
    returnClass := L.returnClass c f.ret
    varargs := f.varargs }

/-- The form of type `t`. A function type of a convention without machine form has none that is ever asked for. -/
def form (t : TypeId) : Form :=
  match L.fnTy? t with
  | some f =>
    match classifierFor f.cc L.target with
    | .ok c => .plain (L.signatureForm c f).tree
    | .error _ => .plain .void
  | none => L.toSizing.form t

variable {L}

theorem form_of_value {t : TypeId} (h : L.fnTy? t = none) : L.form t = L.toSizing.form t := by
  rw [form, h]

theorem form_of_function {t : TypeId} {f : FnTy} {c : Option Classifier} (h : L.fnTy? t = some f)
    (hc : classifierFor f.cc L.target = .ok c) : L.form t = .plain (L.signatureForm c f).tree := by
  rw [form, h]
  simp only [hc]

end Lowering

end MachineAbi
