import MachineAbi.Proofs.Lowering.Determined
import MachineAbi.Proofs.Lowering.Requests
import MachineAbi.Proofs.Passing.Recursion
import MachineAbi.Proofs.Source.Identity
import MachineAbi.Proofs.Source.Regular

/-!
# Lowering ends

A value is lowered by lowering what it is made of, and a function type by lowering the values that it takes and returns.
What a pointer points at is never lowered; and functions, which take no room, are lowered for no other type. So lowering
ends where no type is made of itself (`Lowering.lower_ends`), whatever pointers and functions lead back to, and so do all
questions about types that it asks (`Lowering.recursions_end`).

`Lowering.lowerStep` is one level of lowering, by how other types are lowered. It depends on those types only that take
room (`Lowering.lowerStep_congr`), from how fields, payloads and tags are lowered (`Sizing.lowerNew_congr`) and how slots
and parameters are (`Lowering.signatureBy_congr`).
-/

namespace MachineAbi

open Session

namespace Sizing

variable {Z : Sizing} {t : TypeId} {lowerPart lowerPart' : Z.PartLowering t}

/-! ## What lowering a value depends on -/

section

variable (h : ∀ c hc, Z.takesRoom c = true → lowerPart c hc = lowerPart' c hc)

include h

theorem lowerFields_congr (fields : List FieldTy) (hf : ∀ c ∈ storedTypes fields, c ∈ Z.parts t) (b : AggregateBuilder) :
    Z.lowerFields lowerPart fields hf b = Z.lowerFields lowerPart' fields hf b := by
  induction fields generalizing b with
  | nil => rfl
  | cons f fields ih =>
    unfold lowerFields
    simp only [ih]
    split
    next hr => rw [h _ _ hr.2]
    next => rfl

theorem lowerTuple_congr (fields : List FieldTy) (hf : ∀ c ∈ storedTypes fields, c ∈ Z.parts t) :
    Z.lowerTuple lowerPart fields hf = Z.lowerTuple lowerPart' fields hf := by
  unfold lowerTuple
  rw [lowerFields_congr h]

theorem lowerStruct_congr (s : StructTy) (hf : ∀ c ∈ s.stored, c ∈ Z.parts t) :
    Z.lowerStruct lowerPart s hf = Z.lowerStruct lowerPart' s hf := by
  unfold lowerStruct
  have hfields := lowerFields_congr h s.fieldTys hf .empty
  rw [hfields]

theorem lowerFlagged_congr {child : TypeId} (hc : child ∈ Z.parts t) (hr : Z.takesRoom child = true) :
    Z.lowerFlagged lowerPart child hc = Z.lowerFlagged lowerPart' child hc := by
  unfold lowerFlagged
  rw [h child hc hr]

theorem lowerErrorUnion_congr (codeFirst : Bool) {set payload : TypeId} (hp : payload ∈ Z.parts t)
    (hr : Z.takesRoom payload = true) :
    Z.lowerErrorUnion lowerPart codeFirst set payload hp = Z.lowerErrorUnion lowerPart' codeFirst set payload hp := by
  unfold lowerErrorUnion
  rw [h payload hp hr]

theorem lowerPayload_congr (u : UnionTy) (hu : ∀ c ∈ u.memberTypes, c ∈ Z.parts t) :
    Z.lowerPayload lowerPart u hu = Z.lowerPayload lowerPart' u hu := by
  unfold lowerPayload
  split
  next => rfl
  next c i hw => rw [h c _ (getElem?_widestMember hw).2]

theorem lowerTag_congr (u : UnionTy) (hu : ∀ c, Z.storedTag? u = some c → c ∈ Z.parts t) :
    Z.lowerTag lowerPart u hu = Z.lowerTag lowerPart' u hu := by
  unfold lowerTag
  split
  next => rfl
  next tag ht => rw [h tag _ (Option.filter_eq_some_iff.1 ht).2]

theorem lowerUnion_congr (u : UnionTy) (hm : ∀ c ∈ u.memberTypes, c ∈ Z.parts t)
    (ht : ∀ c, Z.storedTag? u = some c → c ∈ Z.parts t) :
    Z.lowerUnion lowerPart u hm ht = Z.lowerUnion lowerPart' u hm ht := by
  unfold lowerUnion
  rw [lowerPayload_congr h, lowerTag_congr h]

/-- Lowering a value depends on nothing but how those of its parts are lowered that take room. -/
theorem lowerNew_congr : Z.lowerNew t lowerPart = Z.lowerNew t lowerPart' := by
  have hroom := Z.takesRoom_eq t
  unfold lowerNew
  dsimp only
  split
  case h_10 len child sentinel hd =>
    split
    · rfl
    · split
      next hr => rw [h child _ hr]
      next => rfl
  case h_11 len child hd =>
    rw [hd] at hroom
    split
    · rfl
    · split
      next hr =>
        rw [hr] at hroom
        rw [h child _ (Bool.and_eq_true_iff.1 hroom.symm).2]
      next => rfl
  case h_12 child hd =>
    have hchild := Z.room_of_optionalRepr child
    split
    next => rfl
    next hr => exact h child _ (by rw [hchild, hr]; rfl)
    next hr => exact lowerFlagged_congr h _ (by rw [hchild, hr]; rfl)
  case h_14 set payload hd =>
    have hhalves := congrArg Prod.snd (Z.room_of_errorUnionRepr set payload)
    split
    next => rfl
    next hr => exact h payload _ (by rw [hr] at hhalves; exact hhalves)
    next => rfl
    next hr => exact lowerErrorUnion_congr h _ _ (by rw [hr] at hhalves; exact hhalves)
    next hr => exact lowerErrorUnion_congr h _ _ (by rw [hr] at hhalves; exact hhalves)
  case h_15 name tag variants hd =>
    rw [hd] at hroom
    split
    next hr => exact h tag _ (hroom.symm.trans hr)
    next => rfl
  case h_16 s hd =>
    rw [lowerStruct_congr h]
  case h_17 fields hd =>
    rw [lowerTuple_congr h]
  case h_18 u hd =>
    simp only [lowerUnion_congr h]
  all_goals rfl

end

end Sizing

namespace Lowering

/-! ## One level of lowering -/

/-- Lowers a value by lowering its type. Only function types are refused, and their values take no room. -/
def valueBy (lower : TypeId → Request Handle) (t : TypeId) : StateM Session Handle := do
  match ← (lower t).run with
  | .ok h => return h
  | .error _ => onTable Table.void

section

/-! Calls are lowered by how values are lowered, which is `value` here. -/

variable (L : Lowering) (value : TypeId → StateM Session Handle)

def slotBy : Slot → StateM Session Handle
  | .source t => value t
  | slot => L.lowerSlot slot

def slotsBy : List Slot → StateM Session (List Handle)
  | [] => return []
  | slot :: slots => do
    let h ← L.slotBy value slot
    let hs ← slotsBy slots
    return h :: hs

def returnBy (f : FnTy) : ReturnClass → StateM Session (Handle × AttrSet × List MachineParam)
  | .byValue => return (← value f.ret, L.returnAttrs f.cc f.ret, [])
  | .sret => do
    let pointee ← value f.ret
    let ptr ← onTable (Table.ptr 0)
    let attrs := AttrSet.sret (L.layout f.ret) pointee
    let ret ← onTable (if L.reportsErrors f then errorCode else Table.void)
    return (ret, .none, [⟨ptr, .returnPointer, attrs⟩])
  | .split [slot] => return (← L.slotBy value slot, .none, [])
  | .split slots => do
    let fields ← L.slotsBy value slots
    return (← onTable (Table.struct fields false), .none, [])
  | .widened slot => return (← L.slotBy value slot, .none, [])
  | c => L.lowerReturn f c

def splitBy (cc : CallConv) (index part : Nat) : List Slot → StateM Session (List MachineParam)
  | [] => return []
  | slot :: slots => do
    let h ← L.slotBy value slot
    let rest ← splitBy cc index (part + 1) slots
    return ⟨h, .source index part, L.slotAttrs cc slot⟩ :: rest

def paramBy (f : FnTy) (index : Nat) (t : TypeId) : ParamClass → StateM Session (List MachineParam)
  | .byValue => do
    let h ← value t
    return [⟨h, .source index 0, L.byValueAttrs f.cc t (f.isNoalias index)⟩]
  | .byReference isMutable callerCopy => do
    let pointee ← value t
    let ptr ← onTable (Table.ptr 0)
    let layout := L.layout t
    return [⟨ptr, .source index 0, .byReference layout isMutable callerCopy pointee⟩]
  | .split slots => L.splitBy value f.cc index 0 slots
  | .widened slot => return [⟨← L.slotBy value slot, .source index 0, .none⟩]
  | c => L.lowerParam f index t c

def paramsBy (c : Option Classifier) (f : FnTy) (index : Nat) : List TypeId → StateM Session (List MachineParam)
  | [] => return []
  | t :: ts => do
    let params ← L.paramBy value f index t (L.paramClass c t)
    let rest ← paramsBy c f (index + 1) ts
    return params ++ rest

/-- The machine signature of a function type whose convention means the classifier `c`. -/
def signatureBy (c : Option Classifier) (f : FnTy) : StateM Session Signature := do
  let returnClass := L.returnClass c f.ret
  let (ret, retAttrs, hidden) ← L.returnBy value f returnClass
  let trace ← L.lowerErrorTrace f
  let params ← L.paramsBy value c f 0 f.params
  return {
    cc := f.cc
    params := hidden ++ trace ++ params
    ret := ret
    retAttrs := retAttrs
    paramClasses := f.params.map (L.paramClass c)
    returnClass := returnClass
    varargs := f.varargs }

end

/-- The machine type of type `t`, by how others are lowered. -/
def lowerStep (L : Lowering) (lower : TypeId → Request Handle) (t : TypeId) : Request Handle :=
  match L.get t with
  | .function f => do
    let c ← classifierFor f.cc L.target
    ExceptT.lift (memoized t do
      let s ← L.signatureBy (valueBy lower) c f
      onTable (functionType s))
  | _ => ExceptT.lift (memoized t (L.lowerNew t fun c _ => valueBy lower c))

/-! ## Lowering repeats one level -/

variable {L : Lowering} {t : TypeId}

theorem valueBy_lower (h : L.takesRoom t = true) : valueBy L.lower t = L.lowerValue t := by
  unfold valueBy
  rw [lower_of_value (Sizing.fnTy?_of_takesRoom h)]
  rfl

theorem slotBy_lowerValue (slot : Slot) : L.slotBy L.lowerValue slot = L.lowerSlot slot := by
  cases slot <;> rfl

theorem slotsBy_lowerValue (slots : List Slot) : L.slotsBy L.lowerValue slots = L.lowerSlots slots := by
  induction slots with
  | nil => rfl
  | cons slot slots ih => simp only [slotsBy, lowerSlots, slotBy_lowerValue, ih]

theorem returnBy_lowerValue (f : FnTy) (c : ReturnClass) : L.returnBy L.lowerValue f c = L.lowerReturn f c := by
  unfold returnBy
  split <;> simp only [lowerReturn, slotBy_lowerValue, slotsBy_lowerValue]

theorem splitBy_lowerValue (cc : CallConv) (index part : Nat) (slots : List Slot) :
    L.splitBy L.lowerValue cc index part slots = L.lowerSplit cc index part slots := by
  induction slots generalizing part with
  | nil => rfl
  | cons slot slots ih => simp only [splitBy, lowerSplit, slotBy_lowerValue, ih]

theorem paramBy_lowerValue (f : FnTy) (index : Nat) (t : TypeId) (c : ParamClass) :
    L.paramBy L.lowerValue f index t c = L.lowerParam f index t c := by
  unfold paramBy
  split <;> simp only [lowerParam, slotBy_lowerValue, splitBy_lowerValue]

theorem paramsBy_lowerValue (c : Option Classifier) (f : FnTy) (index : Nat) (ts : List TypeId) :
    L.paramsBy L.lowerValue c f index ts = L.lowerParams c f index ts := by
  induction ts generalizing index with
  | nil => rfl
  | cons t ts ih => simp only [paramsBy, lowerParams, paramBy_lowerValue, ih]

theorem signatureBy_lowerValue (c : Option Classifier) (f : FnTy) :
    L.signatureBy L.lowerValue c f = L.signatureWith c f := by
  unfold signatureBy signatureWith
  dsimp only
  rw [returnBy_lowerValue, paramsBy_lowerValue]

/-! ## What one level depends on -/

section

variable {value value' : TypeId → StateM Session Handle} (h : ∀ t, L.takesRoom t = true → value t = value' t)

include h

theorem slotBy_congr {slot : Slot} (hs : slot.Stored L.toSizing) : L.slotBy value slot = L.slotBy value' slot := by
  cases slot with
  | source t => exact h t hs
  | _ => rfl

theorem slotsBy_congr {slots : List Slot} (hs : ∀ slot ∈ slots, slot.Stored L.toSizing) :
    L.slotsBy value slots = L.slotsBy value' slots := by
  induction slots with
  | nil => rfl
  | cons slot slots ih =>
    unfold slotsBy
    rw [slotBy_congr h (hs slot List.mem_cons_self), ih fun s hm => hs s (List.mem_cons_of_mem _ hm)]

theorem returnBy_congr {f : FnTy} {c : ReturnClass} (hc : c.Stored L.toSizing)
    (hr : c ≠ .noBits → c ≠ .errorCode → L.takesRoom f.ret = true) : L.returnBy value f c = L.returnBy value' f c := by
  unfold returnBy
  split
  · rw [h _ (hr nofun nofun)]
  · rw [h _ (hr nofun nofun)]
  · rw [slotBy_congr h (hc _ List.mem_cons_self)]
  · rw [slotsBy_congr h hc]
  · rw [slotBy_congr h hc]
  · rfl

theorem splitBy_congr {cc : CallConv} {index part : Nat} {slots : List Slot}
    (hs : ∀ slot ∈ slots, slot.Stored L.toSizing) :
    L.splitBy value cc index part slots = L.splitBy value' cc index part slots := by
  induction slots generalizing part with
  | nil => rfl
  | cons slot slots ih =>
    unfold splitBy
    rw [slotBy_congr h (hs slot List.mem_cons_self), ih fun s hm => hs s (List.mem_cons_of_mem _ hm)]

theorem paramBy_congr {f : FnTy} {index : Nat} {t : TypeId} {c : ParamClass} (hc : c.Stored L.toSizing)
    (hr : c ≠ .noBits → L.takesRoom t = true) : L.paramBy value f index t c = L.paramBy value' f index t c := by
  unfold paramBy
  split
  · rw [h t (hr nofun)]
  · rw [h t (hr nofun)]
  · exact splitBy_congr h hc
  · rw [slotBy_congr h hc]
  · rfl

theorem paramsBy_congr {c : Option Classifier} {f : FnTy} {index : Nat} {ts : List TypeId} :
    L.paramsBy value c f index ts = L.paramsBy value' c f index ts := by
  induction ts generalizing index with
  | nil => rfl
  | cons t ts ih =>
    unfold paramsBy
    rw [paramBy_congr h (L.stored_paramClass c t) Sizing.takesRoom_of_paramClass, ih]

/-- A signature depends on nothing but how those values are lowered that take room. -/
theorem signatureBy_congr (c : Option Classifier) (f : FnTy) : L.signatureBy value c f = L.signatureBy value' c f := by
  unfold signatureBy
  dsimp only
  rw [returnBy_congr h (L.stored_returnClass c f.ret) Sizing.takesRoom_of_returnClass, paramsBy_congr h]

end

/-- Lowering a type is one level of lowering over the lowering of others. -/
theorem lower_eq_lowerStep (L : Lowering) (t : TypeId) : L.lower t = L.lowerStep L.lower t := by
  have hvalue : ∀ c, L.takesRoom c = true → L.lowerValue c = valueBy L.lower c := fun c hc => (valueBy_lower hc).symm
  unfold lowerStep
  split
  next f hd =>
    have hsig : ∀ c, L.signatureWith c f = L.signatureBy (valueBy L.lower) c f := fun c =>
      (signatureBy_lowerValue c f).symm.trans (signatureBy_congr hvalue c f)
    simp only [lower, hd, hsig]
  next hd =>
    have hnew : L.lowerNew t (fun c _ => L.lowerValue c) = L.lowerNew t fun c _ => valueBy L.lower c :=
      Sizing.lowerNew_congr fun c _ hc => hvalue c hc
    rw [lower_of_value (Pool.fnTy?_eq_none hd), Sizing.lowerValue, hnew]

/-! ## Levels -/

/-- Lowering type `t` lowers no other types than such `c`: those that take room, and that `t` is made of unless it is a
function type. -/
def Calls (L : Lowering) (c t : TypeId) : Prop :=
  L.takesRoom c = true ∧ ((L.fnTy? t).isSome = true ∨ c ∈ L.components t)

theorem lowerStep_congr {lower lower' : TypeId → Request Handle} (h : ∀ c, L.Calls c t → lower c = lower' c) :
    L.lowerStep lower t = L.lowerStep lower' t := by
  have hvalue : ∀ c, L.Calls c t → valueBy lower c = valueBy lower' c := by
    intro c hc
    unfold valueBy
    rw [h c hc]
  unfold lowerStep
  split
  next f hd =>
    have hf : L.fnTy? t = some f := by simp only [Pool.fnTy?, hd]
    have hsome : (L.fnTy? t).isSome = true := by rw [hf]; rfl
    have hsig : ∀ c, L.signatureBy (valueBy lower) c f = L.signatureBy (valueBy lower') c f := fun c =>
      signatureBy_congr (fun d hd => hvalue d ⟨hd, Or.inl hsome⟩) c f
    simp only [hsig]
  next hd =>
    have hnew : L.lowerNew t (fun c _ => valueBy lower c) = L.lowerNew t fun c _ => valueBy lower' c :=
      Sizing.lowerNew_congr fun c hc hr => hvalue c ⟨hr, Or.inr (SealedPool.mem_components_of_mem_parts hc)⟩
    rw [hnew]

/-- The level of a type for lowering: function types are above all that takes room. -/
noncomputable def level (L : Lowering) (t : TypeId) : Nat :=
  if (L.fnTy? t).isSome then L.size + 1 else L.toPool.level t

theorem Calls.level_lt (hp : L.WellNested) {c : TypeId} (h : L.Calls c t) : L.level c < L.level t := by
  obtain ⟨hr, hc⟩ := h
  have hcf : L.fnTy? c = none := Sizing.fnTy?_of_takesRoom hr
  have hcl : L.level c = L.toPool.level c := if_neg (by rw [hcf]; nofun)
  rw [hcl]
  unfold level
  split
  next => exact Nat.lt_succ_of_le (hp.level_le c)
  next hf => exact hp.level_lt (hc.resolve_left hf)

theorem level_le (hp : L.WellNested) (t : TypeId) : L.level t ≤ L.size + 1 := by
  unfold level
  split
  next => exact Nat.le_refl _
  next => exact Nat.le_succ_of_le (hp.level_le t)

/-- Lowering ends: function types lead to values, and values to what they are made of. -/
theorem lower_ends (hp : L.WellNested) : EndsWithin (L.size + 2) L.Calls L.lowerStep L.lower :=
  .of_level L.level (fun _ _ hc => hc.level_lt hp) (fun t => Nat.lt_succ_of_le (level_le hp t))
    (fun _ _ _ h => lowerStep_congr h) L.lower_eq_lowerStep

/-! ## All recursions -/

/-- Every question about a type is answered within two levels more than there are types. -/
structure RecursionsEnd (L : Lowering) : Prop where
  room : EndsWithin (L.size + 2) (fun c t => c ∈ L.components t)
    (fun known t => roomRule.infer known (L.get t)) L.takesRoom
  extent : EndsWithin (L.size + 2) (fun c t => c ∈ L.components t)
    (fun known t => (L.extentRule L.target).infer known (L.get t)) L.extent
  byReference : EndsWithin (L.size + 2) (fun c t => c ∈ L.components t) L.byReferenceStep L.isByReference
  extension : EndsWithin (L.size + 2) (fun c t => c ∈ L.components t) L.extensionStep L.cExtension?
  floats : ∀ limit, EndsWithin (L.size + 2) (fun q' q => q'.2 ∈ L.components q.2) (L.floatStep limit)
    fun q => L.countFloats limit q.1 q.2
  eightbytes : EndsWithin (L.size + 2) (fun c t => ∃ m ∈ L.members t, m.ty = c) (SysV.eightbyteStep L.toSizing)
    fun t offset e => e.classify L.toSizing t offset
  direct : EndsWithin (L.size + 2) (fun c t => c ∈ L.components t) (Wasm.directStep L.toSizing)
    (Wasm.direct? L.toSizing)
  lower : EndsWithin (L.size + 2) L.Calls L.lowerStep L.lower

theorem recursionsEnd (hp : L.WellNested) : L.RecursionsEnd := by
  have hn : L.size < L.size + 2 := by omega
  exact {
    room := L.takesRoom_ends hp hn
    extent := Sizing.extent_ends hp hn
    byReference := SealedPool.isByReference_ends hp hn
    extension := Sizing.cExtension?_ends hp hn
    floats := Sizing.countFloats_ends hp hn
    eightbytes := SysV.classify_ends hp hn
    direct := Wasm.direct?_ends hp hn
    lower := lower_ends hp }

/-- If no type is made of itself, the pool is sealed and all recursions on types end, for every target and whatever
pointers and functions lead back to. -/
theorem recursions_end (calls : List Pool.Call) (h : (Pool.after calls).WellNested) :
    ∃ P, (Pool.after calls).seal? = some P ∧ P.toPool = Pool.after calls ∧
      ∀ (T : Target) (options : Options), (⟨Sizing.of P T, options⟩ : Lowering).RecursionsEnd := by
  obtain ⟨P, hseal, hpool⟩ := h.exists_seal? (Pool.primitivesInPlace_after calls)
  refine ⟨P, hseal, hpool, fun T options => ?_⟩
  have hP : P.toPool.WellNested := hpool ▸ h
  exact recursionsEnd hP

/-- A struct that holds a pointer to itself, and pointers to a function that takes and returns it by value. -/
def linkedCalls : List Pool.Call :=
  let node : TypeId := ⟨21⟩
  let pointerTo (child : TypeId) : Pool.Call := .pointer ⟨child, .one, 0, .none⟩
  [.declareStruct "Node" .auto, pointerTo node, .function ⟨[node, ⟨22⟩], node, .c, false, 0⟩, pointerTo ⟨23⟩,
    .defineStruct node [⟨⟨⟨22⟩, false⟩, "next"⟩, ⟨⟨⟨24⟩, false⟩, "visit"⟩]]

theorem wellNested_linkedCalls : (Pool.after linkedCalls).WellNested :=
  Pool.wellNested_of_lt (fun t => if t = ⟨21⟩ then 1 else 0) (by decide +kernel)

/-- Lowering ends for a type that pointers and functions lead back to. -/
theorem recursions_end_linkedCalls :
    ∃ P, (Pool.after linkedCalls).seal? = some P ∧ P.toPool = Pool.after linkedCalls ∧
      ∀ (T : Target) (options : Options), (⟨Sizing.of P T, options⟩ : Lowering).RecursionsEnd :=
  recursions_end linkedCalls wellNested_linkedCalls

end Lowering

end MachineAbi
