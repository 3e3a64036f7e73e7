import MachineAbi.Proofs.Lowering.Copies
import MachineAbi.Proofs.Lowering.Splits
import MachineAbi.Proofs.Passing.Replacement

/-!
# Signatures with types replaced

If values of one type are stored like values of another, and both have the same machine type, the one can take the
place of the other in a signature (`Lowering.Exchange`): as a parameter, as the return type, and inside either. The
machine signature stays the same up to copies of the types around it (`Lowering.copyOf_signatureForm`), and so does
what sessions answer (`Lowering.exists_sameSignatureUpTo`). Attributes stay the same where integers take the place of
integers (`Sizing.ExtendAlike`).
-/

namespace MachineAbi

open SealedPool

/-! ## Copies -/

/-- The same machine type, if types that `S` relates share the name of their structs. -/
def MachineTree.CopyOf (S : TypeId → TypeId → Prop) (tree tree' : MachineTree) : Prop :=
  ∀ ρ : TypeId → TypeId, (∀ t t', S t t' → ρ t = ρ t') → tree.rename ρ = tree'.rename ρ

variable {S : TypeId → TypeId → Prop}

theorem MachineTree.CopyOf.refl (tree : MachineTree) : CopyOf S tree tree := fun _ _ => rfl

theorem MachineTree.copyOf_struct {trees trees' : List MachineTree} (h : List.Forall₂ (CopyOf S) trees trees')
    (packed : Bool) : CopyOf S (.struct packed trees) (.struct packed trees') := by
  intro ρ hρ
  rw [rename, rename, renameAll_eq_map, renameAll_eq_map]
  congr 1
  rw [← List.forall₂_eq_eq_eq, List.forall₂_map_left_iff, List.forall₂_map_right_iff]
  exact h.imp fun tree tree' hcopy => hcopy ρ hρ

/-- Attributes that are the same up to copies. -/
structure AttrForm.CopyOf (S : TypeId → TypeId → Prop) (a a' : AttrForm) : Prop where
  flags : a.flags = a'.flags
  align : a.align = a'.align
  pointee : Option.Rel (MachineTree.CopyOf S) a.pointee a'.pointee

theorem AttrSet.copyOf_form (a : AttrSet) {tree tree' : MachineTree} (h : tree.CopyOf S tree') :
    AttrForm.CopyOf S (a.form tree) (a.form tree') := by
  refine ⟨rfl, rfl, ?_⟩
  rw [form, form]
  cases a.pointee with
  | none => exact .none
  | some => exact .some h

/-- Machine parameters that are the same up to copies. Attributes are compared if asked for. -/
structure ParamForm.CopyOf (S : TypeId → TypeId → Prop) (attributed : Prop) (p p' : ParamForm) : Prop where
  ty : p.ty.CopyOf S p'.ty
  origin : p.origin = p'.origin
  attrs : attributed → p.attrs.CopyOf S p'.attrs

theorem ParamForm.CopyOf.refl {attributed : Prop} (p : ParamForm) : CopyOf S attributed p p := by
  refine ⟨.refl _, rfl, fun _ => ⟨rfl, rfl, ?_⟩⟩
  cases p.attrs.pointee with
  | none => exact .none
  | some tree => exact .some (.refl tree)

/-! ## Attributes -/

/-- Integers, and enums as their tags. -/
def Ty.isInteger : Ty → Bool
  | int _ _ | enum _ _ _ => true
  | _ => false

theorem Ty.eq_of_isInteger {ty : Ty} (h : ty.isInteger = true) :
    (∃ bits sign, ty = .int bits sign) ∨ ∃ name tag variants, ty = .enum name tag variants := by
  cases ty with
  | int bits sign => exact Or.inl ⟨bits, sign, rfl⟩
  | enum name tag variants => exact Or.inr ⟨name, tag, variants, rfl⟩
  | _ => cases h

namespace Sizing

variable {Z : Sizing} {R : TypeId → TypeId → Prop} {ρ : TypeId → TypeId} {t t' : TypeId}

/-- Integers take the place of integers that are extended like them. -/
structure ExtendAlike (Z : Sizing) (R : TypeId → TypeId → Prop) : Prop where
  integers : ∀ t t', R t t' → (Z.get t).isInteger = true ∧ (Z.get t').isInteger = true
  extensions : ∀ t t', R t t' → Z.cExtension? t = Z.cExtension? t'

theorem not_pointer_of_isInteger (h : (Z.get t).isInteger = true) (p : PointerTy) : Z.get t ≠ .pointer p := by
  rcases Ty.eq_of_isInteger h with ⟨bits, sign, hd⟩ | ⟨name, tag, variants, hd⟩
  all_goals simp [hd]

/-- Nothing that contains other types is extended. -/
theorem InStep.cExtension?_eq_none {S : TypeId → TypeId → Prop} (h : Z.InStep S t t') :
    Z.cExtension? t = none ∧ Z.cExtension? t' = none := by
  rw [Z.cExtension?_eq, Z.cExtension?_eq t']
  cases h with
  | pointer hd hd' | array hd hd' | optional hd hd' | errorUnion hd hd' | struct hd hd' | tuple hd hd' | union hd hd' =>
    simp only [hd, hd', and_self]

theorem pointerAttrs_eq {child child' : TypeId} {size : PointerSize} {space : Nat} {flags : PointerFlags}
    (hroom : Z.takesRoom child = Z.takesRoom child') (halign : (Z.layout child).align = (Z.layout child').align)
    (noalias : Bool) :
    Z.pointerAttrs ⟨child, size, space, flags⟩ noalias = Z.pointerAttrs ⟨child', size, space, flags⟩ noalias := by
  unfold pointerAttrs
  rw [hroom, halign]
  rfl

/-- The attributes of a pointer, and of what is no pointer. -/
def attrsOr (Z : Sizing) (onPointer : PointerTy → AttrSet) (other : AttrSet) (t : TypeId) : AttrSet :=
  match Z.get t with
  | .pointer p => onPointer p
  | _ => other

namespace Replaced

variable (hX : Z.ExtendAlike R) (h : Z.Replaced R t t')

include hX h

theorem extension?_eq (cc : CallConv) : Z.extension? cc t = Z.extension? cc t' := by
  unfold extension?
  split
  · rfl
  · rcases h.cases with rfl | h | h
    · rfl
    · exact hX.extensions t t' h
    · rw [h.cExtension?_eq_none.1, h.cExtension?_eq_none.2]

/-- Pointers with the same attributes, or no pointers at all. -/
theorem attrsOr_eq (onPointer : PointerTy → AttrSet) {other other' : AttrSet}
    (hpointer : ∀ child child' size space flags, Z.takesRoom child = Z.takesRoom child' →
      (Z.layout child).align = (Z.layout child').align →
      onPointer ⟨child, size, space, flags⟩ = onPointer ⟨child', size, space, flags⟩) (hother : other = other') :
    Z.attrsOr onPointer other t = Z.attrsOr onPointer other' t' := by
  have hnone : ∀ c a, (∀ p, Z.get c ≠ .pointer p) → Z.attrsOr onPointer a c = a := by
    intro c a hc
    unfold attrsOr
    split
    · rename_i p hp
      exact absurd hp (hc p)
    · rfl
  rcases h.cases with rfl | h | h
  · rw [hother]
  · obtain ⟨ht, ht'⟩ := hX.integers t t' h
    rw [hnone t _ (not_pointer_of_isInteger ht), hnone t' _ (not_pointer_of_isInteger ht'), hother]
  · cases h with
    | pointer hd hd' hroom halign =>
      simp only [attrsOr, hd, hd']
      exact hpointer _ _ _ _ _ hroom halign
    | array hd hd' | optional hd hd' | errorUnion hd hd' | struct hd hd' | tuple hd hd' | union hd hd' =>
      simp only [attrsOr, hd, hd', hother]

theorem byValueAttrs_eq (hR : Z.Exchangeable R) (cc : CallConv) (noalias : Bool) :
    Z.byValueAttrs cc t noalias = Z.byValueAttrs cc t' noalias := by
  have hextension := h.extension?_eq hX cc
  rcases h.cases with rfl | hbase | hstep
  · rfl
  · have hinteger : ∀ c, (Z.get c).isInteger = true →
        Z.byValueAttrs cc c noalias = .ofExtension (Z.extension? cc c) := by
      intro c hc
      rcases Ty.eq_of_isInteger hc with ⟨bits, sign, hd⟩ | ⟨name, tag, variants, hd⟩
      all_goals simp only [byValueAttrs, hd]
    obtain ⟨ht, ht'⟩ := hX.integers t t' hbase
    rw [hinteger t ht, hinteger t' ht', hextension]
  · unfold byValueAttrs
    cases hstep with
    | @pointer child child' size space flags hd hd' hroom halign =>
      simp only [hd, hd', pointerAttrs_eq hroom halign]
      rfl
    | @optional child child' hd hd' hnull hc =>
      have hpayload := hc.attrsOr_eq hX (fun p => (Z.pointerAttrs p noalias).withoutNonNull)
        (fun _ _ _ _ _ hroom halign => by simp only [pointerAttrs_eq hroom halign])
        (congrArg AttrSet.ofExtension (hc.extension?_eq hX cc))
      simp only [hd, hd', InStep.optionalRepr_eq (hc.takesRoom_eq hR) hnull]
      split
      · exact hpayload
      · rfl
    | array hd hd' | errorUnion hd hd' | struct hd hd' | tuple hd hd' | union hd hd' => simp only [hd, hd', hextension]

theorem slicePointerAttrs_eq (noalias : Bool) : Z.slicePointerAttrs t noalias = Z.slicePointerAttrs t' noalias := by
  rcases h.cases with rfl | hbase | hstep
  · rfl
  · have hinteger : ∀ c, (Z.get c).isInteger = true → Z.slicePointerAttrs c noalias = .none := by
      intro c hc
      rcases Ty.eq_of_isInteger hc with ⟨bits, sign, hd⟩ | ⟨name, tag, variants, hd⟩
      all_goals simp only [slicePointerAttrs, hd]
    obtain ⟨ht, ht'⟩ := hX.integers t t' hbase
    rw [hinteger t ht, hinteger t' ht']
  · unfold slicePointerAttrs
    cases hstep with
    | pointer hd hd' hroom halign => simp only [hd, hd', pointerAttrs_eq hroom halign]
    | @optional child child' hd hd' hnull hc =>
      have hpayload := hc.attrsOr_eq hX (fun p => (Z.pointerAttrs p noalias).withoutNonNull)
        (fun _ _ _ _ _ hroom halign => by simp only [pointerAttrs_eq hroom halign]) (Eq.refl AttrSet.none)
      simp only [hd, hd']
      exact hpayload
    | array hd hd' | errorUnion hd hd' | struct hd hd' | tuple hd hd' | union hd hd' => simp only [hd, hd']

theorem returnAttrs_eq (cc : CallConv) : Z.returnAttrs cc t = Z.returnAttrs cc t' := by
  have hextension := h.extension?_eq hX cc
  rcases h.cases with rfl | hbase | hstep
  · rfl
  · have hinteger : ∀ c, (Z.get c).isInteger = true → Z.returnAttrs cc c = .ofExtension (Z.extension? cc c) := by
      intro c hc
      rcases Ty.eq_of_isInteger hc with ⟨bits, sign, hd⟩ | ⟨name, tag, variants, hd⟩
      all_goals simp only [returnAttrs, hd]
    obtain ⟨ht, ht'⟩ := hX.integers t t' hbase
    rw [hinteger t ht, hinteger t' ht', hextension]
  · unfold returnAttrs
    cases hstep with
    | pointer hd hd' =>
      simp only [hd, hd']
      rfl
    | optional hd hd' => simp only [hd, hd']
    | array hd hd' | errorUnion hd hd' | struct hd hd' | tuple hd hd' | union hd hd' => simp only [hd, hd', hextension]

end Replaced

/-- Types with parts replaced have the same machine type up to copies. -/
theorem Replaced.tree_eq (hR : Z.Exchangeable R) (htree : ∀ t t', R t t' → (Z.form t).tree = (Z.form t').tree)
    (hρ : ∀ t t', Z.Replaced R t t' → ρ t = ρ t') (h : Z.Replaced R t t') :
    (Z.form t).tree.rename ρ = (Z.form t').tree.rename ρ := by
  induction h with
  | refl t => rfl
  | @base t t' h => rw [htree t t' h]
  | inStep hS h ih =>
    exact h.tree_eq (fun c c' hc => (hS c c' hc).takesRoom_eq hR) (fun c c' hc => (hS c c' hc).extent_eq hR) ih
      (hρ _ _ (.inStep hS h))

end Sizing

/-! ## Signatures -/

/-- The same way of passing both types, by themselves and inside others. -/
structure Sizing.PassesAlike (Z : Sizing) (R : TypeId → TypeId → Prop) (c : Option Classifier) (t t' : TypeId) :
    Prop where
  replaced : Z.Replaced R t t'
  whole : R t t' → Z.paramClass c t = Z.paramClass c t' ∧ Z.returnClass c t = Z.returnClass c t'
  parts : Z.PartsAgree c t t'

/-- Function types whose parameter and return types are related one for one. -/
structure FnTy.InStep (S : TypeId → TypeId → Prop) (f f' : FnTy) : Prop where
  cc : f.cc = f'.cc
  varargs : f.varargs = f'.varargs
  noalias : f.noalias = f'.noalias
  params : List.Forall₂ S f.params f'.params
  ret : S f.ret f'.ret

theorem FnTy.InStep.mono {S' : TypeId → TypeId → Prop} {f f' : FnTy} (h : f.InStep S f')
    (hS : ∀ t t', S t t' → S' t t') : f.InStep S' f' :=
  ⟨h.cc, h.varargs, h.noalias, h.params.imp hS, hS _ _ h.ret⟩

/-- Whether a machine parameter is there for the source parameters or the result. -/
def ParamOrigin.isTraceless : ParamOrigin → Bool
  | .errorTrace => false
  | .returnPointer | .source _ _ => true

/-- Machine signatures that are the same up to copies. Attributes and pointers to error traces are compared if asked
for. -/
structure SignatureForm.CopyOf (S : TypeId → TypeId → Prop) (attributed traced : Prop) (f f' : SignatureForm) :
    Prop where
  ret : f.ret.CopyOf S f'.ret
  retAttrs : attributed → f.retAttrs.CopyOf S f'.retAttrs
  traceless : List.Forall₂ (ParamForm.CopyOf S attributed) (f.params.filter (·.origin.isTraceless))
    (f'.params.filter (·.origin.isTraceless))
  params : traced → List.Forall₂ (ParamForm.CopyOf S attributed) f.params f'.params

namespace Lowering

variable {L : Lowering} {R : TypeId → TypeId → Prop} {attributed : Prop} {c : Option Classifier} {f f' : FnTy}
  {t t' : TypeId}

/-- Types that can take the place of each other in signatures: their values are stored alike and have the same machine
type, and their attributes are the same if asked for. -/
structure Exchange (L : Lowering) (R : TypeId → TypeId → Prop) (attributed : Prop) : Prop where
  stored : L.Exchangeable R
  trees : ∀ t t', R t t' → L.valueTree t = L.valueTree t'
  spaces : ∀ t t', R t t' → L.sliceSpace t = L.sliceSpace t'
  attrs : attributed → L.ExtendAlike R

/-- Machine parameters depend on the convention and the marks of the function type, and on their own types. -/
theorem paramsForm_congr (hcc : f.cc = f'.cc) (hnoalias : f.noalias = f'.noalias) (index : Nat) (ts : List TypeId) :
    L.paramsForm c f index ts = L.paramsForm c f' index ts := by
  induction ts generalizing index with
  | nil => rfl
  | cons t ts ih =>
    rw [paramsForm, paramsForm, ih]
    congr 1
    cases L.paramClass c t with
    | byValue | split | slice => simp only [paramForm, FnTy.isNoalias, hcc, hnoalias]
    | noBits | byReference | abiSizedInt | widened | packedArray => rfl

section

variable (hX : L.Exchange R attributed)

include hX

theorem copyOf_valueTree (h : L.Replaced R t t') : (L.valueTree t).CopyOf (L.Replaced R) (L.valueTree t') :=
  fun _ hρ => h.tree_eq hX.stored hX.trees hρ

/-- The addresses of slices are in the same space. -/
theorem sliceSpace_eq (h : L.Replaced R t t') (hsliced : L.isSliced t = true) : L.sliceSpace t = L.sliceSpace t' := by
  rcases h.cases with rfl | hbase | hstep
  · rfl
  · exact hX.spaces t t' hbase
  · unfold sliceSpace
    cases hstep with
    | pointer hd hd' => simp only [hd, hd']
    | @optional child child' hd hd' hnull hc =>
      have hslice : L.isSlice child = true := by simpa [isSliced, Pool.isSlice, Pool.isOptionalSlice, hd] using hsliced
      simp only [hd, hd']
      rcases hc.cases with rfl | hbase | hstep
      · rfl
      · rw [(hX.stored.slices child child' hbase hnull).1] at hslice
        cases hslice
      · unfold Pool.isSlice at hslice
        cases hstep with
        | pointer he he' => simp only [he, he']
        | array he | optional he | errorUnion he | struct he | tuple he | union he => simp [he] at hslice
    | array hd hd' | errorUnion hd hd' | struct hd hd' | tuple hd hd' | union hd hd' => simp only [hd, hd']

theorem copyOf_slotTree {slot slot' : Slot} (h : slot.Corresponds (L.Replaced R) slot') :
    (L.slotTree slot).CopyOf (L.Replaced R) (L.slotTree slot') := by
  cases h with
  | refl => exact .refl _
  | source h => exact copyOf_valueTree hX h

theorem slotAttrs_eq (hattrs : attributed) (cc : CallConv) {slot slot' : Slot}
    (h : slot.Corresponds (L.Replaced R) slot') : L.slotAttrs cc slot = L.slotAttrs cc slot' := by
  cases h with
  | refl => rfl
  | source h => exact h.byValueAttrs_eq (hX.attrs hattrs) hX.stored cc false

theorem copyOf_splitForm (cc : CallConv) (index part : Nat) {slots slots' : List Slot}
    (h : List.Forall₂ (Slot.Corresponds (L.Replaced R)) slots slots') :
    List.Forall₂ (ParamForm.CopyOf (L.Replaced R) attributed) (L.splitForm cc index part slots)
      (L.splitForm cc index part slots') := by
  induction h generalizing part with
  | nil => exact .nil
  | cons hslot _ ih =>
    refine .cons ⟨copyOf_slotTree hX hslot, rfl, fun hattrs => ?_⟩ (ih (part + 1))
    dsimp only
    rw [slotAttrs_eq hX hattrs cc hslot]
    exact AttrSet.copyOf_form _ (.refl _)

/-- Types that are passed by corresponding machine values have the same machine parameters. -/
theorem copyOf_paramForm (f : FnTy) (index : Nat) (h : L.Replaced R t t') {p p' : ParamClass}
    (hp : p.Corresponds (L.Replaced R) p') (hslice : p = .slice → L.isSliced t = true) :
    List.Forall₂ (ParamForm.CopyOf (L.Replaced R) attributed) (L.paramForm f index t p)
      (L.paramForm f index t' p') := by
  have hlayout : L.layout t = L.layout t' := h.layout_eq hX.stored
  have hbare : ∀ a : AttrSet, (a.form .void).CopyOf (L.Replaced R) (a.form .void) := fun a => a.copyOf_form (.refl _)
  cases hp with
  | split hslots => exact copyOf_splitForm hX f.cc index 0 hslots
  | widened hslot => exact .cons ⟨copyOf_slotTree hX hslot, rfl, fun _ => hbare _⟩ .nil
  | refl =>
    cases p with
    | noBits => exact .nil
    | byValue =>
      refine .cons ⟨copyOf_valueTree hX h, rfl, fun hattrs => ?_⟩ .nil
      dsimp only
      rw [h.byValueAttrs_eq (hX.attrs hattrs) hX.stored]
      exact hbare _
    | byReference isMutable callerCopy =>
      refine .cons ⟨.refl _, rfl, fun _ => ?_⟩ .nil
      rw [hlayout]
      exact AttrSet.copyOf_form _ (copyOf_valueTree hX h)
    | abiSizedInt =>
      rw [paramForm, paramForm, hlayout]
      exact .cons (.refl _) .nil
    | split slots => exact copyOf_splitForm hX f.cc index 0 (List.forall₂_same.2 fun slot _ => .refl slot)
    | slice =>
      rw [paramForm, paramForm, sliceSpace_eq hX h (hslice rfl)]
      refine .cons ⟨.refl _, rfl, fun hattrs => ?_⟩ (.cons (.refl _) .nil)
      dsimp only
      rw [h.slicePointerAttrs_eq (hX.attrs hattrs)]
      exact hbare _
    | widened slot => exact .cons (.refl _) .nil
    | packedArray elem count => exact .cons (.refl _) .nil

theorem copyOf_paramsForm (f : FnTy) (index : Nat) {ts ts' : List TypeId}
    (h : List.Forall₂ (L.PassesAlike R c) ts ts') :
    List.Forall₂ (ParamForm.CopyOf (L.Replaced R) attributed) (L.paramsForm c f index ts)
      (L.paramsForm c f index ts') := by
  induction h generalizing index with
  | nil => exact .nil
  | @cons t t' ts ts' ht _ ih =>
    have hclass := (Sizing.classes_of_replaced c hX.stored ht.replaced ht.whole ht.parts).1
    have hparam := copyOf_paramForm hX f index ht.replaced hclass fun hslice =>
      Bool.or_eq_true_iff.2 (Sizing.isSlice_of_paramClass hslice)
    exact List.rel_append hparam (ih (index + 1))

/-- Types that are returned by corresponding machine values have the same machine return type and hidden pointer. -/
theorem copyOf_returnForm (h : L.Replaced R f.ret f'.ret) (hcc : f.cc = f'.cc) {r r' : ReturnClass}
    (hr : r.Corresponds (L.Replaced R) r') (herror : r = .sret → L.reportsErrors f = L.reportsErrors f') :
    (L.returnForm f r).1.CopyOf (L.Replaced R) (L.returnForm f' r').1 ∧
      (attributed → (L.returnForm f r).2.1.CopyOf (L.Replaced R) (L.returnForm f' r').2.1) ∧
      List.Forall₂ (ParamForm.CopyOf (L.Replaced R) attributed) (L.returnForm f r).2.2 (L.returnForm f' r').2.2 := by
  have hlayout : L.layout f.ret = L.layout f'.ret := h.layout_eq hX.stored
  have hbare : ∀ a : AttrSet, (a.form .void).CopyOf (L.Replaced R) (a.form .void) := fun a => a.copyOf_form (.refl _)
  have hsplit : ∀ {slots slots' : List Slot}, List.Forall₂ (Slot.Corresponds (L.Replaced R)) slots slots' →
      (L.returnForm f (.split slots)).1.CopyOf (L.Replaced R) (L.returnForm f' (.split slots')).1 ∧
        (attributed → (L.returnForm f (.split slots)).2.1.CopyOf (L.Replaced R)
          (L.returnForm f' (.split slots')).2.1) ∧
        List.Forall₂ (ParamForm.CopyOf (L.Replaced R) attributed) (L.returnForm f (.split slots)).2.2
          (L.returnForm f' (.split slots')).2.2 := by
    intro slots slots' hslots
    have htrees : List.Forall₂ (MachineTree.CopyOf (L.Replaced R)) (slots.map L.slotTree) (slots'.map L.slotTree) := by
      rw [List.forall₂_map_left_iff, List.forall₂_map_right_iff]
      exact hslots.imp fun slot slot' => copyOf_slotTree hX
    cases hslots with
    | nil => exact ⟨.refl _, fun _ => hbare _, .nil⟩
    | cons hslot hrest =>
      cases hrest with
      | nil => exact ⟨copyOf_slotTree hX hslot, fun _ => hbare _, .nil⟩
      | cons => exact ⟨MachineTree.copyOf_struct htrees false, fun _ => hbare _, .nil⟩
  cases hr with
  | split hslots => exact hsplit hslots
  | widened hslot => exact ⟨copyOf_slotTree hX hslot, fun _ => hbare _, .nil⟩
  | refl =>
    cases r with
    | noBits | errorCode | widened | packedArray => exact ⟨.refl _, fun _ => hbare _, .nil⟩
    | byValue =>
      refine ⟨copyOf_valueTree hX h, fun hattrs => ?_, .nil⟩
      rw [returnForm, returnForm, h.returnAttrs_eq (hX.attrs hattrs), hcc]
      exact hbare _
    | sret =>
      rw [returnForm, returnForm, herror rfl, hlayout]
      refine ⟨.refl _, fun _ => hbare _, .cons ⟨.refl _, rfl, fun _ => ?_⟩ .nil⟩
      exact AttrSet.copyOf_form _ (copyOf_valueTree hX h)
    | abiSizedInt =>
      rw [returnForm, returnForm, hlayout]
      exact ⟨.refl _, fun _ => hbare _, .nil⟩
    | split slots => exact hsplit (List.forall₂_same.2 fun slot _ => .refl slot)

/-- Functions that return behind a pointer report errors if the new return type is an error as well. -/
theorem reportsErrors_eq_of_sret (hc : classifierFor f.cc L.target = .ok c) (h : L.Replaced R f.ret f'.ret)
    (hcc : f.cc = f'.cc) (hsret : L.returnClass c f.ret = .sret) : L.reportsErrors f = L.reportsErrors f' := by
  rw [reportsErrors, reportsErrors, ← hcc]
  by_cases hauto : f.cc = .auto
  · rw [hauto] at hc
    cases hc
    have hno : L.takesRoom f.ret = false ∨ L.isByReference f.ret = true := by
      unfold Sizing.returnClass at hsret
      cases hroom : L.takesRoom f.ret with
      | false => exact Or.inl rfl
      | true =>
        refine Or.inr ?_
        rw [hroom] at hsret
        repeat' split at hsret
        all_goals simp_all
    rw [h.isErrorType_eq hX.stored hno]
  · rw [beq_false_of_ne hauto, Bool.false_and, Bool.false_and]

/-- Types that can take the place of each other, and are passed alike, do so in signatures. -/
theorem copyOf_signatureForm {traced : Prop} (h : f.InStep (L.PassesAlike R c) f')
    (hc : classifierFor f.cc L.target = .ok c)
    (htraced : traced → L.options.errorTracing = true → f.cc = .auto → L.isErrorType f.ret = L.isErrorType f'.ret) :
    SignatureForm.CopyOf (L.Replaced R) attributed traced (L.signatureForm c f) (L.signatureForm c f') := by
  have hret := h.ret
  obtain ⟨-, hclass⟩ := Sizing.classes_of_replaced c hX.stored hret.replaced hret.whole hret.parts
  obtain ⟨htree, hattrs, hhidden⟩ :=
    copyOf_returnForm hX hret.replaced h.cc hclass (reportsErrors_eq_of_sret hX hc hret.replaced h.cc)
  have hsources : List.Forall₂ (ParamForm.CopyOf (L.Replaced R) attributed) (L.paramsForm c f 0 f.params)
      (L.paramsForm c f' 0 f'.params) := by
    rw [← paramsForm_congr h.cc h.noalias]
    exact copyOf_paramsForm hX f 0 h.params
  have htraceless : ∀ f : FnTy, (L.errorTraceForm f).filter (·.origin.isTraceless) = [] := by
    intro f
    unfold errorTraceForm
    split <;> rfl
  refine ⟨htree, hattrs, ?_, fun ht => ?_⟩
  · have hkept : ∀ p p' : ParamForm, p.CopyOf (L.Replaced R) attributed p' →
        p.origin.isTraceless = p'.origin.isTraceless := fun p p' hp => congrArg ParamOrigin.isTraceless hp.origin
    rw [signatureForm, signatureForm, List.filter_append, List.filter_append, List.filter_append, List.filter_append,
      htraceless, htraceless]
    exact List.rel_append (List.rel_append (forall₂_filter hhidden hkept) .nil) (forall₂_filter hsources hkept)
  · have htrace : L.errorTraceForm f = L.errorTraceForm f' := by
      rw [errorTraceForm, errorTraceForm, reportsErrors, reportsErrors, ← h.cc]
      by_cases htracing : L.options.errorTracing = true
      · by_cases hauto : f.cc = .auto
        · rw [htraced ht htracing hauto]
        · rw [beq_false_of_ne hauto, Bool.false_and, Bool.false_and]
      · rw [if_neg fun h => htracing h.1, if_neg fun h => htracing h.1]
    refine List.rel_append (List.rel_append hhidden ?_) hsources
    rw [htrace]
    exact List.forall₂_same.2 fun p _ => .refl p

end

end Lowering

/-! ## Answers -/

namespace Session

variable {P : SealedPool} {attributed traced : Prop} {s s' : Session}

/-- Handles of two sessions for the same machine type, if types that `S` relates share the name of their structs. -/
def SameTypeUpTo (P : SealedPool) (S : TypeId → TypeId → Prop) (s s' : Session) (h h' : Handle) : Prop :=
  ∃ tree tree', s.Shows P tree h ∧ s'.Shows P tree' h' ∧ tree.CopyOf S tree'

/-- Attributes that are the same up to copies. -/
structure SameAttrsUpTo (P : SealedPool) (S : TypeId → TypeId → Prop) (s s' : Session) (a a' : AttrSet) : Prop where
  flags : a.flags = a'.flags
  align : a.align = a'.align
  pointee : Option.Rel (SameTypeUpTo P S s s') a.pointee a'.pointee

/-- Machine parameters that are the same up to copies. Attributes are compared if asked for. -/
structure SameParamUpTo (P : SealedPool) (S : TypeId → TypeId → Prop) (attributed : Prop) (s s' : Session)
    (p p' : MachineParam) : Prop where
  ty : SameTypeUpTo P S s s' p.ty p'.ty
  origin : p.origin = p'.origin
  attrs : attributed → SameAttrsUpTo P S s s' p.attrs p'.attrs

/-- Machine signatures that are the same up to copies. Attributes and pointers to error traces are compared if asked
for. -/
structure SameSignatureUpTo (P : SealedPool) (S : TypeId → TypeId → Prop) (attributed traced : Prop) (s s' : Session)
    (sig sig' : Signature) : Prop where
  ret : SameTypeUpTo P S s s' sig.ret sig'.ret
  retAttrs : attributed → SameAttrsUpTo P S s s' sig.retAttrs sig'.retAttrs
  traceless : List.Forall₂ (SameParamUpTo P S attributed s s') (sig.params.filter (·.origin.isTraceless))
    (sig'.params.filter (·.origin.isTraceless))
  params : traced → List.Forall₂ (SameParamUpTo P S attributed s s') sig.params sig'.params

theorem sameAttrsUpTo_of_shows {f f' : AttrForm} {a a' : AttrSet} (h : f.CopyOf S f') (ha : s.ShowsAttrs P f a)
    (ha' : s'.ShowsAttrs P f' a') : SameAttrsUpTo P S s s' a a' := by
  refine ⟨by rw [ha.flags, ha'.flags, h.flags], by rw [ha.align, ha'.align, h.align], ?_⟩
  have hp := ha.pointee
  have hp' := ha'.pointee
  have hcopy := h.pointee
  generalize f.pointee = tree?, a.pointee = h?, f'.pointee = tree'?, a'.pointee = h'? at hp hp' hcopy ⊢
  cases hcopy with
  | none =>
    cases hp
    cases hp'
    exact .none
  | some hcopy =>
    cases hp with
    | some hshows =>
      cases hp' with
      | some hshows' => exact .some ⟨_, _, hshows, hshows', hcopy⟩

theorem sameParamsUpTo_of_shows {fs fs' : List ParamForm} {ps ps' : List MachineParam}
    (h : List.Forall₂ (ParamForm.CopyOf S attributed) fs fs') (hp : List.Forall₂ (s.ShowsParam P) fs ps)
    (hp' : List.Forall₂ (s'.ShowsParam P) fs' ps') : List.Forall₂ (SameParamUpTo P S attributed s s') ps ps' := by
  induction h generalizing ps ps' with
  | nil =>
    cases hp
    cases hp'
    exact .nil
  | cons hcopy _ ih =>
    cases hp with
    | cons hfirst hrest =>
      cases hp' with
      | cons hfirst' hrest' =>
        refine .cons ⟨⟨_, _, hfirst.ty, hfirst'.ty, hcopy.ty⟩, ?_, fun ha => ?_⟩ (ih hrest hrest')
        · rw [hfirst.origin, hfirst'.origin, hcopy.origin]
        · exact sameAttrsUpTo_of_shows (hcopy.attrs ha) hfirst.attrs hfirst'.attrs

/-- Signatures are the same up to copies if their forms are. -/
theorem sameSignatureUpTo_of_shows {f f' : SignatureForm} {sig sig' : Signature}
    (h : SignatureForm.CopyOf S attributed traced f f') (hsig : s.ShowsSignature P f sig)
    (hsig' : s'.ShowsSignature P f' sig') : SameSignatureUpTo P S attributed traced s s' sig sig' := by
  have hkept : ∀ {s : Session} {fs : List ParamForm} {ps : List MachineParam}, List.Forall₂ (s.ShowsParam P) fs ps →
      List.Forall₂ (s.ShowsParam P) (fs.filter (·.origin.isTraceless)) (ps.filter (·.origin.isTraceless)) := by
    intro s fs ps hps
    exact List.rel_filter (fun p q hpq => by simp only [hpq.origin]) hps
  refine ⟨⟨_, _, hsig.ret, hsig'.ret, h.ret⟩, fun ha => ?_, ?_, fun ht => ?_⟩
  · exact sameAttrsUpTo_of_shows (h.retAttrs ha) hsig.retAttrs hsig'.retAttrs
  · exact sameParamsUpTo_of_shows h.traceless (hkept hsig.params) (hkept hsig'.params)
  · exact sameParamsUpTo_of_shows (h.params ht) hsig.params hsig'.params

end Session

/-- Sessions answer with the same machine signature when types are exchanged in a function type. -/
theorem Lowering.exists_sameSignatureUpTo {L : Lowering} {R : TypeId → TypeId → Prop} {attributed traced : Prop}
    {c : Option Classifier} {f f' : FnTy} {s s' : Session} (hX : L.Exchange R attributed)
    (h : f.InStep (L.PassesAlike R c) f') (hc : classifierFor f.cc L.target = .ok c)
    (htraced : traced → L.options.errorTracing = true → f.cc = .auto → L.isErrorType f.ret = L.isErrorType f'.ret)
    (hs : L.Reachable s) (hs' : L.Reachable s') :
    ∃ sig sig' s₁ s₁', (L.signature f).run.run s = (.ok sig, s₁) ∧ (L.signature f').run.run s' = (.ok sig', s₁') ∧
      Session.SameSignatureUpTo L.toSealedPool (L.Replaced R) attributed traced s₁ s₁' sig sig' := by
  obtain ⟨sig, s₁, hrun, -, hsig⟩ := exists_signature hs.canonical hc
  obtain ⟨sig', s₁', hrun', -, hsig'⟩ := exists_signature hs'.canonical (h.cc ▸ hc)
  exact ⟨sig, sig', s₁, s₁', hrun, hrun',
    Session.sameSignatureUpTo_of_shows (copyOf_signatureForm hX h hc htraced) hsig hsig'⟩

/-! ## An example -/

/-- The primitive types, enums with a narrow and a wide tag, two structs that differ in a tag and its enum, a pointer
and its optional, two structs that differ in these, and the optional of an error. -/
def Pool.exchanging : Pool :=
  let kind : Ty := .enum "Kind" .u8 ["half", "word"]
  let wide : Ty := .enum "Wide" ⟨12⟩ ["one", "two"]
  let plain : Ty := .struct ⟨"Plain", .auto, [⟨⟨.u8, false⟩, "kind"⟩, ⟨⟨⟨8⟩, false⟩, "count"⟩]⟩
  let coded : Ty := .struct ⟨"Coded", .auto, [⟨⟨⟨21⟩, false⟩, "kind"⟩, ⟨⟨⟨8⟩, false⟩, "count"⟩]⟩
  let address : Ty := .pointer ⟨.u8, .one, 0, .none⟩
  let perhaps : Ty := .optional ⟨25⟩
  let node : Ty := .struct ⟨"Node", .auto, [⟨⟨⟨25⟩, false⟩, "next"⟩, ⟨⟨⟨8⟩, false⟩, "count"⟩]⟩
  let link : Ty := .struct ⟨"Link", .auto, [⟨⟨⟨26⟩, false⟩, "next"⟩, ⟨⟨⟨8⟩, false⟩, "count"⟩]⟩
  let failure : Ty := .optional .anyError
  ⟨(primitiveTypes ++ [kind, wide, plain, coded, address, perhaps, node, link, failure]).toArray⟩

def SealedPool.exchanging : SealedPool where
  toPool := .exchanging
  primitivesInPlace := by decide
  heights := (List.replicate 21 0 ++ [1, 1, 1, 2, 0, 1, 1, 2, 1]).toArray
  heights_hold := Rule.Settled.holds (by decide)
  rooms := ([false, false] ++ List.replicate 18 true ++ [false] ++ List.replicate 9 true).toArray
  rooms_hold := Rule.Settled.holds (by decide)

def Sizing.exchanging : Sizing where
  toSealedPool := .exchanging
  target := .sample
  extents :=
    #[⟨⟨0, 1⟩, 0⟩, ⟨⟨0, 1⟩, 0⟩, ⟨⟨1, 1⟩, 1⟩, ⟨⟨1, 1⟩, 1⟩, ⟨⟨1, 1⟩, 8⟩, ⟨⟨1, 1⟩, 8⟩, ⟨⟨2, 2⟩, 16⟩, ⟨⟨2, 2⟩, 16⟩,
      ⟨⟨4, 4⟩, 32⟩, ⟨⟨4, 4⟩, 32⟩, ⟨⟨8, 8⟩, 64⟩, ⟨⟨8, 8⟩, 64⟩, ⟨⟨16, 16⟩, 128⟩, ⟨⟨16, 16⟩, 128⟩, ⟨⟨2, 2⟩, 16⟩,
      ⟨⟨4, 4⟩, 32⟩, ⟨⟨8, 8⟩, 64⟩, ⟨⟨16, 16⟩, 80⟩, ⟨⟨16, 16⟩, 128⟩, ⟨⟨2, 2⟩, 16⟩, ⟨⟨0, 1⟩, 0⟩, ⟨⟨1, 1⟩, 8⟩,
      ⟨⟨16, 16⟩, 128⟩, ⟨⟨8, 4⟩, 64⟩, ⟨⟨8, 4⟩, 64⟩, ⟨⟨8, 8⟩, 64⟩, ⟨⟨8, 8⟩, 64⟩, ⟨⟨16, 8⟩, 128⟩, ⟨⟨16, 8⟩, 128⟩,
      ⟨⟨2, 2⟩, 16⟩]
  extents_hold := Rule.Settled.holds (by decide)

end MachineAbi
