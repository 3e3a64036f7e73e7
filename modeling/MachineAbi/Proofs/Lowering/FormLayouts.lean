import MachineAbi.Proofs.Lowering.Forms

/-!
# Machine types that have a layout

Every type that takes room has a machine type with a layout (`Sizing.isSome_layout?_form`), if the elements of vectors
are machine scalars (`Pool.ScalarVectors`).

Nothing has to be known about the fields of aggregates: a field is only given a place if its machine type has a layout
(`Arrangement.isSome_layouts?_trees`). So the proof follows the types that are represented as one of their parts.
-/

namespace MachineAbi

/-- The elements of vectors are machine scalars. -/
def Pool.ScalarVectors (p : Pool) : Prop := ∀ t len child, p.get t = .vector len child → p.IsElement child

/-! ## Machine types -/

namespace MachineTree

variable {T : Target}

theorem isSome_layout?_of_scalarBits? {tree : MachineTree} (h : (tree.scalarBits? T).isSome = true) :
    (tree.layout? T).isSome = true := by
  cases tree with
  | int | float | ptr => rfl
  | _ => cases h

theorem isSome_layouts?_iff {trees : List MachineTree} :
    (layouts? T trees).isSome = true ↔ ∀ tree ∈ trees, (tree.layout? T).isSome = true := by
  induction trees with
  | nil => simp [layouts?]
  | cons tree trees ih =>
    rw [List.forall_mem_cons, ← ih, layouts?]
    cases tree.layout? T <;> cases layouts? T trees <;> simp

end MachineTree

theorem isSome_scalarBits?_floatTree (T : Target) (bits : Nat) :
    ((T.floatTree bits).scalarBits? T).isSome = true := by
  unfold Target.floatTree
  rcases Session.floatType_cases T bits with ⟨width, h⟩ | ⟨kind, h⟩ <;> rw [h] <;> rfl

/-! ## Aggregates -/

/-- The item of a machine type has its layout, if it takes room at all. -/
theorem layout?_of_treeItem {T : Target} {source : TypeId} {tree : MachineTree}
    (h : 0 < (T.treeItem source tree).layout.size) : tree.layout? T = some (T.treeItem source tree).layout := by
  unfold Target.treeItem at h ⊢
  cases hl : tree.layout? T with
  | some l => rfl
  | none =>
    rw [hl] at h
    cases h

namespace Arrangement

/-- What has been given a place has the layout that it was placed by. -/
abbrev Laid (T : Target) (a : Arrangement MachineTree) : Prop := a.All fun tree l => tree.layout? T = some l

variable {T : Target}

theorem isSome_layouts?_trees {a : Arrangement MachineTree} (h : a.Laid T) :
    (MachineTree.layouts? T a.trees).isSome = true := by
  refine MachineTree.isSome_layouts?_iff.2 fun tree hm => ?_
  obtain ⟨⟨tree?, l⟩, hpiece, rfl⟩ := List.mem_map.1 hm
  cases tree? with
  | some tree => exact Option.isSome_of_eq_some (h tree l hpiece)
  | none => rfl

theorem laid_pushAll {items : List (Item MachineTree)}
    (h : ∀ i ∈ items, 0 < i.layout.size → i.value.layout? T = some i.layout) :
    (Arrangement.empty.pushAll items).2.finish.Laid T :=
  (All.empty.pushAll h).finish

theorem laid_tagged {tagFirst : Bool} {tag held : Option (Item MachineTree)}
    (ht : ∀ i ∈ tag, 0 < i.layout.size → i.value.layout? T = some i.layout)
    (hh : ∀ i ∈ held, 0 < i.layout.size → i.value.layout? T = some i.layout) :
    (Arrangement.tagged tagFirst tag held).built.finish.Laid T := by
  unfold Arrangement.tagged
  cases tagFirst with
  | true => exact ((All.empty.pushOption ht).pushOption hh).finish
  | false => exact ((All.empty.pushOption hh).pushOption ht).finish

end Arrangement

/-- All that the plan places has the layout that it is placed by. -/
def Plan.Laid (T : Target) (p : Plan) : Prop := p.built.Laid T

namespace Sizing

open SealedPool (mem_parts)

variable {Z : Sizing} {t : TypeId} {known : TypeId → MachineTree}

theorem laid_fieldsPlan (fields : List FieldTy) : (Z.fieldsPlan known fields).Laid Z.target := by
  refine Arrangement.laid_pushAll fun i hi h => ?_
  obtain ⟨f, -, rfl⟩ := List.mem_map.1 hi
  exact layout?_of_treeItem h

theorem laid_besideTag {codeFirst : Bool} {source source' : TypeId} {tree tree' : MachineTree}
    {fields : Option FieldPlace → List FieldPlace} :
    (Plan.besideTag codeFirst (some (Z.target.treeItem source tree)) (some (Z.target.treeItem source' tree'))
      fields).Laid Z.target := by
  refine Arrangement.laid_tagged (fun i hi h => ?_) fun i hi h => ?_
  · obtain rfl := Option.some.inj hi
    exact layout?_of_treeItem h
  · obtain rfl := Option.some.inj hi
    exact layout?_of_treeItem h

theorem laid_unionPlan (u : UnionTy) : (Z.unionPlan known u).Laid Z.target := by
  refine Arrangement.laid_tagged (fun i hi h => ?_) fun i hi h => ?_
  · obtain ⟨tag, -, rfl⟩ := Option.map_eq_some_iff.1 hi
    exact layout?_of_treeItem h
  · obtain ⟨held, -, rfl⟩ := Option.map_eq_some_iff.1 hi
    exact layout?_of_treeItem h

theorem isSome_layout?_unnamed {p : Plan} (h : p.Laid Z.target) :
    ((Form.unnamed p).tree.layout? Z.target).isSome = true := by
  rw [Form.unnamed, MachineTree.layout?, Option.isSome_map]
  exact Arrangement.isSome_layouts?_trees h

theorem isSome_layout?_named {p : Plan} (h : p.Laid Z.target) :
    ((Form.named t p).tree.layout? Z.target).isSome = true := by
  rw [Form.named, MachineTree.layout?, Option.isSome_map]
  exact Arrangement.isSome_layouts?_trees h

theorem isSome_layout?_sliceTree (Z : Sizing) (t : TypeId) (space : Nat) :
    ((Z.sliceTree t space).layout? Z.target).isSome = true := by
  rw [sliceTree, MachineTree.layout?, Option.isSome_map]
  refine Arrangement.isSome_layouts?_trees (Arrangement.laid_pushAll fun i hi h => ?_)
  rcases List.mem_pair.1 hi with rfl | rfl <;> exact layout?_of_treeItem h

/-! ## All types -/

/-- The machine type of an element of a vector is a machine scalar. -/
theorem isSome_scalarBits?_of_isElement (he : Z.IsElement t) (ht : Z.takesRoom t = true) :
    ((Z.form t).tree.scalarBits? Z.target).isSome = true := by
  induction he with
  | bool hd => rw [form_eq, formNew, hd]; rfl
  | int hd => rw [form_eq, formNew, hd]; simp only [ht, if_true]; rfl
  | float hd => rw [form_eq, formNew, hd]; exact isSome_scalarBits?_floatTree _ _
  | errorSet hd => rw [form_eq, formNew, hd]; simp only [ht, if_true]; rfl
  | pointer hd hq => rw [form_eq, formNew, hd]; simp only [hq, Bool.false_eq_true, if_false]; rfl
  | enum hd _ ih =>
    have htag := ht
    rw [Z.takesRoom_eq, hd] at htag
    rw [form_eq, formNew, hd]
    simp only [ht, if_true]
    rw [Form.plain, partTree_of_mem (mem_parts hd (by simp [Ty.parts]))]
    exact ih htag

/-- The machine type of a type that takes room has a layout. -/
theorem isSome_layout?_form (hv : Z.ScalarVectors) (t : TypeId) (ht : Z.takesRoom t = true) :
    ((Z.form t).tree.layout? Z.target).isSome = true := by
  induction t using Z.induction_on_parts with
  | step t ih =>
  have hpart : ∀ c, c ∈ Z.parts t → Z.takesRoom c = true →
      ((Form.plain (Z.partTree t c)).tree.layout? Z.target).isSome = true := fun c hc hr => by
    rw [Form.plain, partTree_of_mem hc]
    exact ih c hc hr
  have hroom := Z.takesRoom_eq t
  rw [form_eq, formNew]
  simp only [ht, if_true] at hroom ⊢
  cases hd : Z.get t <;> rw [hd] at hroom <;> dsimp only at hroom ⊢
  case void | noreturn | comptime | opaqueType | function => cases hroom
  case bool | int | errorSet => rfl
  case float bits => exact MachineTree.isSome_layout?_of_scalarBits? (isSome_scalarBits?_floatTree _ _)
  case pointer p =>
    cases p.isSlice with
    | true => exact Z.isSome_layout?_sliceTree t p.addrSpace
    | false => rfl
  case array len child sentinel =>
    obtain ⟨hn, hchild⟩ := Bool.and_eq_true_iff.1 hroom.symm
    have hn : elementCount len sentinel ≠ 0 := of_decide_eq_true hn
    have helem := hpart child (mem_parts hd (by simp [Ty.parts, hn])) hchild
    rw [if_neg hn, hchild, if_pos rfl, Form.plain, MachineTree.layout?, Option.isSome_map]
    exact helem
  case vector len child =>
    obtain ⟨hn, hchild⟩ := Bool.and_eq_true_iff.1 hroom.symm
    have hn : len ≠ 0 := of_decide_eq_true hn
    rw [if_neg hn, Form.plain, MachineTree.layout?, Option.isSome_map]
    split
    · rfl
    · rw [partTree_of_mem (mem_parts hd (by simp [Ty.parts, hn]))]
      exact isSome_scalarBits?_of_isElement (hv t len child hd) hchild
  case optional child =>
    have hchild := Z.room_of_optionalRepr child
    unfold optionalForm
    cases hrepr : Z.optionalRepr child <;> rw [hrepr] at hchild
    · rfl
    · exact hpart child (mem_parts hd (by simp [Ty.parts])) hchild
    · exact isSome_layout?_unnamed laid_besideTag
  case errorUnion set payload =>
    have hhalves := Z.room_of_errorUnionRepr set payload
    unfold errorUnionForm
    cases hrepr : Z.errorUnionRepr set payload <;> rw [hrepr] at hhalves <;>
      obtain ⟨hset, hpayload⟩ := Prod.mk.inj hhalves
    · rw [hset, hpayload] at hroom
      cases hroom
    · exact hpart payload (mem_parts hd (by simp [Ty.parts])) hpayload
    · rfl
    · exact isSome_layout?_unnamed laid_besideTag
    · exact isSome_layout?_unnamed laid_besideTag
  case enum name tag variants => exact hpart tag (mem_parts hd (by simp [Ty.parts])) hroom.symm
  case struct str =>
    cases str.isPacked with
    | true => rfl
    | false => exact isSome_layout?_named (laid_fieldsPlan str.fieldTys)
  case tuple fields => exact isSome_layout?_unnamed (laid_fieldsPlan fields)
  case union u =>
    cases u.isPacked with
    | true => rfl
    | false => exact isSome_layout?_named (laid_unionPlan u)

end Sizing

end MachineAbi
