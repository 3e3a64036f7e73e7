import MachineAbi.Proofs.Lowering.Forms
import MachineAbi.Proofs.Passing.InStep

/-!
# Machine types of copies

Every struct or union gets a named machine struct of its own, so two copies of one declaration have machine types that
differ in the source types of named structs only. `MachineTree.rename` gives these other names; machine types are the
same up to copies if they are equal under names that copies share.

Types in step have machine types that are the same up to copies, if their parts have (`Sizing.InStep.tree_eq`): renaming
changes no layout (`MachineTree.layout?_rename`), and values with the same layouts are arranged in the same way
(`Arrangement.Matches`).
-/

namespace MachineAbi

open SealedPool

/-! ## Other names -/

namespace MachineTree

mutual

/-- A machine type with other names for the source types of its named structs. -/
def rename (ρ : TypeId → TypeId) : MachineTree → MachineTree
  | void => void
  | int bits => int bits
  | float kind => float kind
  | ptr space => ptr space
  | array len elem => array len (rename ρ elem)
  | vector len elem => vector len (rename ρ elem)
  | struct packed fields => struct packed (renameAll ρ fields)
  | named source fields => named (ρ source) (renameAll ρ fields)
  | unknown source => unknown (ρ source)
  | function ret params varargs => function (rename ρ ret) (renameAll ρ params) varargs

/-- Machine types with other names. -/
def renameAll (ρ : TypeId → TypeId) : List MachineTree → List MachineTree
  | [] => []
  | tree :: trees => rename ρ tree :: renameAll ρ trees

end

variable {ρ : TypeId → TypeId}

theorem renameAll_eq_map (trees : List MachineTree) : renameAll ρ trees = trees.map (rename ρ) := by
  induction trees with
  | nil => rfl
  | cons tree trees ih => rw [renameAll, ih, List.map_cons]

theorem scalarBits?_rename (T : Target) (tree : MachineTree) : (tree.rename ρ).scalarBits? T = tree.scalarBits? T := by
  cases tree <;> rfl

mutual

/-- Names make no difference to the layout. -/
theorem layout?_rename (T : Target) : ∀ tree : MachineTree, (tree.rename ρ).layout? T = tree.layout? T
  | void | int _ | float _ | ptr _ | unknown _ | function _ _ _ => by simp only [rename, layout?]
  | array _ elem => by rw [rename, layout?, layout?, layout?_rename T elem]
  | vector _ elem => by rw [rename, layout?, layout?, scalarBits?_rename]
  | struct _ fields | named _ fields => by rw [rename, layout?, layout?, layouts?_renameAll T fields]

theorem layouts?_renameAll (T : Target) :
    ∀ trees : List MachineTree, layouts? T (renameAll ρ trees) = layouts? T trees
  | [] => rfl
  | tree :: trees => by rw [renameAll, layouts?, layouts?, layout?_rename T tree, layouts?_renameAll T trees]

end

theorem layout?_eq_of_rename_eq (T : Target) {tree tree' : MachineTree} (h : tree.rename ρ = tree'.rename ρ) :
    tree.layout? T = tree'.layout? T := by
  rw [← layout?_rename T tree, h, layout?_rename]

end MachineTree

/-! ## Arrangements of the same values -/

/-- Values of one layout that `f` does not tell apart, whatever they come from. -/
structure Item.Matches {α β : Type} (f : α → β) (i j : Item α) : Prop where
  value : f i.value = f j.value
  layout : i.layout = j.layout

namespace Arrangement

variable {α β : Type} {f : α → β} {a b : Arrangement α} {i j : Item α}

/-- A piece as `f` sees it. -/
def view (f : α → β) (p : Option α × Layout) : Option β × Layout := (p.1.map f, p.2)

/-- Arrangements that `f` does not tell apart. -/
structure Matches (f : α → β) (a b : Arrangement α) : Prop where
  pieces : a.pieces.map (view f) = b.pieces.map (view f)
  offset : a.offset = b.offset
  align : a.align = b.align

namespace Matches

protected theorem refl (a : Arrangement α) : Matches f a a := ⟨rfl, rfl, rfl⟩

theorem padTo (h : Matches f a b) (offset : Nat) : Matches f (a.padTo offset) (b.padTo offset) := by
  unfold Arrangement.padTo
  rw [h.offset]
  split
  · exact ⟨by rw [List.map_append, List.map_append, h.pieces], rfl, h.align⟩
  · exact h

theorem push (h : Matches f a b) (hi : Item.Matches f i j) : Matches f (a.push i).2 (b.push j).2 := by
  unfold Arrangement.push
  rw [hi.layout, h.offset]
  split
  · have hpad := h.padTo (alignUp b.offset j.layout.align)
    refine ⟨?_, ?_, ?_⟩
    · rw [List.map_append, List.map_append, hpad.pieces, List.map_singleton, List.map_singleton, view, view,
        Option.map_some, Option.map_some, hi.value]
    · dsimp only
      rw [hpad.offset]
    · dsimp only
      rw [hpad.align]
  · exact h

theorem pushAll {is js : List (Item α)} (h : Matches f a b) (his : List.Forall₂ (Item.Matches f) is js) :
    Matches f (a.pushAll is).2 (b.pushAll js).2 := by
  induction his generalizing a b with
  | nil => exact h
  | cons hi _ ih => exact ih (h.push hi)

theorem pushOption {i? j? : Option (Item α)} (h : Matches f a b) (hi : Option.Rel (Item.Matches f) i? j?) :
    Matches f (a.pushOption i?).2 (b.pushOption j?).2 := by
  cases hi with
  | none => exact h
  | some hi => exact h.push hi

theorem finish (h : Matches f a b) : Matches f a.finish b.finish := by
  unfold Arrangement.finish
  rw [h.offset, h.align]
  exact h.padTo _

theorem tagged (tagFirst : Bool) {tag tag' held held' : Option (Item α)} (ht : Option.Rel (Item.Matches f) tag tag')
    (hh : Option.Rel (Item.Matches f) held held') :
    Matches f (Arrangement.tagged tagFirst tag held).built (Arrangement.tagged tagFirst tag' held').built := by
  cases tagFirst with
  | true => exact ((Matches.refl .empty).pushOption ht).pushOption hh
  | false => exact ((Matches.refl .empty).pushOption hh).pushOption ht

end Matches

/-- The machine fields under other names. -/
theorem rename_trees (ρ : TypeId → TypeId) (a : Arrangement MachineTree) :
    a.trees.map (MachineTree.rename ρ) =
      (a.pieces.map (view (MachineTree.rename ρ))).map fun (tree?, l) => tree?.getD (.bytes l.size) := by
  rw [Arrangement.trees, List.map_map, List.map_map]
  refine List.map_congr_left fun p _ => ?_
  rcases p with ⟨_ | tree, l⟩ <;> rfl

theorem Matches.trees {a b : Arrangement MachineTree} {ρ : TypeId → TypeId}
    (h : Matches (MachineTree.rename ρ) a b) :
    MachineTree.renameAll ρ a.trees = MachineTree.renameAll ρ b.trees := by
  rw [MachineTree.renameAll_eq_map, MachineTree.renameAll_eq_map, rename_trees, rename_trees, h.pieces]

/-- A value of no size leaves no trace. -/
theorem push_of_size_zero (h : i.layout.size = 0) : (a.push i).2 = a := by
  unfold push
  rw [if_neg (by omega)]

end Arrangement

theorem Target.matches_treeItem (T : Target) {ρ : TypeId → TypeId} {tree tree' : MachineTree}
    (h : tree.rename ρ = tree'.rename ρ) (source source' : TypeId) :
    Item.Matches (MachineTree.rename ρ) (T.treeItem source tree) (T.treeItem source' tree') := by
  refine ⟨h, ?_⟩
  rw [treeItem, treeItem, MachineTree.layout?_eq_of_rename_eq T h]

namespace Sizing

variable {Z : Sizing} {S : TypeId → TypeId → Prop} {ρ : TypeId → TypeId} {known known' : TypeId → MachineTree}
  {t t' : TypeId}

/-! ## Plans -/

/-- Two parts take the same room, and have the same machine type up to copies. -/
structure PartsMatch (Z : Sizing) (ρ : TypeId → TypeId) (known known' : TypeId → MachineTree) (c c' : TypeId) :
    Prop where
  room : Z.takesRoom c = Z.takesRoom c'
  layout : Z.layout c = Z.layout c'
  tree : (known c).rename ρ = (known' c').rename ρ

/-- A stored field to be placed. -/
def storedItem (Z : Sizing) (known : TypeId → MachineTree) (c : TypeId) : Item MachineTree :=
  Z.target.treeItem c (if Z.takesRoom c then known c else .void)

/-- Fields of compile time leave no trace. -/
theorem pushAll_fields (fields : List FieldTy) (a : Arrangement MachineTree) :
    (a.pushAll (fields.map fun f => Z.target.treeItem f.ty (Z.fieldTree known f))).2 =
      (a.pushAll ((storedTypes fields).map (Z.storedItem known))).2 := by
  induction fields generalizing a with
  | nil => rfl
  | cons f fields ih =>
    rw [List.map_cons, Arrangement.pushAll]
    dsimp only
    cases hf : f.isComptime with
    | true =>
      have hvoid : Z.fieldTree known f = .void := by simp [fieldTree, hf]
      have hstored : storedTypes (f :: fields) = storedTypes fields := by simp [storedTypes, hf]
      rw [hvoid, Arrangement.push_of_size_zero rfl, ih, hstored]
    | false =>
      have hitem : Z.target.treeItem f.ty (Z.fieldTree known f) = Z.storedItem known f.ty := by
        simp [fieldTree, storedItem, hf]
      have hstored : storedTypes (f :: fields) = f.ty :: storedTypes fields := by simp [storedTypes, hf]
      rw [hitem, ih, hstored, List.map_cons, Arrangement.pushAll]

theorem matches_storedItem {c c' : TypeId} (h : Z.PartsMatch ρ known known' c c') :
    Item.Matches (MachineTree.rename ρ) (Z.storedItem known c) (Z.storedItem known' c') := by
  refine Z.target.matches_treeItem ?_ c c'
  rw [h.room]
  split
  · exact h.tree
  · rfl

theorem matches_fieldsPlan {fields fields' : List FieldTy}
    (h : List.Forall₂ (Z.PartsMatch ρ known known') (storedTypes fields) (storedTypes fields')) :
    Arrangement.Matches (MachineTree.rename ρ) (Z.fieldsPlan known fields).built
      (Z.fieldsPlan known' fields').built := by
  refine Arrangement.Matches.finish ?_
  rw [pushAll_fields, pushAll_fields]
  refine (Arrangement.Matches.refl .empty).pushAll ?_
  rw [List.forall₂_map_left_iff, List.forall₂_map_right_iff]
  exact h.imp fun c c' hc => matches_storedItem hc

theorem matches_flaggedPlan {child child' : TypeId} (h : (known child).rename ρ = (known' child').rename ρ) :
    Arrangement.Matches (MachineTree.rename ρ) (Z.flaggedPlan known child).built
      (Z.flaggedPlan known' child').built :=
  (Arrangement.Matches.tagged false (.some (Z.target.matches_treeItem rfl _ _))
    (.some (Z.target.matches_treeItem h _ _))).finish

theorem matches_halvesPlan (codeFirst : Bool) (set : TypeId) {payload payload' : TypeId}
    (h : (known payload).rename ρ = (known' payload').rename ρ) :
    Arrangement.Matches (MachineTree.rename ρ) (Z.halvesPlan known codeFirst set payload).built
      (Z.halvesPlan known' codeFirst set payload').built :=
  (Arrangement.Matches.tagged codeFirst (.some (Z.target.matches_treeItem rfl _ _))
    (.some (Z.target.matches_treeItem h _ _))).finish

/-! ## Unions -/

/-- The widest members of two unions are at the same place. -/
theorem widestMember?_matches {u u' : UnionTy}
    (h : List.Forall₂ (Z.PartsMatch ρ known known') u.memberTypes u'.memberTypes) :
    Option.Rel (fun m m' => Z.PartsMatch ρ known known' m.1 m'.1) (Z.widestMember? u) (Z.widestMember? u') := by
  have hnumbered : ∀ {ts ts' : List TypeId} (n : Nat), List.Forall₂ (Z.PartsMatch ρ known known') ts ts' →
      List.Forall₂ (fun m m' : TypeId × Nat => Z.PartsMatch ρ known known' m.1 m'.1) (ts.zipIdx n) (ts'.zipIdx n) := by
    intro ts ts' n h
    induction h generalizing n with
    | nil => exact .nil
    | cons hc _ ih => exact .cons hc (ih _)
  have hroomy := forall₂_filter (p := fun m : TypeId × Nat => Z.takesRoom m.1) (hnumbered 0 h) fun m m' hm => hm.room
  have hwider : ∀ {ms ms' : List (TypeId × Nat)} {best best' : Option (TypeId × Nat)},
      List.Forall₂ (fun m m' : TypeId × Nat => Z.PartsMatch ρ known known' m.1 m'.1) ms ms' →
      Option.Rel (fun m m' => Z.PartsMatch ρ known known' m.1 m'.1) best best' →
      Option.Rel (fun m m' => Z.PartsMatch ρ known known' m.1 m'.1) (ms.foldl Z.wider best)
        (ms'.foldl Z.wider best') := by
    intro ms ms' best best' h hbest
    induction h generalizing best best' with
    | nil => exact hbest
    | cons hm _ ih =>
      refine ih ?_
      unfold wider
      cases hbest with
      | none => exact .some hm
      | some hb =>
        simp only [hb.layout, hm.layout]
        split
        · exact .some hm
        · exact .some hb
  exact hwider hroomy .none

theorem heldTree?_matches {u u' : UnionTy}
    (h : List.Forall₂ (Z.PartsMatch ρ known known') u.memberTypes u'.memberTypes) :
    Option.Rel (fun held held' => held.2.rename ρ = held'.2.rename ρ) (Z.heldTree? known u)
      (Z.heldTree? known' u') := by
  have hpayload : Z.payloadLayout u = Z.payloadLayout u' := by
    rw [payloadLayout, payloadLayout, map_eq_of_forall₂ (h.imp fun c c' hc => hc.layout)]
  unfold heldTree?
  rw [hpayload]
  refine rel_map (widestMember?_matches h) fun m m' hm => ?_
  dsimp only
  rw [hm.layout]
  split
  · simp only [MachineTree.rename, MachineTree.renameAll, hm.tree]
  · exact hm.tree

theorem matches_unionPlan {u u' : UnionTy} (htag : u.tag = u'.tag)
    (hknown : ∀ tag, Z.storedTag? u = some tag → known tag = known' tag)
    (h : List.Forall₂ (Z.PartsMatch ρ known known') u.memberTypes u'.memberTypes) :
    Arrangement.Matches (MachineTree.rename ρ) (Z.unionPlan known u).built (Z.unionPlan known' u').built := by
  have hpayload : Z.payloadLayout u = Z.payloadLayout u' := by
    rw [payloadLayout, payloadLayout, map_eq_of_forall₂ (h.imp fun c c' hc => hc.layout)]
  have hstored : Z.storedTag? u = Z.storedTag? u' := storedTag?_eq htag h.length_eq
  have hfirst : Z.tagComesFirst u = Z.tagComesFirst u' := by rw [tagComesFirst, tagComesFirst, hstored, hpayload]
  have htree : Option.Rel (Item.Matches (MachineTree.rename ρ))
      ((Z.storedTag? u).map fun tag => Z.target.treeItem tag (known tag))
      ((Z.storedTag? u').map fun tag => Z.target.treeItem tag (known' tag)) := by
    rw [← hstored]
    cases hs : Z.storedTag? u with
    | none => exact .none
    | some tag =>
      refine .some (Z.target.matches_treeItem ?_ tag tag)
      rw [hknown tag hs]
  have hheld : Option.Rel (Item.Matches (MachineTree.rename ρ))
      ((Z.heldTree? known u).map fun held => Z.target.treeItem held.1 held.2)
      ((Z.heldTree? known' u').map fun held => Z.target.treeItem held.1 held.2) :=
    rel_map (heldTree?_matches h) fun held held' hm => Z.target.matches_treeItem hm _ _
  unfold unionPlan
  rw [hfirst]
  exact (Arrangement.Matches.tagged _ htree hheld).finish

/-! ## Values -/

theorem rename_sliceTree (t t' : TypeId) (space : Nat) :
    (Z.sliceTree t space).rename ρ = (Z.sliceTree t' space).rename ρ := by
  have hitems : List.Forall₂ (Item.Matches (MachineTree.rename ρ))
      [Z.target.treeItem t (.ptr space), Z.target.treeItem t (.int Z.target.ptrBits)]
      [Z.target.treeItem t' (.ptr space), Z.target.treeItem t' (.int Z.target.ptrBits)] :=
    .cons (Z.target.matches_treeItem rfl _ _) (.cons (Z.target.matches_treeItem rfl _ _) .nil)
  have hbuilt := ((Arrangement.Matches.refl .empty).pushAll hitems).finish
  rw [sliceTree, sliceTree, MachineTree.rename, MachineTree.rename, hbuilt.trees]

/-- Unnamed structs of matching plans. -/
theorem rename_unnamed {p p' : Plan} (h : Arrangement.Matches (MachineTree.rename ρ) p.built p'.built) :
    (Form.unnamed p).tree.rename ρ = (Form.unnamed p').tree.rename ρ := by
  rw [Form.unnamed, Form.unnamed, MachineTree.rename, MachineTree.rename, h.trees]

/-- Named structs of matching plans, for types that share a name. -/
theorem rename_named (hρ : ρ t = ρ t') {p p' : Plan}
    (h : Arrangement.Matches (MachineTree.rename ρ) p.built p'.built) :
    (Form.named t p).tree.rename ρ = (Form.named t' p').tree.rename ρ := by
  rw [Form.named, Form.named, MachineTree.rename, MachineTree.rename, h.trees, hρ]

/-- Types in step, whose parts have the same machine type up to copies, have so themselves. -/
theorem InStep.tree_eq (h : Z.InStep S t t') (hroom : ∀ c c', S c c' → Z.takesRoom c = Z.takesRoom c')
    (hextent : ∀ c c', S c c' → Z.extent c = Z.extent c')
    (htree : ∀ c c', S c c' → (Z.form c).tree.rename ρ = (Z.form c').tree.rename ρ) (hρ : ρ t = ρ t') :
    (Z.form t).tree.rename ρ = (Z.form t').tree.rename ρ := by
  have hwhole := h.takesRoom_eq hroom
  have hwidth : Z.packedWidth t = Z.packedWidth t' := congrArg Extent.bits (h.extent_eq hroom hextent)
  have hlayout : ∀ c c', S c c' → Z.layout c = Z.layout c' := fun c c' hc => congrArg Extent.layout (hextent c c' hc)
  have hpart : ∀ c c', c ∈ Z.parts t → c' ∈ Z.parts t' → S c c' →
      (Z.partTree t c).rename ρ = (Z.partTree t' c').rename ρ := by
    intro c c' hc hc' hS
    rw [partTree_of_mem hc, partTree_of_mem hc', htree c c' hS]
  have hparts : ∀ c c', c ∈ Z.parts t → c' ∈ Z.parts t' → S c c' →
      Z.PartsMatch ρ (Z.partTree t) (Z.partTree t') c c' := fun c c' hc hc' hS =>
    ⟨hroom c c' hS, hlayout c c' hS, hpart c c' hc hc' hS⟩
  rw [Z.form_eq t, Z.form_eq t']
  unfold formNew
  cases h with
  | @pointer child child' size space flags hd hd' =>
    simp only [hd, hd', Form.plain]
    show (if PointerTy.isSlice ⟨child', size, space, flags⟩ = true then Z.sliceTree t space else .ptr space).rename ρ =
      _
    split
    · exact rename_sliceTree t t' space
    · rfl
  | @array child child' len sentinel hd hd' h =>
    simp only [hd, hd', hroom _ _ h]
    split
    · rfl
    · rename_i hn
      have hc : child ∈ Z.parts t := mem_parts hd (by simp [Ty.parts, hn])
      have hc' : child' ∈ Z.parts t' := mem_parts hd' (by simp [Ty.parts, hn])
      split
      · simp only [Form.plain, MachineTree.rename, hpart _ _ hc hc' h]
      · rfl
  | @optional child child' hd hd' hnull h =>
    have hc : child ∈ Z.parts t := mem_parts hd (by simp [Ty.parts])
    have hc' : child' ∈ Z.parts t' := mem_parts hd' (by simp [Ty.parts])
    simp only [hd, hd', optionalForm, InStep.optionalRepr_eq (hroom _ _ h) hnull]
    split
    · rfl
    · exact hpart _ _ hc hc' h
    · exact rename_unnamed (matches_flaggedPlan (hpart _ _ hc hc' h))
  | @errorUnion set payload payload' hd hd' h =>
    have hc : payload ∈ Z.parts t := mem_parts hd (by simp [Ty.parts])
    have hc' : payload' ∈ Z.parts t' := mem_parts hd' (by simp [Ty.parts])
    have hrepr : Z.errorUnionRepr set payload = Z.errorUnionRepr set payload' := by
      rw [errorUnionRepr, errorUnionRepr, hroom _ _ h, hlayout _ _ h]
    simp only [hd, hd', errorUnionForm, hrepr]
    split
    · rfl
    · exact hpart _ _ hc hc' h
    · rfl
    · exact rename_unnamed (matches_halvesPlan true set (hpart _ _ hc hc' h))
    · exact rename_unnamed (matches_halvesPlan false set (hpart _ _ hc hc' h))
  | @struct s s' hd hd' hs h =>
    have hfields := forall₂_imp_mem h fun c hc c' hc' => hparts c c' (mem_parts hd hc) (mem_parts hd' hc')
    simp only [hd, hd', hwhole, hs, hwidth]
    split
    · split
      · rfl
      · exact rename_named hρ (matches_fieldsPlan hfields)
    · rfl
  | @tuple fields fields' hd hd' h =>
    have hfields := forall₂_imp_mem h fun c hc c' hc' => hparts c c' (mem_parts hd hc) (mem_parts hd' hc')
    simp only [hd, hd', hwhole]
    split
    · exact rename_unnamed (matches_fieldsPlan hfields)
    · rfl
  | @union u u' hd hd' hu htag h =>
    have hmembers := forall₂_imp_mem h fun c hc c' hc' => hparts c c' (mem_parts hd (List.mem_append_right _ hc))
      (mem_parts hd' (List.mem_append_right _ hc'))
    simp only [hd, hd', hwhole, hu, hwidth]
    split
    · split
      · rfl
      · rename_i hpacked
        have hpacked : u'.isPacked = false := by simpa using hpacked
        refine rename_named hρ (matches_unionPlan htag (fun tag ht => ?_) hmembers)
        have ht' : Z.storedTag? u' = some tag := (storedTag?_eq htag h.length_eq).symm.trans ht
        rw [partTree_of_mem (mem_parts hd (mem_parts_of_storedTag (hu.trans hpacked) ht)),
          partTree_of_mem (mem_parts hd' (mem_parts_of_storedTag hpacked ht'))]
    · rfl

end Sizing

end MachineAbi
