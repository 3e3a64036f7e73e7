import MachineAbi.Proofs.Lowering.Forms

/-!
# Slices as machine types

A slice is a struct of a pointer and a length. How an address space aligns its pointers decides whether there is padding
in it, so the fields of a struct are told apart from its padding (`Table.HasFields`).

* `Sizing.sliceTree_eq`: the fields of a slice are its pointer and its length.
* `Sizing.tree_sliceOf`, `Sizing.tree_of_flag`: an optional slice has the machine type of its slice, unless it has a
  flag of its own behind that.
-/

namespace MachineAbi

/-! ## Padding -/

namespace MachineTree

/-- Padding is an array of bytes. -/
def isPadding : MachineTree → Bool
  | .array _ (.int 8) => true
  | _ => false

theorem isPadding_array (len : Nat) (elem : MachineTree) : (array len elem).isPadding = true ↔ elem = .int 8 := by
  unfold isPadding
  split <;> simp_all

end MachineTree

namespace Table

/-- Padding is an array of bytes. -/
def isPadding (table : Table) (h : Handle) : Bool :=
  match table.get h with
  | .array _ elem => table.get elem == .int 8
  | _ => false

/-- The struct has these fields, and else only padding. -/
def HasFields (table : Table) (h : Handle) (fields : List Handle) : Prop :=
  ∃ all, table.Stores h (.struct false all) ∧ all.filter (fun a => !table.isPadding a) = fields

theorem HasFields.eq {table : Table} {h : Handle} {fields fields' : List Handle} (hf : table.HasFields h fields)
    (hf' : table.HasFields h fields') : fields = fields' := by
  obtain ⟨all, hs, rfl⟩ := hf
  obtain ⟨all', hs', rfl⟩ := hf'
  obtain ⟨-, rfl⟩ := MachineType.struct.inj (hs.eq hs')
  rfl

end Table

namespace Arrangement

variable (a : Arrangement MachineTree)

/-- The machine fields of an arrangement that are no padding. -/
def fieldTrees : List MachineTree := a.trees.filter (!·.isPadding)

theorem fieldTrees_padTo (offset : Nat) : (a.padTo offset).fieldTrees = a.fieldTrees := by
  unfold padTo
  split
  · simp [fieldTrees, trees, MachineTree.isPadding, MachineTree.bytes]
  · rfl

theorem fieldTrees_push {i : Item MachineTree} (hi : i.value.isPadding = false) :
    (a.push i).2.fieldTrees = a.fieldTrees ++ if 0 < i.layout.size then [i.value] else [] := by
  unfold push
  split
  · rw [← a.fieldTrees_padTo (alignUp a.offset i.layout.align)]
    simp [fieldTrees, trees, hi]
  · simp

end Arrangement

namespace Session

variable {P : SealedPool} {s : Session} {tree : MachineTree} {h : Handle}

theorem Shows.get_eq_int_iff (hs : s.Shows P tree h) (bits : Nat) :
    s.table.get h = .int bits ↔ tree = .int bits := by
  cases tree with
  | void | int | float | ptr => simp only [Shows] at hs; simp [hs.get_eq]
  | array | vector => obtain ⟨e, hs, -⟩ := hs; simp [hs.get_eq]
  | struct => obtain ⟨hs', hs, -⟩ := hs; simp [hs.get_eq]
  | named => obtain ⟨-, -, id, hs', hs, -⟩ := hs; simp [hs.get_eq]
  | unknown => obtain ⟨-, -, id, hs⟩ := hs; simp [hs.get_eq]
  | function => obtain ⟨r, ps, hs, -⟩ := hs; simp [hs.get_eq]

theorem Shows.isPadding (hs : s.Shows P tree h) : s.table.isPadding h = tree.isPadding := by
  unfold Table.isPadding
  cases tree with
  | void | int | float | ptr => simp only [Shows] at hs; rw [hs.get_eq]; rfl
  | vector => obtain ⟨e, hs, -⟩ := hs; rw [hs.get_eq]; rfl
  | struct => obtain ⟨hs', hs, -⟩ := hs; rw [hs.get_eq]; rfl
  | named => obtain ⟨-, -, id, hs', hs, -⟩ := hs; rw [hs.get_eq]; rfl
  | unknown => obtain ⟨-, -, id, hs⟩ := hs; rw [hs.get_eq]; rfl
  | function => obtain ⟨r, ps, hs, -⟩ := hs; rw [hs.get_eq]; rfl
  | array len elem =>
    obtain ⟨e, hs, he⟩ := hs
    rw [hs.get_eq, Bool.eq_iff_iff, beq_iff_eq, he.get_eq_int_iff, MachineTree.isPadding_array]

/-- The fields of a struct that are no padding are those of its tree. -/
theorem Shows.hasFields {trees : List MachineTree} (hs : s.Shows P (.struct false trees) h) :
    ∃ fields, s.table.HasFields h fields ∧ s.ShowsAll P (trees.filter (!·.isPadding)) fields := by
  obtain ⟨all, hstruct, hall⟩ := hs
  refine ⟨_, ⟨all, hstruct, rfl⟩, showsAll_iff.2 (List.rel_filter (fun tree a ha => ?_) (showsAll_iff.1 hall))⟩
  simp only [ha.isPadding]

end Session

/-! ## Slices -/

/-- The slice of which a value of type `t` consists: the payload, if that is an optional. -/
def Pool.sliceOf (p : Pool) (t : TypeId) : TypeId :=
  match p.get t with
  | .optional child => child
  | _ => t

/-- Whether a value of type `t` is an optional with a flag behind its payload. -/
def SealedPool.storesFlag (P : SealedPool) (t : TypeId) : Bool :=
  match P.get t with
  | .optional child => P.optionalRepr child == .payloadAndFlag
  | _ => false

namespace Sizing

variable {Z : Sizing} {t : TypeId}

/-- The fields of a slice are its pointer and its length. -/
theorem sliceTree_eq (hT : Z.target.Supported) (t : TypeId) (space : Nat) :
    ∃ trees, Z.sliceTree t space = .struct false trees ∧
      trees.filter (!·.isPadding) = [.ptr space, .int Z.target.ptrBits] := by
  refine ⟨_, rfl, ?_⟩
  have hptr : 0 < (Z.target.machinePtr space).size := (Target.machinePtr_sane hT space).2
  have hlen : 0 < (Z.target.machineInt Z.target.ptrBits).size := by
    rw [Target.machineInt_eq hT]
    refine Target.intLayout_size_pos hT ?_
    unfold Target.ptrBits
    cases Z.target.arch <;> decide
  show (Arrangement.fieldTrees _) = _
  rw [Arrangement.finish, Arrangement.fieldTrees_padTo, Arrangement.pushAll, Arrangement.pushAll, Arrangement.pushAll,
    Arrangement.fieldTrees_push _ rfl, Arrangement.fieldTrees_push _ rfl]
  simp [Target.treeItem, MachineTree.layout?, hptr, hlen]
  rfl

theorem exists_slice (h : Z.isSlice t = true ∨ Z.isOptionalSlice t = true) :
    ∃ p, Z.get (Z.sliceOf t) = .pointer p ∧ p.isSlice = true := by
  cases hd : Z.get t with
  | pointer p =>
    have hs : Z.sliceOf t = t := by simp only [Pool.sliceOf, hd]
    exact ⟨p, by rw [hs, hd], by simpa [Pool.isSlice, Pool.isOptionalSlice, hd] using h⟩
  | optional child =>
    have hs : Z.sliceOf t = child := by simp only [Pool.sliceOf, hd]
    have hc : Z.isSlice child = true := by simpa [Pool.isSlice, Pool.isOptionalSlice, hd] using h
    cases hp : Z.get child with
    | pointer p => exact ⟨p, by rw [hs, hp], by simpa [Pool.isSlice, hp] using hc⟩
    | _ => simp [Pool.isSlice, hp] at hc
  | _ => simp [Pool.isSlice, Pool.isOptionalSlice, hd] at h

theorem tree_of_slice {p : PointerTy} (hd : Z.get t = .pointer p) (hp : p.isSlice = true) :
    (Z.form t).tree = Z.sliceTree t p.addrSpace := by
  rw [form_eq, formNew, hd]
  simp only [hp, if_true, Form.plain]

/-- Without a flag, an optional slice has the machine type of its slice. -/
theorem tree_sliceOf (h : Z.isSlice t = true ∨ Z.isOptionalSlice t = true) (hflag : Z.storesFlag t = false) :
    (Z.form t).tree = (Z.form (Z.sliceOf t)).tree := by
  obtain ⟨p, hp, -⟩ := exists_slice h
  unfold Pool.sliceOf at hp ⊢
  unfold SealedPool.storesFlag at hflag
  split at hp
  · rename_i child hd
    rw [hd] at hflag
    have hr : Z.takesRoom child = true := by rw [Z.takesRoom_eq, hp]
    have hrepr : Z.optionalRepr child = .payload := by
      simp only [SealedPool.optionalRepr, hr, if_true] at hflag ⊢
      cases hn : Z.hasInBandNull child <;> simp_all
    rw [form_eq, formNew, hd]
    simp only [optionalForm, hrepr, Form.plain]
    exact partTree_of_mem (SealedPool.mem_parts hd (by simp [Ty.parts]))
  · rename_i hno
    cases hd : Z.get t with
    | optional child => exact absurd hd (hno child)
    | _ => rfl

/-- With a flag, it is a struct of its slice and the flag. -/
theorem tree_of_flag {p : PointerTy} (hp : Z.get (Z.sliceOf t) = .pointer p) (hs : p.isSlice = true)
    (hflag : Z.storesFlag t = true) :
    ∃ trees, (Z.form t).tree = .struct false trees ∧
      ∀ tree tree', trees.filter (!·.isPadding) = [tree, tree'] → ∃ fields, tree = .struct false fields := by
  unfold SealedPool.storesFlag at hflag
  unfold Pool.sliceOf at hp
  split at hflag
  · rename_i child hd
    rw [hd] at hp
    have hrepr : Z.optionalRepr child = .payloadAndFlag := by simpa using hflag
    have hslice : Z.partTree t child = Z.sliceTree child p.addrSpace :=
      (partTree_of_mem (SealedPool.mem_parts hd (by simp [Ty.parts]))).trans (tree_of_slice hp hs)
    refine ⟨(Z.flaggedPlan (Z.partTree t) child).built.trees, ?_, fun tree tree' hfields => ?_⟩
    · rw [form_eq, formNew, hd]
      simp only [optionalForm, hrepr, Form.unnamed]
    · have hfields : Arrangement.fieldTrees _ = [tree, tree'] := hfields
      rw [flaggedPlan, Plan.besideTag, Arrangement.finish, Arrangement.fieldTrees_padTo] at hfields
      simp only [Arrangement.tagged, Arrangement.pushOption, Bool.false_eq_true, if_false] at hfields
      have hno : (Z.target.treeItem child (Z.partTree t child)).value.isPadding = false := by
        show (Z.partTree t child).isPadding = false
        rw [hslice]
        rfl
      rw [Arrangement.fieldTrees_push _ rfl, Arrangement.fieldTrees_push _ hno] at hfields
      -- two fields are those of the slice and the flag
      have hfirst : tree = Z.partTree t child := by
        have hempty : (Arrangement.empty : Arrangement MachineTree).fieldTrees = [] := rfl
        rw [hempty, List.nil_append] at hfields
        split at hfields
        · exact (List.cons.inj hfields).1.symm
        · split at hfields <;> simp at hfields
      rw [hfirst, hslice]
      exact ⟨_, rfl⟩
  · cases hflag

end Sizing

end MachineAbi
