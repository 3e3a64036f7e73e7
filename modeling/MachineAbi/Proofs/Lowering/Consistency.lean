import MachineAbi.Proofs.Lowering.Requests

/-!
# Machine types and source types agree on layouts

The front end lays out types by the C types of the target, the code generator lays out machine types by the alignment
tables. For a type that takes room the two agree, in every session that requests lead to
(`Lowering.layoutOf_lower`).

The elements of vectors matter: an enum is lowered as its tag, so the tag has to be a machine scalar. A vector of an
enum that a slice tags has a layout as a source type and none as a machine type
(`Lowering.layoutOf_lower_vector_of_slices`).
-/

namespace MachineAbi

open Session

namespace Lowering

variable {L : Lowering} {s : Session} {t : TypeId}

/-- Lowering a type that takes room gives a machine type with the layout of the type. -/
theorem layoutOf_lower (hL : L.Regular) (hs : L.Reachable s) (ht : L.takesRoom t = true) :
    ∃ h s', (L.lower t).run.run s = (.ok h, s') ∧ s'.table.layoutOf L.target h = some (L.layout t) := by
  obtain ⟨h, s', hrun, hs', -, hl⟩ := lower_of_takesRoom hL (hs.sound hL) ht
  exact ⟨h, s', hrun, hs'.layoutOf_lowered hL t (spares_idle _ t) ht hl⟩

/-- A pair of a half word and a word, told apart by a byte: one lowering of it. -/
theorem layoutOf_lower_sample :
    ∃ h s', ((⟨.sample, .standard⟩ : Lowering).lower ⟨23⟩).run.run .empty = (.ok h, s') ∧
      s'.table.layoutOf .sample h = some (Sizing.sample.layout ⟨23⟩) :=
  layoutOf_lower (L := ⟨.sample, .standard⟩) Sizing.regular_sample .empty (by decide +kernel)

end Lowering

/-! ## Vectors of enums that a slice tags -/

namespace Sizing

variable {Z : Sizing} {t : TypeId}

/-- In the empty session, nothing is known of any type. -/
theorem ensures_lowerValue_empty (post : Handle → Table → Prop)
    (h : Ensures (Z.lowerNew t fun c _ => Z.lowerValue c) .empty fun h s => post h s.table) :
    Ensures (Z.lowerValue t) .empty fun h s => post h s.table := by
  have hl : Session.empty.lowered[t]? = none := by simp [Session.empty]
  rw [lowerValue, memoized]
  refine Ensures.get_bind ?_
  rw [hl]
  exact h

theorem lowerNew_slice {lowerPart : Z.PartLowering t} {p : PointerTy} (hd : Z.get t = .pointer p)
    (hp : p.isSlice = true) : Z.lowerNew t lowerPart = onTable (lowerSlice Z.target t p.addrSpace) := by
  unfold lowerNew
  dsimp only
  split
  all_goals
    rename_i h
    rw [hd] at h
    cases h
  rw [if_pos hp]

theorem lowerNew_enum {lowerPart : Z.PartLowering t} {name : String} {tag : TypeId} {variants : List String}
    (hd : Z.get t = .enum name tag variants) (hr : Z.takesRoom t = true) :
    Z.lowerNew t lowerPart = lowerPart tag (SealedPool.mem_parts hd (by simp [Ty.parts])) := by
  unfold lowerNew
  dsimp only
  split
  all_goals
    rename_i h
    rw [hd] at h
    cases h
  rw [if_pos hr]

theorem lowerNew_vector {lowerPart : Z.PartLowering t} {len : Nat} {child : TypeId} (hd : Z.get t = .vector len child)
    (hn : len ≠ 0) (hr : Z.takesRoom t = true) (hb : Z.get child ≠ .bool) :
    Z.lowerNew t lowerPart = lowerPart child (SealedPool.mem_parts hd (by simp [Ty.parts, hn])) >>= fun elem =>
      onTable (Table.vector len elem) := by
  unfold lowerNew
  dsimp only
  split
  all_goals
    rename_i h
    rw [hd] at h
    cases h
  rw [dif_neg hn, if_pos hr, if_neg hb]

/-- A slice is lowered as a struct. -/
theorem ensures_lowerSlice (T : Target) (t : TypeId) (space : Nat) (table : Table) :
    Ensures (lowerSlice T t space) table fun h table' => ∃ fields, table'.Stores h (.struct false fields) := by
  have any : ∀ {α : Type} (act : StateM Table α) (table : Table), Ensures act table fun _ _ => True :=
    fun _ _ => trivial
  unfold lowerSlice
  refine (any _ table).bind fun ptr table₁ _ => (any _ table₁).bind fun len table₂ _ => ?_
  refine (any _ table₂).bind fun placed table₃ _ => (any _ table₃).bind fun built table₄ _ => ?_
  exact (Table.intern_spec (by trivial)).mono fun h table₅ hs => ⟨_, hs.2⟩

/-- In the empty session, a vector of an enum that a slice tags is lowered as a vector of structs. -/
theorem ensures_lowerValue_vector {len : Nat} {child tag : TypeId} {name : String} {variants : List String}
    {p : PointerTy} (hv : Z.get t = .vector len child) (hn : len ≠ 0) (he : Z.get child = .enum name tag variants)
    (hp : Z.get tag = .pointer p) (hs : p.isSlice = true) :
    Ensures (Z.lowerValue t) .empty fun h s =>
      ∃ elem fields, s.table.Stores h (.vector len elem) ∧ s.table.Stores elem (.struct false fields) := by
  have hrt : Z.takesRoom tag = true := by rw [Z.takesRoom_eq, hp]
  have hrc : Z.takesRoom child = true := by rw [Z.takesRoom_eq, he]; exact hrt
  have hrv : Z.takesRoom t = true := by rw [Z.takesRoom_eq, hv]; simp [hn, hrc]
  have hslice : Ensures (Z.lowerValue tag) .empty fun h s => ∃ fields, s.table.Stores h (.struct false fields) := by
    refine ensures_lowerValue_empty (fun h table => ∃ fields, table.Stores h (.struct false fields)) ?_
    rw [lowerNew_slice hp hs]
    exact (onTable_spec (ensures_lowerSlice Z.target tag p.addrSpace _)).mono fun _ _ h => h.2
  have henum : Ensures (Z.lowerValue child) .empty fun h s => ∃ fields, s.table.Stores h (.struct false fields) := by
    refine ensures_lowerValue_empty (fun h table => ∃ fields, table.Stores h (.struct false fields)) ?_
    rw [lowerNew_enum he hrc]
    exact hslice
  refine ensures_lowerValue_empty (fun h table => ∃ elem fields, table.Stores h (.vector len elem) ∧
    table.Stores elem (.struct false fields)) ?_
  rw [lowerNew_vector hv hn hrv (by simp [he])]
  refine henum.bind fun elem s ⟨fields, helem⟩ => ?_
  have hintern := @Table.intern_spec s.table (.vector len elem) (by trivial)
  exact (onTable_spec hintern).mono fun _ _ ⟨_, hext, hvector⟩ => ⟨elem, fields, hvector, hext.types _ _ helem⟩

end Sizing

theorem Table.layoutOf_vector_of_struct {t : Table} {T : Target} {h elem : Handle} {len : Nat} {packed : Bool}
    {fields : List Handle} (hv : t.Stores h (.vector len elem)) (hs : t.Stores elem (.struct packed fields)) :
    t.layoutOf T h = none := by
  rw [layoutOf_eq, layoutWithin, hv.get_eq]
  simp [scalarBits?, hs.get_eq]

namespace Lowering

variable {L : Lowering} {t : TypeId}

/-- A vector of an enum that a slice tags has no layout as a machine type. -/
theorem layoutOf_lower_vector_of_slices {len : Nat} {child tag : TypeId} {name : String} {variants : List String}
    {p : PointerTy} (hv : L.get t = .vector len child) (hn : len ≠ 0) (he : L.get child = .enum name tag variants)
    (hp : L.get tag = .pointer p) (hs : p.isSlice = true) :
    ∃ h s', (L.lower t).run.run .empty = (.ok h, s') ∧ s'.table.layoutOf L.target h = none := by
  obtain ⟨elem, fields, hvector, hstruct⟩ := Sizing.ensures_lowerValue_vector hv hn he hp hs
  have hf : L.fnTy? t = none := by simp [Pool.fnTy?, hv]
  rw [lower_of_value hf]
  exact ⟨_, _, rfl, Table.layoutOf_vector_of_struct hvector hstruct⟩

end Lowering

/-- The kinds of types that vectors have as elements, whatever the tag of an enum is. -/
def Ty.isElementKind : Ty → Bool
  | .bool | .int _ _ | .float _ | .enum _ _ _ | .errorSet _ => true
  | .pointer p => !p.isSlice
  | _ => false

/-- The primitive types, bytes behind a slice, an enum that such a slice tags, and two of it. -/
def Pool.sliceTagged : Pool :=
  let bytes : Ty := .pointer ⟨.u8, .slice, 0, .none⟩
  let kind : Ty := .enum "Kind" ⟨21⟩ ["half", "word"]
  let pair : Ty := .vector 2 ⟨22⟩
  ⟨(primitiveTypes ++ [bytes, kind, pair]).toArray⟩

theorem Pool.isSome_seal_sliceTagged : sliceTagged.seal?.isSome = true := by decide +kernel

def SealedPool.sliceTagged : SealedPool := Pool.sliceTagged.seal?.get Pool.isSome_seal_sliceTagged

theorem Sizing.settled_sliceTagged : (SealedPool.sliceTagged.extentRule .sample).Settled SealedPool.sliceTagged.toPool
    (SealedPool.sliceTagged.settled (SealedPool.sliceTagged.extentRule .sample)) := by
  decide +kernel

def Sizing.sliceTagged : Sizing := ofSettled .sliceTagged .sample settled_sliceTagged

/-- The kind of its elements alone does not give a vector a machine layout. -/
theorem Lowering.exists_layoutOf_lower_ne :
    ∃ L : Lowering, L.target.Supported ∧
      (∀ t bits, L.get t = .float bits → (FloatKind.ofBits? bits).isSome = true) ∧
      (∀ t len child, L.get t = .vector len child → (L.get child).isElementKind = true) ∧
      (∀ t, (L.get t).isPackedContainer = true → L.packedWidth t < packedWidthModulus) ∧
      (∀ t, (L.layout t).size ≤ Layout.maxSize) ∧
      ∃ t h s', L.takesRoom t = true ∧ (L.lower t).run.run .empty = (.ok h, s') ∧
        s'.table.layoutOf L.target h ≠ some (L.layout t) := by
  have hd : ∀ t, (Sizing.sliceTagged.get t).isSimple = true ∨ Sizing.sliceTagged.get t = .vector 2 ⟨22⟩ :=
    Pool.forall_get (fun d => d.isSimple = true ∨ d = .vector 2 ⟨22⟩) (Or.inl rfl) (by decide +kernel)
  obtain ⟨h, s', hrun, hnone⟩ := @layoutOf_lower_vector_of_slices ⟨.sliceTagged, .standard⟩ ⟨23⟩ 2 ⟨22⟩ ⟨21⟩ "Kind"
    ["half", "word"] ⟨.u8, .slice, 0, .none⟩ (by decide +kernel) (by decide) (by decide +kernel) (by decide +kernel) rfl
  refine ⟨⟨.sliceTagged, .standard⟩, Target.supported_sample, fun t bits ht => ?_, fun t len child ht => ?_, fun t ht => ?_,
    Sizing.size_layout_le (by decide +kernel), ⟨23⟩, h, s', by decide +kernel, hrun, ?_⟩
  · rcases hd t with h | h
    · rw [ht] at h
      exact h
    · rw [ht] at h
      cases h
  · rcases hd t with h | h
    · rw [ht] at h
      cases h
    · obtain ⟨-, rfl⟩ := Ty.vector.inj (ht.symm.trans h)
      exact (by decide +kernel : (Sizing.sliceTagged.get ⟨22⟩).isElementKind = true)
  · rcases hd t with h | h
    · rw [Ty.isPackedContainer_of_isSimple h] at ht
      cases ht
    · rw [h] at ht
      cases ht
  · rw [hnone]
    exact nofun

end MachineAbi
