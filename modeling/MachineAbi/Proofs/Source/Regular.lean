import MachineAbi.Proofs.Composition
import MachineAbi.Proofs.Source.Content
import MachineAbi.Proofs.Source.Sealing
import MachineAbi.Proofs.Target.Supported

/-!
# Regular sizings

What a front end promises about its types (`Sizing.Regular`): floats have a format, vectors have elements with one
machine scalar each (`Pool.IsElement`), and neither sizes nor the widths of packed containers overflow.

* Types without content have no extent at all (`Sizing.extent_of_not_hasContent`), and so have types without room.
* Values of every type can be placed by its layout, if only floats have a format (`Sizing.Formatted.placeable`).
-/

namespace MachineAbi

/-- A type that is packed bit by bit into one integer. -/
def Ty.isPackedContainer : Ty → Bool
  | struct s => s.isPacked
  | union u => u.isPacked
  | _ => false

/-- The types that can be the elements of a vector. -/
inductive Pool.IsElement (p : Pool) : TypeId → Prop
  | bool {t : TypeId} (h : p.get t = .bool) : p.IsElement t
  | int {t : TypeId} {bits : Nat} {sign : Signedness} (h : p.get t = .int bits sign) : p.IsElement t
  | float {t : TypeId} {bits : Nat} (h : p.get t = .float bits) : p.IsElement t
  | errorSet {t : TypeId} {set : ErrorSet} (h : p.get t = .errorSet set) : p.IsElement t
  | pointer {t : TypeId} {q : PointerTy} (h : p.get t = .pointer q) (hq : q.isSlice = false) : p.IsElement t
  | enum {t tag : TypeId} {name : String} {variants : List String} (h : p.get t = .enum name tag variants)
      (htag : p.IsElement tag) : p.IsElement t

/-- Every error union is over an error set. -/
def Pool.ErrorsAreCodes (p : Pool) : Prop :=
  ∀ t set payload, p.get t = .errorUnion set payload → ∃ e, p.get set = .errorSet e

/-- The tags of enums are integers. -/
def Pool.TagsAreIntegers (p : Pool) : Prop :=
  ∀ t name tag variants, p.get t = .enum name tag variants → ∃ bits sign, p.get tag = .int bits sign

namespace Sizing

/-- All floats have a format, on a supported target. -/
structure Formatted (Z : Sizing) : Prop where
  supported : Z.target.Supported
  floats : ∀ t bits, Z.get t = .float bits → (FloatKind.ofBits? bits).isSome = true

/-- What a front end promises about its types, on a supported target. -/
structure Regular (Z : Sizing) : Prop where
  supported : Z.target.Supported
  floats : ∀ t bits, Z.get t = .float bits → (FloatKind.ofBits? bits).isSome = true
  vectors : ∀ t len child, Z.get t = .vector len child → Z.IsElement child
  packed : ∀ t, (Z.get t).isPackedContainer = true → Z.packedWidth t < packedWidthModulus
  sizes : ∀ t, (Z.layout t).size ≤ Layout.maxSize

variable {Z : Sizing} {T : Target}

theorem Regular.formatted (hZ : Z.Regular) : Z.Formatted := ⟨hZ.supported, hZ.floats⟩

theorem layout_of_extent {t : TypeId} {e : Extent} (h : Z.extent t = e) : Z.layout t = e.layout := congrArg _ h

/-! ## One kind of type at a time -/

section

variable {t : TypeId}

theorem extent_of_get {d : Ty} (hd : Z.get t = d) : Z.extent t = (Z.extentRule Z.target).infer Z.extent d :=
  hd ▸ Z.extents_hold t

theorem layout_pointer {p : PointerTy} (hd : Z.get t = .pointer p) : Z.layout t = p.layout Z.target := by
  refine (layout_of_extent (extent_of_get hd)).trans ?_
  dsimp only [SealedPool.extentRule]
  split <;> rfl

theorem layout_array {len : Nat} {child : TypeId} {sentinel : Bool} (hd : Z.get t = .array len child sentinel)
    (hn : elementCount len sentinel ≠ 0) : Z.layout t = .times (elementCount len sentinel) (Z.layout child) := by
  refine (layout_of_extent (extent_of_get hd)).trans ?_
  dsimp only [SealedPool.extentRule]
  rw [if_neg hn]
  rfl

theorem layout_vector {len : Nat} {child : TypeId} (hd : Z.get t = .vector len child) (hn : len ≠ 0) :
    Z.layout t = Z.target.vectorLayout (len * Z.packedWidth child) := by
  refine (layout_of_extent (extent_of_get hd)).trans ?_
  dsimp only [SealedPool.extentRule]
  rw [if_neg hn]
  rfl

theorem layout_optional {child : TypeId} (hd : Z.get t = .optional child) :
    Z.layout t = (Z.optionalRepr child).layout (Z.layout child) :=
  layout_of_extent (extent_of_get hd)

theorem extent_errorSet {set : ErrorSet} (hd : Z.get t = .errorSet set) (hs : set.hasBits = true) :
    Z.extent t = .ofLayout Z.target.errorCodeLayout := by
  refine (extent_of_get hd).trans ?_
  dsimp only [SealedPool.extentRule]
  rw [if_pos hs]

theorem layout_errorSet {set : ErrorSet} (hd : Z.get t = .errorSet set) (hs : set.hasBits = true) :
    Z.layout t = ⟨2, 2⟩ :=
  (layout_of_extent (extent_errorSet hd hs)).trans Target.errorCodeLayout_eq

theorem layout_u8 (Z : Sizing) : Z.layout .u8 = ⟨1, 1⟩ :=
  (layout_of_extent (extent_of_get Z.get_u8)).trans Target.intLayout_byte

theorem layout_errorUnion {set payload : TypeId} (hd : Z.get t = .errorUnion set payload) :
    Z.layout t = (Z.errorUnionRepr set payload).layout Z.target.errorCodeLayout (Z.layout payload) :=
  layout_of_extent (extent_of_get hd)

theorem extent_enum {name : String} {tag : TypeId} {variants : List String} (hd : Z.get t = .enum name tag variants) :
    Z.extent t = Z.extent tag :=
  extent_of_get hd

theorem layout_struct {s : StructTy} (hd : Z.get t = .struct s) (hs : s.isPacked = false) :
    Z.layout t = .compose (s.stored.map Z.layout) := by
  refine (layout_of_extent (extent_of_get hd)).trans ?_
  dsimp only [SealedPool.extentRule]
  rw [if_neg (by simp [hs])]
  rfl

theorem layout_tuple {fields : List FieldTy} (hd : Z.get t = .tuple fields) :
    Z.layout t = .compose ((storedTypes fields).map Z.layout) :=
  layout_of_extent (extent_of_get hd)

theorem layout_union {u : UnionTy} (hd : Z.get t = .union u) (hu : u.isPacked = false) :
    Z.layout t = (Z.payloadLayout u).tagged ((Z.storedTag? u).map Z.layout) := by
  refine (layout_of_extent (extent_of_get hd)).trans ?_
  dsimp only [SealedPool.extentRule]
  rw [if_neg (by simp [hu])]
  rfl

/-- A packed container is laid out as one integer of its width. -/
theorem layout_packed (h : (Z.get t).isPackedContainer = true) : Z.layout t = Z.target.intLayout (Z.packedWidth t) := by
  have key : ∀ bits, Z.extent t = .ofBits Z.target bits → Z.layout t = Z.target.intLayout (Z.packedWidth t) := by
    intro bits he
    rw [layout, packedWidth, he]
    rfl
  cases hd : Z.get t with
  | struct s =>
    have hs : s.isPacked = true := by simpa [hd, Ty.isPackedContainer] using h
    have he := extent_of_get hd
    dsimp only [SealedPool.extentRule] at he
    rw [if_pos hs] at he
    exact key _ he
  | union u =>
    have hu : u.isPacked = true := by simpa [hd, Ty.isPackedContainer] using h
    have he := extent_of_get hd
    dsimp only [SealedPool.extentRule] at he
    rw [if_pos hu] at he
    exact key _ he
  | _ => simp [hd, Ty.isPackedContainer] at h

end

/-! ## Representations and room -/

/-- The representation of an error union tells which of its halves take room. -/
theorem room_of_errorUnionRepr (Z : Sizing) (set payload : TypeId) :
    (Z.takesRoom set, Z.takesRoom payload) =
      match Z.errorUnionRepr set payload with
      | .empty => (false, false)
      | .payloadOnly => (false, true)
      | .errorOnly => (true, false)
      | .errorFirst | .payloadFirst => (true, true) := by
  unfold errorUnionRepr ErrorUnionRepr.of
  cases Z.takesRoom set <;> cases Z.takesRoom payload
  · rfl
  · rfl
  · rfl
  · dsimp only
    split
    · rename_i h
      split at h <;> cases h
    · rename_i h
      split at h <;> cases h
    · rename_i h
      split at h <;> cases h
    · rfl
    · rfl

/-- Only a payload that takes room is kept in an optional. -/
theorem room_of_optionalRepr (Z : Sizing) (child : TypeId) :
    Z.takesRoom child = (Z.optionalRepr child != .flagOnly) := by
  unfold SealedPool.optionalRepr
  cases Z.takesRoom child <;> cases Z.hasInBandNull child <;> rfl

/-! ## Types without content -/

theorem storedTag?_eq_none {u : UnionTy} (h : u.usedTag?.any Z.takesRoom = false) : Z.storedTag? u = none := by
  unfold SealedPool.storedTag?
  cases ht : u.usedTag? with
  | none => rfl
  | some tag =>
    rw [ht] at h
    exact Option.filter_eq_none_iff.2 fun c hc => by rw [← Option.some.inj hc]; simpa using h

theorem ofLayout_zero : Extent.ofLayout .zero = .none := rfl

theorem ofBits_zero (T : Target) : Extent.ofBits T 0 = .none := by simp [Extent.ofBits, Target.intLayout, Extent.none]

theorem layouts_of_extents {ts : List TypeId} (h : ∀ c ∈ ts, Z.extent c = .none) : ∀ l ∈ ts.map Z.layout, l = .zero := by
  intro l hl
  obtain ⟨c, hc, rfl⟩ := List.mem_map.1 hl
  exact layout_of_extent (h c hc)

theorem sum_packedWidth_of_extents {ts : List TypeId} (h : ∀ c ∈ ts, Z.extent c = .none) :
    (ts.map Z.packedWidth).foldr (· + ·) 0 = 0 := by
  induction ts with
  | nil => rfl
  | cons c ts ih =>
    have hc : Z.packedWidth c = 0 := congrArg Extent.bits (h c List.mem_cons_self)
    rw [List.map_cons, List.foldr_cons, hc, Nat.zero_add]
    exact ih fun d hd => h d (List.mem_cons_of_mem _ hd)

theorem max_packedWidth_of_extents {ts : List TypeId} (h : ∀ c ∈ ts, Z.extent c = .none) :
    (ts.map Z.packedWidth).foldl max 0 = 0 := by
  induction ts with
  | nil => rfl
  | cons c ts ih =>
    have hc : Z.packedWidth c = 0 := congrArg Extent.bits (h c List.mem_cons_self)
    rw [List.map_cons, List.foldl_cons, hc]
    exact ih fun d hd => h d (List.mem_cons_of_mem _ hd)

/-- A type whose values store nothing has size zero, and width zero in a packed container. -/
theorem extent_of_not_hasContent (hT : Z.target.Supported) (t : TypeId) (h : ¬Z.HasContent t) : Z.extent t = .none := by
  induction t using Z.induction_on_parts with
  | step t ih =>
  have hown : ¬(Z.get t).StoresOwn Z.takesRoom := fun hown => h (.self hown)
  have part : ∀ {d : Ty} {c : TypeId}, Z.get t = d → c ∈ d.parts → Z.extent c = .none := by
    intro d c hd hc
    have hc := SealedPool.mem_parts hd hc
    exact ih c hc fun hcontent => h (.part hc hcontent)
  rw [Z.extent_eq]
  cases hd : Z.get t with
  | void | noreturn | comptime | opaqueType | function => rfl
  | bool | float | pointer | optional => simp [hd, Ty.StoresOwn] at hown
  | int bits sign =>
    obtain rfl : bits = 0 := by simpa [hd, Ty.StoresOwn] using hown
    exact ofBits_zero _
  | array len child sentinel =>
    dsimp only
    split
    · rfl
    · rename_i hn
      rw [layout_of_extent (part hd (by simp [Ty.parts, hn]))]
      exact (congrArg Extent.ofLayout (Layout.times_zero _)).trans ofLayout_zero
  | vector len child =>
    dsimp only
    split
    · rfl
    · rename_i hn
      have hw : Z.packedWidth child = 0 := congrArg Extent.bits (part hd (by simp [Ty.parts, hn]))
      rw [hw, Nat.mul_zero, Target.vectorLayout_zero hT]
      rfl
  | errorSet set =>
    have hs : set.hasBits = false := by simpa [hd, Ty.StoresOwn] using hown
    simp [hs]
  | errorUnion set payload =>
    have hs : Z.takesRoom set = false := by simpa [hd, Ty.StoresOwn] using hown
    have hp : Z.layout payload = .zero := layout_of_extent (part hd (by simp [Ty.parts]))
    cases hr : Z.takesRoom payload <;>
      simp [errorUnionRepr, ErrorUnionRepr.of, hs, hr, hp, ErrorUnionRepr.layout, ofLayout_zero]
  | enum name tag variants => exact part hd (by simp [Ty.parts])
  | struct s =>
    have hs : ∀ c ∈ s.stored, Z.extent c = .none := fun c hc => part hd hc
    dsimp only
    split
    · rw [sum_packedWidth_of_extents hs, ofBits_zero]
    · rw [Layout.compose_zero (layouts_of_extents hs), ofLayout_zero]
  | tuple fields =>
    have hs : ∀ c ∈ storedTypes fields, Z.extent c = .none := fun c hc => part hd hc
    dsimp only
    rw [Layout.compose_zero (layouts_of_extents hs), ofLayout_zero]
  | union u =>
    have hs : ∀ c ∈ u.memberTypes, Z.extent c = .none := fun c hc => part hd (List.mem_append_right _ hc)
    dsimp only
    split
    · rw [max_packedWidth_of_extents hs, ofBits_zero]
    · rename_i hu
      have htag : ∀ l ∈ (Z.storedTag? u).map Z.layout, l = .zero := by
        intro l hl
        obtain ⟨tag, ht, rfl⟩ := Option.map_eq_some_iff.1 hl
        exact layout_of_extent (part hd (SealedPool.mem_parts_of_storedTag (by simpa using hu) ht))
      rw [payloadLayout, Layout.overlay_zero (layouts_of_extents hs), Layout.tagged_zero htag, ofLayout_zero]

theorem extent_of_not_takesRoom (hT : Z.target.Supported) (t : TypeId) (h : Z.takesRoom t = false) :
    Z.extent t = .none := by
  refine extent_of_not_hasContent hT t fun hc => ?_
  rw [hc.takesRoom] at h
  cases h

theorem layout_of_not_takesRoom (hT : Z.target.Supported) {t : TypeId} (h : Z.takesRoom t = false) :
    Z.layout t = .zero :=
  layout_of_extent (extent_of_not_takesRoom hT t h)

/-! ## Types are placed by their layouts -/

theorem placeable_intLayout (hT : T.Supported) (bits : Nat) : (T.intLayout bits).Placeable := by
  by_cases hb : bits = 0
  · rw [Target.intLayout, if_pos hb]
    exact Layout.Placeable.zero
  · exact .of_size_pos (Target.isPowerOfTwo_intAlign hT bits) (Target.intLayout_size_pos hT hb)

theorem placeable_vectorLayout (hT : T.Supported) (bits : Nat) : (T.vectorLayout bits).Placeable := by
  by_cases hb : bits = 0
  · rw [hb, Target.vectorLayout_zero hT]
    exact Layout.Placeable.zero
  · exact .of_size_pos (Target.isPowerOfTwo_vectorAlign hT bits) (Target.vectorLayout_size_pos hT hb)

theorem placeable_byte : (Layout.mk 1 1).Placeable := .of_size_pos Nat.isPowerOfTwo_one Nat.one_pos

theorem placeable_pointer (hT : T.Supported) (p : PointerTy) : (p.layout T).Placeable := by
  have hptr : (T.machinePtr p.addrSpace).Placeable :=
    .of_size_pos (Target.machinePtr_sane hT p.addrSpace).1 (Target.machinePtr_sane hT p.addrSpace).2
  unfold PointerTy.layout
  dsimp only
  split
  · refine Layout.Placeable.compose fun l hl => ?_
    rcases List.mem_cons.1 hl with rfl | hl
    · exact hptr
    · obtain rfl := List.mem_singleton.1 hl
      exact placeable_intLayout hT _
  · exact hptr

theorem placeable_times {l : Layout} (h : l.Placeable) {n : Nat} (hn : n ≠ 0) : (l.times n).Placeable := by
  refine ⟨h.align, fun hs => h.anywhere ?_⟩
  have hmax : 0 < Layout.maxSize := by decide
  have hs : min (n * l.size) Layout.maxSize = 0 := hs
  have hmul : n * l.size = 0 := by omega
  exact (Nat.mul_eq_zero.1 hmul).resolve_left hn

theorem placeable_optional {l : Layout} (h : l.Placeable) (r : OptionalRepr) : (r.layout l).Placeable := by
  cases r with
  | flagOnly => exact placeable_byte
  | payload => exact h
  | payloadAndFlag => exact Layout.Placeable.compose (by simp [h, placeable_byte])

theorem placeable_errorUnion {code l : Layout} (hc : code.Placeable) (h : l.Placeable) (r : ErrorUnionRepr) :
    (r.layout code l).Placeable := by
  cases r with
  | empty => exact Layout.Placeable.zero
  | payloadOnly => exact h
  | errorOnly => exact hc
  | errorFirst | payloadFirst => exact Layout.Placeable.compose (by simp [h, hc])

/-- Values of every type can be placed by the layout of the type. -/
theorem Formatted.placeable (hZ : Z.Formatted) (t : TypeId) : (Z.layout t).Placeable := by
  have hT := hZ.supported
  have hcode : Z.target.errorCodeLayout.Placeable := placeable_intLayout hT _
  induction t using Z.induction_on_parts with
  | step t ih =>
  have part : ∀ {d : Ty} {c : TypeId}, Z.get t = d → c ∈ d.parts → (Z.layout c).Placeable :=
    fun hd hc => ih _ (SealedPool.mem_parts hd hc)
  have parts : ∀ {d : Ty} {cs : List TypeId}, Z.get t = d → (∀ c ∈ cs, c ∈ d.parts) →
      ∀ l ∈ cs.map Z.layout, l.Placeable := by
    intro d cs hd hcs l hl
    obtain ⟨c, hc, rfl⟩ := List.mem_map.1 hl
    exact part hd (hcs c hc)
  rw [layout, Z.extent_eq]
  cases hd : Z.get t with
  | void | noreturn | comptime | opaqueType | function => exact Layout.Placeable.zero
  | bool => exact placeable_byte
  | int bits sign => exact placeable_intLayout hT bits
  | float bits =>
    obtain ⟨k, hk⟩ := Option.isSome_iff_exists.1 (hZ.floats t bits hd)
    exact .of_size_pos (Target.isPowerOfTwo_floatLayout hT bits) (Target.floatLayout_size_pos hT hk)
  | pointer p =>
    dsimp only
    split
    · exact placeable_pointer hT p
    · exact placeable_pointer hT p
  | array len child sentinel =>
    dsimp only
    split
    · exact Layout.Placeable.zero
    · rename_i hn
      exact placeable_times (part hd (by simp [Ty.parts, hn])) hn
  | vector len child =>
    dsimp only
    split
    · exact Layout.Placeable.zero
    · exact placeable_vectorLayout hT _
  | optional child =>
    exact placeable_optional (part hd (by simp [Ty.parts])) _
  | errorSet set =>
    dsimp only
    split
    · exact hcode
    · exact Layout.Placeable.zero
  | errorUnion set payload =>
    exact placeable_errorUnion hcode (part hd (by simp [Ty.parts])) _
  | enum name tag variants => exact part hd (by simp [Ty.parts])
  | struct s =>
    dsimp only
    split
    · exact placeable_intLayout hT _
    · exact Layout.Placeable.compose (parts hd fun c hc => hc)
  | tuple fields => exact Layout.Placeable.compose (parts hd fun c hc => hc)
  | union u =>
    dsimp only
    split
    · exact placeable_intLayout hT _
    · rename_i hu
      refine Layout.Placeable.tagged (Layout.Placeable.overlay (parts hd fun c hc => List.mem_append_right _ hc)) ?_
      intro l hl
      obtain ⟨tag, htag, rfl⟩ := Option.map_eq_some_iff.1 hl
      exact part hd (SealedPool.mem_parts_of_storedTag (by simpa using hu) htag)

theorem placeable (hZ : Z.Regular) (t : TypeId) : (Z.layout t).Placeable := hZ.formatted.placeable t

/-! ## A regular sizing -/

/-- The sizing of a pool by a table that is gone over until nothing changes. -/
def ofSettled (P : SealedPool) (T : Target) (h : (P.extentRule T).Settled P.toPool (P.settled (P.extentRule T))) :
    Sizing :=
  { P with
    target := T
    extents := P.settled (P.extentRule T)
    extents_hold := h.holds }

/-- Only the types that the pool has handed out have a size. -/
theorem size_layout_le {n : Nat} (h : ∀ k, k < Z.size → (Z.layout ⟨k⟩).size ≤ n) (t : TypeId) :
    (Z.layout t).size ≤ n := by
  by_cases ht : t.raw < Z.size
  · exact h t.raw ht
  · have hd : Z.get t = .void := Pool.get_of_size_le (Nat.le_of_not_lt ht)
    rw [layout_of_extent (extent_of_get hd)]
    exact Nat.zero_le n

end Sizing

/-- What holds of `void` and of the types that a pool has handed out holds of all it knows. -/
theorem Pool.forall_get {p : Pool} (P : Ty → Prop) (hv : P .void) (h : ∀ k, k < p.size → P (p.get ⟨k⟩)) (t : TypeId) :
    P (p.get t) := by
  by_cases ht : t.raw < p.size
  · exact h t.raw ht
  · rw [get_of_size_le (Nat.le_of_not_lt ht)]
    exact hv

/-- Whether a type, if it is a float, has a format. -/
def Ty.isFormatted : Ty → Bool
  | .float bits => (FloatKind.ofBits? bits).isSome
  | _ => true

theorem Sizing.formatted_of_get {Z : Sizing} (hT : Z.target.Supported)
    (h : ∀ k, k < Z.size → (Z.get ⟨k⟩).isFormatted = true) : Z.Formatted := by
  refine ⟨hT, fun t bits hd => ?_⟩
  have ht := Pool.forall_get (·.isFormatted = true) rfl h t
  rw [hd] at ht
  exact ht

/-- Whether a type by itself keeps the promises of a regular sizing, except that of its size. -/
def Ty.isSimple : Ty → Bool
  | .float bits => (FloatKind.ofBits? bits).isSome
  | .vector _ _ => false
  | d => !d.isPackedContainer

theorem Ty.isPackedContainer_of_isSimple {d : Ty} (h : d.isSimple = true) : d.isPackedContainer = false := by
  cases d with
  | struct s | union u => simpa [isSimple] using h
  | _ => rfl

/-- The error half of an error union. -/
def Ty.errorHalf? : Ty → Option TypeId
  | errorUnion set _ => some set
  | _ => none

def Ty.isErrorSet : Ty → Bool
  | errorSet _ => true
  | _ => false

/-- The tag of an enum. -/
def Ty.enumTag? : Ty → Option TypeId
  | enum _ tag _ => some tag
  | _ => none

def Ty.isInt : Ty → Bool
  | int _ _ => true
  | _ => false

namespace Sizing

/-- A sizing without vectors and packed containers that keeps all promises, as can be seen from the types that its pool
has handed out, one by one. -/
structure Plain (Z : Sizing) : Prop where
  simple : ∀ k, k < Z.size → (Z.get ⟨k⟩).isSimple = true
  small : ∀ k, k < Z.size → (Z.layout ⟨k⟩).size ≤ Layout.maxSize
  errors : ∀ k, k < Z.size → ((Z.get ⟨k⟩).errorHalf?.all fun set => (Z.get set).isErrorSet) = true
  tags : ∀ k, k < Z.size → ((Z.get ⟨k⟩).enumTag?.all fun tag => (Z.get tag).isInt) = true

instance (Z : Sizing) : Decidable Z.Plain :=
  decidable_of_iff
    ((∀ k, k < Z.size → (Z.get ⟨k⟩).isSimple = true) ∧ (∀ k, k < Z.size → (Z.layout ⟨k⟩).size ≤ Layout.maxSize) ∧
      (∀ k, k < Z.size → ((Z.get ⟨k⟩).errorHalf?.all fun set => (Z.get set).isErrorSet) = true) ∧
      ∀ k, k < Z.size → ((Z.get ⟨k⟩).enumTag?.all fun tag => (Z.get tag).isInt) = true)
    ⟨fun h => ⟨h.1, h.2.1, h.2.2.1, h.2.2.2⟩, fun h => ⟨h.simple, h.small, h.errors, h.tags⟩⟩

namespace Plain

variable {Z : Sizing}

theorem regular (h : Z.Plain) (hT : Z.target.Supported) : Z.Regular := by
  have simple : ∀ t, (Z.get t).isSimple = true := Pool.forall_get (·.isSimple = true) rfl h.simple
  refine ⟨hT, fun t bits hd => ?_, fun t len child hd => ?_, fun t hp => ?_, size_layout_le h.small⟩
  · have ht := simple t
    rw [hd] at ht
    exact ht
  · have ht := simple t
    rw [hd] at ht
    cases ht
  · rw [Ty.isPackedContainer_of_isSimple (simple t)] at hp
    cases hp

theorem errorsAreCodes (h : Z.Plain) : Z.ErrorsAreCodes := by
  intro t set payload hd
  have ht := Pool.forall_get (fun d => (d.errorHalf?.all fun set => (Z.get set).isErrorSet) = true) rfl h.errors t
  rw [hd] at ht
  have ht : (Z.get set).isErrorSet = true := ht
  cases hs : Z.get set with
  | errorSet e => exact ⟨e, rfl⟩
  | _ => simp [hs, Ty.isErrorSet] at ht

theorem tagsAreIntegers (h : Z.Plain) : Z.TagsAreIntegers := by
  intro t name tag variants hd
  have ht := Pool.forall_get (fun d => (d.enumTag?.all fun tag => (Z.get tag).isInt) = true) rfl h.tags t
  rw [hd] at ht
  have ht : (Z.get tag).isInt = true := ht
  cases hi : Z.get tag with
  | int bits sign => exact ⟨bits, sign, rfl⟩
  | _ => simp [hi, Ty.isInt] at ht

end Plain

end Sizing

/-- A descriptor as most programs see it. -/
def Target.sample : Target :=
  .ofComponents "x86_64-unknown-linux-gnu" ⟨"x86_64", "unknown", "linux", some "gnu"⟩ .x86_64

theorem Target.supported_sample : sample.Supported := ⟨"x86_64-unknown-linux-gnu", rfl⟩

/-- The primitive types, a wide integer, an enum, a union that it tags, and an error union. -/
def Pool.sample : Pool :=
  let wide : Ty := .int 256 .unsigned
  let kind : Ty := .enum "Kind" .u8 ["half", "word"]
  let value : Ty := .union ⟨"Value", .auto, some ⟨22⟩, [⟨"half", ⟨6⟩⟩, ⟨"word", ⟨8⟩⟩]⟩
  let failing : Ty := .errorUnion .anyError ⟨23⟩
  ⟨(primitiveTypes ++ [wide, kind, value, failing]).toArray⟩

theorem Pool.isSome_seal_sample : sample.seal?.isSome = true := by decide +kernel

def SealedPool.sample : SealedPool := Pool.sample.seal?.get Pool.isSome_seal_sample

namespace Sizing

theorem settled_sample : (SealedPool.sample.extentRule .sample).Settled SealedPool.sample.toPool
    (SealedPool.sample.settled (SealedPool.sample.extentRule .sample)) := by
  decide +kernel

def sample : Sizing := ofSettled .sample .sample settled_sample

theorem plain_sample : sample.Plain := by decide +kernel

theorem regular_sample : sample.Regular :=
  plain_sample.regular Target.supported_sample

theorem errorsAreCodes_sample : sample.ErrorsAreCodes :=
  plain_sample.errorsAreCodes

end Sizing

/-- The primitive types, an enum, a packed union of two empty members that it tags, an array with a sentinel, and a union
that holds it. -/
def Pool.assorted : Pool :=
  let kind : Ty := .enum "Kind" .u8 ["half", "word"]
  let marker : Ty := .union ⟨"Marker", .packed, some ⟨21⟩, [⟨"half", .void⟩, ⟨"word", .void⟩]⟩
  let halves : Ty := .array 3 ⟨6⟩ true
  let value : Ty := .union ⟨"Value", .auto, some ⟨21⟩, [⟨"word", ⟨8⟩⟩, ⟨"halves", ⟨23⟩⟩]⟩
  ⟨(primitiveTypes ++ [kind, marker, halves, value]).toArray⟩

namespace Sizing

theorem exists_assorted : ∃ Z : Sizing, Z.toPool = .assorted ∧ Z.target = .sample ∧ Z.Formatted := by
  have hacyclic : Pool.assorted.Acyclic := Pool.acyclic_of_parts_lt (by decide)
  obtain ⟨P, hP⟩ := Pool.assorted.exists_sealed_iff.2 ⟨by decide, hacyclic⟩
  refine ⟨.of P .sample, hP, rfl, formatted_of_get Target.supported_sample ?_⟩
  have hformats : ∀ k, k < Pool.assorted.size → (Pool.assorted.get ⟨k⟩).isFormatted = true := by decide
  rw [← hP] at hformats
  exact hformats

end Sizing

end MachineAbi
