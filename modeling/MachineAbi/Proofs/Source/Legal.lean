import MachineAbi.Proofs.Source.Payload

/-!
# Legal layouts

Alignments are powers of two, sizes are multiples of alignments, and the bits of a value fit into its bytes
(`Sizing.Legal`). All types have such layouts where no array is too long to be measured (`Sizing.legal`).

* A type keeps the size of a part, repeats it, or composes its parts and pads the whole. So its size is a multiple of
  its alignment if that holds of the parts that are no larger (`Sizing.align_dvd_size_of_parts`).
* Only arrays are out of line: where the size of one is cut off (`Sizing.Uncut`), it need not be a multiple of anything.
* Scalars and packed containers are as wide as the integer, float or vector that holds them has bits
  (`Sizing.packedWidth_le`).
-/

namespace MachineAbi

/-! ## Scalars -/

namespace Target

variable {T : Target}

theorem dvd_intLayout (hT : T.Supported) (bits : Nat) : (T.intLayout bits).align ∣ (T.intLayout bits).size := by
  rw [intLayout]
  split
  · exact Nat.one_dvd _
  · exact dvd_alignUp (isPowerOfTwo_intTyAlign hT bits)

theorem dvd_floatLayout (hT : T.Supported) {bits : Nat} (hb : (FloatKind.ofBits? bits).isSome = true) :
    (T.floatLayout bits).align ∣ (T.floatLayout bits).size := by
  obtain ⟨k, hk⟩ := Option.isSome_iff_exists.1 hb
  rcases floatType_cases hT hk with ⟨-, hl⟩ | ⟨-, hl⟩
  · rw [← hl]
    exact dvd_alignUp (isPowerOfTwo_floatAlign hT _)
  · rw [← hl, machineInt_eq hT]
    exact dvd_intLayout hT bits

theorem dvd_machinePtr (hT : T.Supported) (space : Nat) : (T.machinePtr space).align ∣ (T.machinePtr space).size := by
  obtain ⟨text, triple, arch, rfl⟩ := hT.eq_ofComponents
  refine pointerLayout_induction (P := fun a => a.layout.align ∣ a.layout.size) ?_ space
  have h : ∀ a ∈ arch.mainSpace :: arch.otherSpaces, a.layout.align ∣ a.layout.size := by
    cases arch <;> decide
  exact h

theorem le_bytesFor (bits : Nat) : bits ≤ 8 * bytesFor bits := by
  unfold bytesFor
  omega

theorem bits_le_intLayout (hT : T.Supported) (bits : Nat) : bits ≤ 8 * (T.intLayout bits).size := by
  by_cases hb : bits = 0
  · rw [hb]
    exact Nat.zero_le _
  · have hle : bytesFor bits ≤ (T.intLayout bits).size := by
      rw [intLayout, if_neg hb]
      exact le_alignUp (isPowerOfTwo_intTyAlign hT bits)
    have hbytes := le_bytesFor bits
    omega

theorem bits_le_floatLayout (hT : T.Supported) {bits : Nat} (hb : (FloatKind.ofBits? bits).isSome = true) :
    bits ≤ 8 * (T.floatLayout bits).size := by
  obtain ⟨k, hk⟩ := Option.isSome_iff_exists.1 hb
  rcases floatType_cases hT hk with ⟨-, hl⟩ | ⟨-, hl⟩
  · have hle : k.storeBytes ≤ (T.machineFloat k).size := le_alignUp (isPowerOfTwo_floatAlign hT _)
    have hstore : bits = 8 * k.storeBytes := by
      obtain rfl := FloatKind.ofBits?_eq_some_iff.1 hk
      cases k <;> rfl
    rw [← hl]
    omega
  · rw [← hl, machineInt_eq hT]
    exact bits_le_intLayout hT bits

theorem bits_le_vectorLayout (hT : T.Supported) (bits : Nat) : bits ≤ 8 * (T.vectorLayout bits).size := by
  have hle : bytesFor bits ≤ (T.vectorLayout bits).size := le_alignUp (isPowerOfTwo_vectorAlign hT bits)
  have hbytes := le_bytesFor bits
  omega

end Target

def Ty.isArray : Ty → Bool
  | array _ _ _ => true
  | _ => false

namespace Sizing

variable {Z : Sizing} {t : TypeId}

/-! ## Sizes are multiples of alignments -/

section

variable {l : Layout}

theorem dvd_pointer {T : Target} (hT : T.Supported) (p : PointerTy) : (p.layout T).align ∣ (p.layout T).size := by
  unfold PointerTy.layout
  dsimp only
  split
  · apply Layout.Placeable.dvd_compose
    intro l hl
    rcases List.mem_cons.1 hl with rfl | hl
    · exact .of_size_pos (Target.machinePtr_sane hT p.addrSpace).1 (Target.machinePtr_sane hT p.addrSpace).2
    · obtain rfl := List.mem_singleton.1 hl
      exact placeable_intLayout hT _
  · exact Target.dvd_machinePtr hT p.addrSpace

theorem dvd_optional (hl : l.Placeable) {r : OptionalRepr} (h : r = .payload → l.align ∣ l.size) :
    (r.layout l).align ∣ (r.layout l).size := by
  cases r with
  | flagOnly => exact Nat.one_dvd _
  | payload => exact h rfl
  | payloadAndFlag => exact Layout.Placeable.dvd_compose (by simp [hl, placeable_byte])

theorem dvd_errorUnion {code : Layout} (hc : code.Placeable) (hcd : code.align ∣ code.size) (hl : l.Placeable)
    {r : ErrorUnionRepr} (h : r = .payloadOnly → l.align ∣ l.size) :
    (r.layout code l).align ∣ (r.layout code l).size := by
  cases r with
  | empty => exact Nat.one_dvd _
  | payloadOnly => exact h rfl
  | errorOnly => exact hcd
  | errorFirst | payloadFirst => exact Layout.Placeable.dvd_compose (by simp [hl, hc])

theorem dvd_tagged (hl : l.Placeable) (hd : l.align ∣ l.size) {tag : Option Layout} (ht : ∀ m ∈ tag, m.Placeable) :
    (l.tagged tag).align ∣ (l.tagged tag).size := by
  cases tag with
  | none => exact hd
  | some m =>
    have hm := ht m rfl
    unfold Layout.tagged
    dsimp only
    split
    · exact Layout.Placeable.dvd_compose (by simp [hl, hm])
    · exact Layout.Placeable.dvd_compose (by simp [hl, hm])

end

/-- The type is no array, or the sizes of its elements add up to one that can be reported. -/
def Uncut (Z : Sizing) (t : TypeId) : Prop :=
  ∀ len child sentinel, Z.get t = .array len child sentinel →
    elementCount len sentinel * (Z.layout child).size ≤ Layout.maxSize

/-- A size below the largest was not cut off. -/
theorem uncut_of_size_lt (h : (Z.layout t).size < Layout.maxSize) : Z.Uncut t := by
  intro len child sentinel hd
  by_cases hn : elementCount len sentinel = 0
  · rw [hn, Nat.zero_mul]
    exact Nat.zero_le _
  · rw [layout_array hd hn] at h
    have hmin : min (elementCount len sentinel * (Z.layout child).size) Layout.maxSize < Layout.maxSize := h
    omega

/-- An array that is not cut off is as long as its elements together, so none of them is longer. -/
theorem Uncut.size_array (h : Z.Uncut t) {len : Nat} {child : TypeId} {sentinel : Bool}
    (hd : Z.get t = .array len child sentinel) (hn : elementCount len sentinel ≠ 0) :
    (Z.layout t).size = elementCount len sentinel * (Z.layout child).size ∧
      (Z.layout child).size ≤ (Z.layout t).size := by
  have hsize : (Z.layout t).size = elementCount len sentinel * (Z.layout child).size := by
    rw [layout_array hd hn]
    exact Nat.min_eq_left (h len child sentinel hd)
  constructor
  · exact hsize
  · rw [hsize]
    exact Nat.le_mul_of_pos_left _ (Nat.pos_of_ne_zero hn)

/-- The size of a type is a multiple of its alignment if that holds of the parts that are no larger than it. -/
theorem align_dvd_size_of_parts (hZ : Z.Formatted) (hcut : Z.Uncut t)
    (ih : ∀ c ∈ (Z.get t).parts, (Z.layout c).size ≤ (Z.layout t).size → (Z.layout c).align ∣ (Z.layout c).size) :
    (Z.layout t).align ∣ (Z.layout t).size := by
  have hT := hZ.supported
  have compose : ∀ ts : List TypeId,
      (Layout.compose (ts.map Z.layout)).align ∣ (Layout.compose (ts.map Z.layout)).size := by
    intro ts
    apply Layout.Placeable.dvd_compose
    intro l hl
    obtain ⟨c, -, rfl⟩ := List.mem_map.1 hl
    exact hZ.placeable c
  -- An enum, and an optional or an error union that is represented as its payload, is laid out as that part is.
  have same : ∀ c ∈ (Z.get t).parts, Z.layout t = Z.layout c → (Z.layout c).align ∣ (Z.layout c).size :=
    fun c hc heq => ih c hc (Nat.le_of_eq (by rw [heq]))
  have packed : (Z.get t).isPackedContainer = true → (Z.layout t).align ∣ (Z.layout t).size := by
    intro hp
    rw [layout_packed hp]
    exact Target.dvd_intLayout hT _
  cases hd : Z.get t with
  | void | noreturn | comptime | opaqueType | function | bool =>
    have hone : (Z.layout t).align = 1 := congrArg Layout.align (layout_of_extent (extent_of_get hd))
    rw [hone]
    exact Nat.one_dvd _
  | int bits sign =>
    rw [layout, Z.extent_eq, hd]
    exact Target.dvd_intLayout hT bits
  | float bits =>
    rw [layout, Z.extent_eq, hd]
    exact Target.dvd_floatLayout hT (hZ.floats t bits hd)
  | pointer p =>
    rw [layout_pointer hd]
    exact dvd_pointer hT p
  | array len child sentinel =>
    by_cases hn : elementCount len sentinel = 0
    · rw [layout, Z.extent_eq, hd]
      dsimp only
      rw [if_pos hn]
      exact Nat.one_dvd _
    · obtain ⟨hsize, hle⟩ := hcut.size_array hd hn
      have hchild := ih child (by simp [hd, Ty.parts, hn]) hle
      have halign : (Z.layout t).align = (Z.layout child).align := by rw [layout_array hd hn]; rfl
      rw [hsize, halign]
      exact Nat.dvd_mul_left_of_dvd hchild _
  | vector len child =>
    by_cases hn : len = 0
    · rw [layout, Z.extent_eq, hd]
      dsimp only
      rw [if_pos hn]
      exact Nat.one_dvd _
    · rw [layout_vector hd hn]
      exact dvd_alignUp (Target.isPowerOfTwo_vectorAlign hT _)
  | optional child =>
    rw [layout_optional hd]
    apply dvd_optional (hZ.placeable child)
    intro hr
    apply same child (by simp [hd, Ty.parts])
    rw [layout_optional hd, hr]
    rfl
  | errorSet set =>
    rw [layout, Z.extent_eq, hd]
    dsimp only
    split
    · exact Target.dvd_intLayout hT _
    · exact Nat.one_dvd _
  | errorUnion set payload =>
    rw [layout_errorUnion hd]
    apply dvd_errorUnion (placeable_intLayout hT _) (Target.dvd_intLayout hT _) (hZ.placeable payload)
    intro hr
    apply same payload (by simp [hd, Ty.parts])
    rw [layout_errorUnion hd, hr]
    rfl
  | enum name tag variants =>
    have htag : Z.layout t = Z.layout tag := layout_of_extent (extent_enum hd)
    rw [htag]
    exact same tag (by simp [hd, Ty.parts]) htag
  | struct s =>
    cases hs : s.isPacked with
    | true => exact packed (by simp [hd, Ty.isPackedContainer, hs])
    | false =>
      rw [layout_struct hd hs]
      exact compose _
  | tuple fields =>
    rw [layout_tuple hd]
    exact compose _
  | union u =>
    cases hu : u.isPacked with
    | true => exact packed (by simp [hd, Ty.isPackedContainer, hu])
    | false =>
      rw [layout_union hd hu]
      apply dvd_tagged (placeable_payloadLayout hZ u) (dvd_payloadLayout hZ u)
      intro m hm
      obtain ⟨tag, -, rfl⟩ := Option.map_eq_some_iff.1 hm
      exact hZ.placeable tag

/-- Sizes below the largest are multiples of alignments, whatever other types are cut off. -/
theorem align_dvd_size (hZ : Z.Formatted) (t : TypeId) (h : (Z.layout t).size < Layout.maxSize) :
    (Z.layout t).align ∣ (Z.layout t).size := by
  induction t using Z.induction_on_parts with
  | step t ih =>
  apply align_dvd_size_of_parts hZ (uncut_of_size_lt h)
  intro c hc hle
  exact ih c hc (Nat.lt_of_le_of_lt hle h)

/-- So are all sizes, where no array is cut off. -/
theorem align_dvd_size_of_uncut (hZ : Z.Formatted) (hcut : ∀ t, Z.Uncut t) (t : TypeId) :
    (Z.layout t).align ∣ (Z.layout t).size := by
  induction t using Z.induction_on_parts with
  | step t ih =>
  apply align_dvd_size_of_parts hZ (hcut t)
  intro c hc _
  exact ih c hc

/-! ## Bits fit into bytes -/

/-- A type is no wider in a packed container than in memory. -/
theorem packedWidth_le (hZ : Z.Formatted) (t : TypeId) : Z.packedWidth t ≤ 8 * (Z.layout t).size := by
  have hT := hZ.supported
  induction t using Z.induction_on_parts with
  | step t ih =>
  rw [packedWidth, layout, Z.extent_eq]
  cases hd : Z.get t with
  | void | noreturn | comptime | opaqueType | function => exact Nat.zero_le _
  | bool =>
    show 1 ≤ 8 * 1
    omega
  | int bits sign => exact Target.bits_le_intLayout hT bits
  | float bits => exact Target.bits_le_floatLayout hT (hZ.floats t bits hd)
  | pointer p =>
    dsimp only
    split
    · exact Nat.le_refl _
    · rename_i hp
      have hptr : p.layout Z.target = (Z.target.pointerLayout p.addrSpace).layout := by
        unfold PointerTy.layout
        rw [if_neg hp]
      dsimp only
      rw [hptr]
      exact Target.le_bytesFor _
  | array len child sentinel =>
    dsimp only
    split
    · exact Nat.zero_le _
    · exact Nat.le_refl _
  | vector len child =>
    dsimp only
    split
    · exact Nat.zero_le _
    · exact Target.bits_le_vectorLayout hT _
  | optional child => exact Nat.le_refl _
  | errorSet set =>
    dsimp only
    split
    · exact Nat.le_refl _
    · exact Nat.zero_le _
  | errorUnion set payload => exact Nat.le_refl _
  | enum name tag variants => exact ih tag (SealedPool.mem_parts hd (by simp [Ty.parts]))
  | struct s =>
    dsimp only
    split
    · exact Target.bits_le_intLayout hT _
    · exact Nat.le_refl _
  | tuple fields => exact Nat.le_refl _
  | union u =>
    dsimp only
    split
    · exact Target.bits_le_intLayout hT _
    · exact Nat.le_refl _

/-! ## Legal layouts -/

/-- The layout of the type can be relied on, and so can that of the payload, if it is a union that is not packed. -/
structure Legal (Z : Sizing) (t : TypeId) : Prop where
  power : (Z.layout t).align.isPowerOfTwo
  multiple : (Z.layout t).align ∣ (Z.layout t).size
  width : Z.packedWidth t ≤ 8 * (Z.layout t).size
  members : ∀ u, Z.get t = .union u → u.isPacked = false → ∀ c ∈ u.memberTypes,
    (Z.layout c).size ≤ (Z.payloadLayout u).size ∧ (Z.layout c).align ∣ (Z.payloadLayout u).align

/-- Every type has a legal layout where floats have formats and no array is cut off. -/
theorem legal (hZ : Z.Formatted) (hcut : ∀ t, Z.Uncut t) (t : TypeId) : Z.Legal t := by
  constructor
  · exact (hZ.placeable t).align
  · exact align_dvd_size_of_uncut hZ hcut t
  · exact packedWidth_le hZ t
  · intro u _ _ c hc
    obtain ⟨hsize, halign⟩ := layout_le_payload hZ hc
    exact ⟨hsize, dvd_of_isPowerOfTwo_of_le (hZ.placeable c).align (placeable_payloadLayout hZ u).align halign⟩

/-- The only array of this pool has four elements of two bytes. -/
theorem uncut_assorted (hP : Z.toPool = .assorted) (t : TypeId) : Z.Uncut t := by
  intro len child sentinel hd
  have harrays : ∀ k, k < Pool.assorted.size →
      Pool.assorted.get ⟨k⟩ = .array 3 ⟨6⟩ true ∨ (Pool.assorted.get ⟨k⟩).isArray = false := by
    decide
  have harray := Pool.forall_get (fun d => d = .array 3 ⟨6⟩ true ∨ d.isArray = false) (Or.inr rfl) harrays t
  rw [hP] at hd
  rcases hd ▸ harray with h | h
  · obtain ⟨rfl, rfl, rfl⟩ := Ty.array.inj h
    have hchild : Z.get ⟨6⟩ = .int 16 .unsigned := by rw [hP]; rfl
    have hlayout : Z.layout ⟨6⟩ = ⟨2, 2⟩ := (layout_of_extent (extent_of_get hchild)).trans Target.errorCodeLayout_eq
    rw [hlayout]
    decide
  · cases h

/-- A union of a word and of that array is legal, and each of the two fits into its payload. -/
theorem legal_value : ∃ Z : Sizing, Z.toPool = .assorted ∧ Z.Formatted ∧ (∀ t, Z.Uncut t) ∧ Z.Legal ⟨24⟩ := by
  obtain ⟨Z, hP, -, hZ⟩ := exists_assorted
  exact ⟨Z, hP, hZ, uncut_assorted hP, legal hZ (uncut_assorted hP) ⟨24⟩⟩

end Sizing

end MachineAbi
