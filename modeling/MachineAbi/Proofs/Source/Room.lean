import Mathlib.Algebra.Order.BigOperators.Group.List
import Mathlib.Algebra.Order.Group.Nat
import MachineAbi.Proofs.Source.Payload

/-!
# Room and size

That a type takes room and that its size is not zero are told by two recursions over the type.

* The size is not zero exactly if something is stored (`Sizing.size_pos_iff`).
* So what has a size takes room. What takes room has a size, unless all its room is that of lost tags
  (`Sizing.takesRoom_iff_size_pos`): a packed union of empty members with a tag takes room and has size zero
  (`Sizing.exists_takesRoom_of_size_zero`).
-/

namespace MachineAbi

/-! ## Extents of types with content -/

/-- Room in memory, and room in a packed container. -/
structure Extent.Positive (e : Extent) : Prop where
  size : 0 < e.layout.size
  bits : 0 < e.bits

namespace Extent.Positive

variable {T : Target}

theorem ofLayout {l : Layout} (h : 0 < l.size) : (Extent.ofLayout l).Positive := by
  constructor
  · exact h
  · show 0 < 8 * l.size
    omega

theorem ofBits (hT : T.Supported) {bits : Nat} (h : 0 < bits) : (Extent.ofBits T bits).Positive :=
  ⟨Target.intLayout_size_pos hT (Nat.ne_of_gt h), h⟩

end Extent.Positive

theorem Target.errorCodeLayout_size_pos (T : Target) : 0 < T.errorCodeLayout.size := by
  rw [errorCodeLayout_eq]
  decide

theorem Target.sizeBits_pos {T : Target} (hT : T.Supported) (space : Nat) : 0 < (T.pointerLayout space).sizeBits := by
  have h : 0 < bytesFor (T.pointerLayout space).sizeBits := (machinePtr_sane hT space).2
  unfold bytesFor at h
  omega

theorem PointerTy.size_layout_pos {T : Target} (hT : T.Supported) (p : PointerTy) : 0 < (p.layout T).size := by
  have hptr := Target.machinePtr_sane hT p.addrSpace
  unfold PointerTy.layout
  dsimp only
  split
  · refine Nat.lt_of_lt_of_le hptr.2 (Layout.Placeable.size_le_compose_of_mem (fun l hl => ?_) List.mem_cons_self)
    rcases List.mem_cons.1 hl with rfl | hl
    · exact .of_size_pos hptr.1 hptr.2
    · obtain rfl := List.mem_singleton.1 hl
      exact Sizing.placeable_intLayout hT _
  · exact hptr.2

namespace Sizing

variable {Z : Sizing} {t : TypeId}

/-- Only scalars have a value to spare. -/
theorem hasContent_of_hasInBandNull (hn : Z.hasInBandNull t = true) (hr : Z.takesRoom t = true) : Z.HasContent t := by
  unfold SealedPool.hasInBandNull at hn
  rw [Z.takesRoom_eq] at hr
  rw [SealedPool.hasContent_iff]
  cases hd : Z.get t with
  | pointer p => exact Or.inl trivial
  | errorSet set =>
    have hs : set.hasBits = true := by simpa [hd] using hr
    exact Or.inl hs
  | _ => simp [hd] at hn

theorem size_optional_pos (hZ : Z.Formatted) {child : TypeId}
    (hc : Z.HasContent child → 0 < (Z.layout child).size) :
    0 < ((Z.optionalRepr child).layout (Z.layout child)).size := by
  have hroom := Z.room_of_optionalRepr child
  cases hr : Z.optionalRepr child with
  | flagOnly => exact Nat.one_pos
  | payload =>
    rw [hr] at hroom
    refine hc (hasContent_of_hasInBandNull ?_ hroom)
    by_contra hn
    simp [SealedPool.optionalRepr, hn] at hr
    split at hr <;> cases hr
  | payloadAndFlag =>
    have hle : (Z.layout child).size + 1 ≤ (Layout.compose [Z.layout child, ⟨1, 1⟩]).size :=
      (hZ.placeable child).size_le_compose placeable_byte
    show 0 < (Layout.compose [Z.layout child, ⟨1, 1⟩]).size
    omega

theorem size_errorUnion_pos (hZ : Z.Formatted) {set payload : TypeId}
    (h : Z.takesRoom set = true ∨ Z.takesRoom payload = true ∧ 0 < (Z.layout payload).size) :
    0 < ((Z.errorUnionRepr set payload).layout Z.target.errorCodeLayout (Z.layout payload)).size := by
  have hcode := Z.target.errorCodeLayout_size_pos
  have hc : Z.target.errorCodeLayout.Placeable := placeable_intLayout hZ.supported _
  have hp := hZ.placeable payload
  have hhalves := Z.room_of_errorUnionRepr set payload
  cases hr : Z.errorUnionRepr set payload with
  | empty => simp_all
  | payloadOnly =>
    rw [hr] at hhalves
    simp only [Prod.mk.injEq] at hhalves
    obtain ⟨-, hpos⟩ := h.resolve_left (by simp [hhalves.1])
    exact hpos
  | errorOnly => exact hcode
  | errorFirst => exact Nat.lt_of_lt_of_le hcode (Nat.le_trans (Nat.le_add_right _ _) (hc.size_le_compose hp))
  | payloadFirst => exact Nat.lt_of_lt_of_le hcode (Nat.le_trans (Nat.le_add_left _ _) (hp.size_le_compose hc))

/-- What stores something has a size, and a width in packed containers. -/
theorem positive_of_hasContent (hZ : Z.Formatted) (t : TypeId) (h : Z.HasContent t) : (Z.extent t).Positive := by
  have hT := hZ.supported
  induction t using Z.induction_on_parts with
  | step t ih =>
  have part : ∀ {d : Ty} {c : TypeId}, Z.get t = d → c ∈ d.parts → Z.HasContent c → (Z.extent c).Positive :=
    fun hd hc hcontent => ih _ (SealedPool.mem_parts hd hc) hcontent
  have compose : ∀ {ts : List TypeId} {c : TypeId}, c ∈ ts → (Z.extent c).Positive →
      0 < (Layout.compose (ts.map Z.layout)).size := by
    intro ts c hc hpos
    refine Nat.lt_of_lt_of_le hpos.size (Layout.Placeable.size_le_compose_of_mem (fun l hl => ?_)
      (List.mem_map_of_mem hc))
    obtain ⟨d, -, rfl⟩ := List.mem_map.1 hl
    exact hZ.placeable d
  rw [SealedPool.hasContent_iff] at h
  rw [Z.extent_eq]
  cases hd : Z.get t with
  | void | noreturn | comptime | opaqueType | function => simp [hd, Ty.StoresOwn, Ty.parts] at h
  | bool => exact ⟨Nat.one_pos, Nat.one_pos⟩
  | int bits sign => exact .ofBits hT (by simpa [hd, Ty.StoresOwn, Ty.parts] using h)
  | float bits =>
    obtain ⟨k, hk⟩ := Option.isSome_iff_exists.1 (hZ.floats t bits hd)
    have hbits : 0 < k.bits := by cases k <;> decide
    exact ⟨Target.floatLayout_size_pos hT hk, FloatKind.ofBits?_eq_some_iff.1 hk ▸ hbits⟩
  | pointer p =>
    dsimp only
    split
    · exact .ofLayout (p.size_layout_pos hT)
    · exact ⟨p.size_layout_pos hT, Target.sizeBits_pos hT _⟩
  | array len child sentinel =>
    by_cases hn : elementCount len sentinel = 0
    · simp [hd, Ty.StoresOwn, Ty.parts, hn] at h
    · have hc : Z.HasContent child := by simpa [hd, Ty.StoresOwn, Ty.parts, hn] using h
      have hmul := Nat.mul_pos (Nat.pos_of_ne_zero hn) (part hd (by simp [Ty.parts, hn]) hc).size
      simp only [hn, if_false]
      exact .ofLayout (Nat.lt_min.2 ⟨hmul, by decide⟩)
  | vector len child =>
    by_cases hn : len = 0
    · simp [hd, Ty.StoresOwn, Ty.parts, hn] at h
    · have hc : Z.HasContent child := by simpa [hd, Ty.StoresOwn, Ty.parts, hn] using h
      have hmul : 0 < len * Z.packedWidth child :=
        Nat.mul_pos (Nat.pos_of_ne_zero hn) (part hd (by simp [Ty.parts, hn]) hc).bits
      simp only [hn, if_false]
      exact ⟨Target.vectorLayout_size_pos hT (Nat.ne_of_gt hmul), hmul⟩
  | optional child =>
    exact .ofLayout (size_optional_pos hZ fun hc => (part hd (by simp [Ty.parts]) hc).size)
  | errorSet set =>
    have hs : set.hasBits = true := by simpa [hd, Ty.StoresOwn, Ty.parts] using h
    simp only [hs, if_true]
    exact .ofLayout Z.target.errorCodeLayout_size_pos
  | errorUnion set payload =>
    have h : Z.takesRoom set = true ∨ Z.HasContent payload := by simpa [hd, Ty.StoresOwn, Ty.parts] using h
    exact .ofLayout (size_errorUnion_pos hZ (h.imp_right fun hc => ⟨hc.takesRoom, (part hd (by simp [Ty.parts]) hc).size⟩))
  | enum name tag variants =>
    exact part hd (by simp [Ty.parts]) (by simpa [hd, Ty.StoresOwn, Ty.parts] using h)
  | struct s =>
    obtain ⟨c, hc, hcontent⟩ : ∃ c ∈ s.stored, Z.HasContent c := by simpa [hd, Ty.StoresOwn, Ty.parts] using h
    have hpos := part hd hc hcontent
    dsimp only
    split
    · refine .ofBits hT (Nat.lt_of_lt_of_le hpos.bits ?_)
      exact List.le_sum_of_mem (List.mem_map_of_mem (f := Z.packedWidth) hc)
    · exact .ofLayout (compose hc hpos)
  | tuple fields =>
    obtain ⟨c, hc, hcontent⟩ : ∃ c ∈ storedTypes fields, Z.HasContent c := by
      simpa [hd, Ty.StoresOwn, Ty.parts] using h
    exact .ofLayout (compose hc (part hd hc hcontent))
  | union u =>
    obtain ⟨c, hc, hcontent⟩ : ∃ c ∈ (Ty.union u).parts, Z.HasContent c := by simpa [hd, Ty.StoresOwn] using h
    have hpos := part hd hc hcontent
    dsimp only
    rcases List.mem_append.1 hc with htag | hc
    · obtain ⟨hu, htag⟩ : u.isPacked = false ∧ u.usedTag? = some c := by
        simpa [UnionTy.placedTag?] using htag
      have hstored : Z.storedTag? u = some c := by simp [SealedPool.storedTag?, htag, hcontent.takesRoom]
      rw [if_neg (by simp [hu]), ← layout_union hd hu]
      exact .ofLayout (Nat.lt_of_lt_of_le hpos.size ((size_le_union hZ hd hu).2 c hstored))
    · by_cases hu : u.isPacked = true
      · rw [if_pos hu, List.foldl_map]
        exact .ofBits hT (Nat.lt_of_lt_of_le hpos.bits (le_foldl_max Z.packedWidth hc))
      · rw [if_neg hu, ← layout_union hd (by simpa using hu)]
        exact .ofLayout (Nat.lt_of_lt_of_le hpos.size
          (Nat.le_trans (layout_le_payload hZ hc).1 (size_le_union hZ hd (by simpa using hu)).1))

/-- The size of a type is not zero exactly if its values store something. -/
theorem size_pos_iff (hZ : Z.Formatted) (t : TypeId) : 0 < (Z.layout t).size ↔ Z.HasContent t := by
  constructor
  · intro h
    by_contra hc
    rw [layout_of_extent (extent_of_not_hasContent hZ.supported t hc)] at h
    exact absurd h (by decide)
  · exact fun h => (positive_of_hasContent hZ t h).size

/-- What has a size takes room. What takes room has a size, exactly unless it loses a tag and stores nothing. -/
theorem takesRoom_iff_size_pos (hZ : Z.Formatted) (t : TypeId) :
    (0 < (Z.layout t).size → Z.takesRoom t = true) ∧
      ((Z.takesRoom t = true → 0 < (Z.layout t).size) ↔ (Z.HasLostTag t → Z.HasContent t)) := by
  rw [size_pos_iff hZ, Z.takesRoom_iff]
  constructor
  · exact Or.inl
  · constructor
    · intro h hlost
      exact h (Or.inr hlost)
    · rintro h (hcontent | hlost)
      · exact hcontent
      · exact h hlost

/-! ## A packed union with a tag -/

/-- The packed union of empty members loses its tag and stores nothing. -/
theorem hasLostTag_marker (hP : Z.toPool = .assorted) : Z.HasLostTag ⟨22⟩ ∧ ¬Z.HasContent ⟨22⟩ := by
  have hempty : ¬Z.HasContent .void := by
    rw [SealedPool.hasContent_iff, hP]
    rintro (h | ⟨c, hc, -⟩)
    · exact h
    · exact absurd hc List.not_mem_nil
  have hkind : Z.takesRoom ⟨21⟩ = true := by
    have hbyte : Z.takesRoom .u8 = true := by rw [Z.takesRoom_eq, Z.get_u8]; rfl
    rw [Z.takesRoom_eq, hP]
    exact hbyte
  rw [SealedPool.hasLostTag_iff, SealedPool.hasContent_iff, hP]
  constructor
  · exact Or.inl ⟨rfl, ⟨21⟩, rfl, hkind⟩
  · rintro (h | ⟨c, hc, h⟩)
    · exact h
    · have hc : c ∈ [TypeId.void, TypeId.void] := hc
      obtain rfl : c = .void := by simpa using hc
      exact hempty h

theorem takesRoom_iff_size_pos_marker : ∃ Z : Sizing, Z.toPool = .assorted ∧ Z.Formatted ∧
    ¬(Z.takesRoom ⟨22⟩ = true → 0 < (Z.layout ⟨22⟩).size) := by
  obtain ⟨Z, hP, -, hZ⟩ := exists_assorted
  obtain ⟨hlost, hcontent⟩ := hasLostTag_marker hP
  exact ⟨Z, hP, hZ, fun h => hcontent ((takesRoom_iff_size_pos hZ ⟨22⟩).2.1 h hlost)⟩

/-- A packed union of two empty members with a tag takes room, but has size zero. -/
theorem exists_takesRoom_of_size_zero : ∃ Z : Sizing, Z.toPool = .assorted ∧ Z.target = .sample ∧ Z.Formatted ∧
    Z.takesRoom ⟨22⟩ = true ∧ (Z.layout ⟨22⟩).size = 0 := by
  obtain ⟨Z, hP, hT, hZ⟩ := exists_assorted
  obtain ⟨hlost, hcontent⟩ := hasLostTag_marker hP
  refine ⟨Z, hP, hT, hZ, (Z.takesRoom_iff _).2 (Or.inr hlost), ?_⟩
  rw [layout_of_extent (extent_of_not_hasContent hZ.supported _ hcontent)]
  rfl

end Sizing

end MachineAbi
