import MachineAbi.Proofs.Passing.Scalars
import MachineAbi.Proofs.Source.Room

/-!
# What one scalar says about its eightbytes

A scalar inside a value of at most two eightbytes is a float, a vector or an integer (`SysV.isFloatLike`), and this is
what the classes say that it gives when it is alone. It gives a class to the eightbytes that it reaches into
(`SysV.Reaches`) and to no others, but for an enum of more than one eightbyte, which gives none to its second
(`SysV.half_lone_ne_none_iff`).
-/

namespace MachineAbi

namespace Sizing

variable {Z : Sizing} {t : TypeId} {l m : Member}

/-! ## Scalars take room -/

theorem size_pos_of_mem_sequence {layout : TypeId → Layout} {offset : Nat} {ts : List TypeId}
    (h : m ∈ Member.sequence layout offset ts) : 0 < (layout m.ty).size := by
  induction ts generalizing offset with
  | nil => exact absurd h List.not_mem_nil
  | cons t ts ih =>
    unfold Member.sequence at h
    dsimp only at h
    split at h
    · rcases List.mem_cons.1 h with rfl | h
      · assumption
      · exact ih h
    · exact ih h

theorem takesRoom_of_mem_members (hZ : Z.Formatted) (hm : m ∈ Z.members t) : Z.takesRoom m.ty = true := by
  have sized : 0 < (Z.layout m.ty).size → Z.takesRoom m.ty = true := (takesRoom_iff_size_pos hZ m.ty).1
  cases hd : Z.get t with
  | struct s =>
    cases hs : s.isPacked with
    | true => simp [members, hd, hs] at hm
    | false =>
      simp only [members, hd, hs] at hm
      exact sized (size_pos_of_mem_sequence hm)
  | tuple | optional | errorUnion =>
    simp only [members, hd] at hm
    exact sized (size_pos_of_mem_sequence hm)
  | array len child sentinel =>
    simp only [members, hd] at hm
    split at hm
    · obtain ⟨i, -, rfl⟩ := List.mem_map.1 hm
      exact sized ‹_›
    · exact absurd hm List.not_mem_nil
  | union u =>
    cases hu : u.isPacked with
    | true => simp [members, hd, hu] at hm
    | false =>
      rcases (mem_members_union hd hu).1 hm with ⟨tag, htag, rfl⟩ | ⟨-, hpos, -⟩
      · exact (Option.filter_eq_some_iff.1 htag).2
      · exact sized hpos
  | _ => simp [members, hd] at hm

theorem takesRoom_of_leaf (hZ : Z.Formatted) (ht : Z.takesRoom t = true) (hl : Z.Leaf t l) : Z.takesRoom l.ty = true := by
  induction hl with
  | self => exact ht
  | member hm hl ih => exact ih (takesRoom_of_mem_members hZ hm)

/-- The scalars of what is not one itself take room. -/
theorem takesRoom_of_mem_scalars (hZ : Z.Formatted) (ht : Z.isScalar t = false) (hl : l ∈ Z.scalars t) :
    Z.takesRoom l.ty = true := by
  obtain ⟨hleaf, ha⟩ := leaf_of_mem_scalars hl
  cases hleaf with
  | member hm hsub =>
    have hroom := takesRoom_of_leaf hZ (takesRoom_of_mem_members hZ hm) hsub
    exact hroom
  | self =>
    -- only slices are stored as scalars and not passed as such
    rw [Z.takesRoom_eq]
    unfold SealedPool.isScalar at ht
    unfold isAtom at ha
    cases hd : Z.get t <;> simp_all

theorem not_hasLostTag_of_isElement {c : TypeId} (h : Z.IsElement c) : ¬Z.HasLostTag c := by
  induction h with
  | enum hd htag ih =>
    rw [SealedPool.hasLostTag_iff, hd]
    rintro (h | ⟨c, hc, h⟩)
    · exact h
    · obtain rfl : c = _ := by simpa [Ty.parts] using hc
      exact ih h
  | _ =>
    rw [SealedPool.hasLostTag_iff]
    simp_all [Ty.LosesTag, Ty.parts]

/-- A scalar that takes room has a size, packed containers apart. -/
theorem size_pos_of_isAtom (hZ : Z.Regular) (hI : Z.TagsAreIntegers) (ha : Z.isAtom t = true)
    (hp : (Z.get t).isPackedContainer = false) (hr : Z.takesRoom t = true) : 0 < (Z.layout t).size := by
  refine (takesRoom_iff_size_pos hZ.formatted t).2.2 (fun hlost => absurd hlost ?_) hr
  unfold isAtom at ha
  cases hd : Z.get t with
  | vector len child =>
    rw [SealedPool.hasLostTag_iff, hd]
    rintro (h | ⟨c, hc, h⟩)
    · exact h
    · obtain ⟨-, rfl⟩ : len ≠ 0 ∧ c = child := by simpa [Ty.parts] using hc
      exact not_hasLostTag_of_isElement (hZ.vectors t len c hd) h
  | enum name tag variants =>
    obtain ⟨bits, sign, htag⟩ := hI t name tag variants hd
    exact not_hasLostTag_of_isElement (.enum hd (.int htag))
  | bool => exact not_hasLostTag_of_isElement (.bool hd)
  | int bits sign => exact not_hasLostTag_of_isElement (.int hd)
  | float bits => exact not_hasLostTag_of_isElement (.float hd)
  | errorSet set => exact not_hasLostTag_of_isElement (.errorSet hd)
  | pointer p =>
    rw [SealedPool.hasLostTag_iff, hd]
    simp [Ty.LosesTag, Ty.parts]
  | struct s => simp_all [Ty.isPackedContainer]
  | union u => simp_all [Ty.isPackedContainer]
  | _ => simp [hd] at ha

end Sizing

namespace SysV

open EightbyteClass

variable {Z : Sizing} {t : TypeId} {l : Member} {k : Nat}

/-! ## The eightbytes of one scalar -/

/-- The value occupies a byte of eightbyte number `k`. -/
def Reaches (Z : Sizing) (l : Member) (k : Nat) : Prop := ∃ p, Z.Spans l p ∧ p / 8 = k

theorem overflow_putAll_of_le {offset : Nat} {cs : List EightbyteClass} (h : offset / 8 + cs.length ≤ 2) :
    (Eightbytes.empty.putAll offset cs).overflow = false := by
  induction cs generalizing offset with
  | nil => rfl
  | cons c cs ih =>
    rw [List.length_cons] at h
    have hrest := @ih (offset + 8) (by omega)
    have hfirst : (Eightbytes.empty.put offset c).overflow = false := by
      unfold Eightbytes.put
      obtain h0 | h1 : offset / 8 = 0 ∨ offset / 8 = 1 := by omega
      · rw [h0]
        rfl
      · rw [h1]
        rfl
    rw [Eightbytes.putAll, Eightbytes.overflow_putAll, hfirst, hrest]
    rfl

theorem Shape.none_notMem {c : TypeId} {cs : List EightbyteClass} (h : Shape Z c cs) : .none ∉ cs := by
  cases h <;> simp

theorem not_isPackedContainer_of_isFloatLike {c : TypeId} (hf : isFloatLike Z c = true) :
    (Z.get c).isPackedContainer = false := by
  unfold isFloatLike at hf
  cases hd : Z.get c <;> simp_all [Ty.isPackedContainer]

theorem not_wideEnum_of_isFloatLike {c : TypeId} (hf : isFloatLike Z c = true) : ¬WideEnum Z c := by
  rintro ⟨-, name, tag, variants, hd⟩
  simp [isFloatLike, hd] at hf

theorem WideEnum.not_isFloatLike {c : TypeId} (hw : WideEnum Z c) : isFloatLike Z c = false := by
  by_contra hf
  exact not_wideEnum_of_isFloatLike (by simpa using hf) hw

/-- There is a class for every eightbyte of a scalar, but for the second one of a wide enum. -/
theorem Shape.length_eq {c : TypeId} {cs : List EightbyteClass} (h : Shape Z c cs)
    (hpos : (Z.get c).isPackedContainer = false → 0 < (Z.layout c).size) :
    WideEnum Z c ∧ cs.length = 1 ∨ ¬WideEnum Z c ∧ cs.length = ((Z.layout c).size + 7) / 8 := by
  cases h with
  | words hf he => exact Or.inr ⟨he, List.length_replicate⟩
  | word hf hp hs =>
    by_cases hw : WideEnum Z c
    · exact Or.inl ⟨hw, rfl⟩
    · have := hpos hp
      have := hs.resolve_right hw
      exact Or.inr ⟨hw, by simp; omega⟩
  | float hf hs | sse hf hs =>
    have := hpos (not_isPackedContainer_of_isFloatLike hf)
    exact Or.inr ⟨not_wideEnum_of_isFloatLike hf, by simp; omega⟩
  | wide hf hd hs hle | x87 hf hd hs hle => exact Or.inr ⟨not_wideEnum_of_isFloatLike hf, by simp; omega⟩

/-- A scalar inside a value of at most two eightbytes, on x86-64. -/
structure Inside (Z : Sizing) (t : TypeId) (l : Member) : Prop where
  isAtom : Z.isAtom l.ty = true
  room : Z.takesRoom l.ty = true
  fits : l.offset + (Z.layout l.ty).size ≤ 16
  dvd : (Z.layout l.ty).align ∣ l.offset

section

variable (hZ : Z.Regular) (hI : Z.TagsAreIntegers) (hX : Z.target.arch = .x86_64)

theorem inside_of_mem_scalars (hZ : Z.Regular) (hE : Z.ErrorsAreCodes) (ht : Z.isScalar t = false)
    (hs : (Z.layout t).size ≤ 16) (hl : l ∈ Z.scalars t) : Inside Z t l := by
  obtain ⟨hleaf, ha⟩ := Sizing.leaf_of_mem_scalars hl
  obtain ⟨⟨hdvd, -⟩, hin⟩ := Sizing.leaf_inside hZ hE (Nat.lt_of_le_of_lt hs (by decide)) hleaf
  exact ⟨ha, Sizing.takesRoom_of_mem_scalars hZ.formatted ht hl, by omega, hdvd⟩

namespace Inside

include hZ hI hX

/-- A scalar goes on in the second eightbyte only if it starts the first. -/
theorem offset_eq_zero (h : Inside Z t l) {p : Nat} (hp : Z.Spans l p) (hlt : l.offset / 8 < p / 8) : l.offset = 0 := by
  have hfits := h.fits
  have hwithin := withinEightbyte_of_isAtom hZ hI hX h.isAtom (by omega)
  have hdvd := hwithin.dvd_of_lt (Sizing.placeable hZ l.ty) h.dvd hp.2 hlt
  have := hp.2
  omega

omit hI in
theorem exists_shape (h : Inside Z t l) : ∃ cs, Shape Z l.ty cs ∧ lone Z l = .putAll l.offset cs .empty := by
  have hfits := h.fits
  obtain ⟨cs, hput, hshape⟩ := shaped_of_isAtom hZ hX h.isAtom (by omega)
  refine ⟨cs, hshape, ?_⟩
  rw [lone, hput]
  rfl

/-- The eightbytes that a scalar reaches into are those that its size says. -/
theorem reaches_iff (h : Inside Z t l) (hk : k < 2) (hpos : 0 < (Z.layout l.ty).size) :
    Reaches Z l k ↔ l.offset / 8 = k ∨ k = 1 ∧ l.offset = 0 ∧ 8 < (Z.layout l.ty).size := by
  have hfits := h.fits
  constructor
  · rintro ⟨p, hp, rfl⟩
    obtain ⟨hle, hlt⟩ := hp
    rcases Nat.lt_or_ge (l.offset / 8) (p / 8) with hnext | hsame
    · have hzero := h.offset_eq_zero hZ hI hX ⟨hle, hlt⟩ hnext
      exact Or.inr ⟨by omega, hzero, by omega⟩
    · exact Or.inl (by omega)
  · rintro (rfl | ⟨rfl, hzero, h8⟩)
    · exact ⟨l.offset, ⟨Nat.le_refl _, by omega⟩, rfl⟩
    · exact ⟨8, ⟨by omega, by omega⟩, rfl⟩

/-- A scalar of more than one eightbyte starts the value. -/
theorem offset_of_wide (h : Inside Z t l) (h8 : 8 < (Z.layout l.ty).size) : l.offset = 0 := by
  have hfits := h.fits
  exact h.offset_eq_zero hZ hI hX (p := 8) ⟨by omega, by omega⟩ (by omega)

omit hX in
theorem size_pos (h : Inside Z t l) (hp : (Z.get l.ty).isPackedContainer = false) : 0 < (Z.layout l.ty).size :=
  Sizing.size_pos_of_isAtom hZ hI h.isAtom hp h.room

/-- A scalar gives a class to the eightbytes that it reaches into, but for the second one of a wide enum. -/
theorem half_lone_ne_none_iff (h : Inside Z t l) (hk : k < 2) :
    (lone Z l).half k ≠ .none ↔ Reaches Z l k ∧ ¬(k = 1 ∧ WideEnum Z l.ty) := by
  obtain ⟨cs, hshape, hlone⟩ := h.exists_shape hZ hX
  have hfits := h.fits
  have hhalf : (lone Z l).half k ≠ .none ↔ l.offset / 8 ≤ k ∧ k - l.offset / 8 < cs.length := by
    rw [hlone, half_putAll_empty hk, depositAt]
    have hnone := hshape.none_notMem
    split
    · rename_i hle
      cases hget : cs[k - l.offset / 8]? with
      | none =>
        have hge := List.getElem?_eq_none_iff.1 hget
        simp [hge]
      | some a =>
        have hlt := (List.getElem?_eq_some_iff.1 hget).1
        have ha : a ≠ .none := fun ha => hnone (ha ▸ List.mem_of_getElem? hget)
        simp [ha, hle, hlt]
    · simp_all
  have hlength := hshape.length_eq (h.size_pos hZ hI)
  rw [hhalf]
  rcases Nat.eq_zero_or_pos (Z.layout l.ty).size with hzero | hpos
  · -- an empty packed container
    refine iff_of_false (fun hlt => ?_) ?_
    · rcases hlength with ⟨hwide, -⟩ | ⟨-, hlength⟩
      · exact absurd hwide.1 (by omega)
      · omega
    · rintro ⟨⟨p, ⟨hle, hlt⟩, -⟩, -⟩
      omega
  · rw [h.reaches_iff hZ hI hX hk hpos]
    have hstart := h.offset_of_wide hZ hI hX
    rcases hlength with ⟨hwide, hlength⟩ | ⟨hwide, hlength⟩
    · have h8 := hwide.1
      simp only [hwide, and_true]
      omega
    · simp only [hwide, and_false, not_false_eq_true, and_true]
      omega

omit hI in
/-- The class in an eightbyte is one of those of the shape. -/
theorem exists_shape_mem (h : Inside Z t l) :
    ∃ cs, Shape Z l.ty cs ∧ lone Z l = .putAll l.offset cs .empty ∧
      ∀ k < 2, (lone Z l).half k = .none ∨ (lone Z l).half k ∈ cs := by
  obtain ⟨cs, hshape, hlone⟩ := h.exists_shape hZ hX
  refine ⟨cs, hshape, hlone, fun k hk => ?_⟩
  rw [hlone, half_putAll_empty hk]
  cases hat : depositAt k l.offset cs with
  | none => exact Or.inl rfl
  | some a => exact Or.inr (mem_of_depositAt hat)

omit hI in
theorem half_lone_of_integer (h : Inside Z t l) (hf : isFloatLike Z l.ty = false) (hk : k < 2) :
    (lone Z l).half k = .none ∨ (lone Z l).half k = integer := by
  obtain ⟨cs, hshape, -, hmem⟩ := h.exists_shape_mem hZ hX
  refine (hmem k hk).imp_right fun hm => ?_
  cases hshape with
  | words => exact List.eq_of_mem_replicate hm
  | word => exact List.mem_singleton.1 hm
  | float hf' | sse hf' | wide hf' | x87 hf' => simp [hf] at hf'

omit hI in
theorem half_lone_of_short (h : Inside Z t l) (hf : isFloatLike Z l.ty = true) (hs : (Z.layout l.ty).size ≤ 8)
    (hk : k < 2) : (lone Z l).half k = .none ∨ (lone Z l).half k = .float ∨ (lone Z l).half k = sse := by
  obtain ⟨cs, hshape, -, hmem⟩ := h.exists_shape_mem hZ hX
  refine (hmem k hk).imp_right fun hm => ?_
  cases hshape with
  | words hf' | word hf' => simp [hf] at hf'
  | float => exact Or.inl (List.mem_singleton.1 hm)
  | sse => exact Or.inr (List.mem_singleton.1 hm)
  | wide _ _ h8 | x87 _ _ h8 => omega

omit hI in
theorem half_lone_ne_integer (h : Inside Z t l) (hf : isFloatLike Z l.ty = true) (hk : k < 2) :
    (lone Z l).half k ≠ integer := by
  obtain ⟨cs, hshape, -, hmem⟩ := h.exists_shape_mem hZ hX
  intro hint
  have hm := (hmem k hk).resolve_left (by rw [hint]; decide)
  rw [hint] at hm
  cases hshape with
  | words hf' | word hf' => simp [hf] at hf'
  | _ => simp at hm

theorem half_lone_of_wide (h : Inside Z t l) (hf : isFloatLike Z l.ty = true) (h8 : 8 < (Z.layout l.ty).size)
    (hd : Z.get l.ty ≠ .float 80) : (lone Z l).half 0 = sse ∧ (lone Z l).half 1 = sseUp := by
  obtain ⟨cs, hshape, hlone, -⟩ := h.exists_shape_mem hZ hX
  rw [hlone, h.offset_of_wide hZ hI hX h8]
  cases hshape with
  | words hf' | word hf' => simp [hf] at hf'
  | float _ hs | sse _ hs => omega
  | x87 _ hd' => exact absurd hd' hd
  | wide => exact ⟨rfl, rfl⟩

theorem half_lone_of_x87 (h : Inside Z t l) (hd : Z.get l.ty = .float 80) :
    (lone Z l).half 0 = x87 ∧ (lone Z l).half 1 = x87Up := by
  obtain ⟨cs, hshape, hlone, -⟩ := h.exists_shape_mem hZ hX
  have hf : isFloatLike Z l.ty = true := by simp [isFloatLike, hd]
  have h16 : (Z.layout l.ty).size = 16 := by
    rw [Sizing.layout_of_extent (Sizing.extent_of_get hd)]
    exact Target.size_floatLayout_x87 hZ.supported hX
  rw [hlone, h.offset_of_wide hZ hI hX (by omega)]
  cases hshape with
  | words hf' | word hf' => simp [hf] at hf'
  | float _ hs | sse _ hs => omega
  | wide _ hne => exact absurd hd hne
  | x87 => exact ⟨rfl, rfl⟩

/-- A scalar gives the class of integers to the eightbytes that it reaches into, if it is none of the floats and
vectors. -/
theorem half_lone_eq_integer_iff (h : Inside Z t l) (hk : k < 2) : (lone Z l).half k = integer ↔
    isFloatLike Z l.ty = false ∧ Reaches Z l k ∧ ¬(k = 1 ∧ WideEnum Z l.ty) := by
  rw [← h.half_lone_ne_none_iff hZ hI hX hk]
  constructor
  · intro hint
    refine ⟨?_, by simp [hint]⟩
    by_contra hf
    exact h.half_lone_ne_integer hZ hX (by simpa using hf) hk hint
  · rintro ⟨hf, hne⟩
    exact (h.half_lone_of_integer hZ hX hf hk).resolve_left hne

/-- A scalar has no class behind the two eightbytes. -/
theorem overflow_lone (h : Inside Z t l) : (lone Z l).overflow = false := by
  obtain ⟨cs, hshape, hlone⟩ := h.exists_shape hZ hX
  have hfits := h.fits
  have hstart := h.offset_of_wide hZ hI hX
  rw [hlone]
  cases cs with
  | nil => rfl
  | cons c cs =>
    refine overflow_putAll_of_le ?_
    rcases hshape.length_eq (h.size_pos hZ hI) with ⟨hwide, hlength⟩ | ⟨-, hlength⟩
    · have h8 := hwide.1
      omega
    · have hpos : 0 < (c :: cs).length := Nat.succ_pos _
      omega

end Inside

/-! ## The scalars of a value -/

variable (hE : Z.ErrorsAreCodes) (ht : Z.isScalar t = false) (hs : (Z.layout t).size ≤ 16)

theorem mem_scalars_of_reaches (hZ : Z.Regular) (hE : Z.ErrorsAreCodes) (hs : (Z.layout t).size ≤ 16)
    (hl : Z.Leaf t l) (hr : Reaches Z l k) : l ∈ Z.scalars t := by
  obtain ⟨p, ⟨hle, hlt⟩, -⟩ := hr
  have hin := (Sizing.leaf_inside hZ hE (Nat.lt_of_le_of_lt hs (by decide)) hl).2
  have hmax : (Z.layout l.ty).size < Layout.maxSize := Nat.lt_of_le_of_lt (m := 16) (by omega) (by decide)
  exact (Sizing.mem_scalars_iff hE).2 ⟨hl, Sizing.isAtom_of_leaf hZ hE hmax hl (by omega)⟩

include hZ hI hX hE ht hs

/-- An eightbyte gets no class exactly if at most wide enums reach into it, as their second one. -/
theorem lent_eq_none_iff (hk : k < 2) : (∀ c ∈ lent Z k (Z.scalars t), c = .none) ↔
    ∀ l, Z.Leaf t l → Reaches Z l k → k = 1 ∧ WideEnum Z l.ty := by
  constructor
  · intro h l hl hr
    have hmem := mem_scalars_of_reaches hZ hE hs hl hr
    have hin := inside_of_mem_scalars hZ hE ht hs hmem
    by_contra hno
    exact (hin.half_lone_ne_none_iff hZ hI hX hk).2 ⟨hr, hno⟩ (h _ (List.mem_map_of_mem hmem))
  · intro h c hc
    obtain ⟨l, hmem, rfl⟩ := List.mem_map.1 hc
    have hin := inside_of_mem_scalars hZ hE ht hs hmem
    by_contra hne
    obtain ⟨hr, hno⟩ := (hin.half_lone_ne_none_iff hZ hI hX hk).1 hne
    exact hno (h l (Sizing.leaf_of_mem_scalars hmem).1 hr)

/-- An eightbyte gets an integer exactly if a scalar that is none of the floats and vectors reaches into it, and not
only as the second eightbyte of a wide enum. -/
theorem integer_mem_lent_iff (hk : k < 2) : integer ∈ lent Z k (Z.scalars t) ↔
    ∃ l, Z.Leaf t l ∧ isFloatLike Z l.ty = false ∧ Reaches Z l k ∧ ¬(k = 1 ∧ WideEnum Z l.ty) := by
  constructor
  · intro h
    obtain ⟨l, hmem, heq⟩ := List.mem_map.1 h
    have hin := inside_of_mem_scalars hZ hE ht hs hmem
    exact ⟨l, (Sizing.leaf_of_mem_scalars hmem).1, (hin.half_lone_eq_integer_iff hZ hI hX hk).1 heq⟩
  · rintro ⟨l, hl, hint⟩
    have hmem := mem_scalars_of_reaches hZ hE hs hl hint.2.1
    have hin := inside_of_mem_scalars hZ hE ht hs hmem
    exact List.mem_map.2 ⟨l, hmem, (hin.half_lone_eq_integer_iff hZ hI hX hk).2 hint⟩

omit hI in
/-- The second half of a float or vector comes from one that is longer than an eightbyte. -/
theorem exists_wide_of_sseUp (h : sseUp ∈ lent Z 1 (Z.scalars t)) :
    ∃ l, Z.Leaf t l ∧ isFloatLike Z l.ty = true ∧ 8 < (Z.layout l.ty).size := by
  obtain ⟨l, hmem, heq⟩ := List.mem_map.1 h
  have hin := inside_of_mem_scalars hZ hE ht hs hmem
  refine ⟨l, (Sizing.leaf_of_mem_scalars hmem).1, ?_⟩
  cases hf : isFloatLike Z l.ty with
  | false => rcases hin.half_lone_of_integer hZ hX hf (k := 1) (by decide) with h | h <;> simp [heq] at h
  | true =>
    refine ⟨rfl, Nat.lt_of_not_le fun hle => ?_⟩
    rcases hin.half_lone_of_short hZ hX hf hle (k := 1) (by decide) with h | h | h <;> simp [heq] at h

/-- A scalar of more than one eightbyte reaches into both. -/
theorem reaches_of_wide (hl : Z.Leaf t l) (h8 : 8 < (Z.layout l.ty).size) :
    l ∈ Z.scalars t ∧ Inside Z t l ∧ Reaches Z l 0 ∧ Reaches Z l 1 := by
  have hstart : Reaches Z l (l.offset / 8) := ⟨l.offset, ⟨Nat.le_refl _, by omega⟩, rfl⟩
  have hmem := mem_scalars_of_reaches hZ hE hs hl hstart
  have hin := inside_of_mem_scalars hZ hE ht hs hmem
  have hzero := hin.offset_of_wide hZ hI hX h8
  exact ⟨hmem, hin, ⟨0, ⟨by omega, by omega⟩, rfl⟩, ⟨8, ⟨by omega, by omega⟩, rfl⟩⟩

/-- A float or vector of more than one eightbyte stands alone in the second. -/
theorem exists_standsAlone_of_wide (hl : Z.Leaf t l) (hf : isFloatLike Z l.ty = true) (h8 : 8 < (Z.layout l.ty).size) :
    ∃ a ∈ lent Z 1 (Z.scalars t), a = sseUp ∨ a = x87Up := by
  obtain ⟨hmem, hin, -, -⟩ := reaches_of_wide hZ hI hX hE ht hs hl h8
  refine ⟨(lone Z l).half 1, List.mem_map_of_mem hmem, ?_⟩
  by_cases hd : Z.get l.ty = .float 80
  · exact Or.inr (hin.half_lone_of_x87 hZ hI hX hd).2
  · exact Or.inl (hin.half_lone_of_wide hZ hI hX hf h8 hd).2

end

end SysV

/-! ## Floats and integers in one place -/

/-- The primitive types, and unions in which floats lie in one place with other floats or with integers. -/
def Pool.mixing : Pool :=
  let doubles : Ty := .array 2 ⟨16⟩ false
  let mixed : Ty := .union ⟨"Mixed", .c, none, [⟨"quad", ⟨18⟩⟩, ⟨"word", ⟨10⟩⟩]⟩
  let quads : Ty := .union ⟨"Quads", .c, none, [⟨"quad", ⟨18⟩⟩, ⟨"pair", ⟨21⟩⟩]⟩
  let long : Ty := .union ⟨"Long", .c, none, [⟨"long", ⟨17⟩⟩, ⟨"real", ⟨16⟩⟩, ⟨"words", ⟨12⟩⟩]⟩
  let words : Ty := .union ⟨"Words", .c, none, [⟨"long", ⟨17⟩⟩, ⟨"words", ⟨12⟩⟩, ⟨"real", ⟨16⟩⟩]⟩
  let number : Ty := .union ⟨"Number", .c, none, [⟨"word", ⟨10⟩⟩, ⟨"real", ⟨16⟩⟩]⟩
  let real : Ty := .union ⟨"Real", .c, none, [⟨"real", ⟨16⟩⟩, ⟨"word", ⟨10⟩⟩]⟩
  let numbers : Ty := .struct ⟨"Numbers", .auto, [⟨⟨⟨26⟩, false⟩, "first"⟩, ⟨⟨⟨15⟩, false⟩, "second"⟩]⟩
  let reals : Ty := .struct ⟨"Reals", .auto, [⟨⟨⟨27⟩, false⟩, "first"⟩, ⟨⟨⟨15⟩, false⟩, "second"⟩]⟩
  ⟨(primitiveTypes ++ [doubles, mixed, quads, long, words, number, real, numbers, reals]).toArray⟩

def SealedPool.mixing : SealedPool where
  toPool := .mixing
  primitivesInPlace := by decide
  heights := (List.replicate 21 0 ++ [1, 1, 2, 1, 1, 1, 1, 2, 2]).toArray
  heights_hold := Rule.Settled.holds (by decide)
  rooms := ([false, false] ++ List.replicate 18 true ++ [false] ++ List.replicate 9 true).toArray
  rooms_hold := Rule.Settled.holds (by decide)

namespace Sizing

def mixing : Sizing where
  toSealedPool := .mixing
  target := .sample
  extents :=
    #[⟨⟨0, 1⟩, 0⟩, ⟨⟨0, 1⟩, 0⟩, ⟨⟨1, 1⟩, 1⟩, ⟨⟨1, 1⟩, 1⟩, ⟨⟨1, 1⟩, 8⟩, ⟨⟨1, 1⟩, 8⟩, ⟨⟨2, 2⟩, 16⟩, ⟨⟨2, 2⟩, 16⟩,
      ⟨⟨4, 4⟩, 32⟩, ⟨⟨4, 4⟩, 32⟩, ⟨⟨8, 8⟩, 64⟩, ⟨⟨8, 8⟩, 64⟩, ⟨⟨16, 16⟩, 128⟩, ⟨⟨16, 16⟩, 128⟩, ⟨⟨2, 2⟩, 16⟩,
      ⟨⟨4, 4⟩, 32⟩, ⟨⟨8, 8⟩, 64⟩, ⟨⟨16, 16⟩, 80⟩, ⟨⟨16, 16⟩, 128⟩, ⟨⟨2, 2⟩, 16⟩, ⟨⟨0, 1⟩, 0⟩, ⟨⟨16, 8⟩, 128⟩,
      ⟨⟨16, 16⟩, 128⟩, ⟨⟨16, 16⟩, 128⟩, ⟨⟨16, 16⟩, 128⟩, ⟨⟨16, 16⟩, 128⟩, ⟨⟨8, 8⟩, 64⟩, ⟨⟨8, 8⟩, 64⟩, ⟨⟨16, 8⟩, 128⟩,
      ⟨⟨16, 8⟩, 128⟩]
  extents_hold := Rule.Settled.holds (by decide)

theorem plain_mixing : mixing.Plain := by decide

theorem regular_mixing : mixing.Regular := plain_mixing.regular Target.supported_sample

theorem errorsAreCodes_mixing : mixing.ErrorsAreCodes := plain_mixing.errorsAreCodes

theorem tagsAreIntegers_mixing : mixing.TagsAreIntegers := plain_mixing.tagsAreIntegers

end Sizing

end MachineAbi
