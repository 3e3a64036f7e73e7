import MachineAbi.Proofs.Lowering.Sound

/-!
# Machine types have the layouts of their types

In a sound session the code generator lays out the machine type of a type as the type is laid out
(`Sound.layoutOf_lowered`), by induction on the parts. The machine fields of an aggregate are laid out as they were
arranged (`Sound.mapM_layoutOf`), so the struct rule puts each where its place says.

A type must not depend on one that is pending: `Sizing.Spares`.
-/

namespace MachineAbi

namespace Sizing

variable {Z : Sizing} {pending : TypeId → Prop} {t c : TypeId}

/-- No pending type can come up when type `t` is lowered: it is deeper than `t`, or is not `t` and takes no room. -/
def Spares (Z : Sizing) (pending : TypeId → Prop) (t : TypeId) : Prop :=
  ∀ p, pending p → Z.rank t < Z.rank p ∨ (p ≠ t ∧ Z.takesRoom p = false)

theorem Spares.not_pending (h : Z.Spares pending t) : ¬pending t := by
  intro hp
  rcases h t hp with h | ⟨h, -⟩
  · exact Nat.lt_irrefl _ h
  · exact h rfl

/-- Neither a pending type nor `t` itself comes up when a part of `t` that takes room is lowered. -/
theorem Spares.part (h : Z.Spares pending t) (hc : c ∈ Z.parts t) (hr : Z.takesRoom c = true) :
    Z.Spares (fun p => pending p ∨ p = t) c := by
  rintro p (hp | rfl)
  · rcases h p hp with h | ⟨-, h⟩
    · exact Or.inl (Nat.lt_trans (Z.rank_lt hc) h)
    · refine Or.inr ⟨?_, h⟩
      rintro rfl
      rw [hr] at h
      cases h
  · exact Or.inl (Z.rank_lt hc)

theorem Spares.weaken {weaker : TypeId → Prop} (h : Z.Spares pending t) (hw : ∀ p, weaker p → pending p) :
    Z.Spares weaker t :=
  fun p hp => h p (hw p hp)

theorem Spares.of_part (h : Z.Spares pending t) (hc : c ∈ Z.parts t) (hr : Z.takesRoom c = true) : Z.Spares pending c :=
  (h.part hc hr).weaken fun _ => Or.inl

end Sizing

namespace Session

/-- The machine types of the parts of a type have the layouts of the parts. -/
def LaysOutParts (Z : Sizing) (s : Session) (t : TypeId) : Prop :=
  ∀ c ∈ Z.parts t, Z.takesRoom c = true → ∀ e, s.lowered[c]? = some e →
    s.table.layoutOf Z.target e = some (Z.layout c)

namespace Sound

variable {Z : Sizing} {pending : TypeId → Prop} {s : Session} {t : TypeId} {h : Handle}

/-! ## Machine fields -/

theorem layoutOf_padded {value pad : Handle} {l : Layout} {len : Nat} (hT : Z.target.Supported)
    (hs : s.table.Stores h (.struct false [value, pad])) (hv : s.table.layoutOf Z.target value = some l)
    (hp : s.table.StoresBytes pad len) (hlen : len ≤ Layout.maxSize) :
    s.table.layoutOf Z.target h = some (.compose [l, ⟨len, 1⟩]) :=
  Table.layoutOf_body (Table.body?_of_struct hs)
    (Table.mapM_eq_some (.cons hv (.cons (Table.layoutOf_bytes hT hp hlen) .nil)))

/-- A machine field is laid out as it was arranged, if that holds of the values in it. -/
theorem layoutOf_realizes (hZ : Z.Regular) {a : Arrangement Piece} {l : Layout} (hb : Z.Builds t a l)
    (hsize : l.size ≤ Layout.maxSize) (part : LaysOutParts Z s t)
    {x : Option Piece × Layout} (hx : x ∈ a.pieces) (hr : s.Realizes h x) :
    s.table.layoutOf Z.target h = some x.2 := by
  obtain ⟨v, m⟩ := x
  have hm : m.size ≤ Layout.maxSize := by
    have hmem : m ∈ a.layouts := List.mem_map.2 ⟨(v, m), hx, rfl⟩
    have hle := Layout.size_le_total hmem
    have hoff : a.offset = l.size := congrArg Layout.size hb.extent
    rw [← hb.tight.offset_eq, hoff] at hle
    exact Nat.le_trans hle hsize
  cases v with
  | none =>
    have halign := hb.tight.padding m hx
    have hl := Table.layoutOf_bytes hZ.supported hr hm
    rw [hl, ← halign]
  | some v =>
    obtain ⟨rfl, hv⟩ := hb.pieces v m hx
    cases v with
    | value c =>
      obtain ⟨hc, hroom⟩ := hv c rfl
      exact part c hc hroom h hr
    | padded c len =>
      obtain ⟨value, pad, hstruct, hvalue, hpad⟩ := hr
      obtain ⟨hc, hroom⟩ := hv c rfl
      have hlen : len ≤ Layout.maxSize := by
        have hbyte : (Layout.mk len 1).Placeable := ⟨Nat.isPowerOfTwo_one, fun _ => rfl⟩
        exact Nat.le_trans (Nat.le_trans (Nat.le_add_left _ _) ((Sizing.placeable hZ c).size_le_compose hbyte)) hm
      exact layoutOf_padded hZ.supported hstruct (part c hc hroom value hvalue) hpad hlen
    | int bits => exact Table.layoutOf_int hr
    | ptr space => exact Table.layoutOf_ptr hr

theorem mapM_layoutOf (hZ : Z.Regular) {a : Arrangement Piece} {l : Layout} (hb : Z.Builds t a l)
    (hsize : l.size ≤ Layout.maxSize) (part : LaysOutParts Z s t)
    {hs : List Handle} (hall : s.RealizesAll hs a) : hs.mapM (s.table.layoutOf Z.target) = some a.layouts := by
  refine Table.mapM_eq_some (List.forall₂_map_right_iff.2 ?_)
  have hmem : ∀ {hs : List Handle} {xs : List (Option Piece × Layout)}, List.Forall₂ s.Realizes hs xs →
      (∀ x ∈ xs, x ∈ a.pieces) → List.Forall₂ (fun h x => s.table.layoutOf Z.target h = some x.2) hs xs := by
    intro hs xs hf
    induction hf with
    | nil => exact fun _ => .nil
    | cons hx _ ih =>
      intro hm
      exact .cons (layoutOf_realizes hZ hb hsize part (hm _ List.mem_cons_self) hx)
        (ih fun x hx => hm x (List.mem_cons_of_mem _ hx))
  exact hmem hall fun x hx => hx

/-- A struct of these machine fields has the layout of the aggregate. -/
theorem layoutOf_built (hZ : Z.Regular) {a : Arrangement Piece} {l : Layout} (hb : Z.Builds t a l)
    (hsize : l.size ≤ Layout.maxSize) (part : LaysOutParts Z s t)
    {hs : List Handle} (hall : s.RealizesAll hs a) (hbody : s.table.body? h = some ⟨false, hs⟩) :
    s.table.layoutOf Z.target h = some l := by
  rw [Table.layoutOf_body hbody (mapM_layoutOf hZ hb hsize part hall)]
  exact congrArg some hb.composed

/-! ## Elements of vectors -/

theorem describesPlain (hs : s.Sound Z pending) (ht : Z.Spares pending t) (hr : Z.takesRoom t = true)
    (hp : Z.placement? t = none) (hl : s.lowered[t]? = some h) : s.DescribesPlain Z t h := by
  have hd := hs.described t h ht.not_pending hl
  rwa [Describes, if_pos hr, hp] at hd

/-- The machine type of an element of a vector is one machine scalar, as wide as the element. -/
theorem scalarBits?_lowered (hZ : Z.Regular) (hs : s.Sound Z pending) (he : Z.IsElement t) (ht : Z.Spares pending t)
    (hr : Z.takesRoom t = true) (hl : s.lowered[t]? = some h) :
    s.table.scalarBits? Z.target h = some (Z.packedWidth t) := by
  induction he generalizing h with
  | bool hd =>
    have hp := hs.describesPlain ht hr (by simp [Sizing.placement?, hd]) hl
    simp only [DescribesPlain, hd] at hp
    rw [Table.scalarBits?, hp.get_eq, Sizing.packedWidth, Sizing.extent_of_get hd]
    rfl
  | int hd =>
    have hp := hs.describesPlain ht hr (by simp [Sizing.placement?, hd]) hl
    simp only [DescribesPlain, hd] at hp
    rw [Table.scalarBits?, hp.get_eq, Sizing.packedWidth, Sizing.extent_of_get hd]
    rfl
  | @float t bits hd =>
    have hp := hs.describesPlain ht hr (by simp [Sizing.placement?, hd]) hl
    simp only [DescribesPlain, hd] at hp
    obtain ⟨k, hk⟩ := Option.isSome_iff_exists.1 (hZ.floats t bits hd)
    have hbits := FloatKind.ofBits?_eq_some_iff.1 hk
    rw [Table.scalarBits?, hp.get_eq, Sizing.packedWidth, Sizing.extent_of_get hd]
    rcases Target.floatType_cases hZ.supported hk with ⟨hf, -⟩ | ⟨hf, -⟩
    · rw [hf, hbits]
      rfl
    · rw [hf]
      rfl
  | errorSet hd =>
    have hp := hs.describesPlain ht hr (by simp [Sizing.placement?, hd]) hl
    simp only [DescribesPlain, hd] at hp
    rw [Z.takesRoom_eq, hd] at hr
    rw [Table.scalarBits?, hp.get_eq, Sizing.packedWidth, Sizing.extent_errorSet hd hr, Target.errorCodeLayout_eq]
    rfl
  | pointer hd hq =>
    have hp := hs.describesPlain ht hr (by simp [Sizing.placement?, hd]) hl
    simp only [DescribesPlain, hd, hq] at hp
    rw [Table.scalarBits?, (show s.table.Stores h _ from hp).get_eq, Sizing.packedWidth, Sizing.extent_of_get hd]
    simp [SealedPool.extentRule, hq]
  | enum hd htag ih =>
    have hp := hs.describesPlain ht hr (by simp [Sizing.placement?, hd]) hl
    simp only [DescribesPlain, hd] at hp
    rw [Z.takesRoom_eq, hd] at hr
    rw [Sizing.packedWidth, Sizing.extent_enum hd]
    exact ih (ht.of_part (SealedPool.mem_parts hd (by simp [Ty.parts])) hr) hr hp

/-! ## One kind of type at a time -/

/-- The machine type of a part that takes room has the layout of the part. -/
theorem layoutOf_part (parts : LaysOutParts Z s t) {d : Ty} {c : TypeId} (hd : Z.get t = d) (hc : c ∈ d.parts)
    (hr : Z.takesRoom c = true) {e : Handle} (he : s.lowered[c]? = some e) :
    s.table.layoutOf Z.target e = some (Z.layout c) :=
  parts c (SealedPool.mem_parts hd hc) hr e he

/-- A float has the same layout whether it is lowered to its format or to an integer. -/
theorem layoutOf_floatType (hZ : Z.Regular) {bits : Nat} (hd : Z.get t = .float bits)
    (hplain : s.table.Stores h (Z.target.floatType bits)) : s.table.layoutOf Z.target h = some (Z.layout t) := by
  obtain ⟨k, hk⟩ := Option.isSome_iff_exists.1 (hZ.floats t bits hd)
  rw [Sizing.layout_of_extent (Sizing.extent_of_get hd)]
  rcases Target.floatType_cases hZ.supported hk with ⟨hf, heq⟩ | ⟨hf, heq⟩
  · rw [hf] at hplain
    rw [Table.layoutOf_float hplain, heq]
    rfl
  · rw [hf] at hplain
    rw [Table.layoutOf_int hplain, heq]
    rfl

/-- A slice is laid out as its struct, any other pointer as itself. -/
theorem layoutOf_pointer (hZ : Z.Regular) (parts : LaysOutParts Z s t) {p : PointerTy} (hd : Z.get t = .pointer p)
    (hplain : s.DescribesPlain Z t h) : s.table.layoutOf Z.target h = some (Z.layout t) := by
  rw [DescribesPlain, hd] at hplain
  by_cases hq : p.isSlice = true
  · simp only [if_pos hq] at hplain
    obtain ⟨hs, hstruct, hall⟩ := hplain
    exact layoutOf_built hZ (Sizing.builds_slice hZ hd hq) (hZ.sizes t) parts hall (Table.body?_of_struct hstruct)
  · simp only [if_neg hq] at hplain
    rw [Table.layoutOf_ptr hplain, Sizing.layout_pointer hd, PointerTy.layout, if_neg hq]
    rfl

theorem layoutOf_vector (hZ : Z.Regular) (hs : s.Sound Z pending) (ht : Z.Spares pending t) {len : Nat} {child : TypeId}
    (hd : Z.get t = .vector len child) (hn : len ≠ 0) (hrc : Z.takesRoom child = true) (hplain : s.DescribesPlain Z t h) :
    s.table.layoutOf Z.target h = some (Z.layout t) := by
  rw [DescribesPlain, hd] at hplain
  obtain ⟨elem, hstores, helem⟩ := hplain
  have hbits : s.table.scalarBits? Z.target elem = some (Z.packedWidth child) := by
    by_cases hb : Z.get child = .bool
    · rw [if_pos hb] at helem
      rw [Table.scalarBits?, helem.get_eq, Sizing.packedWidth, Sizing.extent_of_get hb]
      rfl
    · rw [if_neg hb] at helem
      have hc : child ∈ Z.parts t := SealedPool.mem_parts hd (by simp [Ty.parts, hn])
      exact scalarBits?_lowered hZ hs (hZ.vectors t len child hd) (ht.of_part hc hrc) hrc helem
  rw [Table.layoutOf_vector hstores hbits, Sizing.layout_vector hd hn]

/-- An optional without a flag beside its payload. -/
theorem layoutOf_optional (hZ : Z.Regular) (parts : LaysOutParts Z s t) (hr : Z.takesRoom t = true)
    (hp : Z.placement? t = none) {child : TypeId} (hd : Z.get t = .optional child) (hplain : s.DescribesPlain Z t h) :
    s.table.layoutOf Z.target h = some (Z.layout t) := by
  rw [DescribesPlain, hd] at hplain
  rw [Sizing.layout_optional hd]
  cases hrepr : Z.optionalRepr child with
  | flagOnly =>
    simp only [hrepr] at hplain
    rw [Table.layoutOf_int hplain, Target.machineInt_eq hZ.supported, Target.intLayout_byte]
    rfl
  | payload =>
    simp only [hrepr] at hplain
    have hrc : Z.takesRoom child = true := by rw [Z.room_of_optionalRepr, hrepr]; rfl
    exact layoutOf_part parts hd (by simp [Ty.parts]) hrc hplain
  | payloadAndFlag => simp [Sizing.placement?, hr, hd, hrepr] at hp

/-- An error union of which only one half is stored. -/
theorem layoutOf_errorUnion (hZ : Z.Regular) (parts : LaysOutParts Z s t) (hr : Z.takesRoom t = true)
    (hp : Z.placement? t = none) {set payload : TypeId} (hd : Z.get t = .errorUnion set payload)
    (hplain : s.DescribesPlain Z t h) : s.table.layoutOf Z.target h = some (Z.layout t) := by
  rw [DescribesPlain, hd] at hplain
  rw [Sizing.layout_errorUnion hd]
  have hhalves := Z.room_of_errorUnionRepr set payload
  cases hrepr : Z.errorUnionRepr set payload with
  | empty =>
    rw [hrepr] at hhalves
    obtain ⟨hset, hpayload⟩ := Prod.mk.inj hhalves
    rw [Z.takesRoom_eq, hd] at hr
    simp [hset, hpayload] at hr
  | payloadOnly =>
    rw [hrepr] at hhalves
    simp only [hrepr] at hplain
    exact layoutOf_part parts hd (by simp [Ty.parts]) (Prod.mk.inj hhalves).2 hplain
  | errorOnly =>
    simp only [hrepr] at hplain
    rw [Table.layoutOf_int hplain, Target.machineInt_eq hZ.supported]
    rfl
  | errorFirst | payloadFirst => simp [Sizing.placement?, hr, hd, hrepr] at hp

theorem layoutOf_packed (hZ : Z.Regular) (hd : (Z.get t).isPackedContainer = true)
    (hplain : s.table.Stores h (.int (Z.packedWidth t))) : s.table.layoutOf Z.target h = some (Z.layout t) := by
  rw [Table.layoutOf_int hplain, Target.machineInt_eq hZ.supported, Sizing.layout_packed hd]

/-! ## All types -/

/-- A machine type without a placement is laid out as its type, if that holds of the parts. -/
theorem layoutOf_plain (hZ : Z.Regular) (hs : s.Sound Z pending) (ht : Z.Spares pending t)
    (hr : Z.takesRoom t = true) (hp : Z.placement? t = none) (hl : s.lowered[t]? = some h)
    (parts : LaysOutParts Z s t) : s.table.layoutOf Z.target h = some (Z.layout t) := by
  have hT := hZ.supported
  have hdescribed := hs.describesPlain ht hr hp hl
  have hplain := hdescribed
  have hroom := hr
  rw [Z.takesRoom_eq] at hroom
  unfold DescribesPlain at hplain
  cases hd : Z.get t with
  | void | noreturn | comptime | function | opaqueType => simp [hd] at hroom
  | bool =>
    simp only [hd] at hplain
    rw [Table.layoutOf_int hplain, Target.machineInt_eq hT, Target.intLayout_bit]
    exact congrArg some (Sizing.layout_of_extent (Sizing.extent_of_get hd)).symm
  | int bits sign =>
    simp only [hd] at hplain
    rw [Table.layoutOf_int hplain, Target.machineInt_eq hT]
    exact congrArg some (Sizing.layout_of_extent (Sizing.extent_of_get hd)).symm
  | float bits =>
    simp only [hd] at hplain
    exact layoutOf_floatType hZ hd hplain
  | pointer p => exact layoutOf_pointer hZ parts hd hdescribed
  | array len child sentinel =>
    simp only [hd] at hplain
    obtain ⟨elem, hstores, helem⟩ := hplain
    have hn : elementCount len sentinel ≠ 0 ∧ Z.takesRoom child = true := by simpa [hd] using hroom
    have hl := layoutOf_part parts hd (by simp [Ty.parts, hn.1]) hn.2 helem
    rw [Table.layoutOf_array hstores hl, Sizing.layout_array hd hn.1]
  | vector len child =>
    have hn : len ≠ 0 ∧ Z.takesRoom child = true := by simpa [hd] using hroom
    exact layoutOf_vector hZ hs ht hd hn.1 hn.2 hdescribed
  | optional child => exact layoutOf_optional hZ parts hr hp hd hdescribed
  | errorSet set =>
    simp only [hd] at hplain
    have hset : set.hasBits = true := by simpa [hd] using hroom
    rw [Table.layoutOf_int hplain, Target.machineInt_eq hT, Sizing.layout, Sizing.extent_errorSet hd hset]
    rfl
  | errorUnion set payload => exact layoutOf_errorUnion hZ parts hr hp hd hdescribed
  | enum name tag variants =>
    simp only [hd] at hplain
    have hrc : Z.takesRoom tag = true := by simpa [hd] using hroom
    rw [layoutOf_part parts hd (by simp [Ty.parts]) hrc hplain, Sizing.layout, Sizing.layout, Sizing.extent_enum hd]
  | struct str =>
    simp only [hd] at hplain
    have hpacked : str.isPacked = true := by simpa [Sizing.placement?, hr, hd] using hp
    exact layoutOf_packed hZ (by simp [hd, Ty.isPackedContainer, hpacked]) hplain
  | tuple fields => simp [Sizing.placement?, hr, hd] at hp
  | union u =>
    simp only [hd] at hplain
    have hpacked : u.isPacked = true := by simpa [Sizing.placement?, hr, hd] using hp
    exact layoutOf_packed hZ (by simp [hd, Ty.isPackedContainer, hpacked]) hplain

/-- The machine type of a type that takes room has the layout of the type. -/
theorem layoutOf_lowered (hZ : Z.Regular) (hs : s.Sound Z pending) (t : TypeId) (ht : Z.Spares pending t)
    (hr : Z.takesRoom t = true) {h : Handle} (hl : s.lowered[t]? = some h) :
    s.table.layoutOf Z.target h = some (Z.layout t) := by
  induction t using Z.induction_on_parts generalizing h with
  | step t ih =>
  have parts : LaysOutParts Z s t := fun c hc hrc e he => ih c hc (ht.of_part hc hrc) hrc he
  cases hp : Z.placement? t with
  | some p =>
    have hd := hs.described t h ht.not_pending hl
    rw [Describes, if_pos hr, hp] at hd
    obtain ⟨l, -, hbody, hkeeps⟩ := hd
    exact layoutOf_built hZ (Sizing.builds_placement hZ hp) (hZ.sizes t) parts hkeeps.machine hbody
  | none => exact layoutOf_plain hZ hs ht hr hp hl parts

end Sound

end Session

end MachineAbi
