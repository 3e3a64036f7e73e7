import MachineAbi.Proofs.Aggregate.Arrangement
import MachineAbi.Proofs.Source.Payload

/-!
# Placements

Where the values of an aggregate are, told by its source type alone: `Sizing.placement?` arranges the values of a type
by their layouts as source types, and no machine type is looked up.

* `Sizing.Builds`: the whole has the layout of the type, though the one is padded step by step and the other composed,
  and each value in it has the layout of its piece and is of a part of the type that takes room.
* Placements of all kinds of aggregates do so (`Sizing.builds_placement`).
-/

namespace MachineAbi

/-! ## One value beside another -/

namespace Arrangement

variable {α : Type}

/-- Places a value, if there is one. -/
def pushOption : Option (Item α) → Arrangement α → Option FieldPlace × Arrangement α
  | none, a => (none, a)
  | some i, a => (some (a.push i).1, (a.push i).2)

/-- The places of a value and its tag, in the order asked for. -/
structure Tagged (α : Type) where
  slot : Option FieldPlace
  tag : Option FieldPlace
  built : Arrangement α

/-- A value and its tag one after the other; either can be missing. -/
def tagged (tagFirst : Bool) (tag held : Option (Item α)) : Tagged α :=
  if tagFirst then
    let first := pushOption tag .empty
    let second := pushOption held first.2
    ⟨second.1, first.1, second.2⟩
  else
    let first := pushOption held .empty
    let second := pushOption tag first.2
    ⟨first.1, second.1, second.2⟩

variable {a : Arrangement α} {i? : Option (Item α)}

theorem Tight.pushOption (h : a.Tight) (hi : ∀ i ∈ i?, i.layout.Placeable) : (a.pushOption i?).2.Tight := by
  cases i? with
  | none => exact h
  | some i => exact h.push (hi i rfl)

theorem extent_pushOption (h : a.Tight) (hi : ∀ i ∈ i?, i.layout.Placeable) :
    (a.pushOption i?).2.extent = (i?.toList.map (·.layout)).foldl Layout.append a.extent := by
  cases i? with
  | none => rfl
  | some i => exact extent_push h (hi i rfl)

theorem grows_pushOption (a : Arrangement α) (i? : Option (Item α)) : a.Grows (a.pushOption i?).2 := by
  cases i? with
  | none => exact .refl a
  | some i => exact a.grows_push i

theorem All.pushOption {P : α → Layout → Prop} (h : a.All P) (hi : ∀ i ∈ i?, 0 < i.layout.size → P i.value i.layout) :
    (a.pushOption i?).2.All P := by
  cases i? with
  | none => exact h
  | some i => exact h.push (hi i rfl)

end Arrangement

/-! ## Placements of aggregates -/

/-- What a machine field of an aggregate holds. -/
inductive Piece where
  /-- A value of this type. -/
  | value (t : TypeId)
  /-- A value of this type, with this many bytes behind it. -/
  | padded (t : TypeId) (len : Nat)
  | int (bits : Nat)
  | ptr (space : Nat)
deriving DecidableEq

/-- The places of the values of an aggregate, and what it is built of. -/
structure Placement where
  fields : List FieldPlace
  tag : Option FieldPlace
  built : Arrangement Piece

namespace Piece

/-- The source type of which a piece holds a value. -/
def source? : Piece → Option TypeId
  | value t | padded t _ => some t
  | int _ | ptr _ => none

def layout (Z : Sizing) : Piece → Layout
  | value t => Z.layout t
  | padded t len => .compose [Z.layout t, ⟨len, 1⟩]
  | int bits => Z.target.machineInt bits
  | ptr space => Z.target.machinePtr space

end Piece

namespace Sizing

/-- A value of type `t` to be placed. -/
def item (Z : Sizing) (t : TypeId) : Item Piece := ⟨t, .value t, Z.layout t⟩

/-- A field to be placed; one of compile time takes no room. -/
def fieldItem (Z : Sizing) (f : FieldTy) : Item Piece := ⟨f.ty, .value f.ty, if f.isComptime then .zero else Z.layout f.ty⟩

/-- An integer to be placed for a value of type `source`. -/
def intItem (Z : Sizing) (source : TypeId) (bits : Nat) : Item Piece := ⟨source, .int bits, Z.target.machineInt bits⟩

/-- Fields in order. -/
def inOrder (Z : Sizing) (fields : List FieldTy) : Placement :=
  let placed := Arrangement.empty.pushAll (fields.map Z.fieldItem)
  ⟨placed.1, none, placed.2.finish⟩

/-- A value and its tag; the fields follow from the place of the value. -/
def besideTag (tagFirst : Bool) (tag held : Option (Item Piece)) (fields : Option FieldPlace → List FieldPlace) :
    Placement :=
  let placed := Arrangement.tagged tagFirst tag held
  ⟨fields placed.slot, placed.tag, placed.built.finish⟩

/-- What the payload of a union holds: its widest member, padded unless it fills the payload. -/
def heldPiece (Z : Sizing) (u : UnionTy) (c : TypeId) : Piece :=
  if (Z.layout c).size < (Z.payloadLayout u).size then .padded c ((Z.payloadLayout u).size - (Z.layout c).size)
  else .value c

/-- The number of the member that fills the payload of a union alone. -/
def filledBy? (Z : Sizing) (u : UnionTy) : Option Nat :=
  (Z.widestMember? u).bind fun m => if (Z.layout m.1).size < (Z.payloadLayout u).size then none else some m.2

/-- Whether the tag of a union comes before its payload. -/
def tagComesFirst (Z : Sizing) (u : UnionTy) : Bool :=
  (Z.storedTag? u).any fun tag => (Z.layout tag).tagFirst (Z.payloadLayout u)

/-- The payload of a union to be placed. -/
def heldItem? (Z : Sizing) (u : UnionTy) : Option (Item Piece) :=
  (Z.widestMember? u).map fun m => ⟨m.1, Z.heldPiece u m.1, Z.payloadLayout u⟩

/-- The placement of the values of type `t`, if it is stored with explicit padding and its layout is kept. -/
def placement? (Z : Sizing) (t : TypeId) : Option Placement :=
  if Z.takesRoom t then
    match Z.get t with
    | .struct s => if s.isPacked then none else some (Z.inOrder s.fieldTys)
    | .tuple fields => some (Z.inOrder fields)
    | .optional child =>
      match Z.optionalRepr child with
      | .payloadAndFlag => some (besideTag false (some (Z.intItem .u8 8)) (some (Z.item child)) (·.toList))
      | _ => none
    | .errorUnion set payload =>
      match Z.errorUnionRepr set payload with
      | .errorFirst =>
        some (besideTag true (some (Z.intItem set errorCodeBits)) (some (Z.item payload)) (·.toList))
      | .payloadFirst =>
        some (besideTag false (some (Z.intItem set errorCodeBits)) (some (Z.item payload)) (·.toList))
      | _ => none
    | .union u =>
      if u.isPacked then none
      else
        some (besideTag (Z.tagComesFirst u) ((Z.storedTag? u).map Z.item) (Z.heldItem? u)
          (Z.memberPlaces u (Z.filledBy? u)))
    | _ => none
  else none

/-- A slice is built of a pointer and a length. -/
def sliceBuilt (Z : Sizing) (t : TypeId) (space : Nat) : Arrangement Piece :=
  (Arrangement.empty.pushAll [⟨t, .ptr space, Z.target.machinePtr space⟩, Z.intItem t Z.target.ptrBits]).2.finish

/-! ## Placements have the layouts of their types -/

/-- The layout of a piece of an aggregate of type `t`; a value in it is of a part of `t`, and takes room. -/
def IsPiece (Z : Sizing) (t : TypeId) (v : Piece) (l : Layout) : Prop :=
  l = v.layout Z ∧ ∀ c, v.source? = some c → c ∈ Z.parts t ∧ Z.takesRoom c = true

/-- A value that can be placed in an aggregate of type `t`. -/
def Fits (Z : Sizing) (t : TypeId) (i : Item Piece) : Prop :=
  i.layout.Placeable ∧ (0 < i.layout.size → Z.IsPiece t i.value i.layout)

/-- A finished arrangement of parts of type `t`, with layout `l`. -/
structure Builds (Z : Sizing) (t : TypeId) (a : Arrangement Piece) (l : Layout) : Prop where
  tight : a.Tight
  composed : Layout.compose a.layouts = l
  extent : a.extent = l
  pieces : a.All (Z.IsPiece t)

variable {Z : Sizing} {t : TypeId}

theorem Builds.finish {a : Arrangement Piece} (ht : a.Tight) (hp : a.All (Z.IsPiece t)) :
    Z.Builds t a.finish a.extent.pad :=
  ⟨ht.finish, (a.compose_finish ht).trans (a.extent_finish ht), a.extent_finish ht, hp.finish⟩

theorem builds_pushAll {is : List (Item Piece)} (h : ∀ i ∈ is, Z.Fits t i) :
    Z.Builds t (Arrangement.empty.pushAll is).2.finish (.compose (is.map (·.layout))) := by
  have hplace := fun i hi => (h i hi).1
  have hext := Arrangement.extent_pushAll .empty hplace
  have hb := Builds.finish (Arrangement.Tight.empty.pushAll hplace)
    (Arrangement.All.empty.pushAll fun i hi => (h i hi).2)
  rwa [hext] at hb

theorem builds_tagged {tagFirst : Bool} {tag held : Option (Item Piece)} (ht : ∀ i ∈ tag, Z.Fits t i)
    (hh : ∀ i ∈ held, Z.Fits t i) :
    Z.Builds t (Arrangement.tagged tagFirst tag held).built.finish
      (.compose (((if tagFirst then tag.toList ++ held.toList else held.toList ++ tag.toList)).map (·.layout))) := by
  have both : ∀ {first second : Option (Item Piece)}, (∀ i ∈ first, Z.Fits t i) → (∀ i ∈ second, Z.Fits t i) →
      Z.Builds t ((Arrangement.empty.pushOption first).2.pushOption second).2.finish
        (.compose ((first.toList ++ second.toList).map (·.layout))) := by
    intro first second h₁ h₂
    have tight₁ := Arrangement.Tight.empty.pushOption fun i hi => (h₁ i hi).1
    have tight₂ := tight₁.pushOption fun i hi => (h₂ i hi).1
    have hb := Builds.finish tight₂
      ((Arrangement.All.empty.pushOption fun i hi => (h₁ i hi).2).pushOption fun i hi => (h₂ i hi).2)
    rw [Arrangement.extent_pushOption tight₁ fun i hi => (h₂ i hi).1,
      Arrangement.extent_pushOption .empty fun i hi => (h₁ i hi).1, ← List.foldl_append, ← List.map_append] at hb
    exact hb
  cases tagFirst with
  | true => exact both ht hh
  | false => exact both hh ht

theorem takesRoom_of_size_pos (hT : Z.target.Supported) {c : TypeId} (h : 0 < (Z.layout c).size) :
    Z.takesRoom c = true := by
  cases hr : Z.takesRoom c with
  | true => rfl
  | false =>
    rw [layout_of_not_takesRoom hT hr] at h
    exact absurd h (Nat.lt_irrefl 0)

theorem fits_item (hZ : Z.Regular) {c : TypeId} (hc : c ∈ Z.parts t) : Z.Fits t (Z.item c) := by
  refine ⟨placeable hZ c, fun hs => ⟨rfl, fun d hd => ?_⟩⟩
  obtain rfl := Option.some.inj hd
  exact ⟨hc, takesRoom_of_size_pos hZ.supported hs⟩

theorem fits_intItem (hZ : Z.Regular) (source : TypeId) (bits : Nat) : Z.Fits t (Z.intItem source bits) := by
  refine ⟨?_, fun _ => ⟨rfl, fun d hd => nomatch hd⟩⟩
  unfold intItem
  dsimp only
  rw [Target.machineInt_eq hZ.supported]
  exact placeable_intLayout hZ.supported bits

theorem fits_fieldItem (hZ : Z.Regular) {f : FieldTy} (hf : f.isComptime = false → f.ty ∈ Z.parts t) :
    Z.Fits t (Z.fieldItem f) := by
  unfold fieldItem
  cases hc : f.isComptime with
  | true => exact ⟨Layout.Placeable.zero, fun hs => absurd hs (Nat.lt_irrefl 0)⟩
  | false => exact fits_item hZ (hf hc)

/-! ### Fields in order -/

/-- Fields of compile time make no difference. -/
theorem foldl_fieldItem (hZ : Z.Regular) (fields : List FieldTy) {l : Layout} (hl : l.Placeable) :
    ((fields.map Z.fieldItem).map (·.layout)).foldl Layout.append l =
      ((storedTypes fields).map Z.layout).foldl Layout.append l := by
  induction fields generalizing l with
  | nil => rfl
  | cons f fields ih =>
    cases hc : f.isComptime with
    | true =>
      have hstored : storedTypes (f :: fields) = storedTypes fields := by simp [storedTypes, hc]
      have hitem : (Z.fieldItem f).layout = .zero := by simp [fieldItem, hc]
      rw [hstored, List.map_cons, List.map_cons, List.foldl_cons, hitem, Layout.append_zero hl.align_pos]
      exact ih hl
    | false =>
      have hstored : storedTypes (f :: fields) = f.ty :: storedTypes fields := by simp [storedTypes, hc]
      have hitem : (Z.fieldItem f).layout = Z.layout f.ty := by simp [fieldItem, hc]
      rw [hstored, List.map_cons, List.map_cons, List.foldl_cons, hitem, List.map_cons, List.foldl_cons]
      exact ih (hl.append (placeable hZ f.ty))

theorem builds_inOrder (hZ : Z.Regular) {fields : List FieldTy} (hf : ∀ c ∈ storedTypes fields, c ∈ Z.parts t) :
    Z.Builds t (Z.inOrder fields).built (.compose ((storedTypes fields).map Z.layout)) := by
  have hfits : ∀ i ∈ fields.map Z.fieldItem, Z.Fits t i := by
    intro i hi
    obtain ⟨f, hm, rfl⟩ := List.mem_map.1 hi
    exact fits_fieldItem hZ fun hc => hf f.ty (List.mem_map.2 ⟨f, List.mem_filter.2 ⟨hm, by simp [hc]⟩, rfl⟩)
  have hb := builds_pushAll hfits
  rw [Layout.compose, foldl_fieldItem hZ fields .zero] at hb
  exact hb

/-! ### Unions -/

theorem layout_heldPiece (hZ : Z.Regular) {u : UnionTy} {c : TypeId} {i : Nat} (h : Z.widestMember? u = some (c, i)) :
    (Z.heldPiece u c).layout Z = Z.payloadLayout u := by
  unfold heldPiece
  split
  · exact compose_widestMember hZ h ‹_›
  · exact layout_widestMember hZ h (Nat.le_of_not_lt ‹_›)

theorem source?_heldPiece (Z : Sizing) (u : UnionTy) (c : TypeId) : (Z.heldPiece u c).source? = some c := by
  unfold heldPiece
  split <;> rfl

theorem fits_heldItem (hZ : Z.Regular) {u : UnionTy} (hu : ∀ c ∈ u.memberTypes, c ∈ Z.parts t) :
    ∀ i ∈ Z.heldItem? u, Z.Fits t i := by
  intro i hi
  obtain ⟨⟨c, n⟩, hw, rfl⟩ := Option.map_eq_some_iff.1 hi
  refine ⟨placeable_payloadLayout hZ.formatted u, fun _ => ⟨(layout_heldPiece hZ hw).symm, fun d hd => ?_⟩⟩
  rw [source?_heldPiece] at hd
  obtain rfl := Option.some.inj hd
  exact ⟨hu c (mem_of_widestMember hw), (getElem?_widestMember hw).2⟩

/-- A union without a widest member has no payload to place, and one of size zero. -/
theorem foldl_heldItem (hZ : Z.Regular) (u : UnionTy) {l : Layout} (hl : l.Placeable) :
    ((Z.heldItem? u).toList.map (·.layout)).foldl Layout.append l = l.append (Z.payloadLayout u) := by
  unfold heldItem?
  cases hw : Z.widestMember? u with
  | none =>
    rw [payloadLayout_eq_zero hZ.supported hw, Layout.append_zero hl.align_pos]
    rfl
  | some m => rfl

theorem compose_union (hZ : Z.Regular) (u : UnionTy) :
    Layout.compose (((if Z.tagComesFirst u then ((Z.storedTag? u).map Z.item).toList ++ (Z.heldItem? u).toList
      else (Z.heldItem? u).toList ++ ((Z.storedTag? u).map Z.item).toList)).map (·.layout)) =
      (Z.payloadLayout u).tagged ((Z.storedTag? u).map Z.layout) := by
  have hp := placeable_payloadLayout hZ.formatted u
  unfold tagComesFirst
  cases ht : Z.storedTag? u with
  | none =>
    have hfold := foldl_heldItem hZ u .zero
    rw [hp.zero_append] at hfold
    simp only [Option.map_none, Option.toList_none, Option.any_none, List.append_nil]
    rw [Layout.compose, if_neg (by simp), hfold]
    exact hp.pad_of_dvd (dvd_payloadLayout hZ.formatted u)
  | some tag =>
    have htag := placeable hZ tag
    simp only [Option.map_some, Option.toList_some, Option.any_some, Layout.tagged]
    split
    · have hfold := foldl_heldItem hZ u (Layout.Placeable.zero.append htag)
      rw [Layout.compose, Layout.compose, List.map_append, List.foldl_append]
      exact congrArg Layout.pad hfold
    · have hfold := foldl_heldItem hZ u .zero
      rw [Layout.compose, Layout.compose, List.map_append, List.foldl_append, hfold]
      rfl

/-! ### All aggregates -/

theorem builds_placement (hZ : Z.Regular) {p : Placement} (h : Z.placement? t = some p) :
    Z.Builds t p.built (Z.layout t) := by
  have hcode : ∀ set, (Z.intItem set errorCodeBits).layout = Z.target.errorCodeLayout :=
    fun _ => Target.machineInt_eq hZ.supported _
  have hflag : (Z.intItem .u8 8).layout = ⟨1, 1⟩ := (Target.machineInt_eq hZ.supported 8).trans Target.intLayout_byte
  have two : ∀ (tagFirst : Bool) {i j : Item Piece} (fields : Option FieldPlace → List FieldPlace), Z.Fits t i →
      Z.Fits t j → Z.Builds t (besideTag tagFirst (some i) (some j) fields).built
        (.compose (if tagFirst then [i.layout, j.layout] else [j.layout, i.layout])) := by
    intro tagFirst i j fields hi hj
    have hb := @builds_tagged Z t tagFirst (some i) (some j) (fun k hk => Option.some.inj hk ▸ hi)
      (fun k hk => Option.some.inj hk ▸ hj)
    cases tagFirst with
    | true => exact hb
    | false => exact hb
  unfold placement? at h
  split at h
  next =>
    split at h
    next s hd =>
      split at h
      next => cases h
      next hs =>
        obtain rfl := Option.some.inj h
        rw [layout_struct hd (by simpa using hs)]
        exact builds_inOrder hZ fun c hc => SealedPool.mem_parts hd hc
    next fields hd =>
      obtain rfl := Option.some.inj h
      rw [layout_tuple hd]
      exact builds_inOrder hZ fun c hc => SealedPool.mem_parts hd hc
    next child hd =>
      split at h
      next hr =>
        obtain rfl := Option.some.inj h
        have hc : child ∈ Z.parts t := SealedPool.mem_parts hd (by simp [Ty.parts])
        have hb := two false (·.toList) (fits_intItem hZ .u8 8) (fits_item hZ hc)
        rw [hflag] at hb
        rw [layout_optional hd, hr]
        exact hb
      next => cases h
    next set payload hd =>
      have hp := fits_item hZ (SealedPool.mem_parts hd (by simp [Ty.parts]) : payload ∈ Z.parts t)
      have hc := @fits_intItem Z t hZ set errorCodeBits
      split at h
      next hr =>
        obtain rfl := Option.some.inj h
        have hb := two true (·.toList) hc hp
        rw [hcode] at hb
        rw [layout_errorUnion hd, hr]
        exact hb
      next hr =>
        obtain rfl := Option.some.inj h
        have hb := two false (·.toList) hc hp
        rw [hcode] at hb
        rw [layout_errorUnion hd, hr]
        exact hb
      next => cases h
    next u hd =>
      split at h
      next => cases h
      next hu =>
        obtain rfl := Option.some.inj h
        have hu : u.isPacked = false := by simpa using hu
        have hb := @builds_tagged Z t (Z.tagComesFirst u) ((Z.storedTag? u).map Z.item) (Z.heldItem? u)
          (fun i hi => by
            obtain ⟨tag, htag, rfl⟩ := Option.map_eq_some_iff.1 hi
            exact fits_item hZ (SealedPool.mem_parts hd (SealedPool.mem_parts_of_storedTag hu htag)))
          (fits_heldItem hZ fun c hc => SealedPool.mem_parts hd (List.mem_append_right _ hc))
        rw [compose_union hZ u] at hb
        rw [layout_union hd hu]
        exact hb
    next => cases h
  next => cases h

theorem builds_slice (hZ : Z.Regular) {p : PointerTy} (hd : Z.get t = .pointer p) (hp : p.isSlice = true) :
    Z.Builds t (Z.sliceBuilt t p.addrSpace) (Z.layout t) := by
  have hlen : Z.target.machineInt Z.target.ptrBits = Z.target.usizeLayout := Target.machineInt_eq hZ.supported _
  have hptr := Target.machinePtr_sane hZ.supported p.addrSpace
  have hb := @builds_pushAll Z t [⟨t, .ptr p.addrSpace, Z.target.machinePtr p.addrSpace⟩, Z.intItem t Z.target.ptrBits]
    (fun i hi => by
      rcases List.mem_cons.1 hi with rfl | hi
      · exact ⟨.of_size_pos hptr.1 hptr.2, fun _ => ⟨rfl, fun d hd => nomatch hd⟩⟩
      · obtain rfl := List.mem_singleton.1 hi
        exact fits_intItem hZ t _)
  have hitem : (Z.intItem t Z.target.ptrBits).layout = Z.target.usizeLayout := hlen
  rw [List.map_cons, List.map_cons, hitem] at hb
  rw [layout_pointer hd, PointerTy.layout]
  rw [if_pos hp]
  exact hb

end Sizing

end MachineAbi
