import Mathlib.Data.List.Forall2
import MachineAbi.Proofs.Aggregate.Placement

/-!
# Places of fields

Where a placement says the fields of an aggregate and its tag are, compared with their source types.

* `Located`: a field is aligned and inside, and the machine field named holds it.
* `Sizing.Arranges`: all fields of an aggregate are located, and no two of them share a byte, the members of a union
  apart (`Sizing.arranges_placement`).
-/

namespace MachineAbi

/-! ## A value and its tag -/

namespace Arrangement

variable {α : Type} {a : Arrangement α} {i : Item α}

theorem sits_pushOption {i? : Option (Item α)} (h : a.Tight) (hi : ∀ i ∈ i?, i.layout.Placeable) :
    Option.Rel (a.pushOption i?).2.Sits i? (a.pushOption i?).1 := by
  cases i? with
  | none => exact .none
  | some i => exact .some (sits_push h (hi i rfl))

theorem offset_le_pushOption (a : Arrangement α) (i? : Option (Item α)) :
    ∀ p ∈ (a.pushOption i?).1, a.offset ≤ p.offset := by
  intro p hp
  cases i? with
  | none => cases hp
  | some i =>
    rw [← Option.some.inj hp]
    exact a.offset_le_push i

/-- Two values one after the other: both sit in the whole, and the second behind the first. -/
theorem sits_both {first second : Option (Item α)} (h₁ : ∀ i ∈ first, i.layout.Placeable)
    (h₂ : ∀ i ∈ second, i.layout.Placeable) :
    let placed := (empty : Arrangement α).pushOption first
    let both := placed.2.pushOption second
    Option.Rel both.2.Sits first placed.1 ∧ Option.Rel both.2.Sits second both.1 ∧
      ∀ i ∈ first, ∀ p ∈ placed.1, ∀ q ∈ both.1, p.offset + i.layout.size ≤ q.offset := by
  have tight := Tight.empty.pushOption h₁
  have sits₁ := sits_pushOption Tight.empty h₁
  have grows := grows_pushOption ((empty : Arrangement α).pushOption first).2 second
  refine ⟨?_, sits_pushOption tight h₂, fun i hi p hp q hq => ?_⟩
  · cases sits₁ with
    | none => exact .none
    | some hs => exact .some (hs.mono grows)
  · have hle := offset_le_pushOption _ second q hq
    cases sits₁ with
    | none => cases hi
    | some hs =>
      obtain rfl := Option.some.inj hi
      obtain rfl := Option.some.inj hp
      exact Nat.le_trans hs.inside hle

/-- A value and its tag sit beside each other. -/
theorem sits_tagged (tagFirst : Bool) {tag held : Option (Item α)} (ht : ∀ i ∈ tag, i.layout.Placeable)
    (hh : ∀ i ∈ held, i.layout.Placeable) :
    let placed := tagged tagFirst tag held
    Option.Rel placed.built.finish.Sits held placed.slot ∧ Option.Rel placed.built.finish.Sits tag placed.tag ∧
      ∀ i ∈ held, ∀ j ∈ tag, ∀ p ∈ placed.slot, ∀ q ∈ placed.tag,
        p.offset + i.layout.size ≤ q.offset ∨ q.offset + j.layout.size ≤ p.offset := by
  have finish : ∀ {b : Arrangement α} {i? : Option (Item α)} {p? : Option FieldPlace}, Option.Rel b.Sits i? p? →
      Option.Rel b.finish.Sits i? p? := by
    intro b i? p? h
    cases h with
    | none => exact .none
    | some hs => exact .some (hs.mono (grows_padTo _ _))
  cases tagFirst with
  | true =>
    obtain ⟨h₁, h₂, hle⟩ := sits_both ht hh
    exact ⟨finish h₂, finish h₁, fun i _ j hj p hp q hq => Or.inr (hle j hj q hq p hp)⟩
  | false =>
    obtain ⟨h₁, h₂, hle⟩ := sits_both hh ht
    exact ⟨finish h₁, finish h₂, fun i hi j _ p hp q hq => Or.inl (hle i hi p hp q hq)⟩

end Arrangement

theorem exists_of_rel {α β : Type} {R : α → β → Prop} {a : α} {b? : Option β} (h : Option.Rel R (some a) b?) :
    ∃ b, b? = some b ∧ R a b := by
  cases h with
  | some h => exact ⟨_, rfl, h⟩

theorem exists_of_rel_of_mem {α β : Type} {R : α → β → Prop} {a? : Option α} {b? : Option β} (h : Option.Rel R a? b?) :
    ∀ b ∈ b?, ∃ a ∈ a?, R a b := by
  intro b hb
  cases h with
  | none => cases hb
  | some h =>
    obtain rfl := Option.some.inj hb
    exact ⟨_, rfl, h⟩

/-- Whether all fields of a type share one place. -/
def Ty.isUnion : Ty → Bool
  | union _ => true
  | _ => false

namespace Sizing

/-! ## What an aggregate stores -/

/-- The fields whose places are listed for an aggregate. -/
def placedFields (Z : Sizing) (t : TypeId) : List FieldTy :=
  match Z.get t with
  | .struct s => s.fieldTys
  | .tuple fields => fields
  | .optional child => [⟨child, false⟩]
  | .errorUnion _ payload => [⟨payload, false⟩]
  | .union u => u.memberTypes.map (⟨·, false⟩)
  | _ => []

/-- The type of what tells the values of an aggregate apart: a flag, an error code or a tag. -/
def placedTag? (Z : Sizing) (t : TypeId) : Option TypeId :=
  match Z.get t with
  | .optional _ => some .u8
  | .errorUnion set _ => some set
  | .union u => Z.storedTag? u
  | _ => none

/-- Whether a field is there at run time and has a size. -/
def occupies (Z : Sizing) (f : FieldTy) : Bool := !f.isComptime && 0 < (Z.layout f.ty).size

/-- The places of the fields that occupy bytes. -/
def occupied (Z : Sizing) (fields : List FieldTy) (places : List FieldPlace) : List FieldPlace :=
  ((fields.zip places).filter fun x => Z.occupies x.1).map (·.2)

/-- A machine field that holds just the values of type `t`, as they are lowered. -/
inductive Represents (Z : Sizing) : Piece → TypeId → Prop
  | value {t : TypeId} (h : Z.takesRoom t = true) : Z.Represents (.value t) t
  | int {t : TypeId} {bits : Nat} {sign : Signedness} (h : Z.get t = .int bits sign) (hb : 0 < bits) :
      Z.Represents (.int bits) t
  | errorSet {t : TypeId} {set : ErrorSet} (h : Z.get t = .errorSet set) (hs : set.hasBits = true) :
      Z.Represents (.int errorCodeBits) t

/-- The place of a field in an arrangement: aligned and inside, unless the field is of compile time, and at the machine
field named, which holds the field alone. -/
structure Located (Z : Sizing) (a : Arrangement Piece) (f : FieldTy) (p : FieldPlace) : Prop where
  source : p.source = f.ty
  offset_le : p.offset ≤ a.offset
  aligned : f.isComptime = false → (Z.layout f.ty).align ∣ p.offset
  inside : f.isComptime = false → p.offset + (Z.layout f.ty).size ≤ a.offset
  indexed : ∀ k, p.machineIndex = some k → ∃ v l, a.pieces[k]? = some (some v, l) ∧ Z.Represents v f.ty ∧
    p.offset = Layout.total (a.layouts.take k)

/-- Two places share no byte. -/
def Apart (Z : Sizing) (p q : FieldPlace) : Prop :=
  p.offset + (Z.layout p.source).size ≤ q.offset ∨ q.offset + (Z.layout q.source).size ≤ p.offset

/-- An item that stands for a field. -/
structure StandsFor (Z : Sizing) (f : FieldTy) (i : Item Piece) : Prop where
  source : i.source = f.ty
  layout : i.layout = if f.isComptime then .zero else Z.layout f.ty
  represents : 0 < i.layout.size → Z.Represents i.value f.ty

variable {Z : Sizing} {f : FieldTy} {i : Item Piece} {p : FieldPlace} {a : Arrangement Piece}

theorem occupies_iff : Z.occupies f = true ↔ f.isComptime = false ∧ 0 < (Z.layout f.ty).size := by
  simp [occupies]

namespace StandsFor

theorem placeable (hZ : Z.Regular) (h : Z.StandsFor f i) : i.layout.Placeable := by
  rw [h.layout]
  split
  · exact Layout.Placeable.zero
  · exact Sizing.placeable hZ f.ty

theorem layout_eq (h : Z.StandsFor f i) (hc : f.isComptime = false) : i.layout = Z.layout f.ty := by
  rw [h.layout, hc]
  rfl

/-- A field is located where its item sits. -/
theorem located (h : Z.StandsFor f i) (hs : a.Sits i p) : Z.Located a f p := by
  refine ⟨hs.source.trans h.source, Nat.le_trans (Nat.le_add_right _ _) hs.inside, fun hc => ?_, fun hc => ?_,
    fun k hk => ?_⟩
  · rw [← h.layout_eq hc]
    exact hs.aligned
  · rw [← h.layout_eq hc]
    exact hs.inside
  · rcases Nat.eq_zero_or_pos i.layout.size with hz | hpos
    · rw [hs.unstored hz] at hk
      cases hk
    · obtain ⟨j, hj, hpiece, hoff⟩ := hs.stored hpos
      obtain rfl := Option.some.inj (hj.symm.trans hk)
      exact ⟨i.value, i.layout, hpiece, h.represents hpos, hoff⟩

end StandsFor

theorem standsFor_fieldItem (hT : Z.target.Supported) (f : FieldTy) : Z.StandsFor f (Z.fieldItem f) := by
  refine ⟨rfl, rfl, fun hs => .value ?_⟩
  unfold fieldItem at hs
  split at hs
  · exact absurd hs (Nat.lt_irrefl 0)
  · exact takesRoom_of_size_pos hT hs

theorem standsFor_fieldItems (hT : Z.target.Supported) (fields : List FieldTy) :
    List.Forall₂ Z.StandsFor fields (fields.map Z.fieldItem) := by
  induction fields with
  | nil => exact .nil
  | cons f fields ih => exact .cons (standsFor_fieldItem hT f) ih

theorem standsFor_item (hT : Z.target.Supported) (c : TypeId) : Z.StandsFor ⟨c, false⟩ (Z.item c) :=
  standsFor_fieldItem hT ⟨c, false⟩

/-- The byte that says whether the payload of an optional is there. -/
theorem standsFor_flag (hT : Z.target.Supported) : Z.StandsFor ⟨.u8, false⟩ (Z.intItem .u8 8) := by
  refine ⟨rfl, ?_, fun _ => .int Z.get_u8 (by decide)⟩
  rw [if_neg (by simp), layout_of_extent (extent_of_get Z.get_u8)]
  exact Target.machineInt_eq hT 8

/-- The error code of an error union. -/
theorem standsFor_code (hT : Z.target.Supported) {c : TypeId} {set : ErrorSet} (hc : Z.get c = .errorSet set)
    (hs : set.hasBits = true) : Z.StandsFor ⟨c, false⟩ (Z.intItem c errorCodeBits) := by
  refine ⟨rfl, ?_, fun _ => .errorSet hc hs⟩
  rw [if_neg (by simp), layout_of_extent (extent_errorSet hc hs)]
  exact Target.machineInt_eq hT errorCodeBits

/-! ## Fields in order -/

@[simp]
theorem occupied_nil (Z : Sizing) (places : List FieldPlace) : Z.occupied [] places = [] := rfl

theorem occupied_cons (Z : Sizing) (f : FieldTy) (fields : List FieldTy) (p : FieldPlace) (places : List FieldPlace) :
    Z.occupied (f :: fields) (p :: places) =
      if Z.occupies f then p :: Z.occupied fields places else Z.occupied fields places := by
  unfold occupied
  rw [List.zip_cons_cons, List.filter_cons]
  split <;> rfl

theorem mem_of_mem_occupied {fields : List FieldTy} {places : List FieldPlace} (h : p ∈ Z.occupied fields places) :
    p ∈ places := by
  obtain ⟨x, hx, rfl⟩ := List.mem_map.1 h
  exact (List.of_mem_zip (List.mem_filter.1 hx).1).2

section

variable {fields : List FieldTy} {is : List (Item Piece)}

theorem placeable_of_standsFor (hZ : Z.Regular) (h : List.Forall₂ Z.StandsFor fields is) :
    ∀ i ∈ is, i.layout.Placeable := by
  induction h with
  | nil => exact fun i hi => nomatch hi
  | cons hf _ ih =>
    intro i hi
    rcases List.mem_cons.1 hi with rfl | hi
    · exact hf.placeable hZ
    · exact ih i hi

theorem located_of_sits {places : List FieldPlace} (h : List.Forall₂ Z.StandsFor fields is)
    (hs : List.Forall₂ a.Sits is places) : List.Forall₂ (Z.Located a) fields places := by
  induction h generalizing places with
  | nil =>
    cases hs
    exact .nil
  | cons hf _ ih =>
    cases hs with
    | cons hp hs => exact .cons (hf.located hp) (ih hs)

/-- Fields placed in order are located, in whatever the arrangement grows to. -/
theorem located_pushAll (hZ : Z.Regular) (ha : a.Tight) (h : List.Forall₂ Z.StandsFor fields is)
    {b : Arrangement Piece} (hb : (a.pushAll is).2.Grows b) :
    List.Forall₂ (Z.Located b) fields (a.pushAll is).1 :=
  located_of_sits h ((Arrangement.sits_pushAll ha (placeable_of_standsFor hZ h)).imp fun _ _ hs => hs.mono hb)

/-- Fields placed in order share no byte. -/
theorem apart_pushAll (hZ : Z.Regular) (ha : a.Tight) (h : List.Forall₂ Z.StandsFor fields is) :
    (Z.occupied fields (a.pushAll is).1).Pairwise Z.Apart := by
  induction h generalizing a with
  | nil => exact .nil
  | @cons f i fields is hf h ih =>
    have hi := hf.placeable hZ
    have rest := ih (ha.push hi)
    rw [Arrangement.pushAll, occupied_cons]
    split
    · rename_i ho
      refine List.Pairwise.cons (fun q hq => Or.inl ?_) rest
      have hs := Arrangement.sits_push ha hi
      have hle := Arrangement.offset_le_pushAll _ is q (mem_of_mem_occupied hq)
      rw [hs.source, hf.source, ← hf.layout_eq (occupies_iff.1 ho).1]
      exact Nat.le_trans hs.inside hle
    · exact rest

end

/-! ## All aggregates -/

/-- The placement has a place for each field and the tag, and no byte is shared but by the members of a union. -/
structure Arranges (Z : Sizing) (t : TypeId) (p : Placement) : Prop where
  fields : List.Forall₂ (Z.Located p.built) (Z.placedFields t) p.fields
  tag : Option.Rel (fun c q => Z.Located p.built ⟨c, false⟩ q) (Z.placedTag? t) p.tag
  apart : (Z.get t).isUnion = false → (Z.occupied (Z.placedFields t) p.fields ++ p.tag.toList).Pairwise Z.Apart
  together : (Z.get t).isUnion = true → ∃ offset, (∀ q ∈ p.fields, q.offset = offset) ∧
    ∀ q ∈ p.fields, ∀ r ∈ p.tag, Z.Apart q r

variable {t : TypeId}

theorem arranges_inOrder (hZ : Z.Regular) {fields : List FieldTy} (hf : Z.placedFields t = fields)
    (ht : Z.placedTag? t = none) (hu : (Z.get t).isUnion = false) : Z.Arranges t (Z.inOrder fields) := by
  have hs := standsFor_fieldItems hZ.supported fields
  refine ⟨?_, ?_, fun _ => ?_, fun h => ?_⟩
  · rw [hf]
    exact located_pushAll hZ .empty hs (Arrangement.grows_padTo _ _)
  · rw [ht]
    exact .none
  · rw [hf]
    exact (List.append_nil _).symm ▸ apart_pushAll hZ .empty hs
  · rw [hu] at h
    cases h

/-- A value apart from another at one place is apart from it when it has its layout. -/
theorem apart_of_sits {b : Arrangement Piece} {g : FieldTy} {i j : Item Piece} {p q : FieldPlace}
    (hi : Z.StandsFor f i) (hj : Z.StandsFor g j) (hf : f.isComptime = false) (hg : g.isComptime = false)
    (hp : b.Sits i p) (hq : b.Sits j q)
    (h : p.offset + i.layout.size ≤ q.offset ∨ q.offset + j.layout.size ≤ p.offset) : Z.Apart p q := by
  rw [hi.layout_eq hf, hj.layout_eq hg] at h
  rw [Apart, hp.source, hi.source, hq.source, hj.source]
  exact h

/-- One value beside its tag. -/
theorem arranges_besideTag (hZ : Z.Regular) (tagFirst : Bool) {child c : TypeId} {held tag : Item Piece}
    (hh : Z.StandsFor ⟨child, false⟩ held) (hc : Z.StandsFor ⟨c, false⟩ tag)
    (hf : Z.placedFields t = [⟨child, false⟩]) (ht : Z.placedTag? t = some c) (hu : (Z.get t).isUnion = false) :
    Z.Arranges t (besideTag tagFirst (some tag) (some held) (·.toList)) := by
  obtain ⟨hslot, htag, hapart⟩ := @Arrangement.sits_tagged _ tagFirst (some tag) (some held)
    (fun i hi => Option.some.inj hi ▸ hc.placeable hZ) (fun i hi => Option.some.inj hi ▸ hh.placeable hZ)
  obtain ⟨p, hp, hsp⟩ := exists_of_rel hslot
  obtain ⟨q, hq, hsq⟩ := exists_of_rel htag
  refine ⟨?_, ?_, fun _ => ?_, fun h => ?_⟩
  · rw [hf, besideTag, hp]
    exact .cons (hh.located hsp) .nil
  · rw [ht, besideTag, hq]
    exact .some (hc.located hsq)
  · have key := apart_of_sits hh hc rfl rfl hsp hsq (hapart held rfl tag rfl p hp q hq)
    rw [hf, besideTag, hp, hq]
    simp only [Option.toList_some, occupied_cons, occupied_nil]
    split
    · simpa using key
    · simp
  · rw [hu] at h
    cases h

/-! ### Unions -/

section

variable {u : UnionTy}

/-- All members are where the payload is. -/
theorem offset_memberPlaces {filledBy : Option Nat} {slot : Option FieldPlace} :
    ∀ q ∈ Z.memberPlaces u filledBy slot, q.offset = (slot.map (·.offset)).getD 0 := by
  intro q hq
  obtain ⟨x, -, rfl⟩ := List.mem_map.1 hq
  rfl

/-- The member that fills the payload is what the payload holds. -/
theorem heldPiece_of_filledBy {c : TypeId} {i : Nat} (h : Z.filledBy? u = some i) (hc : u.memberTypes[i]? = some c) :
    Z.heldItem? u = some ⟨c, .value c, Z.payloadLayout u⟩ ∧ Z.takesRoom c = true := by
  obtain ⟨⟨d, j⟩, hw, hfill⟩ := Option.bind_eq_some_iff.1 h
  obtain ⟨hlt, hji⟩ := Option.ite_none_left_eq_some.1 hfill
  obtain rfl : j = i := Option.some.inj hji
  obtain ⟨hd, hr⟩ := getElem?_widestMember hw
  obtain rfl : d = c := Option.some.inj (hd.symm.trans hc)
  refine ⟨?_, hr⟩
  rw [heldItem?, hw, Option.map_some, heldPiece, if_neg hlt]

/-- A member is located in the payload, wherever that is. -/
theorem located_member (hZ : Z.Regular) {b : Arrangement Piece} {slot : Option FieldPlace}
    (hs : Option.Rel b.Sits (Z.heldItem? u) slot) {c : TypeId} {i : Nat} (hc : u.memberTypes[i]? = some c)
    {p : FieldPlace} (hsource : p.source = c) (hoffset : p.offset = (slot.map (·.offset)).getD 0)
    (hindex : p.machineIndex = if Z.filledBy? u = some i then slot.bind (·.machineIndex) else none) :
    Z.Located b ⟨c, false⟩ p := by
  have hfit := layout_le_payload hZ.formatted (List.mem_of_getElem? hc)
  have hdvd : (Z.layout c).align ∣ (Z.payloadLayout u).align :=
    dvd_of_isPowerOfTwo_of_le (placeable hZ c).align (placeable_payloadLayout hZ.formatted u).align hfit.2
  have hfilled : ∀ k, p.machineIndex = some k → Z.filledBy? u = some i ∧ slot.bind (·.machineIndex) = some k := by
    intro k hk
    rw [hindex] at hk
    exact Option.ite_none_right_eq_some.1 hk
  cases hw : Z.heldItem? u with
  | none =>
    have hzero : Z.payloadLayout u = .zero := payloadLayout_eq_zero hZ.supported (Option.map_eq_none_iff.1 hw)
    rw [hw] at hs
    cases hs
    have hp : p.offset = 0 := hoffset
    refine ⟨hsource, hp ▸ Nat.zero_le _, fun _ => hp ▸ Nat.dvd_zero _, fun _ => ?_, fun k hk => ?_⟩
    · have hsize : (Z.layout c).size ≤ 0 := by rw [hzero] at hfit; exact hfit.1
      show p.offset + (Z.layout c).size ≤ b.offset
      omega
    · cases (hfilled k hk).2
  | some held =>
    have hlayout : held.layout = Z.payloadLayout u := by
      obtain ⟨m, -, rfl⟩ := Option.map_eq_some_iff.1 hw
      rfl
    rw [hw] at hs
    obtain ⟨q, rfl, hq⟩ := exists_of_rel hs
    have hp : p.offset = q.offset := hoffset
    have hinside := hq.inside
    rw [hlayout] at hinside
    refine ⟨hsource, ?_, fun _ => ?_, fun _ => ?_, fun k hk => ?_⟩
    · omega
    · rw [hp]
      exact Nat.dvd_trans hdvd (hlayout ▸ hq.aligned)
    · have hsize := hfit.1
      show p.offset + (Z.layout c).size ≤ b.offset
      omega
    · obtain ⟨hfill, hk⟩ := hfilled k hk
      have hk : q.machineIndex = some k := hk
      obtain ⟨hheld, hr⟩ := heldPiece_of_filledBy hfill hc
      obtain rfl := Option.some.inj (hw.symm.trans hheld)
      have hpos : 0 < (Z.payloadLayout u).size := by
        refine Nat.pos_of_ne_zero fun hz => ?_
        rw [hq.unstored hz] at hk
        cases hk
      obtain ⟨j, hj, hpiece, hoff⟩ := hq.stored hpos
      obtain rfl := Option.some.inj (hj.symm.trans hk)
      exact ⟨_, _, hpiece, .value hr, hp.trans hoff⟩

theorem forall₂_zipIdx {α : Type} {R : α → α × Nat → Prop} {l : List α} {k : Nat} (h : ∀ x ∈ l.zipIdx k, R x.1 x) :
    List.Forall₂ R l (l.zipIdx k) := by
  induction l generalizing k with
  | nil => exact .nil
  | cons a l ih =>
    rw [List.zipIdx_cons] at h ⊢
    exact .cons (h _ List.mem_cons_self) (ih fun x hx => h x (List.mem_cons_of_mem _ hx))

theorem located_memberPlaces (hZ : Z.Regular) {b : Arrangement Piece} {slot : Option FieldPlace}
    (hs : Option.Rel b.Sits (Z.heldItem? u) slot) :
    List.Forall₂ (Z.Located b) (u.memberTypes.map (⟨·, false⟩)) (Z.memberPlaces u (Z.filledBy? u) slot) := by
  rw [memberPlaces, List.forall₂_map_left_iff, List.forall₂_map_right_iff]
  exact forall₂_zipIdx fun x hx => located_member hZ hs (List.mem_zipIdx_iff_getElem?.1 hx) rfl rfl rfl

/-- The tag of a union shares no byte with any member. -/
theorem apart_memberPlaces (hZ : Z.Regular) {R : Item Piece → FieldPlace → Prop} {filledBy : Option Nat}
    {slot : Option FieldPlace} {r : FieldPlace}
    (hslot : Option.Rel R (Z.heldItem? u) slot)
    (h : ∀ p ∈ slot, p.offset + (Z.payloadLayout u).size ≤ r.offset ∨ r.offset + (Z.layout r.source).size ≤ p.offset) :
    ∀ q ∈ Z.memberPlaces u filledBy slot, Z.Apart q r := by
  intro q hq
  obtain ⟨⟨c, i⟩, hm, rfl⟩ := List.mem_map.1 hq
  have hfit := (layout_le_payload hZ.formatted (List.mem_of_getElem? (List.mem_zipIdx_iff_getElem?.1 hm))).1
  generalize hw : Z.heldItem? u = held at hslot
  cases hslot with
  | none =>
    rw [payloadLayout_eq_zero hZ.supported (Option.map_eq_none_iff.1 hw)] at hfit
    exact Or.inl (Nat.le_trans (Nat.zero_add _ ▸ hfit) (Nat.zero_le _))
  | some =>
    rcases h _ rfl with h | h
    · exact Or.inl (Nat.le_trans (Nat.add_le_add_left hfit _) h)
    · exact Or.inr h

theorem located_tag (hT : Z.target.Supported) {b : Arrangement Piece} {c? : Option TypeId} {q? : Option FieldPlace}
    (h : Option.Rel b.Sits (c?.map Z.item) q?) : Option.Rel (fun c q => Z.Located b ⟨c, false⟩ q) c? q? := by
  cases c? with
  | none =>
    cases h
    exact .none
  | some c =>
    obtain ⟨q, rfl, hq⟩ := exists_of_rel h
    exact .some ((standsFor_item hT c).located hq)

theorem arranges_union (hZ : Z.Regular) (hd : Z.get t = .union u) :
    Z.Arranges t (besideTag (Z.tagComesFirst u) ((Z.storedTag? u).map Z.item) (Z.heldItem? u)
      (Z.memberPlaces u (Z.filledBy? u))) := by
  have hheld : ∀ i ∈ Z.heldItem? u, i.layout = Z.payloadLayout u := by
    intro i hi
    obtain ⟨m, -, rfl⟩ := Option.map_eq_some_iff.1 hi
    rfl
  obtain ⟨hslot, htag, hapart⟩ := @Arrangement.sits_tagged _ (Z.tagComesFirst u) ((Z.storedTag? u).map Z.item)
    (Z.heldItem? u)
    (fun i hi => by
      obtain ⟨c, -, rfl⟩ := Option.map_eq_some_iff.1 hi
      exact placeable hZ c)
    (fun i hi => hheld i hi ▸ placeable_payloadLayout hZ.formatted u)
  have hf : Z.placedFields t = u.memberTypes.map (⟨·, false⟩) := by simp only [placedFields, hd]
  have ht : Z.placedTag? t = Z.storedTag? u := by simp only [placedTag?, hd]
  refine ⟨?_, ?_, fun h => ?_, fun _ => ⟨_, offset_memberPlaces, ?_⟩⟩
  · rw [hf]
    exact located_memberPlaces hZ hslot
  · rw [ht]
    exact located_tag hZ.supported htag
  · rw [hd] at h
    cases h
  · intro q hq r hr
    refine apart_memberPlaces hZ hslot (fun p hp => ?_) q hq
    obtain ⟨i, hi, -⟩ := exists_of_rel_of_mem hslot p hp
    obtain ⟨j, hj, hsits⟩ := exists_of_rel_of_mem htag r hr
    have key := hapart i hi j hj p hp r hr
    obtain ⟨c, -, rfl⟩ := Option.map_eq_some_iff.1 hj
    rw [hheld i hi] at key
    rw [hsits.source]
    exact key

end

/-- The placement of a type has a place for each of its fields. -/
theorem arranges_placement (hZ : Z.Regular) (hE : Z.ErrorsAreCodes) {p : Placement}
    (hp : Z.placement? t = some p) : Z.Arranges t p := by
  have hcode : ∀ {set payload : TypeId}, Z.get t = .errorUnion set payload → Z.takesRoom set = true →
      Z.StandsFor ⟨set, false⟩ (Z.intItem set errorCodeBits) := by
    intro set payload hd hr
    obtain ⟨e, he⟩ := hE t set payload hd
    rw [Z.takesRoom_eq, he] at hr
    exact standsFor_code hZ.supported he hr
  unfold placement? at hp
  split at hp
  next hr =>
    split at hp
    next s hd =>
      split at hp
      next => cases hp
      next =>
        obtain rfl := Option.some.inj hp
        exact arranges_inOrder hZ (by simp [placedFields, hd]) (by simp [placedTag?, hd]) (by simp [hd, Ty.isUnion])
    next fields hd =>
      obtain rfl := Option.some.inj hp
      exact arranges_inOrder hZ (by simp [placedFields, hd]) (by simp [placedTag?, hd]) (by simp [hd, Ty.isUnion])
    next child hd =>
      split at hp
      next =>
        obtain rfl := Option.some.inj hp
        exact arranges_besideTag hZ false (standsFor_item hZ.supported child) (standsFor_flag hZ.supported)
          (by simp [placedFields, hd]) (by simp [placedTag?, hd]) (by simp [hd, Ty.isUnion])
      next => cases hp
    next set payload hd =>
      have hhalves := Z.room_of_errorUnionRepr set payload
      have both : ∀ codeFirst, Z.takesRoom set = true → Z.Arranges t
          (besideTag codeFirst (some (Z.intItem set errorCodeBits)) (some (Z.item payload)) (·.toList)) := by
        intro codeFirst hset
        exact arranges_besideTag hZ codeFirst (standsFor_item hZ.supported payload) (hcode hd hset)
          (by simp [placedFields, hd]) (by simp [placedTag?, hd]) (by simp [hd, Ty.isUnion])
      split at hp
      next hrepr =>
        obtain rfl := Option.some.inj hp
        rw [hrepr] at hhalves
        exact both true (Prod.mk.inj hhalves).1
      next hrepr =>
        obtain rfl := Option.some.inj hp
        rw [hrepr] at hhalves
        exact both false (Prod.mk.inj hhalves).1
      next => cases hp
    next u hd =>
      split at hp
      next => cases hp
      next =>
        obtain rfl := Option.some.inj hp
        exact arranges_union hZ hd
    next => cases hp
  next => cases hp

end Sizing

end MachineAbi
