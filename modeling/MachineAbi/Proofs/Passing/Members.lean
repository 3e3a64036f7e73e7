import MachineAbi.Passing.Members
import MachineAbi.Proofs.Lowering.Fields

/-!
# Members are where the fields are

Calling conventions see the inside of a value through `Sizing.members`, which computes offsets from source layouts
alone. They are the offsets at which lowering places the fields (`Lowering.members_agree`).

Both walk over the same types: a sequence of members is placed as fields are pushed (`Sizing.sequence_pushAll`), and a
tag and a payload lie beside each other in either order.
-/

namespace MachineAbi

/-- A place as a member. -/
def FieldPlace.member (p : FieldPlace) : Member := ⟨p.source, p.offset⟩

namespace Arrangement

variable {α : Type} {a : Arrangement α} {i : Item α}

theorem offset_push_fst (a : Arrangement α) (hi : i.layout.Placeable) :
    (a.push i).1.offset = alignUp a.offset i.layout.align := by
  unfold push
  split
  · exact offset_padTo_alignUp a hi.align
  · rename_i hs
    rw [hi.anywhere (Nat.eq_zero_of_not_pos hs)]
    exact (alignUp_one _).symm

theorem offset_push_snd (ha : a.Tight) (hi : i.layout.Placeable) :
    (a.push i).2.offset = alignUp a.offset i.layout.align + i.layout.size :=
  congrArg Layout.size (extent_push ha hi)

theorem member_push (ha : a.Tight) (hi : i.layout.Placeable) :
    (a.push i).1.member = ⟨i.source, alignUp a.offset i.layout.align⟩ := by
  rw [FieldPlace.member, a.offset_push_fst hi, (sits_push ha hi).source]

end Arrangement

namespace Sizing

variable {Z : Sizing} {t : TypeId} {a : Arrangement Piece}

/-! ## Members in sequence -/

/-- Members in sequence are placed as fields that are pushed; those of compile time are left out. -/
theorem sequence_pushAll (hZ : Z.Regular) (ha : a.Tight) {fields : List FieldTy} {is : List (Item Piece)}
    (h : List.Forall₂ Z.StandsFor fields is) :
    Member.sequence Z.layout a.offset (storedTypes fields) =
      (Z.occupied fields (a.pushAll is).1).map FieldPlace.member := by
  induction h generalizing a with
  | nil => rfl
  | @cons f i fields is hf h ih =>
    have hi := hf.placeable hZ
    have hoff := Arrangement.offset_push_snd ha hi
    have rest := ih (ha.push hi)
    rw [Arrangement.pushAll, occupied_cons]
    cases hc : f.isComptime with
    | true =>
      have hstored : storedTypes (f :: fields) = storedTypes fields := by simp [storedTypes, hc]
      have hzero : i.layout = .zero := by rw [hf.layout, hc]; rfl
      have hskip : Z.occupies f = false := by simp [occupies, hc]
      rw [hzero, Layout.zero, alignUp_one] at hoff
      rw [hstored, hskip, if_neg (by simp), ← rest, hoff]
      rfl
    | false =>
      have hstored : storedTypes (f :: fields) = f.ty :: storedTypes fields := by simp [storedTypes, hc]
      rw [hf.layout_eq hc] at hoff
      have hmember : (a.push i).1.member = ⟨f.ty, alignUp a.offset (Z.layout f.ty).align⟩ := by
        rw [Arrangement.member_push ha hi, hf.source, hf.layout_eq hc]
      have ho : Z.occupies f = true ↔ 0 < (Z.layout f.ty).size := by simp [occupies, hc]
      rw [hstored, Member.sequence, ← hoff, rest]
      simp only [ho]
      split
      · rw [List.map_cons, hmember]
      · rfl

/-- The places of the stored fields and the tag, as members. -/
def placedMembers (Z : Sizing) (t : TypeId) (fields : List FieldPlace) (tag : Option FieldPlace) : List Member :=
  (Z.occupied (Z.placedFields t) fields ++ tag.toList).map FieldPlace.member

theorem members_inOrder (hZ : Z.Regular) (fields : List FieldTy) :
    Member.sequence Z.layout 0 (storedTypes fields) =
      (Z.occupied fields (Z.inOrder fields).fields).map FieldPlace.member :=
  sequence_pushAll hZ (a := .empty) .empty (standsFor_fieldItems hZ.supported fields)

/-- A value and its tag, in either order. -/
theorem members_besideTag (hZ : Z.Regular) (tagFirst : Bool) {child c : TypeId} {held tag : Item Piece}
    (hh : Z.StandsFor ⟨child, false⟩ held) (hc : Z.StandsFor ⟨c, false⟩ tag) (hsize : 0 < (Z.layout c).size)
    (hf : Z.placedFields t = [⟨child, false⟩]) :
    let p := besideTag tagFirst (some tag) (some held) (·.toList)
    (Member.sequence Z.layout 0 (if tagFirst then [c, child] else [child, c])).Perm
      (Z.placedMembers t p.fields p.tag) := by
  have ho : Z.occupies ⟨c, false⟩ = true := by simp [occupies, hsize]
  unfold placedMembers
  rw [hf]
  cases tagFirst with
  | true =>
    have hseq := sequence_pushAll hZ (a := .empty) .empty (.cons hc (.cons hh .nil))
    refine .trans (.of_eq hseq) (.map _ ?_)
    rw [Arrangement.pushAll, occupied_cons, if_pos ho]
    exact @List.perm_append_comm _ [_] _
  | false =>
    have hseq := sequence_pushAll hZ (a := .empty) .empty (.cons hh (.cons hc .nil))
    refine .of_eq (hseq.trans (congrArg _ ?_))
    show _ = Z.occupied [⟨child, false⟩] [_] ++ [_]
    rw [Arrangement.pushAll, Arrangement.pushAll, Arrangement.pushAll, occupied_cons, occupied_cons, occupied_cons,
      if_pos ho]
    split <;> rfl

/-! ## Members of unions -/

section

variable {u : UnionTy}

/-- The members of a union, all at one place. -/
theorem occupied_memberPlaces (Z : Sizing) (u : UnionTy) (filledBy : Option Nat) (slot : Option FieldPlace) :
    (Z.occupied (u.memberTypes.map (⟨·, false⟩)) (Z.memberPlaces u filledBy slot)).map FieldPlace.member =
      (u.memberTypes.filter fun c => 0 < (Z.layout c).size).map fun c => ⟨c, (slot.map (·.offset)).getD 0⟩ := by
  unfold memberPlaces
  generalize u.memberTypes = cs
  suffices h : ∀ k, (Z.occupied (cs.map (⟨·, false⟩)) ((cs.zipIdx k).map fun p =>
      { machineIndex := if filledBy = some p.2 then slot.bind (·.machineIndex) else none
        source := p.1
        align := (Z.layout p.1).align
        offset := (slot.map (·.offset)).getD 0 : FieldPlace })).map FieldPlace.member =
      (cs.filter fun c => 0 < (Z.layout c).size).map fun c => ⟨c, (slot.map (·.offset)).getD 0⟩ from h 0
  induction cs with
  | nil => exact fun _ => rfl
  | cons c cs ih =>
    intro k
    have ho : Z.occupies ⟨c, false⟩ = decide (0 < (Z.layout c).size) := by simp [occupies]
    rw [List.zipIdx_cons, List.map_cons, List.map_cons, occupied_cons, List.filter_cons, ho]
    split
    · rw [List.map_cons, List.map_cons, ih]
      rfl
    · exact ih _

/-- The members of a union that occupy bytes, all at one offset. -/
def membersAt (Z : Sizing) (u : UnionTy) (offset : Nat) : List Member :=
  (u.memberTypes.filter fun c => 0 < (Z.layout c).size).map fun c => ⟨c, offset⟩

theorem layout_of_heldItem {i : Item Piece} (hi : Z.heldItem? u = some i) : i.layout = Z.payloadLayout u := by
  obtain ⟨m, -, rfl⟩ := Option.map_eq_some_iff.1 hi
  rfl

/-- The payload starts at the next offset aligned for it, and with it all members that occupy bytes. -/
theorem membersAt_slot (hZ : Z.Regular) (a : Arrangement Piece) :
    Z.membersAt u (((a.pushOption (Z.heldItem? u)).1.map (·.offset)).getD 0) =
      Z.membersAt u (alignUp a.offset (Z.payloadLayout u).align) := by
  cases hi : Z.heldItem? u with
  | none =>
    have hzero := payloadLayout_eq_zero hZ.supported (Option.map_eq_none_iff.1 hi)
    have hnone : (u.memberTypes.filter fun c => 0 < (Z.layout c).size) = [] := by
      rw [List.filter_eq_nil_iff]
      intro c hc
      have hfit := (layout_le_payload hZ.formatted hc).1
      rw [hzero] at hfit
      simpa [Layout.zero] using hfit
    rw [membersAt, membersAt, hnone]
    rfl
  | some i =>
    have hlayout := layout_of_heldItem hi
    have hoff := a.offset_push_fst (hlayout ▸ placeable_payloadLayout hZ.formatted u : i.layout.Placeable)
    rw [hlayout] at hoff
    exact congrArg (Z.membersAt u) hoff

theorem offset_pushOption_heldItem (hZ : Z.Regular) (ha : a.Tight) :
    (a.pushOption (Z.heldItem? u)).2.offset = alignUp a.offset (Z.payloadLayout u).align + (Z.payloadLayout u).size := by
  cases hi : Z.heldItem? u with
  | none =>
    rw [payloadLayout_eq_zero hZ.supported (Option.map_eq_none_iff.1 hi), Layout.zero, alignUp_one]
    rfl
  | some i =>
    have hlayout := layout_of_heldItem hi
    rw [← hlayout]
    exact Arrangement.offset_push_snd ha (hlayout ▸ placeable_payloadLayout hZ.formatted u)

theorem members_union (hZ : Z.Regular) (hd : Z.get t = .union u) (hu : u.isPacked = false) :
    let p := besideTag (Z.tagComesFirst u) ((Z.storedTag? u).map Z.item) (Z.heldItem? u)
      (Z.memberPlaces u (Z.filledBy? u))
    (Z.members t).Perm (Z.placedMembers t p.fields p.tag) := by
  have hf : Z.placedFields t = u.memberTypes.map (⟨·, false⟩) := by simp only [placedFields, hd]
  have zero : ∀ c, alignUp (Arrangement.empty : Arrangement Piece).offset (Z.layout c).align = 0 :=
    fun c => alignUp_zero (placeable hZ c).align
  have start : alignUp (Arrangement.empty : Arrangement Piece).offset (Z.payloadLayout u).align = 0 :=
    alignUp_zero (placeable_payloadLayout hZ.formatted u).align
  have untagged (ht : Z.storedTag? u = none) : Z.members t = Z.membersAt u 0 := by
    simp only [members, hd, hu, ht]
    rfl
  have tagged {tag : TypeId} (ht : Z.storedTag? u = some tag) :
      Z.members t = ⟨tag, tagOffset (Z.layout tag) (Z.payloadLayout u)⟩ ::
        Z.membersAt u (payloadOffset (Z.layout tag) (Z.payloadLayout u)) := by
    simp only [members, hd, hu, ht]
    rfl
  unfold placedMembers besideTag tagComesFirst
  simp only [hf, List.map_append, occupied_memberPlaces]
  cases ht : Z.storedTag? u with
  | none =>
    rw [untagged ht]
    have hslot := @membersAt_slot Z u hZ .empty
    rw [start] at hslot
    exact .of_eq ((List.append_nil _).trans hslot).symm
  | some tag =>
    rw [tagged ht]
    simp only [Option.map_some, Option.any_some]
    have hitem : (Z.item tag).layout.Placeable := placeable hZ tag
    cases hfirst : (Z.layout tag).tagFirst (Z.payloadLayout u) with
    | true =>
      have htag : ((Arrangement.empty.push (Z.item tag)).1.member) = ⟨tag, 0⟩ := by
        rw [Arrangement.member_push .empty hitem]
        exact congrArg _ (zero tag)
      have hslot := @membersAt_slot Z u hZ (Arrangement.empty.push (Z.item tag)).2
      have hreached : (Arrangement.empty.push (Z.item tag)).2.offset = (Z.layout tag).size := by
        rw [Arrangement.offset_push_snd .empty hitem]
        exact (congrArg (· + (Z.layout tag).size) (zero tag)).trans (Nat.zero_add _)
      rw [hreached] at hslot
      rw [tagOffset, if_pos hfirst, payloadOffset, if_pos hfirst, ← hslot, ← htag]
      exact @List.perm_append_comm _ [_] _
    | false =>
      have hslot := @membersAt_slot Z u hZ .empty
      rw [start] at hslot
      have hreached := @offset_pushOption_heldItem Z .empty u hZ .empty
      rw [start, Nat.zero_add] at hreached
      have htag : ((((Arrangement.empty).pushOption (Z.heldItem? u)).2.push (Z.item tag)).1.member) =
          ⟨tag, alignUp (Z.payloadLayout u).size (Z.layout tag).align⟩ := by
        have tight := Arrangement.Tight.empty.pushOption fun i (hi : i ∈ Z.heldItem? u) =>
          layout_of_heldItem hi ▸ placeable_payloadLayout hZ.formatted u
        rw [Arrangement.member_push tight hitem, hreached]
        rfl
      rw [tagOffset, if_neg (by simp [hfirst]), payloadOffset, if_neg (by simp [hfirst]), ← hslot, ← htag]
      exact @List.perm_append_comm _ [_] _

end

/-! ## All aggregates -/

/-- The members of an aggregate with a placement are its stored fields and its tag. -/
theorem members_placement (hZ : Z.Regular) (hE : Z.ErrorsAreCodes) {p : Placement} (hp : Z.placement? t = some p) :
    (Z.members t).Perm (Z.placedMembers t p.fields p.tag) := by
  unfold placement? at hp
  split at hp
  next hr =>
    split at hp
    next s hd =>
      split at hp
      next => cases hp
      next hs =>
        obtain rfl := Option.some.inj hp
        refine .of_eq ?_
        simp only [members, placedMembers, placedFields, hd, hs]
        exact (members_inOrder hZ s.fieldTys).trans (by simp [inOrder])
    next fields hd =>
      obtain rfl := Option.some.inj hp
      refine .of_eq ?_
      simp only [members, placedMembers, placedFields, hd]
      exact (members_inOrder hZ fields).trans (by simp [inOrder])
    next child hd =>
      split at hp
      next hrepr =>
        obtain rfl := Option.some.inj hp
        have hsize : 0 < (Z.layout .u8).size := by rw [Z.layout_u8]; exact Nat.one_pos
        have hm : Z.members t = Member.sequence Z.layout 0 [child, .u8] := by
          simp only [members, hd, hrepr]
          rfl
        rw [hm]
        exact members_besideTag hZ false (standsFor_item hZ.supported child) (standsFor_flag hZ.supported) hsize
          (by simp [placedFields, hd])
      next => cases hp
    next set payload hd =>
      have hhalves := Z.room_of_errorUnionRepr set payload
      have both : ∀ codeFirst, Z.takesRoom set = true →
          Z.members t = Member.sequence Z.layout 0 (if codeFirst then [set, payload] else [payload, set]) →
          (Z.members t).Perm (Z.placedMembers t (besideTag codeFirst (some (Z.intItem set errorCodeBits))
            (some (Z.item payload)) (·.toList)).fields (besideTag codeFirst (some (Z.intItem set errorCodeBits))
            (some (Z.item payload)) (·.toList)).tag) := by
        intro codeFirst hset hm
        obtain ⟨e, he⟩ := hE t set payload hd
        rw [Z.takesRoom_eq, he] at hset
        have hsize : 0 < (Z.layout set).size := by rw [layout_errorSet he hset]; exact Nat.two_pos
        rw [hm]
        exact members_besideTag hZ codeFirst (standsFor_item hZ.supported payload) (standsFor_code hZ.supported he hset)
          hsize (by simp [placedFields, hd])
      split at hp
      next hrepr =>
        obtain rfl := Option.some.inj hp
        rw [hrepr] at hhalves
        exact both true (Prod.mk.inj hhalves).1 (by simp only [members, hd, hrepr]; rfl)
      next hrepr =>
        obtain rfl := Option.some.inj hp
        rw [hrepr] at hhalves
        exact both false (Prod.mk.inj hhalves).1 (by simp only [members, hd, hrepr]; rfl)
      next => cases hp
    next u hd =>
      split at hp
      next => cases hp
      next hu =>
        obtain rfl := Option.some.inj hp
        exact members_union hZ hd (by simpa using hu)
    next => cases hp
  next => cases hp

/-- Whether a type is stored with a layout of its own, if it takes room: neither packed nor collapsed to one half. -/
def isPlaced (Z : Sizing) (t : TypeId) : Bool :=
  match Z.get t with
  | .struct s => !s.isPacked
  | .tuple _ => true
  | .union u => !u.isPacked
  | .optional child => Z.optionalRepr child == .payloadAndFlag
  | .errorUnion set payload => Z.takesRoom set && Z.takesRoom payload
  | _ => false

theorem isSome_placement (hr : Z.takesRoom t = true) (ht : Z.isPlaced t = true) : (Z.placement? t).isSome = true := by
  unfold isPlaced at ht
  unfold placement?
  rw [if_pos hr]
  cases hd : Z.get t with
  | struct s | tuple fields | union u | optional child =>
    rw [hd] at ht
    simp_all
  | errorUnion set payload =>
    have hhalves := Z.room_of_errorUnionRepr set payload
    obtain ⟨hset, hpayload⟩ : Z.takesRoom set = true ∧ Z.takesRoom payload = true := by simpa [hd] using ht
    rw [hset, hpayload] at hhalves
    dsimp only
    cases hrepr : Z.errorUnionRepr set payload with
    | errorFirst | payloadFirst => rfl
    | empty | payloadOnly | errorOnly => simp [hrepr] at hhalves
  | _ => simp [hd] at ht

theorem sequence_eq_nil {layout : TypeId → Layout} {ts : List TypeId} (h : ∀ t ∈ ts, layout t = .zero) (offset : Nat) :
    Member.sequence layout offset ts = [] := by
  induction ts generalizing offset with
  | nil => rfl
  | cons t ts ih =>
    rw [Member.sequence, h t List.mem_cons_self]
    exact ih (fun c hc => h c (List.mem_cons_of_mem _ hc)) _

/-- A struct, tuple or union that takes no room has no members. -/
theorem members_of_not_takesRoom (hT : Z.target.Supported) (hr : Z.takesRoom t = false) (ht : Z.isPlaced t = true) :
    Z.members t = [] := by
  have empty : ∀ {ts : List TypeId}, ts.any Z.takesRoom = false → ∀ c ∈ ts, Z.layout c = .zero :=
    fun h c hc => layout_of_not_takesRoom hT (by simpa using List.any_eq_false.1 h c hc)
  rw [Z.takesRoom_eq] at hr
  unfold isPlaced at ht
  unfold members
  cases hd : Z.get t with
  | struct s =>
    rw [hd] at hr ht
    have hs : s.isPacked = false := by simpa using ht
    simp only [hs]
    exact sequence_eq_nil (empty hr) 0
  | tuple fields =>
    rw [hd] at hr
    exact sequence_eq_nil (empty hr) 0
  | union u =>
    rw [hd] at hr ht
    have hu : u.isPacked = false := by simpa using ht
    obtain ⟨htag, hmembers⟩ := Bool.or_eq_false_iff.1 hr
    have hnone : (u.memberTypes.filter fun c => 0 < (Z.layout c).size) = [] := by
      rw [List.filter_eq_nil_iff]
      intro c hc
      simp [empty hmembers c hc, Layout.zero]
    simp only [hu, storedTag?_eq_none htag, hnone]
    rfl
  | optional child => simp [hd] at hr
  | errorUnion set payload => simp_all
  | _ => simp [hd] at ht

end Sizing

namespace Lowering

open Session

variable {L : Lowering} {s : Session} {t : TypeId}

/-- The members of type `t` are where code generation puts them. -/
structure MembersAgree (L : Lowering) (s : Session) (t : TypeId) : Prop where
  placed : L.isPlaced t = true → ∃ r s', (L.aggregateLayout? t).run.run s = (.ok r, s') ∧
    (L.members t).Perm (r.elim [] fun l => L.placedMembers t l.fields l.tag)
  optional : ∀ child, L.get t = .optional child →
    match L.optionalRepr child with
    | .flagOnly => L.members t = [⟨.u8, 0⟩]
    | .payload => 0 < (L.layout child).size → L.members t = [⟨child, 0⟩]
    | .payloadAndFlag => True
  errorUnion : ∀ set payload, L.get t = .errorUnion set payload →
    match L.errorUnionRepr set payload with
    | .errorOnly => L.members t = [⟨set, 0⟩]
    | .payloadOnly => 0 < (L.layout payload).size → L.members t = [⟨payload, 0⟩]
    | _ => True
  array : ∀ len child sentinel, L.get t = .array len child sentinel → 0 < (L.layout child).size →
    ∃ h s' m, (L.lower child).run.run s = (.ok h, s') ∧ s'.table.layoutOf L.target h = some m ∧
      L.members t = (List.range (elementCount len sentinel)).map fun i => ⟨child, i * m.size⟩

theorem sequence_one {layout : TypeId → Layout} {c : TypeId} (hc : (layout c).align.isPowerOfTwo)
    (hs : 0 < (layout c).size) : Member.sequence layout 0 [c] = [⟨c, 0⟩] := by
  rw [Member.sequence, alignUp_zero hc]
  exact if_pos hs

/-- An aggregate without a layout of its own takes no room, and has no members. -/
theorem members_of_isPlaced (hL : L.Regular) (hE : L.ErrorsAreCodes) (hs : s.Sound L.toSizing Idle)
    (ht : L.isPlaced t = true) :
    ∃ r s', (L.aggregateLayout? t).run.run s = (.ok r, s') ∧
      (L.members t).Perm (r.elim [] fun l => L.placedMembers t l.fields l.tag) := by
  cases hr : L.takesRoom t with
  | true =>
    obtain ⟨p, hp⟩ := Option.isSome_iff_exists.1 (Sizing.isSome_placement hr ht)
    obtain ⟨l, s', hrun⟩ := aggregateLayout_of_placement hL hs hp
    obtain ⟨-, q, -, hq, -, -, hk⟩ := keeps_of_aggregateLayout hL hs hrun
    refine ⟨some l, s', hrun, ?_⟩
    have hm := Sizing.members_placement hL hE hq
    rw [← hk.fields, ← hk.tag] at hm
    exact hm
  | false =>
    have hf : L.fnTy? t = none := Pool.fnTy?_eq_none fun f hd => by simp [Sizing.isPlaced, hd] at ht
    obtain ⟨r, s', hrun⟩ : ∃ r s', (L.aggregateLayout? t).run.run s = (.ok r, s') :=
      ⟨_, _, by rw [aggregateLayout?_eq, lower_of_value hf]; rfl⟩
    refine ⟨r, s', hrun, ?_⟩
    cases r with
    | none =>
      rw [Sizing.members_of_not_takesRoom hL.supported hr ht]
      exact .nil
    | some l =>
      obtain ⟨-, p, -, hp, -⟩ := keeps_of_aggregateLayout hL hs hrun
      rw [takesRoom_of_placement hp] at hr
      cases hr

/-- Whatever the type, its members are where code generation puts them. -/
theorem members_agree (hL : L.Regular) (hE : L.ErrorsAreCodes) (hs : L.Reachable s) (t : TypeId) :
    L.MembersAgree s t := by
  have hT := hL.supported
  have sound := hs.sound hL
  have one : ∀ {c : TypeId}, 0 < (L.layout c).size → Member.sequence L.layout 0 [c] = [⟨c, 0⟩] :=
    fun h => sequence_one (Sizing.placeable hL _).align h
  refine ⟨members_of_isPlaced hL hE sound, fun child hd => ?_, fun set payload hd => ?_, fun len child sentinel hd hc => ?_⟩
  · have hm : L.members t = Member.sequence L.layout 0 ((L.optionalRepr child).order child) := by
      simp only [Sizing.members, hd]
    rw [hm]
    cases L.optionalRepr child with
    | flagOnly => exact one (by rw [L.layout_u8]; exact Nat.one_pos)
    | payload => exact one
    | payloadAndFlag => trivial
  · have hm : L.members t = Member.sequence L.layout 0 ((L.errorUnionRepr set payload).order set payload) := by
      simp only [Sizing.members, hd]
    have hhalves := L.room_of_errorUnionRepr set payload
    rw [hm]
    cases hrepr : L.errorUnionRepr set payload with
    | errorOnly =>
      rw [hrepr] at hhalves
      obtain ⟨e, he⟩ := hE t set payload hd
      have hset := (Prod.mk.inj hhalves).1
      rw [L.takesRoom_eq, he] at hset
      exact one (by rw [Sizing.layout_errorSet he hset]; exact Nat.two_pos)
    | payloadOnly => exact one
    | empty | errorFirst | payloadFirst => trivial
  · have hr := Sizing.takesRoom_of_size_pos hT hc
    obtain ⟨h, s', hrun, hs', -, hl⟩ := lower_of_takesRoom hL sound hr
    refine ⟨h, s', _, hrun, hs'.layoutOf_lowered hL child (spares_idle _ child) hr hl, ?_⟩
    simp only [Sizing.members, hd]
    exact if_pos hc

/-- The members of a tagged union. -/
theorem members_agree_sample : (⟨.sample, .standard⟩ : Lowering).MembersAgree .empty ⟨23⟩ :=
  members_agree (L := ⟨.sample, .standard⟩) Sizing.regular_sample Sizing.errorsAreCodes_sample .empty ⟨23⟩

end Lowering

end MachineAbi
