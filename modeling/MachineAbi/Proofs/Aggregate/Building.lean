import MachineAbi.Proofs.Aggregate.Arrangement
import MachineAbi.Proofs.Machine.LayoutOf
import MachineAbi.Proofs.Source.Regular

/-!
# Builders leave nothing to the code generator

Values of any machine types, pushed in any order and then finished (`AggregateBuilder.build`), end up where the code
generator puts them. This is `AggregateBuilder.settled_build`; what it says is the structure `AggregateBuilder.Settled`.

* As a struct, the machine fields have the size and alignment that the builder reports, and packed the same size.
* Each value that takes room is the machine field at its index, the indices rise, and the offset noted is aligned for
  the value and is the one that the struct rule gives that field.
* All other machine fields are bytes, fewer than the alignment of the whole.

Proof: the builder follows an `Arrangement` of handles (`Table.Follows`), whose pieces leave no gaps. The arrangement
knows nothing of the table, so the three facts above are shown there for each push and then for all pushes.
-/

namespace MachineAbi

namespace Layout

/-- A layout to place a value by: one without room has no alignment either. -/
def room (l : Layout) : Layout := if 0 < l.size then l else zero

theorem room_of_pos {l : Layout} (h : 0 < l.size) : l.room = l := if_pos h

theorem room_of_not_pos {l : Layout} (h : ¬0 < l.size) : l.room = zero := if_neg h

theorem placeable_room {l : Layout} (h : l.align.isPowerOfTwo) : l.room.Placeable := by
  unfold room
  split
  · exact .of_size_pos h ‹_›
  · exact .zero

end Layout

/-! ## Arrangements: indices and padding -/

namespace Arrangement

variable {α : Type} {a : Arrangement α} {i : Item α}

/-- Padding is there to fill a gap, and shorter than the alignment of the whole. -/
def Short (a : Arrangement α) : Prop := ∀ l, (none, l) ∈ a.pieces → 0 < l.size ∧ l.size < a.align

protected theorem Short.empty : Short (empty : Arrangement α) := fun _ h => nomatch h

/-- Padding up to an alignment is shorter than it. -/
theorem Short.padTo (h : a.Short) {align : Nat} (ha : align.isPowerOfTwo) :
    ∀ l, (none, l) ∈ (a.padTo (alignUp a.offset align)).pieces → 0 < l.size ∧ l.size < max a.align align := by
  have old : ∀ l, (none, l) ∈ a.pieces → 0 < l.size ∧ l.size < max a.align align := fun l hl =>
    ⟨(h l hl).1, Nat.lt_of_lt_of_le (h l hl).2 (Nat.le_max_left _ _)⟩
  unfold Arrangement.padTo
  split
  · intro l hl
    rcases List.mem_append.1 hl with hl | hl
    · exact old l hl
    · obtain ⟨-, rfl⟩ := Prod.mk.inj (List.mem_singleton.1 hl)
      have hlt := @alignUp_lt a.offset align ha
      have hle := Nat.le_max_right a.align align
      dsimp only
      omega
  · exact old

theorem Short.push (h : a.Short) (hi : i.layout.Placeable) : (a.push i).2.Short := by
  unfold Arrangement.push
  split
  · intro l hl
    dsimp only at hl ⊢
    rw [align_padTo]
    rcases List.mem_append.1 hl with hl | hl
    · exact h.padTo hi.align l hl
    · obtain ⟨hnone, -⟩ := Prod.mk.inj (List.mem_singleton.1 hl)
      exact nomatch hnone
  · exact h

theorem Short.pushAll {is : List (Item α)} (h : a.Short) (his : ∀ i ∈ is, i.layout.Placeable) :
    (a.pushAll is).2.Short := by
  induction is generalizing a with
  | nil => exact h
  | cons i is ih =>
    exact ih (h.push (his i List.mem_cons_self)) fun j hj => his j (List.mem_cons_of_mem _ hj)

theorem Short.finish (h : a.Short) (ht : a.Tight) : a.finish.Short := by
  intro l hl
  have hp := h.padTo ht.power l hl
  rw [Nat.max_self] at hp
  rw [Arrangement.finish, align_padTo]
  exact hp

/-- A value is placed behind what is there, and what stands there is no other value. -/
theorem index_push (a : Arrangement α) (i : Item α) {k : Nat} (hk : (a.push i).1.machineIndex = some k) :
    a.pieces.length ≤ k ∧ (a.push i).2.pieces.length = k + 1 := by
  have hgrow := (a.grows_padTo (alignUp a.offset i.layout.align)).pieces.length_le
  unfold push at hk ⊢
  split at hk
  · rename_i hs
    obtain rfl := Option.some.inj hk
    rw [if_pos hs]
    exact ⟨hgrow, by simp⟩
  · cases hk

/-- Padding is no value. -/
theorem value_padTo {offset k : Nat} {v : α} {l : Layout} (hk : (a.padTo offset).pieces[k]? = some (some v, l)) :
    a.pieces[k]? = some (some v, l) := by
  unfold padTo at hk
  split at hk
  · dsimp only at hk
    rw [List.getElem?_append] at hk
    split at hk
    · exact hk
    · have hmem := List.mem_of_getElem? hk
      simp at hmem
  · exact hk

/-- After a push there is nothing new but the value at its index. -/
theorem value_push (a : Arrangement α) (i : Item α) {k : Nat} {v : α} {l : Layout}
    (hk : (a.push i).2.pieces[k]? = some (some v, l)) :
    a.pieces[k]? = some (some v, l) ∨ (a.push i).1.machineIndex = some k := by
  unfold push at hk ⊢
  split at hk
  · rename_i hs
    rw [if_pos hs]
    dsimp only at hk ⊢
    rw [List.getElem?_append] at hk
    split at hk
    · exact Or.inl (value_padTo hk)
    · rename_i hge
      have hzero : k - (a.padTo (alignUp a.offset i.layout.align)).pieces.length = 0 := by
        have hlt := (List.getElem?_eq_some_iff.1 hk).1
        rw [List.length_singleton] at hlt
        omega
      right
      congr 1
      omega
  · exact Or.inl hk

theorem length_le_push (a : Arrangement α) (i : Item α) : a.pieces.length ≤ (a.push i).2.pieces.length :=
  (a.grows_push i).pieces.length_le

theorem grows_finish (a : Arrangement α) : a.Grows a.finish := a.grows_padTo _

/-- The machine fields that hold values. -/
def indices (places : List FieldPlace) : List Nat := places.filterMap (·.machineIndex)

theorem length_le_of_mem_indices (a : Arrangement α) (is : List (Item α)) :
    ∀ k ∈ indices (a.pushAll is).1, a.pieces.length ≤ k := by
  induction is generalizing a with
  | nil => exact fun k hk => nomatch hk
  | cons i is ih =>
    intro k hk
    rcases List.mem_filterMap.1 hk with ⟨p, hp, hk⟩
    rcases List.mem_cons.1 hp with rfl | hp
    · exact (a.index_push i hk).1
    · exact Nat.le_trans (a.length_le_push i) (ih _ k (List.mem_filterMap.2 ⟨p, hp, hk⟩))

/-- Later values have higher indices. -/
theorem pairwise_indices (a : Arrangement α) (is : List (Item α)) : (indices (a.pushAll is).1).Pairwise (· < ·) := by
  induction is generalizing a with
  | nil => exact .nil
  | cons i is ih =>
    rw [pushAll, indices, List.filterMap_cons]
    cases hk : (a.push i).1.machineIndex with
    | none => exact ih _
    | some k =>
      refine List.pairwise_cons.2 ⟨fun n hn => ?_, ih _⟩
      have hlen := (a.index_push i hk).2
      have hle := length_le_of_mem_indices (a.push i).2 is n hn
      omega

/-- Each value is the piece at its index. -/
theorem mem_indices_of_value (a : Arrangement α) (is : List (Item α)) {k : Nat} {v : α} {l : Layout}
    (hk : (a.pushAll is).2.pieces[k]? = some (some v, l)) :
    a.pieces[k]? = some (some v, l) ∨ k ∈ indices (a.pushAll is).1 := by
  induction is generalizing a with
  | nil => exact Or.inl hk
  | cons i is ih =>
    rw [pushAll, indices, List.filterMap_cons]
    rcases ih _ hk with hold | hnew
    · rcases a.value_push i hold with hold | hidx
      · exact Or.inl hold
      · rw [hidx]
        exact Or.inr List.mem_cons_self
    · right
      cases (a.push i).1.machineIndex with
      | none => exact hnew
      | some n => exact List.mem_cons_of_mem n hnew

end Arrangement

/-! ## Builders follow arrangements -/

namespace Table

variable {t t' : Table} {T : Target} {b : AggregateBuilder} {a : Arrangement (Option Handle)}

/-- The offset at which the code generator puts field number `k` of a struct. -/
def fieldOffset? (t : Table) (T : Target) (fields : List Handle) (k : Nat) : Option Nat :=
  (fields.mapM (t.layoutOf T)).map fun layouts => Layout.offsetOf layouts k

/-- What is pushed for a value: nothing, if it has no machine type or that takes no room. -/
def item (t : Table) (T : Target) (v : TypeId × Option Handle) : Item (Option Handle) :=
  ⟨v.1, v.2, ((v.2.bind (t.layoutOf T)).getD .zero).room⟩

/-- A machine field is the piece of an arrangement. -/
def HoldsPiece (T : Target) (t : Table) (h : Handle) (x : Option (Option Handle) × Layout) : Prop :=
  match x.1 with
  | some v => v = some h ∧ t.layoutOf T h = some x.2
  | none => t.StoresBytes h x.2.size

/-- A builder holds what an arrangement of handles says. -/
structure Follows (T : Target) (t : Table) (b : AggregateBuilder) (a : Arrangement (Option Handle)) : Prop where
  offset : b.offset = a.offset
  align : b.align = a.align
  machine : List.Forall₂ (t.HoldsPiece T) b.machine a.pieces

/-- The value has a layout, if it has a machine type. -/
def Measured (T : Target) (t : Table) (v : TypeId × Option Handle) : Prop :=
  ∀ h ∈ v.2, (t.layoutOf T h).isSome = true

instance (t : Table) (v : TypeId × Option Handle) : Decidable (Measured T t v) :=
  inferInstanceAs (Decidable (∀ h ∈ v.2, (t.layoutOf T h).isSome = true))

/-- Two places are the same, but for the alignment that is noted for a value without room. -/
def SamePlace (p q : FieldPlace) : Prop := p.machineIndex = q.machineIndex ∧ p.offset = q.offset

theorem HoldsPiece.mono (hr : t.Refines t') {h : Handle} {x : Option (Option Handle) × Layout}
    (hh : t.HoldsPiece T h x) : t'.HoldsPiece T h x := by
  obtain ⟨v, l⟩ := x
  cases v with
  | none => exact hr.storesBytes hh
  | some v => exact ⟨hh.1, hr.layoutOf hh.2⟩

variable {v : TypeId × Option Handle}

/-- A layout once known does not change what is pushed later. -/
theorem Refines.item_eq (hr : t.Refines t') (hv : t.Measured T v) : t'.item T v = t.item T v := by
  obtain ⟨source, h?⟩ := v
  cases h? with
  | none => rfl
  | some h =>
    obtain ⟨l, hl⟩ := Option.isSome_iff_exists.1 (hv h rfl)
    simp only [item, Option.bind_some, hl, hr.layoutOf hl]

theorem Measured.mono (hr : t.Refines t') (hv : t.Measured T v) : t'.Measured T v := by
  intro h hh
  obtain ⟨l, hl⟩ := Option.isSome_iff_exists.1 (hv h hh)
  exact Option.isSome_iff_exists.2 ⟨l, hr.layoutOf hl⟩

theorem placeable_item (hT : T.Supported) (t : Table) (v : TypeId × Option Handle) : (t.item T v).layout.Placeable := by
  obtain ⟨source, h?⟩ := v
  apply Layout.placeable_room
  cases hl : h?.bind (t.layoutOf T) with
  | none => exact Nat.isPowerOfTwo_one
  | some l =>
    obtain ⟨h, -, hl⟩ := Option.bind_eq_some_iff.1 hl
    exact isPowerOfTwo_layoutOf hT hl

namespace Follows

protected theorem empty (T : Target) (t : Table) : t.Follows T .empty .empty := ⟨rfl, rfl, .nil⟩

theorem mono (hf : t.Follows T b a) (hr : t.Refines t') : t'.Follows T b a :=
  ⟨hf.offset, hf.align, hf.machine.imp fun _ _ => HoldsPiece.mono hr⟩

theorem concat (hf : t.Follows T b a) {h : Handle} {x : Option (Option Handle) × Layout} (hx : t.HoldsPiece T h x)
    (offset align : Nat) : t.Follows T ⟨b.machine ++ [h], offset, align⟩ ⟨a.pieces ++ [x], offset, align⟩ :=
  ⟨rfl, rfl, List.rel_append hf.machine (.cons hx .nil)⟩

theorem padTo (hf : t.Follows T b a) (offset : Nat) :
    Ensures (b.padTo offset) t fun b' t' => t.Extends t' ∧ t'.Follows T b' (a.padTo offset) := by
  unfold AggregateBuilder.padTo Arrangement.padTo
  rw [hf.offset, hf.align]
  split
  · refine (bytes_spec _).bind fun pad t₁ ⟨hext, hpad⟩ => ?_
    apply Ensures.pure
    exact ⟨hext, (hf.mono hext.refines).concat (x := (none, ⟨offset - a.offset, 1⟩)) hpad offset a.align⟩
  · exact Ensures.pure ⟨.refl t, hf⟩

theorem finish (hf : t.Follows T b a) :
    Ensures b.finish t fun b' t' => t.Extends t' ∧ t'.Follows T b' a.finish := by
  unfold AggregateBuilder.finish Arrangement.finish
  rw [hf.offset, hf.align]
  exact hf.padTo _

/-- One push. -/
theorem push (hf : t.Follows T b a) (hv : t.Measured T v) :
    Ensures (b.push T v.1 v.2) t fun r t' =>
      t.Extends t' ∧ SamePlace r.1 (a.push (t.item T v)).1 ∧ t'.Follows T r.2 (a.push (t.item T v)).2 := by
  obtain ⟨source, h?⟩ := v
  apply Ensures.get_bind
  unfold Arrangement.push item
  cases h? with
  | none =>
    rw [if_neg (by simp [Layout.room, Layout.zero])]
    exact Ensures.pure ⟨.refl t, ⟨rfl, hf.offset⟩, hf⟩
  | some h =>
    obtain ⟨l, hl⟩ := Option.isSome_iff_exists.1 (hv h rfl)
    simp only [Option.bind_some, hl, Option.getD_some]
    by_cases hs : 0 < l.size
    · rw [if_pos hs, Layout.room_of_pos hs, if_pos hs, hf.offset]
      refine (hf.padTo _).bind ?_
      rintro b' t₁ ⟨hext, hf'⟩
      apply Ensures.pure
      have hheld : t₁.HoldsPiece T h (some (some h), l) := ⟨rfl, hext.refines.layoutOf hl⟩
      have hlen := hf'.machine.length_eq
      refine ⟨hext, ⟨congrArg some hlen, hf'.offset⟩, ?_⟩
      rw [hf'.offset, hf'.align]
      exact hf'.concat hheld _ _
    · rw [if_neg hs, Layout.room_of_not_pos hs, if_neg (by simp [Layout.zero])]
      exact Ensures.pure ⟨.refl t, ⟨rfl, hf.offset⟩, hf⟩

/-- The machine fields are laid out as they were arranged. -/
theorem mapM_layoutOf (hT : T.Supported) (hf : t.Follows T b a) (ha : a.Tight) (hsize : a.offset ≤ Layout.maxSize) :
    b.machine.mapM (t.layoutOf T) = some a.layouts := by
  have each : ∀ {hs : List Handle} {xs : List (Option (Option Handle) × Layout)}, List.Forall₂ (t.HoldsPiece T) hs xs →
      (∀ x ∈ xs, x ∈ a.pieces) → List.Forall₂ (fun h x => t.layoutOf T h = some x.2) hs xs := by
    intro hs xs hf
    induction hf with
    | nil => exact fun _ => .nil
    | @cons h x _ _ hx _ ih =>
      intro hm
      refine .cons ?_ (ih fun y hy => hm y (List.mem_cons_of_mem _ hy))
      have hmem := hm x List.mem_cons_self
      obtain ⟨v, l⟩ := x
      cases v with
      | some v => exact hx.2
      | none =>
        have hl : l.size ≤ Layout.total a.layouts := Layout.size_le_total (List.mem_map.2 ⟨_, hmem, rfl⟩)
        rw [← ha.offset_eq] at hl
        rw [layoutOf_bytes hT hx (Nat.le_trans hl hsize), ← ha.padding l hmem]
  apply mapM_eq_some
  exact List.forall₂_map_right_iff.2 (each hf.machine fun x hx => hx)

end Follows

/-- The layout of a struct with these fields. -/
theorem layoutOf_struct {fields : List Handle} {ls : List Layout} (hls : fields.mapM (t.layoutOf T) = some ls)
    (packed : Bool) : Ensures (struct fields packed) t fun h t' => t'.layoutOf T h = some (.struct packed ls) := by
  refine (intern_spec (by trivial)).mono fun h t' ⟨hext, hs⟩ => ?_
  exact layoutOf_body (body?_of_struct hs) (mapM_mono (fun _ _ => hext.refines.layoutOf) hls)

end Table

namespace AggregateBuilder

/-- Each value, when it is pushed, has a layout if it has a machine type. -/
def Measured (T : Target) : List (TypeId × Option Handle) → AggregateBuilder → Table → Prop
  | [], _, _ => True
  | v :: vs, b, t =>
    t.Measured T v ∧ Measured T vs (b.push T v.1 v.2 t).1.2 (b.push T v.1 v.2 t).2

/-- Places values in order and pads the end. -/
def build (T : Target) (vs : List (TypeId × Option Handle)) : StateM Table (List FieldPlace × AggregateBuilder) := do
  let (places, b) ← pushAll T vs .empty
  let b ← b.finish
  return (places, b)

variable {t t' : Table} {T : Target} {b : AggregateBuilder} {a : Arrangement (Option Handle)}
  {vs : List (TypeId × Option Handle)}

/-- All pushes. What is pushed can be told from the table in the end. -/
theorem follows_pushAll (hf : t.Follows T b a) (hv : Measured T vs b t) :
    Ensures (pushAll T vs b) t fun r t' =>
      t.Extends t' ∧ (∀ v ∈ vs, t'.Measured T v) ∧
        List.Forall₂ Table.SamePlace r.1 (a.pushAll (vs.map (t'.item T))).1 ∧
        t'.Follows T r.2 (a.pushAll (vs.map (t'.item T))).2 := by
  induction vs generalizing t b a with
  | nil => exact ⟨.refl t, fun v hv => (nomatch hv), .nil, hf⟩
  | cons v vs ih =>
    obtain ⟨hv, hvs⟩ := hv
    obtain ⟨hext, hplace, hf'⟩ := hf.push hv
    -- the assumption speaks of the table that the first push leaves, so this is kept by name
    have first : Ensures (b.push T v.1 v.2) t fun r t' =>
        r = (b.push T v.1 v.2 t).1 ∧ t' = (b.push T v.1 v.2 t).2 := ⟨rfl, rfl⟩
    refine first.bind ?_
    rintro r t₁ ⟨rfl, rfl⟩
    refine (ih hf' hvs).bind ?_
    rintro r' t₂ ⟨hext', hvs', hplaces, hf''⟩
    apply Ensures.pure
    have hr := (hext.trans hext').refines
    rw [List.map_cons, Arrangement.pushAll, hr.item_eq hv]
    refine ⟨hext.trans hext', fun w hw => ?_, .cons hplace hplaces, hf''⟩
    rcases List.mem_cons.1 hw with rfl | hw
    · exact hv.mono hr
    · exact hvs' w hw

/-- Layouts that are known at first stay known. -/
theorem measured_of_forall (hf : t.Follows T b a) (hv : ∀ v ∈ vs, t.Measured T v) : Measured T vs b t := by
  induction vs generalizing t b a with
  | nil => trivial
  | cons v vs ih =>
    have hfirst := hv v List.mem_cons_self
    obtain ⟨hext, -, hf'⟩ := hf.push hfirst
    exact ⟨hfirst, ih hf' fun w hw => (hv w (List.mem_cons_of_mem _ hw)).mono hext.refines⟩

/-! ## Values and padding where the code generator puts them -/

/-- A value that takes room is where its place says, for the code generator too; any other has no machine field. -/
structure Stands (T : Target) (t : Table) (b : AggregateBuilder) (v : TypeId × Option Handle) (p : FieldPlace) :
    Prop where
  stored : ∀ h ∈ v.2, ∀ l, t.layoutOf T h = some l → 0 < l.size →
    ∃ k, p.machineIndex = some k ∧ b.machine[k]? = some h ∧ l.align ∣ p.offset ∧
      t.fieldOffset? T b.machine k = some p.offset
  unstored : (∀ h ∈ v.2, ∀ l, t.layoutOf T h = some l → l.size = 0) → p.machineIndex = none

/-- What has been built leaves nothing to the code generator. -/
structure Settled (T : Target) (t : Table) (vs : List (TypeId × Option Handle)) (places : List FieldPlace)
    (b : AggregateBuilder) : Prop where
  natural : Ensures (Table.struct b.machine false) t fun h t' => t'.layoutOf T h = some ⟨b.offset, b.align⟩
  packed : Ensures (Table.struct b.machine true) t fun h t' => (t'.layoutOf T h).map (·.size) = some b.offset
  placed : List.Forall₂ (Stands T t b) vs places
  rising : (Arrangement.indices places).Pairwise (· < ·)
  padding : ∀ k h, b.machine[k]? = some h → k ∉ Arrangement.indices places →
    ∃ n, 0 < n ∧ n < b.align ∧ t.StoresBytes h n

variable {v : TypeId × Option Handle} {p q : FieldPlace}

theorem stands_of_sits (hf : t.Follows T b a) (ha : a.Tight) (hls : b.machine.mapM (t.layoutOf T) = some a.layouts)
    (hv : t.Measured T v) (hpq : Table.SamePlace p q) (hq : a.Sits (t.item T v) q) : Stands T t b v p := by
  obtain ⟨source, h?⟩ := v
  obtain ⟨hindex, hoffset⟩ := hpq
  constructor
  · rintro h hh l hl hs
    obtain rfl := Option.mem_def.1 hh
    have hitem : (t.item T (source, some h)).layout = l := by
      simp [Table.item, hl, Layout.room_of_pos hs]
    rw [← hitem] at hs
    obtain ⟨k, hk, hpiece, hoff⟩ := hq.stored hs
    obtain ⟨g, hg, hheld, -⟩ := exists_getElem?_of_forall₂ hf.machine hpiece
    obtain rfl : h = g := Option.some.inj hheld
    have hlayout : a.layouts[k]? = some (t.item T (source, some h)).layout := by
      simp [Arrangement.layouts, hpiece]
    refine ⟨k, hindex.trans hk, hg, ?_, ?_⟩
    · rw [← hitem, hoffset]
      exact hq.aligned
    · rw [Table.fieldOffset?, hls, Option.map_some, ha.seamless.offsetOf_eq hlayout, hoffset, hoff]
  · intro hroomless
    rw [hindex]
    apply hq.unstored
    cases h? with
    | none => rfl
    | some h =>
      obtain ⟨l, hl⟩ := Option.isSome_iff_exists.1 (hv h rfl)
      have hzero := hroomless h rfl l hl
      have hroom := Layout.room_of_not_pos (l := l) (by omega)
      simp [Table.item, hl, hroom, Layout.zero]

theorem indices_eq {ps qs : List FieldPlace} (h : List.Forall₂ Table.SamePlace ps qs) :
    Arrangement.indices ps = Arrangement.indices qs := by
  induction h with
  | nil => rfl
  | cons hpq _ ih =>
    have ih : List.filterMap _ _ = List.filterMap _ _ := ih
    simp only [Arrangement.indices, List.filterMap_cons, hpq.1, ih]

theorem forall₂_stands {ps qs : List FieldPlace} (hsame : List.Forall₂ Table.SamePlace ps qs)
    (hsits : List.Forall₂ (fun v q => a.Sits (t.item T v) q) vs qs)
    (each : ∀ v ∈ vs, ∀ p q, Table.SamePlace p q → a.Sits (t.item T v) q → Stands T t b v p) :
    List.Forall₂ (Stands T t b) vs ps := by
  induction hsame generalizing vs with
  | nil =>
    cases hsits
    exact .nil
  | @cons p q ps qs hpq _ ih =>
    cases hsits with
    | @cons v _ vs _ hq hsits =>
      exact .cons (each v List.mem_cons_self p q hpq hq)
        (ih hsits fun w hw => each w (List.mem_cons_of_mem _ hw))

/-- Whatever is pushed in any order and finished, nothing is left to the code generator, unless its size overflows. -/
theorem settled_build (hT : T.Supported) (hv : Measured T vs .empty t) :
    Ensures (build T vs) t fun r t' => r.2.offset ≤ Layout.maxSize → Settled T t' vs r.1 r.2 := by
  refine (follows_pushAll (.empty T t) hv).bind ?_
  rintro ⟨places, b⟩ t₁ ⟨-, hvs, hplaces, hf⟩
  refine hf.finish.bind ?_
  rintro b' t₂ ⟨hext, hf'⟩
  apply Ensures.pure
  intro hsize
  have hr := hext.refines
  have hitems : vs.map (t₁.item T) = vs.map (t₂.item T) :=
    List.map_congr_left fun v hv => (hr.item_eq (hvs v hv)).symm
  rw [hitems] at hplaces hf'
  have placeable : ∀ i ∈ vs.map (t₂.item T), i.layout.Placeable := by
    intro i hi
    obtain ⟨v, -, rfl⟩ := List.mem_map.1 hi
    exact Table.placeable_item hT t₂ v
  -- what holds of the arrangement that the builder follows
  have tight := Arrangement.Tight.empty.pushAll placeable
  have short := (Arrangement.Short.empty.pushAll placeable).finish tight
  have sits := (Arrangement.sits_pushAll .empty placeable).imp fun _ _ hq => hq.mono (Arrangement.grows_finish _)
  have hls := hf'.mapM_layoutOf hT tight.finish (hf'.offset ▸ hsize)
  have hsame := indices_eq hplaces
  refine { natural := ?_, packed := ?_, placed := ?_, rising := ?_, padding := ?_ }
  · refine (Table.layoutOf_struct hls false).mono fun h t₃ hl => ?_
    rw [hl, hf'.offset, hf'.align]
    exact congrArg some (Arrangement.compose_finish tight)
  · refine (Table.layoutOf_struct hls true).mono fun h t₃ hl => ?_
    rw [hl, hf'.offset]
    exact congrArg some tight.finish.offset_eq.symm
  · refine forall₂_stands hplaces (List.forall₂_map_left_iff.1 sits) fun v hv p q hpq hq => ?_
    exact stands_of_sits hf' tight.finish hls ((hvs v hv).mono hr) hpq hq
  · rw [hsame]
    exact Arrangement.pairwise_indices _ _
  · intro k h hk hidle
    obtain ⟨x, hx, hheld⟩ := exists_getElem?_of_forall₂ hf'.machine.flip hk
    obtain ⟨v, l⟩ := x
    cases v with
    | none =>
      obtain ⟨hpos, hlt⟩ := short l (List.mem_of_getElem? hx)
      rw [← hf'.align] at hlt
      exact ⟨l.size, hpos, hlt, hheld⟩
    | some v =>
      rcases Arrangement.mem_indices_of_value _ _ (Arrangement.value_padTo hx) with hold | hmem
      · cases hold
      · rw [hsame] at hidle
        exact absurd hmem hidle

/-- A table of a byte, a long integer, and an array of none of these. -/
def brief : Table := (Table.array 0 ⟨1⟩ (Table.int 64 (Table.int 8 .empty).2).2).2

/-- Some values of these types, and one without a machine type. -/
def briefValues : List (TypeId × Option Handle) :=
  [(.u8, some ⟨0⟩), (.u8, none), (.u8, some ⟨2⟩), (.u8, some ⟨1⟩), (.u8, some ⟨0⟩)]

theorem settled_build_brief :
    Measured .sample briefValues .empty brief ∧ (build .sample briefValues brief).1.2.offset ≤ Layout.maxSize ∧
      Settled .sample (build .sample briefValues brief).2 briefValues (build .sample briefValues brief).1.1
        (build .sample briefValues brief).1.2 := by
  have hv : Measured .sample briefValues .empty brief := measured_of_forall (.empty .sample brief) (by decide +kernel)
  have hsize : (build .sample briefValues brief).1.2.offset ≤ Layout.maxSize := by decide +kernel
  exact ⟨hv, hsize, settled_build Target.supported_sample hv hsize⟩

end AggregateBuilder

end MachineAbi
