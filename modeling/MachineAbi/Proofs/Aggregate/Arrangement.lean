import Mathlib.Data.List.Forall2
import MachineAbi.Aggregate.Builder
import MachineAbi.Proofs.Composition

/-!
# Arrangements

An `Arrangement` is an aggregate under construction, as `AggregateBuilder` makes it, but of values whose layouts are
given and not looked up in a table.

* `Tight`: the pieces leave no gaps, and the struct rule gives them the size and alignment reached.
* `Arrangement.extent_push`, `Arrangement.extent_finish`: the size and alignment reached evolve as layouts are composed.
* `Sits`: a value is where its place says. It stays there whatever is pushed behind it (`Sits.mono`).
-/

namespace MachineAbi

/-! ## Lists in step -/

theorem exists_getElem?_of_forall₂ {α β : Type} {R : α → β → Prop} {as : List α} {bs : List β}
    (h : List.Forall₂ R as bs) {k : Nat} {b : β} (hb : bs[k]? = some b) : ∃ a, as[k]? = some a ∧ R a b := by
  induction h generalizing k with
  | nil => cases hb
  | @cons a b' as bs hab _ ih =>
    cases k with
    | zero =>
      obtain rfl := Option.some.inj hb
      exact ⟨a, rfl, hab⟩
    | succ k => exact ih hb

theorem exists_of_mem_right {α β : Type} {R : α → β → Prop} {as : List α} {bs : List β} (h : List.Forall₂ R as bs)
    {b : β} (hb : b ∈ bs) : ∃ a ∈ as, R a b := by
  obtain ⟨k, hk⟩ := List.getElem?_of_mem hb
  obtain ⟨a, ha, hab⟩ := exists_getElem?_of_forall₂ h hk
  exact ⟨a, List.mem_of_getElem? ha, hab⟩

/-! ## Arrangements -/

/-- The pieces of an aggregate so far, padding among them, and the size and alignment reached. -/
structure Arrangement (α : Type) where
  /-- Each piece with its layout; padding is no value. -/
  pieces : List (Option α × Layout)
  offset : Nat
  align : Nat

/-- A value to be placed. -/
structure Item (α : Type) where
  source : TypeId
  value : α
  layout : Layout

namespace Arrangement

variable {α : Type}

def empty : Arrangement α := ⟨[], 0, 1⟩

/-- Fills up to `offset`. -/
def padTo (a : Arrangement α) (offset : Nat) : Arrangement α :=
  if a.offset < offset then
    { a with pieces := a.pieces ++ [(none, ⟨offset - a.offset, 1⟩)], offset := offset }
  else a

/-- Places one value at the next offset aligned for it; a value without room only gets the offset reached. -/
def push (i : Item α) (a : Arrangement α) : FieldPlace × Arrangement α :=
  if 0 < i.layout.size then
    let b := a.padTo (alignUp a.offset i.layout.align)
    (⟨some b.pieces.length, i.source, i.layout.align, b.offset⟩,
      ⟨b.pieces ++ [(some i.value, i.layout)], b.offset + i.layout.size, max b.align i.layout.align⟩)
  else (⟨none, i.source, i.layout.align, a.offset⟩, a)

/-- Places several values in order. -/
def pushAll : List (Item α) → Arrangement α → List FieldPlace × Arrangement α
  | [], a => ([], a)
  | i :: is, a => ((a.push i).1 :: (pushAll is (a.push i).2).1, (pushAll is (a.push i).2).2)

/-- Pads the end. -/
def finish (a : Arrangement α) : Arrangement α := a.padTo (alignUp a.offset a.align)

/-- The layouts of the pieces. -/
def layouts (a : Arrangement α) : List Layout := a.pieces.map (·.2)

/-- The size and alignment reached. -/
def extent (a : Arrangement α) : Layout := ⟨a.offset, a.align⟩

/-! ## Arrangements without gaps -/

/-- The pieces leave no gaps, and add up to the size and alignment reached. -/
structure Tight (a : Arrangement α) : Prop where
  seamless : Layout.Seamless a.layouts
  folded : a.layouts.foldl Layout.append .zero = a.extent
  power : a.align.isPowerOfTwo
  padding : ∀ l, (none, l) ∈ a.pieces → l.align = 1

namespace Tight

variable {a : Arrangement α}

protected theorem empty : Tight (empty : Arrangement α) :=
  ⟨.nil, rfl, Nat.isPowerOfTwo_one, fun _ h => nomatch h⟩

theorem offset_eq (h : a.Tight) : a.offset = Layout.total a.layouts := by
  have hs := h.seamless.size_foldl_append
  rw [h.folded] at hs
  exact hs

/-- One more piece, aligned at the end. -/
theorem concat (h : a.Tight) {v : Option α} {l : Layout} (hd : l.align ∣ a.offset) (hl : l.align.isPowerOfTwo)
    (hv : v = none → l.align = 1) :
    Tight ⟨a.pieces ++ [(v, l)], a.offset + l.size, max a.align l.align⟩ := by
  refine ⟨?_, ?_, isPowerOfTwo_max h.power hl, fun m hm => ?_⟩
  · rw [layouts, List.map_append]
    exact h.seamless.concat (h.offset_eq ▸ hd) hl
  · rw [layouts, List.map_append, List.foldl_append]
    have hf : (a.pieces.map (·.2)).foldl Layout.append .zero = a.extent := h.folded
    rw [hf]
    simp [Layout.append, extent, alignUp_of_dvd hl hd]
  · rcases List.mem_append.1 hm with hm | hm
    · exact h.padding m hm
    · obtain ⟨hn, rfl⟩ := Prod.mk.inj (List.mem_singleton.1 hm)
      exact hv hn.symm

theorem padTo (h : a.Tight) (offset : Nat) : (a.padTo offset).Tight := by
  unfold Arrangement.padTo
  split
  · rename_i hlt
    have hc := h.concat (v := none) (l := ⟨offset - a.offset, 1⟩) (Nat.one_dvd _) Nat.isPowerOfTwo_one fun _ => rfl
    have hmax : max a.align 1 = a.align := Nat.max_eq_left (Nat.pos_of_isPowerOfTwo h.power)
    have hoff : a.offset + (offset - a.offset) = offset := by omega
    simpa [hmax, hoff] using hc
  · exact h

end Tight

theorem offset_padTo {a : Arrangement α} {offset : Nat} (h : a.offset ≤ offset) : (a.padTo offset).offset = offset := by
  unfold padTo
  split
  · rfl
  · omega

@[simp]
theorem align_padTo (a : Arrangement α) (offset : Nat) : (a.padTo offset).align = a.align := by
  unfold padTo
  split <;> rfl

/-- Where the next value with this alignment starts. -/
theorem offset_padTo_alignUp (a : Arrangement α) {align : Nat} (h : align.isPowerOfTwo) :
    (a.padTo (alignUp a.offset align)).offset = alignUp a.offset align :=
  offset_padTo (le_alignUp h)

variable {a : Arrangement α} {i : Item α}

theorem Tight.push (h : a.Tight) (hi : i.layout.Placeable) : (a.push i).2.Tight := by
  unfold Arrangement.push
  split
  · refine (h.padTo _).concat ?_ hi.align fun hv => nomatch hv
    rw [offset_padTo_alignUp a hi.align]
    exact dvd_alignUp hi.align
  · exact h

theorem Tight.pushAll {is : List (Item α)} (h : a.Tight) (his : ∀ i ∈ is, i.layout.Placeable) :
    (a.pushAll is).2.Tight := by
  induction is generalizing a with
  | nil => exact h
  | cons i is ih =>
    exact ih (h.push (his i List.mem_cons_self)) fun j hj => his j (List.mem_cons_of_mem _ hj)

theorem Tight.finish (h : a.Tight) : a.finish.Tight := h.padTo _

/-! ## The size and alignment reached -/

theorem extent_push (h : a.Tight) (hi : i.layout.Placeable) : (a.push i).2.extent = a.extent.append i.layout := by
  unfold push
  split
  · simp [extent, Layout.append, offset_padTo_alignUp a hi.align]
  · rename_i hs
    have hz : i.layout.size = 0 := by omega
    have hone : 1 ≤ a.align := Nat.pos_of_isPowerOfTwo h.power
    simp [extent, Layout.append, hz, hi.anywhere hz, hone]

theorem extent_pushAll {is : List (Item α)} (h : a.Tight) (his : ∀ i ∈ is, i.layout.Placeable) :
    (a.pushAll is).2.extent = (is.map (·.layout)).foldl Layout.append a.extent := by
  induction is generalizing a with
  | nil => rfl
  | cons i is ih =>
    have hi := his i List.mem_cons_self
    rw [List.map_cons, List.foldl_cons, ← extent_push h hi]
    exact ih (h.push hi) fun j hj => his j (List.mem_cons_of_mem _ hj)

theorem extent_finish (h : a.Tight) : a.finish.extent = a.extent.pad := by
  simp [finish, extent, Layout.pad, offset_padTo_alignUp a h.power]

/-- A finished arrangement ends at a multiple of its alignment, so the struct rule adds no padding to it. -/
theorem compose_finish (h : a.Tight) : Layout.compose a.finish.layouts = a.finish.extent := by
  have hd : a.finish.align ∣ a.finish.offset := by
    rw [finish, align_padTo, offset_padTo_alignUp a h.power]
    exact dvd_alignUp h.power
  rw [Layout.compose, h.finish.folded]
  simp [extent, Layout.pad, alignUp_of_dvd h.finish.power hd]

/-! ## Values at their places -/

/-- More is placed behind what is there. -/
structure Grows (a b : Arrangement α) : Prop where
  pieces : a.pieces <+: b.pieces
  offset : a.offset ≤ b.offset

protected theorem Grows.refl (a : Arrangement α) : a.Grows a := ⟨List.prefix_rfl, Nat.le_refl _⟩

protected theorem Grows.trans {b c : Arrangement α} (h : a.Grows b) (h' : b.Grows c) : a.Grows c :=
  ⟨h.pieces.trans h'.pieces, Nat.le_trans h.offset h'.offset⟩

theorem grows_padTo (a : Arrangement α) (offset : Nat) : a.Grows (a.padTo offset) := by
  unfold padTo
  split
  · exact ⟨List.prefix_append _ _, Nat.le_of_lt ‹_›⟩
  · exact .refl a

theorem grows_push (a : Arrangement α) (i : Item α) : a.Grows (a.push i).2 := by
  unfold push
  split
  · exact (a.grows_padTo _).trans ⟨List.prefix_append _ _, Nat.le_add_right _ _⟩
  · exact .refl a

theorem grows_pushAll (a : Arrangement α) (is : List (Item α)) : a.Grows (a.pushAll is).2 := by
  induction is generalizing a with
  | nil => exact .refl a
  | cons i is ih => exact (a.grows_push i).trans (ih _)

/-- The value of `i` is where `p` says: inside the arrangement, aligned, and at the machine field named. -/
structure Sits (a : Arrangement α) (i : Item α) (p : FieldPlace) : Prop where
  source : p.source = i.source
  align : p.align = i.layout.align
  aligned : i.layout.align ∣ p.offset
  inside : p.offset + i.layout.size ≤ a.offset
  unstored : i.layout.size = 0 → p.machineIndex = none
  stored : 0 < i.layout.size → ∃ k, p.machineIndex = some k ∧ a.pieces[k]? = some (some i.value, i.layout) ∧
    p.offset = Layout.total (a.layouts.take k)

theorem Sits.mono {b : Arrangement α} {p : FieldPlace} (h : a.Sits i p) (hab : a.Grows b) : b.Sits i p := by
  refine ⟨h.source, h.align, h.aligned, Nat.le_trans h.inside hab.offset, h.unstored, fun hs => ?_⟩
  obtain ⟨k, hk, hpiece, hoff⟩ := h.stored hs
  obtain ⟨rest, hrest⟩ := hab.pieces
  have hlt : k < a.pieces.length := (List.getElem?_eq_some_iff.1 hpiece).1
  refine ⟨k, hk, ?_, ?_⟩
  · rw [← hrest, List.getElem?_append_left hlt]
    exact hpiece
  · rw [hoff, layouts, layouts, ← hrest, List.map_append, List.take_append_of_le_length]
    rw [List.length_map]
    exact Nat.le_of_lt hlt

theorem sits_push (h : a.Tight) (hi : i.layout.Placeable) : (a.push i).2.Sits i (a.push i).1 := by
  unfold push
  split
  · rename_i hs
    refine ⟨rfl, rfl, ?_, Nat.le_refl _, fun hz => absurd hz (Nat.ne_of_gt hs), fun _ => ⟨_, rfl, by simp, ?_⟩⟩
    · dsimp only
      rw [offset_padTo_alignUp a hi.align]
      exact dvd_alignUp hi.align
    · have htake := (h.padTo (alignUp a.offset i.layout.align)).offset_eq
      dsimp only
      rw [layouts, List.map_append, List.take_left' (List.length_map _)]
      exact htake
  · rename_i hs
    have hz : i.layout.size = 0 := by omega
    refine ⟨rfl, rfl, ?_, ?_, fun _ => rfl, fun hpos => absurd hpos hs⟩
    · rw [hi.anywhere hz]
      exact Nat.one_dvd _
    · rw [hz]
      exact Nat.le_refl _

/-- A value is placed behind what is there. -/
theorem offset_le_push (a : Arrangement α) (i : Item α) : a.offset ≤ (a.push i).1.offset := by
  unfold push
  split
  · exact (a.grows_padTo _).offset
  · exact Nat.le_refl _

theorem sits_pushAll {is : List (Item α)} (h : a.Tight) (his : ∀ i ∈ is, i.layout.Placeable) :
    List.Forall₂ (a.pushAll is).2.Sits is (a.pushAll is).1 := by
  induction is generalizing a with
  | nil => exact .nil
  | cons i is ih =>
    have hi := his i List.mem_cons_self
    exact .cons ((sits_push h hi).mono (grows_pushAll _ is)) (ih (h.push hi) fun j hj => his j (List.mem_cons_of_mem _ hj))

theorem offset_le_pushAll (a : Arrangement α) (is : List (Item α)) : ∀ p ∈ (a.pushAll is).1, a.offset ≤ p.offset := by
  induction is generalizing a with
  | nil => exact fun p hp => nomatch hp
  | cons i is ih =>
    intro p hp
    rcases List.mem_cons.1 hp with rfl | hp
    · exact a.offset_le_push i
    · exact Nat.le_trans (a.grows_push i).offset (ih _ p hp)

/-! ## What is in an arrangement -/

/-- All values in an arrangement satisfy `P`. -/
def All (P : α → Layout → Prop) (a : Arrangement α) : Prop := ∀ v l, (some v, l) ∈ a.pieces → P v l

section

variable {P : α → Layout → Prop}

protected theorem All.empty : All P (empty : Arrangement α) := fun _ _ h => nomatch h

theorem All.padTo (h : a.All P) (offset : Nat) : (a.padTo offset).All P := by
  unfold Arrangement.padTo
  split
  · intro v l hm
    rcases List.mem_append.1 hm with hm | hm
    · exact h v l hm
    · simp at hm
  · exact h

theorem All.push (h : a.All P) (hi : 0 < i.layout.size → P i.value i.layout) : (a.push i).2.All P := by
  unfold Arrangement.push
  split
  · intro v l hm
    rcases List.mem_append.1 hm with hm | hm
    · exact h.padTo _ v l hm
    · obtain ⟨hv, rfl⟩ := Prod.mk.inj (List.mem_singleton.1 hm)
      obtain rfl := Option.some.inj hv
      exact hi ‹_›
  · exact h

theorem All.pushAll {is : List (Item α)} (h : a.All P) (his : ∀ i ∈ is, 0 < i.layout.size → P i.value i.layout) :
    (a.pushAll is).2.All P := by
  induction is generalizing a with
  | nil => exact h
  | cons i is ih =>
    exact ih (h.push (his i List.mem_cons_self)) fun j hj => his j (List.mem_cons_of_mem _ hj)

theorem All.finish (h : a.All P) : a.finish.All P := h.padTo _

end

end Arrangement

end MachineAbi
