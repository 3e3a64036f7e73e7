import Mathlib.Data.List.Induction
import MachineAbi.Proofs.Alignment
import MachineAbi.Source.Extent

/-!
# Layouts of values in order

* `Layout.Placeable`: a layout that values can be placed by. Whatever is composed of such layouts has one
  (`Placeable.compose`, `Placeable.overlay`).
* `Layout.Seamless`: members that leave no gap, since each is aligned where the ones before it end. Composing them
  just adds up their sizes (`Seamless.foldl_append`), and so each lies at the sum of the sizes before it
  (`Seamless.offsetOf_eq`).
* Gaps are short: no position aligned for the whole lies in one (`lt_size_of_lt_pad`, `Beside`).
-/

namespace MachineAbi.Layout

/-! ## Values without room -/

theorem append_zero {l : Layout} (h : 1 ≤ l.align) : l.append .zero = l := by
  simp [append, zero, Nat.max_eq_left h]

theorem foldl_append_zero {ls : List Layout} (h : ∀ l ∈ ls, l = .zero) : ls.foldl append zero = .zero := by
  induction ls with
  | nil => rfl
  | cons l ls ih =>
    rw [List.foldl_cons, h l List.mem_cons_self, append_zero (Nat.le_refl 1)]
    exact ih fun m hm => h m (List.mem_cons_of_mem _ hm)

theorem pad_zero : zero.pad = .zero := by simp [pad, zero]

theorem compose_zero {ls : List Layout} (h : ∀ l ∈ ls, l = .zero) : compose ls = .zero := by
  rw [compose, foldl_append_zero h, pad_zero]

theorem times_zero (n : Nat) : times n .zero = .zero := by simp [times, zero]

/-- The room for either of two values at one place. -/
def join (l m : Layout) : Layout := ⟨max l.size m.size, max l.align m.align⟩

theorem overlay_eq (ls : List Layout) : overlay ls = (ls.foldl join zero).pad := rfl

theorem tagged_zero {tag : Option Layout} (h : ∀ l ∈ tag, l = .zero) : zero.tagged tag = .zero := by
  cases tag with
  | none => rfl
  | some l =>
    rw [h l rfl, tagged]
    split
    · exact compose_zero (by simp)
    · exact compose_zero (by simp)

theorem overlay_zero {ls : List Layout} (h : ∀ l ∈ ls, l = .zero) : overlay ls = .zero := by
  have hfold : ls.foldl join zero = .zero := by
    induction ls with
    | nil => rfl
    | cons l ls ih =>
      rw [List.foldl_cons, h l List.mem_cons_self]
      exact ih fun m hm => h m (List.mem_cons_of_mem _ hm)
  rw [overlay_eq, hfold, pad_zero]

/-! ## Room for any one of several values -/

section

variable {l : Layout} {ls : List Layout}

theorem le_foldl_join (m : Layout) : m.size ≤ (ls.foldl join m).size ∧ m.align ≤ (ls.foldl join m).align := by
  induction ls generalizing m with
  | nil => exact ⟨Nat.le_refl _, Nat.le_refl _⟩
  | cons k ls ih =>
    exact ⟨Nat.le_trans (Nat.le_max_left _ _) (ih (m.join k)).1, Nat.le_trans (Nat.le_max_left _ _) (ih (m.join k)).2⟩

theorem le_foldl_join_of_mem {m : Layout} (h : l ∈ ls) :
    l.size ≤ (ls.foldl join m).size ∧ l.align ≤ (ls.foldl join m).align := by
  induction ls generalizing m with
  | nil => exact nomatch h
  | cons k ls ih =>
    rcases List.mem_cons.1 h with rfl | h
    · have hle := @le_foldl_join ls (m.join l)
      exact ⟨Nat.le_trans (Nat.le_max_right _ _) hle.1, Nat.le_trans (Nat.le_max_right _ _) hle.2⟩
    · exact ih h

/-- The most that any one needs is what one of them needs. -/
theorem exists_foldl_join_eq {f : Layout → Nat} (hf : ∀ l m, f (l.join m) = max (f l) (f m)) (m : Layout) :
    f (ls.foldl join m) = f m ∨ ∃ l ∈ ls, f (ls.foldl join m) = f l := by
  induction ls generalizing m with
  | nil => exact Or.inl rfl
  | cons k ls ih =>
    rw [List.foldl_cons]
    rcases ih (m.join k) with h | ⟨l, hl, h⟩
    · rw [h, hf]
      rcases Nat.le_total (f k) (f m) with hle | hle
      · exact Or.inl (Nat.max_eq_left hle)
      · exact Or.inr ⟨k, List.mem_cons_self, Nat.max_eq_right hle⟩
    · exact Or.inr ⟨l, List.mem_cons_of_mem _ hl, h⟩

theorem align_foldl_join_le {m : Layout} {a : Nat} (hm : m.align ≤ a) (h : ∀ l ∈ ls, l.align ≤ a) :
    (ls.foldl join m).align ≤ a := by
  induction ls generalizing m with
  | nil => exact hm
  | cons k ls ih =>
    exact ih (Nat.max_le.2 ⟨hm, h k List.mem_cons_self⟩) fun l hl => h l (List.mem_cons_of_mem _ hl)

end

/-! ## Alignments of values in order -/

theorem isPowerOfTwo_foldl_append {ls : List Layout} {l : Layout} (hl : l.align.isPowerOfTwo)
    (h : ∀ m ∈ ls, m.align.isPowerOfTwo) : (ls.foldl append l).align.isPowerOfTwo := by
  induction ls generalizing l with
  | nil => exact hl
  | cons m ls ih =>
    have hm : (l.append m).align.isPowerOfTwo := isPowerOfTwo_max hl (h m List.mem_cons_self)
    exact ih hm fun k hk => h k (List.mem_cons_of_mem _ hk)

/-! ## Layouts to place values by -/

/-- The alignment is a power of two, and a value without room can be placed anywhere. -/
structure Placeable (l : Layout) : Prop where
  align : l.align.isPowerOfTwo
  anywhere : l.size = 0 → l.align = 1

namespace Placeable

variable {l m : Layout}

theorem of_size_pos (ha : l.align.isPowerOfTwo) (hs : 0 < l.size) : l.Placeable :=
  ⟨ha, fun h => absurd h (Nat.ne_of_gt hs)⟩

protected theorem zero : zero.Placeable := ⟨Nat.isPowerOfTwo_one, fun _ => rfl⟩

theorem align_pos (h : l.Placeable) : 1 ≤ l.align := Nat.pos_of_isPowerOfTwo h.align

protected theorem append (hl : l.Placeable) (hm : m.Placeable) : (l.append m).Placeable := by
  refine ⟨isPowerOfTwo_max hl.align hm.align, fun h => ?_⟩
  have hle := @le_alignUp l.size _ hm.align
  have h : alignUp l.size m.align + m.size = 0 := h
  have ha : max l.align m.align = 1 := by rw [hl.anywhere (by omega), hm.anywhere (by omega)]; rfl
  exact ha

protected theorem pad (h : l.Placeable) : l.pad.Placeable := by
  refine ⟨h.align, fun hs => h.anywhere ?_⟩
  have hle := @le_alignUp l.size _ h.align
  have hs : alignUp l.size l.align = 0 := hs
  omega

protected theorem foldl_append {ls : List Layout} (hl : l.Placeable) (h : ∀ m ∈ ls, m.Placeable) :
    (ls.foldl Layout.append l).Placeable := by
  induction ls generalizing l with
  | nil => exact hl
  | cons m ls ih =>
    exact ih (hl.append (h m List.mem_cons_self)) fun k hk => h k (List.mem_cons_of_mem _ hk)

protected theorem compose {ls : List Layout} (h : ∀ l ∈ ls, l.Placeable) : (compose ls).Placeable :=
  (Placeable.zero.foldl_append h).pad

protected theorem join (hl : l.Placeable) (hm : m.Placeable) : (l.join m).Placeable := by
  refine ⟨isPowerOfTwo_max hl.align hm.align, fun h => ?_⟩
  have h : max l.size m.size = 0 := h
  have ha : max l.align m.align = 1 := by rw [hl.anywhere (by omega), hm.anywhere (by omega)]; rfl
  exact ha

protected theorem foldl_join {ls : List Layout} (hl : l.Placeable) (h : ∀ m ∈ ls, m.Placeable) :
    (ls.foldl Layout.join l).Placeable := by
  induction ls generalizing l with
  | nil => exact hl
  | cons m ls ih =>
    exact ih (hl.join (h m List.mem_cons_self)) fun k hk => h k (List.mem_cons_of_mem _ hk)

protected theorem overlay {ls : List Layout} (h : ∀ l ∈ ls, l.Placeable) : (overlay ls).Placeable :=
  (Placeable.zero.foldl_join h).pad

protected theorem tagged (hl : l.Placeable) {tag : Option Layout} (ht : ∀ m ∈ tag, m.Placeable) :
    (l.tagged tag).Placeable := by
  cases tag with
  | none => exact hl
  | some m =>
    have hm := ht m rfl
    unfold Layout.tagged
    dsimp only
    split
    · exact Placeable.compose (by simp [hl, hm])
    · exact Placeable.compose (by simp [hl, hm])

theorem pad_of_dvd (h : l.Placeable) (hd : l.align ∣ l.size) : l.pad = l := by
  rw [pad, alignUp_of_dvd h.align hd]

theorem dvd_pad (h : l.Placeable) : l.pad.align ∣ l.pad.size := dvd_alignUp h.align

theorem zero_append (h : l.Placeable) : zero.append l = l := by
  rw [append, zero, alignUp_zero h.align, Nat.zero_add, Nat.max_eq_right h.align_pos]

theorem dvd_compose {ls : List Layout} (h : ∀ l ∈ ls, l.Placeable) :
    (Layout.compose ls).align ∣ (Layout.compose ls).size :=
  (Placeable.zero.foldl_append h).dvd_pad

theorem compose_pair (hl : l.Placeable) (m : Layout) : Layout.compose [l, m] = (l.append m).pad := by
  rw [Layout.compose, List.foldl_cons, hl.zero_append, List.foldl_cons, List.foldl_nil]

theorem size_le_pad (h : l.Placeable) : l.size ≤ l.pad.size := le_alignUp h.align

theorem size_le_append (hm : m.Placeable) : l.size + m.size ≤ (l.append m).size :=
  Nat.add_le_add_right (le_alignUp hm.align) _

theorem size_le_compose (hl : l.Placeable) (hm : m.Placeable) : l.size + m.size ≤ (Layout.compose [l, m]).size := by
  rw [hl.compose_pair]
  exact Nat.le_trans hm.size_le_append (hl.append hm).size_le_pad

/-- Members only add to what stands before them. -/
theorem le_foldl_append {ls : List Layout} (h : ∀ m ∈ ls, m.Placeable) (l : Layout) :
    l.size ≤ (ls.foldl Layout.append l).size ∧ l.align ≤ (ls.foldl Layout.append l).align := by
  induction ls generalizing l with
  | nil => exact ⟨Nat.le_refl _, Nat.le_refl _⟩
  | cons m ls ih =>
    obtain ⟨hsize, halign⟩ := ih (fun k hk => h k (List.mem_cons_of_mem _ hk)) (l.append m)
    have hle : l.size + m.size ≤ (l.append m).size := (h m List.mem_cons_self).size_le_append
    rw [List.foldl_cons]
    constructor
    · omega
    · exact Nat.le_trans (Nat.le_max_left _ _) halign

/-- Each member fits into all of them together. -/
theorem size_le_compose_of_mem {ls : List Layout} (h : ∀ l ∈ ls, l.Placeable) (hm : m ∈ ls) :
    m.size ≤ (Layout.compose ls).size := by
  obtain ⟨front, rest, rfl⟩ := List.append_of_mem hm
  have hrest : ∀ k ∈ rest, k.Placeable := fun k hk => h k (by simp [hk])
  have hle := (le_foldl_append hrest ((front.foldl Layout.append .zero).append m)).1
  have hmem : m.size ≤ ((front.foldl Layout.append .zero).append m).size := Nat.le_add_left _ _
  have hpad := (Placeable.zero.foldl_append h).size_le_pad
  rw [Layout.compose]
  rw [List.foldl_append, List.foldl_cons] at hpad ⊢
  omega

/-- Beside a tag there is room for the payload and for the tag. -/
theorem size_le_tagged (hl : l.Placeable) {tag : Option Layout} (ht : ∀ m ∈ tag, m.Placeable) :
    l.size ≤ (l.tagged tag).size ∧ ∀ m ∈ tag, m.size ≤ (l.tagged tag).size := by
  cases tag with
  | none => exact ⟨Nat.le_refl _, fun m hm => nomatch hm⟩
  | some m =>
    have hm := ht m rfl
    have hsum : l.size + m.size ≤ (l.tagged (some m)).size := by
      unfold Layout.tagged
      dsimp only
      split
      · rw [Nat.add_comm]
        exact hm.size_le_compose hl
      · exact hl.size_le_compose hm
    refine ⟨by omega, fun k hk => ?_⟩
    obtain rfl := Option.some.inj hk
    omega

end Placeable

/-! ## The struct rule -/

/-- The offset at which the struct rule puts field number `k`. -/
def offsetOf (fields : List Layout) (k : Nat) : Nat :=
  alignUp ((fields.take k).foldl append zero).size ((fields[k]?.map Layout.align).getD 1)

@[simp]
theorem total_cons (l : Layout) (ls : List Layout) : total (l :: ls) = l.size + total ls := rfl

@[simp]
theorem total_append (ls ms : List Layout) : total (ls ++ ms) = total ls + total ms := by
  induction ls with
  | nil => exact (Nat.zero_add _).symm
  | cons l ls ih => rw [List.cons_append, total_cons, total_cons, ih, Nat.add_assoc]

theorem size_le_total {l : Layout} {ls : List Layout} (h : l ∈ ls) : l.size ≤ total ls := by
  obtain ⟨init, rest, rfl⟩ := List.append_of_mem h
  rw [total_append, total_cons]
  omega

/-- Fields of which each is aligned at the end of those before it. -/
structure Seamless (fields : List Layout) : Prop where
  aligned : ∀ k l, fields[k]? = some l → l.align ∣ total (fields.take k)
  powers : ∀ l ∈ fields, l.align.isPowerOfTwo

namespace Seamless

protected theorem nil : Seamless [] := ⟨fun _ _ h => (nomatch h), fun _ h => (nomatch h)⟩

/-- One more field keeps them without gaps, if it is aligned at their end. -/
theorem concat {fields : List Layout} {l : Layout} (h : Seamless fields) (hd : l.align ∣ total fields)
    (hl : l.align.isPowerOfTwo) : Seamless (fields ++ [l]) := by
  refine ⟨fun k m hk => ?_, fun m hm => ?_⟩
  · rcases Nat.lt_or_ge k fields.length with hlt | hge
    · rw [List.getElem?_append_left hlt] at hk
      rw [List.take_append_of_le_length (Nat.le_of_lt hlt)]
      exact h.aligned k m hk
    · rw [List.getElem?_append_right hge] at hk
      obtain ⟨hz, rfl⟩ : k - fields.length = 0 ∧ l = m := by
        cases hn : k - fields.length with
        | zero => simpa [hn] using hk
        | succ n => simp [hn] at hk
      have hk : k = fields.length := by omega
      rw [hk, List.take_left']
      · exact hd
      · rfl
  · rcases List.mem_append.1 hm with hm | hm
    · exact h.powers m hm
    · rw [List.mem_singleton.1 hm]
      exact hl

protected theorem take {fields : List Layout} (h : Seamless fields) (n : Nat) : Seamless (fields.take n) := by
  refine ⟨fun k l hk => ?_, fun l hl => h.powers l (List.mem_of_mem_take hl)⟩
  have hlt : k < n := by
    obtain ⟨hk, -⟩ := List.getElem?_eq_some_iff.1 hk
    rw [List.length_take] at hk
    omega
  rw [List.getElem?_take_of_lt hlt] at hk
  rw [List.take_take, Nat.min_eq_left (Nat.le_of_lt hlt)]
  exact h.aligned k l hk

/-- Placed by the struct rule, such fields end where their sizes add up to. -/
theorem size_foldl_append {fields : List Layout} (h : Seamless fields) :
    (fields.foldl append zero).size = total fields := by
  induction fields using List.reverseRecOn with
  | nil => rfl
  | append_singleton fields l ih =>
    have hinit : Seamless fields := by simpa using h.take fields.length
    have hd : l.align ∣ total fields := by simpa using h.aligned fields.length l (by simp)
    rw [List.foldl_append, List.foldl_cons, List.foldl_nil, append, ih hinit,
      alignUp_of_dvd (h.powers l (by simp)) hd]
    simp [total]

theorem offsetOf_eq {fields : List Layout} (h : Seamless fields) {k : Nat} {l : Layout} (hk : fields[k]? = some l) :
    offsetOf fields k = total (fields.take k) := by
  rw [offsetOf, (h.take k).size_foldl_append, hk]
  exact alignUp_of_dvd (h.powers l (List.mem_of_getElem? hk)) (h.aligned k l hk)

end Seamless

/-! ## Gaps -/

section

variable {l m : Layout} {p : Nat}

/-- Padding at the end holds no position aligned as the whole is. -/
theorem lt_size_of_lt_pad (hl : l.align.isPowerOfTwo) (hd : l.align ∣ p) (hp : p < l.pad.size) : p < l.size := by
  by_contra hn
  exact absurd hp (Nat.not_lt.2 (alignUp_le hl hd (Nat.le_of_not_lt hn)))

/-- Two values beside each other, at the offsets `a` and `b` of a whole, with no room between them for a position that is
aligned for the whole. -/
structure Beside (whole l m : Layout) (a b : Nat) : Prop where
  align : whole.align = max l.align m.align
  left : l.align ∣ a ∧ a + l.size ≤ whole.size
  right : m.align ∣ b ∧ b + m.size ≤ whole.size
  dense : ∀ p, whole.align ∣ p → p < whole.size → a ≤ p ∧ p < a + l.size ∨ b ≤ p ∧ p < b + m.size

protected theorem Beside.symm {whole : Layout} {a b : Nat} (h : Beside whole l m a b) : Beside whole m l b a :=
  ⟨h.align.trans (Nat.max_comm _ _), h.right, h.left, fun p hd hp => (h.dense p hd hp).symm⟩

theorem Placeable.beside (hl : l.Placeable) (hm : m.Placeable) :
    Beside (compose [l, m]) l m 0 (alignUp l.size m.align) := by
  have hle : alignUp l.size m.align + m.size ≤ (l.append m).pad.size := (hl.append hm).size_le_pad
  rw [hl.compose_pair]
  refine ⟨rfl, ⟨Nat.dvd_zero _, ?_⟩, ⟨dvd_alignUp hm.align, hle⟩, fun p hd hp => ?_⟩
  · have := @le_alignUp l.size _ hm.align
    omega
  · have hlt : p < (l.append m).size := lt_size_of_lt_pad (hl.append hm).align hd hp
    rcases Nat.lt_or_ge p l.size with h | h
    · exact Or.inl ⟨Nat.zero_le p, by omega⟩
    · have hdvd : m.align ∣ p :=
        Nat.dvd_trans (dvd_of_isPowerOfTwo_of_le hm.align (hl.append hm).align (Nat.le_max_right _ _)) hd
      exact Or.inr ⟨alignUp_le hm.align hdvd h, hlt⟩

end

end MachineAbi.Layout
