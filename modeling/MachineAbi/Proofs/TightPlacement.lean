import Mathlib.Order.Bounds.Basic
import MachineAbi.Proofs.Composition

/-!
# The tightest placement in order

`Layout.compose` puts each member at the next offset aligned for it. No placement that keeps the order of the members,
lets none overlap and aligns each of them ends earlier (`Layout.isLeast_foldl_append`).

Proof: by induction from the last member. In any placement those before it have ended where it starts
(`Layout.seated_concat`), so that, composed, they end no later. It is aligned where it starts, and that is then not below
the next offset aligned for it.

Members that take no room do not count, wherever they stand (`Layout.compose_filter`).
-/

namespace MachineAbi

/-- Rounded up, an offset is the least multiple of the alignment that is not below it. -/
theorem isLeast_alignUp {align : Nat} (h : align.isPowerOfTwo) (offset : Nat) :
    IsLeast {n | align ∣ n ∧ offset ≤ n} (alignUp offset align) :=
  ⟨⟨dvd_alignUp h, le_alignUp h⟩, fun _ hn => alignUp_le h hn.1 hn.2⟩

namespace Layout

/-! ## Placements -/

/-- A member at an offset. -/
structure Seat where
  offset : Nat
  layout : Layout

/-- Where the member ends. -/
def Seat.stop (s : Seat) : Nat := s.offset + s.layout.size

/-- Members in order, of which none overlaps another, each at a multiple of its own alignment, within `size` bytes. -/
structure Seated (seats : List Seat) (size : Nat) : Prop where
  aligned : ∀ s ∈ seats, s.layout.align ∣ s.offset
  inOrder : seats.Pairwise fun s t => s.stop ≤ t.offset
  within : ∀ s ∈ seats, s.stop ≤ size

/-- Members can be placed in order within `size` bytes. -/
def Suffices (members : List Layout) (size : Nat) : Prop :=
  ∃ seats : List Seat, seats.map Seat.layout = members ∧ Seated seats size

section

variable {seats : List Seat} {s : Seat} {size : Nat}

protected theorem Seated.nil (size : Nat) : Seated [] size := ⟨nofun, .nil, nofun⟩

/-- The last member starts where the others have ended. -/
theorem seated_concat : Seated (seats ++ [s]) size ↔ Seated seats s.offset ∧ s.layout.align ∣ s.offset ∧ s.stop ≤ size := by
  constructor
  · intro h
    obtain ⟨hseats, -, hlast⟩ := List.pairwise_append.1 h.inOrder
    refine ⟨⟨fun t ht => h.aligned t (by simp [ht]), hseats, fun t ht => hlast t ht s (by simp)⟩, ?_, ?_⟩
    · exact h.aligned s (by simp)
    · exact h.within s (by simp)
  · rintro ⟨h, hd, hs⟩
    refine ⟨fun t ht => ?_, ?_, fun t ht => ?_⟩
    · rcases List.mem_append.1 ht with ht | ht
      · exact h.aligned t ht
      · rw [List.mem_singleton.1 ht]
        exact hd
    · refine List.pairwise_append.2 ⟨h.inOrder, List.pairwise_singleton _ _, fun t ht u hu => ?_⟩
      rw [List.mem_singleton.1 hu]
      exact h.within t ht
    · rcases List.mem_append.1 ht with ht | ht
      · have hstart : s.offset ≤ s.stop := Nat.le_add_right _ _
        exact Nat.le_trans (h.within t ht) (Nat.le_trans hstart hs)
      · rw [List.mem_singleton.1 ht]
        exact hs

end

/-! ## The least size -/

section

variable {members : List Layout} {l : Layout} {size : Nat}

theorem suffices_nil (size : Nat) : Suffices [] size := ⟨[], rfl, .nil size⟩

/-- One more member needs an offset behind the others that is aligned for it, and its room from there. -/
theorem suffices_concat :
    Suffices (members ++ [l]) size ↔ ∃ offset, Suffices members offset ∧ l.align ∣ offset ∧ offset + l.size ≤ size := by
  constructor
  · rintro ⟨seats, hseats, h⟩
    obtain ⟨front, last, rfl, hfront, hlast⟩ := List.map_eq_append_iff.1 hseats
    obtain ⟨s, rfl, rfl⟩ := List.map_eq_singleton_iff.1 hlast
    obtain ⟨hbefore, hd, hs⟩ := seated_concat.1 h
    exact ⟨s.offset, ⟨front, hfront, hbefore⟩, hd, hs⟩
  · rintro ⟨offset, ⟨seats, rfl, h⟩, hd, hs⟩
    have hstop : (Seat.mk offset l).stop ≤ size := hs
    exact ⟨seats ++ [⟨offset, l⟩], by simp, seated_concat.2 ⟨h, hd, hstop⟩⟩

/-- Members fit into what they take one after another, each at the next offset aligned for it, and into no less. -/
theorem suffices_iff (h : ∀ l ∈ members, l.align.isPowerOfTwo) :
    Suffices members size ↔ (members.foldl append zero).size ≤ size := by
  induction members using List.reverseRecOn generalizing size with
  | nil => exact iff_of_true (suffices_nil size) (Nat.zero_le size)
  | append_singleton members l ih =>
    have hl : l.align.isPowerOfTwo := h l (by simp)
    have hstart := isLeast_alignUp hl (members.foldl append zero).size
    have hlast : (members ++ [l]).foldl append zero = (members.foldl append zero).append l := by simp
    rw [suffices_concat, hlast]
    constructor
    · rintro ⟨offset, hbefore, hd, hs⟩
      have hle := hstart.2 ⟨hd, (ih fun m hm => h m (by simp [hm])).1 hbefore⟩
      exact Nat.le_trans (Nat.add_le_add_right hle _) hs
    · intro hs
      obtain ⟨hd, hle⟩ := hstart.1
      exact ⟨_, (ih fun m hm => h m (by simp [hm])).2 hle, hd, hs⟩

theorem isLeast_foldl_append (h : ∀ l ∈ members, l.align.isPowerOfTwo) :
    IsLeast {size | Suffices members size} (members.foldl append zero).size :=
  ⟨(suffices_iff h).2 (Nat.le_refl _), fun _ hs => (suffices_iff h).1 hs⟩

end

/-! ## The strictest alignment -/

section

variable {members : List Layout} {l : Layout}

theorem align_foldl_append (members : List Layout) (l : Layout) :
    (members.foldl append l).align = (members.map align).foldl max l.align := by
  induction members generalizing l with
  | nil => rfl
  | cons m members ih => exact ih (l.append m)

/-- The largest alignment, or that of a byte if there are no members. -/
theorem align_compose (h : ∀ l ∈ members, l.align.isPowerOfTwo) :
    (compose members).align = (members.map align).max?.getD 1 := by
  have hfold : (compose members).align = (members.map align).foldl max 1 := align_foldl_append members zero
  cases members with
  | nil => rfl
  | cons l members =>
    have hpos : 1 ≤ l.align := Nat.pos_of_isPowerOfTwo (h l List.mem_cons_self)
    rw [hfold, List.map_cons, List.foldl_cons, Nat.max_eq_right hpos, List.max?_cons', Option.getD_some]

end

/-! ## Members that do not count -/

theorem foldl_append_filter {l : Layout} (hl : 1 ≤ l.align) (members : List Layout) :
    (members.filter (· ≠ zero)).foldl append l = members.foldl append l := by
  induction members generalizing l with
  | nil => rfl
  | cons m members ih =>
    by_cases hm : m = zero
    · rw [List.filter_cons_of_neg (by simp [hm]), ih hl, List.foldl_cons, hm, append_zero hl]
    · rw [List.filter_cons_of_pos (by simp [hm]), List.foldl_cons, List.foldl_cons]
      exact ih (Nat.le_trans hl (Nat.le_max_left _ _))

theorem compose_filter (members : List Layout) : compose (members.filter (· ≠ zero)) = compose members := by
  rw [compose, compose, foldl_append_filter (Nat.le_refl 1)]

/-- Composed members have the largest of their alignments, or that of a byte if there are none. Their size is the least
that suffices for them in order, rounded up to that alignment. Members that take no room may be put in or left out
anywhere. -/
theorem compose_tightest {members : List Layout} (h : ∀ l ∈ members, l.align.isPowerOfTwo) :
    (compose members).align = (members.map align).max?.getD 1 ∧
    (∃ size, IsLeast {n | Suffices members n} size ∧
      IsLeast {n | (compose members).align ∣ n ∧ size ≤ n} (compose members).size) ∧
    ∀ others : List Layout, others.filter (· ≠ zero) = members.filter (· ≠ zero) → compose others = compose members := by
  refine ⟨align_compose h, ⟨_, isLeast_foldl_append h, ?_⟩, fun others hothers => ?_⟩
  · exact isLeast_alignUp (isPowerOfTwo_foldl_append Nat.isPowerOfTwo_one h) _
  · rw [← compose_filter others, hothers, compose_filter]

/-- A byte, a value without room, a long word and a half word. -/
def gapped : List Layout := [⟨1, 1⟩, .zero, ⟨8, 8⟩, ⟨2, 2⟩]

/-- Eleven bytes of members do not fit into sixteen in this order. -/
theorem compose_tightest_gapped :
    (∀ l ∈ gapped, l.align.isPowerOfTwo) ∧ compose gapped = ⟨24, 8⟩ ∧ (∀ n, Suffices gapped n → 16 < n) ∧
      compose [⟨1, 1⟩, ⟨8, 8⟩, ⟨2, 2⟩] = compose gapped := by
  have h : ∀ l ∈ gapped, l.align.isPowerOfTwo := by decide
  obtain ⟨-, ⟨size, hleast, hsize⟩, hothers⟩ := compose_tightest h
  refine ⟨h, rfl, fun n hn => ?_, hothers _ rfl⟩
  have hn : size ≤ n := hleast.2 hn
  by_contra hle
  have h16 : (24 : Nat) ≤ 16 := hsize.2 ⟨by decide, by omega⟩
  exact absurd h16 (by decide)

end Layout

end MachineAbi
