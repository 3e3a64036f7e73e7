import MachineAbi.Passing.Members
import MachineAbi.Proofs.Source.Legal

/-!
# Members fill the aggregate

Each member of an aggregate lies inside it, aligned as it needs to be, and no position that is aligned for the aggregate
lies between them (`Sizing.Filled`). So it is with all types that are not scalars (`Sizing.filled`).

Elements of an array leave no gap because sizes are multiples of alignments (`Sizing.align_dvd_size`). Only arrays whose
size is cut off are out of line.
-/

namespace MachineAbi.Sizing

variable {Z : Sizing} {t : TypeId}

/-! ## Members fill the aggregate -/

/-- The member occupies the byte at this position. -/
def Spans (Z : Sizing) (m : Member) (p : Nat) : Prop := m.offset ≤ p ∧ p < m.offset + (Z.layout m.ty).size

/-- The members of an aggregate lie inside it, aligned, and no position aligned for the aggregate lies between them. -/
structure Filled (Z : Sizing) (t : TypeId) : Prop where
  aligned : ∀ m ∈ Z.members t, (Z.layout m.ty).align ∣ m.offset ∧ (Z.layout m.ty).align ≤ (Z.layout t).align
  inside : ∀ m ∈ Z.members t, m.offset + (Z.layout m.ty).size ≤ (Z.layout t).size
  dense : ∀ p, (Z.layout t).align ∣ p → p < (Z.layout t).size → ∃ m ∈ Z.members t, Z.Spans m p
  strict : 1 < (Z.layout t).align → ∃ m ∈ Z.members t, (Z.layout m.ty).align = (Z.layout t).align

/-! ### Members in order -/

section

variable {l : Layout} {ts : List TypeId} {m : Member} {p : Nat}

/-- Members in order behind what has the layout `l`. -/
abbrev behind (Z : Sizing) (l : Layout) (ts : List TypeId) : Layout := (ts.map Z.layout).foldl Layout.append l

theorem placeable_behind (hZ : Z.Regular) (hl : l.Placeable) (ts : List TypeId) : (Z.behind l ts).Placeable := by
  refine hl.foldl_append fun m hm => ?_
  obtain ⟨c, -, rfl⟩ := List.mem_map.1 hm
  exact placeable hZ c

theorem behind_of_size_zero (hZ : Z.Regular) (hl : l.Placeable) {c : TypeId} (h : ¬0 < (Z.layout c).size) :
    l.append (Z.layout c) = l ∧ Member.sequence Z.layout l.size (c :: ts) = Member.sequence Z.layout l.size ts := by
  have hs := Nat.eq_zero_of_not_pos h
  have ha := (placeable hZ c).anywhere hs
  constructor
  · simp [Layout.append, hs, ha, Nat.max_eq_left hl.align_pos]
  · simp [Member.sequence, hs, ha]

theorem le_behind (hZ : Z.Regular) (l : Layout) (ts : List TypeId) :
    l.size ≤ (Z.behind l ts).size ∧ l.align ≤ (Z.behind l ts).align := by
  refine Layout.Placeable.le_foldl_append (fun m hm => ?_) l
  obtain ⟨c, -, rfl⟩ := List.mem_map.1 hm
  exact placeable hZ c

theorem sequence_inside (hZ : Z.Regular) (hl : l.Placeable) (hm : m ∈ Member.sequence Z.layout l.size ts) :
    (Z.layout m.ty).align ∣ m.offset ∧ (Z.layout m.ty).align ≤ (Z.behind l ts).align ∧
      m.offset + (Z.layout m.ty).size ≤ (Z.behind l ts).size := by
  induction ts generalizing l with
  | nil => exact nomatch hm
  | cons c ts ih =>
    have hc := placeable hZ c
    by_cases h : 0 < (Z.layout c).size
    · simp only [Member.sequence, h, if_true] at hm
      rcases List.mem_cons.1 hm with rfl | hm
      · have hle := le_behind hZ (l.append (Z.layout c)) ts
        exact ⟨dvd_alignUp hc.align, Nat.le_trans (Nat.le_max_right _ _) hle.2, hle.1⟩
      · exact ih (l := l.append (Z.layout c)) (hl.append hc) hm
    · obtain ⟨happend, hsequence⟩ := @behind_of_size_zero Z l ts hZ hl c h
      rw [hsequence] at hm
      rw [behind, List.map_cons, List.foldl_cons, happend]
      exact ih hl hm

theorem sequence_dense (hZ : Z.Regular) (hl : l.Placeable) (hd : (Z.behind l ts).align ∣ p) (hle : l.size ≤ p)
    (hlt : p < (Z.behind l ts).size) : ∃ m ∈ Member.sequence Z.layout l.size ts, Z.Spans m p := by
  induction ts generalizing l with
  | nil => exact absurd hlt (Nat.not_lt.2 hle)
  | cons c ts ih =>
    have hc := placeable hZ c
    have hlc := hl.append hc
    by_cases h : 0 < (Z.layout c).size
    · simp only [Member.sequence, h, if_true]
      rcases Nat.lt_or_ge p (l.append (Z.layout c)).size with hin | hout
      · have hac : (Z.layout c).align ≤ (Z.behind l (c :: ts)).align :=
          Nat.le_trans (Nat.le_max_right _ _) (le_behind hZ (l.append (Z.layout c)) ts).2
        have hdvd := Nat.dvd_trans (dvd_of_isPowerOfTwo_of_le hc.align (placeable_behind hZ hl (c :: ts)).align hac) hd
        exact ⟨_, List.mem_cons_self, alignUp_le hc.align hdvd hle, hin⟩
      · obtain ⟨m, hm, hspans⟩ := ih hlc hd hout hlt
        exact ⟨m, List.mem_cons_of_mem _ hm, hspans⟩
    · obtain ⟨happend, hsequence⟩ := @behind_of_size_zero Z l ts hZ hl c h
      rw [hsequence]
      rw [behind, List.map_cons, List.foldl_cons, happend] at hd hlt
      exact ih hl hd hle hlt

theorem sequence_strict (hZ : Z.Regular) (hl : l.Placeable) :
    (Z.behind l ts).align = l.align ∨
      ∃ m ∈ Member.sequence Z.layout l.size ts, (Z.layout m.ty).align = (Z.behind l ts).align := by
  induction ts generalizing l with
  | nil => exact Or.inl rfl
  | cons c ts ih =>
    have hc := placeable hZ c
    by_cases h : 0 < (Z.layout c).size
    · simp only [Member.sequence, h, if_true]
      rcases ih (hl.append hc) with heq | ⟨m, hm, heq⟩
      · have heq : (Z.behind l (c :: ts)).align = max l.align (Z.layout c).align := heq
        rcases Nat.le_total (Z.layout c).align l.align with hle | hle
        · exact Or.inl (heq.trans (Nat.max_eq_left hle))
        · exact Or.inr ⟨_, List.mem_cons_self, (heq.trans (Nat.max_eq_right hle)).symm⟩
      · exact Or.inr ⟨m, List.mem_cons_of_mem _ hm, heq⟩
    · obtain ⟨happend, hsequence⟩ := @behind_of_size_zero Z l ts hZ hl c h
      rw [hsequence, behind, List.map_cons, List.foldl_cons, happend]
      exact ih hl

/-- Types whose values are stored in order fill the whole. -/
theorem filled_of_order (hZ : Z.Regular) (hm : Z.members t = Member.sequence Z.layout 0 ts)
    (hl : Z.layout t = .compose (ts.map Z.layout)) : Z.Filled t := by
  have zero : Layout.zero.Placeable := .zero
  have hwhole := placeable_behind hZ zero ts
  have hsize : (Z.layout t).size = (Z.behind .zero ts).pad.size := by rw [hl]; rfl
  have halign : (Z.layout t).align = (Z.behind .zero ts).align := by rw [hl]; rfl
  have inside : ∀ m ∈ Z.members t, _ := fun m h => sequence_inside hZ zero (by rwa [hm] at h)
  refine ⟨fun m h => ⟨(inside m h).1, halign ▸ (inside m h).2.1⟩, fun m h => ?_, fun p hd hp => ?_, fun hone => ?_⟩
  · rw [hsize]
    exact Nat.le_trans (inside m h).2.2 hwhole.size_le_pad
  · rw [halign] at hd
    rw [hsize] at hp
    rw [hm]
    exact sequence_dense hZ zero hd (Nat.zero_le p) (Layout.lt_size_of_lt_pad hwhole.align hd hp)
  · rw [halign] at hone
    rcases @sequence_strict Z .zero ts hZ zero with heq | ⟨m, hmem, ha⟩
    · exact absurd hone (Nat.not_lt.2 (Nat.le_of_eq heq))
    · exact ⟨m, hm ▸ hmem, ha.trans halign.symm⟩

end

theorem compose_one {l : Layout} (hl : l.Placeable) (hd : l.align ∣ l.size) : Layout.compose [l] = l := by
  rw [Layout.compose, List.foldl_cons, hl.zero_append, List.foldl_nil, hl.pad_of_dvd hd]

theorem layout_optional_order (hZ : Z.Regular) {child : TypeId} (hd : Z.get t = .optional child)
    (h : (Z.layout t).size < Layout.maxSize) :
    Z.layout t = .compose (((Z.optionalRepr child).order child).map Z.layout) := by
  rw [layout_optional hd] at h ⊢
  cases hr : Z.optionalRepr child with
  | flagOnly =>
    show _ = Layout.compose [Z.layout .u8]
    rw [Z.layout_u8]
    exact (compose_one placeable_byte (Nat.one_dvd _)).symm
  | payload =>
    rw [hr] at h
    exact (compose_one (placeable hZ child) (align_dvd_size hZ.formatted child h)).symm
  | payloadAndFlag =>
    show _ = Layout.compose [Z.layout child, Z.layout .u8]
    rw [Z.layout_u8]
    rfl

theorem layout_errorUnion_order (hZ : Z.Regular) (hE : Z.ErrorsAreCodes) {set payload : TypeId}
    (hd : Z.get t = .errorUnion set payload) (h : (Z.layout t).size < Layout.maxSize) :
    Z.layout t = .compose (((Z.errorUnionRepr set payload).order set payload).map Z.layout) := by
  have hhalves := Z.room_of_errorUnionRepr set payload
  have hcode : Z.takesRoom set = true → Z.target.errorCodeLayout = Z.layout set := by
    intro hset
    obtain ⟨e, he⟩ := hE t set payload hd
    rw [Z.takesRoom_eq, he] at hset
    rw [layout_errorSet he hset, Target.errorCodeLayout_eq]
  rw [layout_errorUnion hd] at h ⊢
  cases hr : Z.errorUnionRepr set payload with
  | empty => exact (Layout.compose_zero fun _ h => absurd h List.not_mem_nil).symm
  | payloadOnly =>
    rw [hr] at h
    exact (compose_one (placeable hZ payload) (align_dvd_size hZ.formatted payload h)).symm
  | errorOnly =>
    rw [hr] at hhalves
    rw [ErrorUnionRepr.layout, hcode (Prod.mk.inj hhalves).1]
    refine (compose_one (placeable hZ set) ?_).symm
    rw [← hcode (Prod.mk.inj hhalves).1]
    exact Target.dvd_intLayout hZ.supported _
  | errorFirst | payloadFirst =>
    rw [hr] at hhalves
    rw [ErrorUnionRepr.layout, hcode (Prod.mk.inj hhalves).1]
    rfl

/-! ### Arrays and unions -/

theorem filled_array (hZ : Z.Regular) {len : Nat} {child : TypeId} {sentinel : Bool}
    (hd : Z.get t = .array len child sentinel) (hn : elementCount len sentinel ≠ 0) (hpos : 0 < (Z.layout child).size)
    (h : (Z.layout t).size < Layout.maxSize) : Z.Filled t := by
  obtain ⟨hsize, hle⟩ := (uncut_of_size_lt h).size_array hd hn
  have halign : (Z.layout t).align = (Z.layout child).align := by rw [layout_array hd hn]; rfl
  have hdvd := align_dvd_size hZ.formatted child (Nat.lt_of_le_of_lt hle h)
  generalize hk : (Z.layout child).size = k at hsize hdvd hpos
  have hm : Z.members t = (List.range (elementCount len sentinel)).map fun i => ⟨child, i * k⟩ := by
    simp only [members, hd, hk, hpos, if_true]
  have member : ∀ {i}, i < elementCount len sentinel → (⟨child, i * k⟩ : Member) ∈ Z.members t := fun hi =>
    hm ▸ List.mem_map.2 ⟨_, List.mem_range.2 hi, rfl⟩
  have all : ∀ m ∈ Z.members t, ∃ i, i < elementCount len sentinel ∧ m = ⟨child, i * k⟩ := by
    intro m h
    rw [hm] at h
    obtain ⟨i, hi, rfl⟩ := List.mem_map.1 h
    exact ⟨i, List.mem_range.1 hi, rfl⟩
  refine ⟨fun m h => ?_, fun m h => ?_, fun p hp hlt => ?_, fun _ => ?_⟩
  · obtain ⟨i, -, rfl⟩ := all m h
    exact ⟨Nat.dvd_mul_left_of_dvd hdvd i, Nat.le_of_eq halign.symm⟩
  · obtain ⟨i, hi, rfl⟩ := all m h
    dsimp only
    rw [hsize, hk, ← Nat.succ_mul]
    exact Nat.mul_le_mul_right k hi
  · rw [hsize] at hlt
    have hdiv := Nat.div_add_mod p k
    have hmod := Nat.mod_lt p hpos
    have hi : p / k < elementCount len sentinel := Nat.div_lt_of_lt_mul (Nat.mul_comm _ _ ▸ hlt)
    refine ⟨_, member hi, ?_, ?_⟩
    · exact Nat.div_mul_le_self p k
    · dsimp only
      rw [hk, Nat.mul_comm]
      omega
  · exact ⟨_, member (Nat.pos_of_ne_zero hn), halign.symm⟩

/-- A member of a union or its tag. -/
theorem mem_members_union {u : UnionTy} {m : Member} (hd : Z.get t = .union u) (hu : u.isPacked = false) :
    m ∈ Z.members t ↔
      (∃ tag, Z.storedTag? u = some tag ∧ m = ⟨tag, tagOffset (Z.layout tag) (Z.payloadLayout u)⟩) ∨
        m.ty ∈ u.memberTypes ∧ 0 < (Z.layout m.ty).size ∧
          m.offset = ((Z.storedTag? u).map fun tag => payloadOffset (Z.layout tag) (Z.payloadLayout u)).getD 0 := by
  have held : ∀ offset,
      m ∈ ((u.memberTypes.filter fun c => 0 < (Z.layout c).size).map fun c => (⟨c, offset⟩ : Member)) ↔
      m.ty ∈ u.memberTypes ∧ 0 < (Z.layout m.ty).size ∧ m.offset = offset := by
    intro offset
    rw [List.mem_map]
    constructor
    · rintro ⟨c, hc, rfl⟩
      simpa using List.mem_filter.1 hc
    · rintro ⟨hc, hs, rfl⟩
      exact ⟨m.ty, List.mem_filter.2 ⟨hc, by simpa using hs⟩, rfl⟩
  simp only [members, hd, hu]
  cases Z.storedTag? u with
  | none => simp [held]
  | some tag => simp [held]

/-- The payload of a union is filled by its members. -/
theorem payload_dense (hZ : Z.Regular) (u : UnionTy) {p : Nat} (hd : (Z.payloadLayout u).align ∣ p)
    (hp : p < (Z.payloadLayout u).size) : ∃ c ∈ u.memberTypes, p < (Z.layout c).size := by
  have hlt : p < (Z.memberRoom u).size := Layout.lt_size_of_lt_pad (placeable_memberRoom hZ.formatted u).align hd hp
  rcases @Layout.exists_foldl_join_eq (u.memberTypes.map Z.layout) Layout.size (fun _ _ => rfl) .zero
    with heq | ⟨l, hl, heq⟩
  · have hlt : p < 0 := Nat.lt_of_lt_of_eq hlt heq
    exact absurd hlt (Nat.not_lt_zero p)
  · obtain ⟨c, hc, rfl⟩ := List.mem_map.1 hl
    exact ⟨c, hc, Nat.lt_of_lt_of_eq hlt heq⟩

/-- One of the members is aligned as strictly as the payload. -/
theorem payload_strict (hZ : Z.Regular) (u : UnionTy) (hone : 1 < (Z.payloadLayout u).align) :
    ∃ c ∈ u.memberTypes, 0 < (Z.layout c).size ∧ (Z.layout c).align = (Z.payloadLayout u).align := by
  rcases @Layout.exists_foldl_join_eq (u.memberTypes.map Z.layout) Layout.align (fun _ _ => rfl) .zero
    with heq | ⟨l, hl, heq⟩
  · have heq : (Z.payloadLayout u).align = 1 := heq
    omega
  · obtain ⟨c, hc, rfl⟩ := List.mem_map.1 hl
    have heq : (Z.payloadLayout u).align = (Z.layout c).align := heq
    refine ⟨c, hc, Nat.pos_of_ne_zero fun hz => ?_, heq.symm⟩
    have := (placeable hZ c).anywhere hz
    omega

/-- Where the payload of a union lies in it, its members do. -/
theorem held_inside (hZ : Z.Regular) {u : UnionTy} {w : Layout} {offset : Nat}
    (hd : (Z.payloadLayout u).align ∣ offset) (hs : offset + (Z.payloadLayout u).size ≤ w.size)
    (ha : (Z.payloadLayout u).align ≤ w.align) {c : TypeId} (hc : c ∈ u.memberTypes) :
    ((Z.layout c).align ∣ offset ∧ (Z.layout c).align ≤ w.align) ∧ offset + (Z.layout c).size ≤ w.size := by
  have hle := layout_le_payload hZ.formatted hc
  have hdvd := dvd_of_isPowerOfTwo_of_le (placeable hZ c).align (placeable_payloadLayout hZ.formatted u).align hle.2
  exact ⟨⟨Nat.dvd_trans hdvd hd, Nat.le_trans hle.2 ha⟩, Nat.le_trans (Nat.add_le_add_left hle.1 offset) hs⟩

theorem held_dense (hZ : Z.Regular) {u : UnionTy} {offset p : Nat} (hd : (Z.payloadLayout u).align ∣ offset)
    (hp : (Z.payloadLayout u).align ∣ p) (hle : offset ≤ p) (hlt : p < offset + (Z.payloadLayout u).size) :
    ∃ c ∈ u.memberTypes, 0 < (Z.layout c).size ∧ Z.Spans ⟨c, offset⟩ p := by
  obtain ⟨c, hc, hs⟩ := payload_dense hZ u (Nat.dvd_sub hp hd) (p := p - offset) (by omega)
  exact ⟨c, hc, by omega, hle, by dsimp only; omega⟩

theorem filled_union_of_no_tag (hZ : Z.Regular) {u : UnionTy} (hd : Z.get t = .union u) (hu : u.isPacked = false)
    (ht : Z.storedTag? u = none) : Z.Filled t := by
  have hl : Z.layout t = Z.payloadLayout u := by
    rw [layout_union hd hu, ht]
    rfl
  have hmem : ∀ m, m ∈ Z.members t ↔ m.ty ∈ u.memberTypes ∧ 0 < (Z.layout m.ty).size ∧ m.offset = 0 := by
    intro m
    rw [mem_members_union hd hu, ht]
    simp
  have held : ∀ c ∈ u.memberTypes, _ := fun c hc =>
    held_inside hZ (w := Z.layout t) (Nat.dvd_zero _) (by rw [hl]; omega) (Nat.le_of_eq (by rw [hl])) hc
  refine { aligned := ?aligned, inside := ?inside, dense := ?dense, strict := ?strict }
  case aligned =>
    intro m hm
    obtain ⟨hc, -, ho⟩ := (hmem m).1 hm
    rw [ho]
    exact (held _ hc).1
  case inside =>
    intro m hm
    obtain ⟨hc, -, ho⟩ := (hmem m).1 hm
    rw [ho]
    exact (held _ hc).2
  case dense =>
    intro p hdvd hlt
    rw [hl] at hdvd hlt
    obtain ⟨c, hc, hs, hspans⟩ := held_dense hZ (Nat.dvd_zero _) hdvd (Nat.zero_le p) (by omega)
    exact ⟨⟨c, 0⟩, (hmem _).2 ⟨hc, hs, rfl⟩, hspans⟩
  case strict =>
    intro hone
    rw [hl] at hone ⊢
    obtain ⟨c, hc, hs, ha⟩ := payload_strict hZ u hone
    exact ⟨⟨c, 0⟩, (hmem _).2 ⟨hc, hs, rfl⟩, ha⟩

theorem filled_union_of_tag (hZ : Z.Regular) {u : UnionTy} {tag : TypeId} (hd : Z.get t = .union u)
    (hu : u.isPacked = false) (ht : Z.storedTag? u = some tag) : Z.Filled t := by
  have hp := placeable_payloadLayout hZ.formatted u
  have hb : Layout.Beside (Z.layout t) (Z.layout tag) (Z.payloadLayout u)
      (tagOffset (Z.layout tag) (Z.payloadLayout u)) (payloadOffset (Z.layout tag) (Z.payloadLayout u)) := by
    rw [layout_union hd hu, ht]
    simp only [Option.map_some, Layout.tagged, tagOffset, payloadOffset]
    split
    · exact (placeable hZ tag).beside hp
    · exact (hp.beside (placeable hZ tag)).symm
  have hmem := fun m => @mem_members_union Z t u m hd hu
  simp only [ht, Option.some.injEq, exists_eq_left', Option.map_some, Option.getD_some] at hmem
  generalize tagOffset (Z.layout tag) (Z.payloadLayout u) = a at hb hmem
  generalize payloadOffset (Z.layout tag) (Z.payloadLayout u) = b at hb hmem
  have held : ∀ c ∈ u.memberTypes, _ := fun c hc =>
    held_inside hZ hb.right.1 hb.right.2 (hb.align ▸ Nat.le_max_right _ _) hc
  refine { aligned := ?aligned, inside := ?inside, dense := ?dense, strict := ?strict }
  case aligned =>
    intro m hm
    rcases (hmem m).1 hm with rfl | ⟨hc, -, ho⟩
    · exact ⟨hb.left.1, hb.align ▸ Nat.le_max_left _ _⟩
    · rw [ho]
      exact (held _ hc).1
  case inside =>
    intro m hm
    rcases (hmem m).1 hm with rfl | ⟨hc, -, ho⟩
    · exact hb.left.2
    · rw [ho]
      exact (held _ hc).2
  case dense =>
    intro p hdvd hlt
    rcases hb.dense p hdvd hlt with hin | ⟨hle, hlt⟩
    · exact ⟨⟨tag, a⟩, (hmem _).2 (Or.inl rfl), hin⟩
    · have hdp := dvd_of_isPowerOfTwo_of_le hp.align (placeable hZ t).align (hb.align ▸ Nat.le_max_right _ _)
      obtain ⟨c, hc, hs, hspans⟩ := held_dense hZ hb.right.1 (Nat.dvd_trans hdp hdvd) hle hlt
      exact ⟨⟨c, b⟩, (hmem _).2 (Or.inr ⟨hc, hs, rfl⟩), hspans⟩
  case strict =>
    intro hone
    rcases Nat.le_total (Z.payloadLayout u).align (Z.layout tag).align with hle | hle
    · exact ⟨⟨tag, a⟩, (hmem _).2 (Or.inl rfl), (hb.align.trans (Nat.max_eq_left hle)).symm⟩
    · have ha := hb.align.trans (Nat.max_eq_right hle)
      obtain ⟨c, hc, hs, hac⟩ := payload_strict hZ u (ha ▸ hone)
      exact ⟨⟨c, b⟩, (hmem _).2 (Or.inr ⟨hc, hs, rfl⟩), hac.trans ha.symm⟩

theorem filled_union (hZ : Z.Regular) {u : UnionTy} (hd : Z.get t = .union u) (hu : u.isPacked = false) :
    Z.Filled t := by
  cases ht : Z.storedTag? u with
  | none => exact filled_union_of_no_tag hZ hd hu ht
  | some tag => exact filled_union_of_tag hZ hd hu ht

/-! ### All types -/

/-- Types that are stored as one scalar or slice, as far as their members tell. -/
def isAtom (Z : Sizing) (t : TypeId) : Bool :=
  match Z.get t with
  | .bool | .int _ _ | .float _ | .pointer _ | .vector _ _ | .errorSet _ | .enum _ _ _ => true
  | .struct s => s.isPacked
  | .union u => u.isPacked
  | _ => false

theorem members_of_isAtom (h : Z.isAtom t = true) : Z.members t = [] := by
  unfold isAtom at h
  unfold members
  split at h
  all_goals simp_all

/-- Without room, there is nothing to fill. -/
theorem filled_of_size_zero (hZ : Z.Regular) (hm : Z.members t = []) (hs : (Z.layout t).size = 0) : Z.Filled t := by
  have ha := (placeable hZ t).anywhere hs
  refine ⟨fun m h => ?_, fun m h => ?_, fun p _ hp => ?_, fun hone => ?_⟩
  · exact absurd (hm ▸ h) List.not_mem_nil
  · exact absurd (hm ▸ h) List.not_mem_nil
  · omega
  · omega

/-- Whatever is no atom is filled by its members. -/
theorem filled (hZ : Z.Regular) (hE : Z.ErrorsAreCodes) (h : (Z.layout t).size < Layout.maxSize)
    (ha : Z.isAtom t = false) : Z.Filled t := by
  unfold isAtom at ha
  cases hd : Z.get t with
  | bool | int | float | pointer | vector | errorSet | enum => simp [hd] at ha
  | void | noreturn | comptime | opaqueType | function =>
    have hzero : Z.layout t = .zero := by rw [layout, extent_eq, hd]; rfl
    exact filled_of_size_zero hZ (by simp only [members, hd]) (by rw [hzero]; rfl)
  | struct s =>
    have hs : s.isPacked = false := by simpa [hd] using ha
    exact filled_of_order hZ (by simp only [members, hd, hs]; rfl) (layout_struct hd hs)
  | tuple fields => exact filled_of_order hZ (by simp only [members, hd]) (layout_tuple hd)
  | optional child => exact filled_of_order hZ (by simp only [members, hd]) (layout_optional_order hZ hd h)
  | errorUnion set payload => exact filled_of_order hZ (by simp only [members, hd]) (layout_errorUnion_order hZ hE hd h)
  | array len child sentinel =>
    by_cases hn : elementCount len sentinel = 0
    · have hzero : Z.layout t = .zero := by rw [layout, extent_eq, hd]; simp [hn, Extent.none]
      exact filled_of_size_zero hZ (by simp [members, hd, hn]) (by rw [hzero]; rfl)
    · by_cases hpos : 0 < (Z.layout child).size
      · exact filled_array hZ hd hn hpos h
      · refine filled_of_size_zero hZ (by simp [members, hd, hpos]) ?_
        rw [((uncut_of_size_lt h).size_array hd hn).1, Nat.eq_zero_of_not_pos hpos, Nat.mul_zero]
  | union u =>
    have hu : u.isPacked = false := by simpa [hd] using ha
    exact filled_union hZ hd hu

end MachineAbi.Sizing
