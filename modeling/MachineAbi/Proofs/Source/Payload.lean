import MachineAbi.Proofs.Source.Regular

/-!
# The payload of a union

A union keeps its widest member, and pads it to the room for any member (`Sizing.payloadLayout`). The widest member is
as strictly aligned as any (`Sizing.align_widestMember`), so the padded member has exactly the layout of the payload
(`Sizing.compose_widestMember`); where it fills the payload, no padding is needed (`Sizing.layout_widestMember`).
-/

namespace MachineAbi.Sizing

variable {Z : Sizing} {u : UnionTy}

/-- What the payload of a union needs before it is padded. -/
def memberRoom (Z : Sizing) (u : UnionTy) : Layout := (u.memberTypes.map Z.layout).foldl Layout.join .zero

theorem placeable_memberRoom (hZ : Z.Formatted) (u : UnionTy) : (Z.memberRoom u).Placeable := by
  refine Layout.Placeable.zero.foldl_join fun l hl => ?_
  obtain ⟨c, -, rfl⟩ := List.mem_map.1 hl
  exact hZ.placeable c

theorem placeable_payloadLayout (hZ : Z.Formatted) (u : UnionTy) : (Z.payloadLayout u).Placeable :=
  (placeable_memberRoom hZ u).pad

theorem dvd_payloadLayout (hZ : Z.Formatted) (u : UnionTy) : (Z.payloadLayout u).align ∣ (Z.payloadLayout u).size :=
  (placeable_memberRoom hZ u).dvd_pad

/-- Every member fits into the payload, aligned as it needs to be. -/
theorem layout_le_payload (hZ : Z.Formatted) {c : TypeId} (hc : c ∈ u.memberTypes) :
    (Z.layout c).size ≤ (Z.payloadLayout u).size ∧ (Z.layout c).align ≤ (Z.payloadLayout u).align := by
  have hle := @Layout.le_foldl_join_of_mem _ _ .zero (List.mem_map.2 ⟨c, hc, rfl⟩ : Z.layout c ∈ _)
  exact ⟨Nat.le_trans hle.1 (placeable_memberRoom hZ u).size_le_pad, hle.2⟩

/-- The payload of a union fits into the union, and so does the tag. -/
theorem size_le_union (hZ : Z.Formatted) {t : TypeId} (hd : Z.get t = .union u) (hu : u.isPacked = false) :
    (Z.payloadLayout u).size ≤ (Z.layout t).size ∧
      ∀ tag, Z.storedTag? u = some tag → (Z.layout tag).size ≤ (Z.layout t).size := by
  have htag : ∀ m ∈ (Z.storedTag? u).map Z.layout, m.Placeable := by
    intro m hm
    obtain ⟨tag, -, rfl⟩ := Option.map_eq_some_iff.1 hm
    exact hZ.placeable tag
  have hle := (placeable_payloadLayout hZ u).size_le_tagged htag
  rw [layout_union hd hu]
  exact ⟨hle.1, fun tag ht => hle.2 _ (by rw [ht]; rfl)⟩

/-! ## The widest member -/

/-- No member considered is more strictly aligned than the one that is kept. -/
theorem align_foldl_wider (ms : List (TypeId × Nat)) (best : Option (TypeId × Nat)) {m : TypeId × Nat}
    (h : m ∈ ms ∨ best = some m) :
    ∃ w, ms.foldl Z.wider best = some w ∧ (Z.layout m.1).align ≤ (Z.layout w.1).align := by
  induction ms generalizing best m with
  | nil =>
    rcases h with h | h
    · exact nomatch h
    · exact ⟨m, h, Nat.le_refl _⟩
  | cons k ms ih =>
    have next : ∃ w, Z.wider best k = some w ∧ (Z.layout k.1).align ≤ (Z.layout w.1).align ∧
        ∀ b, best = some b → (Z.layout b.1).align ≤ (Z.layout w.1).align := by
      cases best with
      | none => exact ⟨k, rfl, Nat.le_refl _, fun b hb => nomatch hb⟩
      | some b =>
        unfold wider Layout.yieldsTo
        dsimp only
        split
        · rename_i hy
          refine ⟨k, rfl, Nat.le_refl _, fun c hc => ?_⟩
          obtain rfl := Option.some.inj hc
          simp only [Bool.or_eq_true, decide_eq_true_eq, Bool.and_eq_true, beq_iff_eq] at hy
          omega
        · rename_i hy
          simp only [Bool.or_eq_true, decide_eq_true_eq, Bool.and_eq_true, beq_iff_eq] at hy
          refine ⟨b, rfl, by omega, fun c hc => ?_⟩
          obtain rfl := Option.some.inj hc
          exact Nat.le_refl _
    obtain ⟨w, hw, hk, hbest⟩ := next
    rw [List.foldl_cons, hw]
    obtain ⟨w', hw', hle⟩ := ih (some w) (m := w) (Or.inr rfl)
    rcases h with h | h
    · rcases List.mem_cons.1 h with rfl | h
      · exact ⟨w', hw', Nat.le_trans hk hle⟩
      · exact ih (some w) (Or.inl h)
    · exact ⟨w', hw', Nat.le_trans (hbest m h) hle⟩

theorem mem_zipIdx_of_mem {c : TypeId} {cs : List TypeId} (h : c ∈ cs) : ∃ i, (c, i) ∈ cs.zipIdx := by
  obtain ⟨i, hi⟩ := List.getElem?_of_mem h
  exact ⟨i, List.mem_zipIdx_iff_getElem?.2 hi⟩

/-- Each member that takes room is at most as strictly aligned as the widest. -/
theorem align_le_widestMember {c : TypeId} (hc : c ∈ u.memberTypes) (hr : Z.takesRoom c = true) :
    ∃ w, Z.widestMember? u = some w ∧ (Z.layout c).align ≤ (Z.layout w.1).align := by
  obtain ⟨i, hi⟩ := mem_zipIdx_of_mem hc
  exact align_foldl_wider _ none (Or.inl (List.mem_filter.2 ⟨hi, hr⟩))

/-- Without a widest member, no member takes room, and neither does the payload. -/
theorem payloadLayout_eq_zero (hT : Z.target.Supported) (h : Z.widestMember? u = none) : Z.payloadLayout u = .zero := by
  refine Layout.overlay_zero fun l hl => ?_
  obtain ⟨c, hc, rfl⟩ := List.mem_map.1 hl
  refine layout_of_not_takesRoom hT (Bool.eq_false_iff.2 fun hr => ?_)
  obtain ⟨w, hw, -⟩ := align_le_widestMember hc hr
  rw [h] at hw
  cases hw

variable {c : TypeId} {i : Nat}

theorem align_widestMember (hZ : Z.Regular) (h : Z.widestMember? u = some (c, i)) :
    (Z.layout c).align = (Z.payloadLayout u).align := by
  have hc : c ∈ u.memberTypes := mem_of_widestMember h
  refine Nat.le_antisymm (layout_le_payload hZ.formatted hc).2 ?_
  refine Layout.align_foldl_join_le (placeable hZ c).align_pos fun l hl => ?_
  obtain ⟨d, hd, rfl⟩ := List.mem_map.1 hl
  cases hr : Z.takesRoom d with
  | true =>
    obtain ⟨w, hw, hle⟩ := align_le_widestMember hd hr
    rw [h] at hw
    obtain rfl := Option.some.inj hw
    exact hle
  | false =>
    rw [layout_of_not_takesRoom hZ.supported hr]
    exact (placeable hZ c).align_pos

/-- A widest member as large as the payload has its layout. -/
theorem layout_widestMember (hZ : Z.Regular) (h : Z.widestMember? u = some (c, i))
    (hs : (Z.payloadLayout u).size ≤ (Z.layout c).size) : Z.layout c = Z.payloadLayout u := by
  have hc : c ∈ u.memberTypes := mem_of_widestMember h
  have hsize := Nat.le_antisymm (layout_le_payload hZ.formatted hc).1 hs
  have halign := align_widestMember hZ h
  cases hl : Z.layout c
  cases hp : Z.payloadLayout u
  simp only [hl, hp] at hsize halign
  rw [hsize, halign]

/-- A smaller one has it when it is padded to the size of the payload. -/
theorem compose_widestMember (hZ : Z.Regular) (h : Z.widestMember? u = some (c, i))
    (hs : (Z.layout c).size < (Z.payloadLayout u).size) :
    Layout.compose [Z.layout c, ⟨(Z.payloadLayout u).size - (Z.layout c).size, 1⟩] = Z.payloadLayout u := by
  have halign := align_widestMember hZ h
  have hfold : (Z.layout c).append ⟨(Z.payloadLayout u).size - (Z.layout c).size, 1⟩ = Z.payloadLayout u := by
    have hone : max (Z.layout c).align 1 = (Z.payloadLayout u).align := by
      rw [Nat.max_eq_left (placeable hZ c).align_pos, halign]
    have hsum : (Z.layout c).size + ((Z.payloadLayout u).size - (Z.layout c).size) = (Z.payloadLayout u).size := by
      omega
    simp only [Layout.append, alignUp_one, hone, hsum]
  rw [(placeable hZ c).compose_pair, hfold]
  exact (placeable_payloadLayout hZ.formatted u).pad_of_dvd (dvd_payloadLayout hZ.formatted u)

end MachineAbi.Sizing
