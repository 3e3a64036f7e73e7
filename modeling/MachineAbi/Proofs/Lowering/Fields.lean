import MachineAbi.Proofs.Aggregate.Places
import MachineAbi.Proofs.Lowering.Requests

/-!
# Layouts of aggregates are those of their machine types

The layout that is recorded for an aggregate says where the code generator puts its fields (`Lowering.Faithful`): the
struct rule places the machine fields without gaps, each field or tag with a machine index is that machine field, and
no two fields share a byte unless they are members of a union.

Where the fields are follows from their source types alone (`Sizing.arranges_placement`). The session only has to keep
what was arranged (`Session.Keeps`), and to lower the type of each field as its machine field.
-/

namespace MachineAbi

open Session

namespace Lowering

variable {L : Lowering} {s s' : Session} {t : TypeId} {l : AggregateLayout}

/-- The layout recorded for aggregate `t`, whose machine fields have the layouts `ls`, is faithful to the code
generator. -/
structure Faithful (L : Lowering) (s : Session) (t : TypeId) (l : AggregateLayout) (ls : List Layout) : Prop where
  layouts : l.machineFields.mapM (s.table.layoutOf L.target) = some ls
  extent : Layout.compose ls = ⟨l.size, l.align⟩
  total : l.size = Layout.total ls
  seamless : ∀ k, k < ls.length → Layout.offsetOf ls k = Layout.total (ls.take k)
  sources : l.fields.map (·.source) = (L.placedFields t).map (·.ty)
  tagSource : l.tag.map (·.source) = L.placedTag? t
  indexed : ∀ p ∈ l.fields ++ l.tag.toList, ∀ k, p.machineIndex = some k →
    Layout.offsetOf ls k = p.offset ∧ ∃ h s', l.machineFields[k]? = some h ∧ (L.lower p.source).run.run s = (.ok h, s')
  inside : ∀ x ∈ (L.placedFields t).zip l.fields, x.1.isComptime = false →
    (L.layout x.1.ty).align ∣ x.2.offset ∧ x.2.offset + (L.layout x.1.ty).size ≤ l.size
  tagInside : ∀ p ∈ l.tag, (L.layout p.source).align ∣ p.offset ∧ p.offset + (L.layout p.source).size ≤ l.size
  apart : (L.get t).isUnion = false → (L.occupied (L.placedFields t) l.fields ++ l.tag.toList).Pairwise L.Apart
  together : (L.get t).isUnion = true → ∃ offset, (∀ q ∈ l.fields, q.offset = offset) ∧
    ∀ q ∈ l.fields, ∀ r ∈ l.tag, L.Apart q r
  pastEnd : ∀ (i : Nat) (p : FieldPlace), l.fields[i]? = some p → p.machineIndex = none →
    l.access? i = some .pastEnd → p.offset = l.size

/-! ## Machine fields and their types -/

/-- A machine field that represents a type is what the type is lowered as. -/
theorem lower_of_represents (hL : L.Regular) (hs : s.Sound L.toSizing Idle) {v : Piece} {m : Layout} {h : Handle}
    (hv : L.Represents v t) (hr : s.Realizes h (some v, m)) : ∃ s', (L.lower t).run.run s = (.ok h, s') := by
  have scalar : ∀ {bits : Nat}, L.takesRoom t = true → L.placement? t = none →
      (∀ {s' : Session} {a : Handle}, s'.DescribesPlain L.toSizing t a → s'.table.Stores a (.int bits)) →
      s.table.Stores h (.int bits) → ∃ s', (L.lower t).run.run s = (.ok h, s') := by
    intro bits ht hp hplain hstores
    obtain ⟨a, s', hrun, hs', hadv, hl⟩ := lower_of_takesRoom hL hs ht
    have ha := hplain (hs'.describesPlain (spares_idle _ t) ht hp hl)
    obtain rfl := hs'.wellFormed.distinct _ _ _ ha (hadv.table.types _ _ hstores)
    exact ⟨s', hrun⟩
  cases hv with
  | value ht =>
    obtain ⟨a, s', hrun, -, hadv, hl⟩ := lower_of_takesRoom hL hs ht
    obtain rfl := Option.some.inj (hl.symm.trans (hadv.lowered _ _ hr))
    exact ⟨s', hrun⟩
  | int hd hb =>
    refine scalar (by simp [L.takesRoom_eq, hd, hb]) (by simp [Sizing.placement?, hd]) (fun hplain => ?_) hr
    simpa only [DescribesPlain, hd] using hplain
  | errorSet hd hset =>
    refine scalar (by simp [L.takesRoom_eq, hd, hset]) (by simp [Sizing.placement?, hd]) (fun hplain => ?_) hr
    simpa only [DescribesPlain, hd] using hplain

/-! ## Recorded layouts -/

theorem takesRoom_of_placement {p : Placement} (hp : L.placement? t = some p) : L.takesRoom t = true := by
  unfold Sizing.placement? at hp
  split at hp
  · assumption
  · cases hp

theorem aggregateLayout?_eq (L : Lowering) (t : TypeId) (s : Session) :
    (L.aggregateLayout? t).run.run s =
      match (L.lower t).run.run s with
      | (.ok _, s') => (.ok s'.layouts[t]?, s')
      | (.error e, s') => (.error e, s') := by
  have hbind : (L.aggregateLayout? t).run.run s =
      (ExceptT.bindCont (fun _ => do return (← get).layouts[t]?) ((L.lower t).run.run s).1 :
        StateM Session (Except LowerError (Option AggregateLayout))) ((L.lower t).run.run s).2 := rfl
  rw [hbind]
  rcases (L.lower t).run.run s with ⟨_ | _, s'⟩
  · rfl
  · rfl

/-- What is recorded for an aggregate is its placement. -/
theorem keeps_of_aggregateLayout (hL : L.Regular) (hs : s.Sound L.toSizing Idle)
    (h : (L.aggregateLayout? t).run.run s = (.ok (some l), s')) :
    ∃ a p, (L.lower t).run.run s = (.ok a, s') ∧ L.placement? t = some p ∧
      s'.Sound L.toSizing Idle ∧ s'.table.body? a = some ⟨false, l.machineFields⟩ ∧ s'.Keeps p l := by
  have hspec : ((L.lower t).run.run s).2.Sound L.toSizing Idle ∧ ∀ a, ((L.lower t).run.run s).1 = .ok a →
      ((L.lower t).run.run s).2.lowered[t]? = some a :=
    ⟨(lower_spec hL t hs).1, (lower_spec hL t hs).2.2⟩
  rw [aggregateLayout?_eq] at h
  rcases hrun : (L.lower t).run.run s with ⟨e | a, s''⟩
  · rw [hrun] at h
    cases h
  · rw [hrun] at h hspec
    obtain ⟨hlayout, rfl⟩ := Prod.mk.inj h
    have hlayout : s''.layouts[t]? = some l := Except.ok.inj hlayout
    obtain ⟨hs', hl⟩ := hspec
    obtain ⟨p, hp⟩ := Option.isSome_iff_exists.1 (hs'.kept t l (fun h => h) hlayout).2
    have hr : L.takesRoom t = true := takesRoom_of_placement hp
    have hd := hs'.described t a (fun h => h) (hl a rfl)
    rw [Describes, if_pos hr, hp] at hd
    obtain ⟨l', hl', hbody, hkeeps⟩ := hd
    obtain rfl := Option.some.inj (hl'.symm.trans hlayout)
    exact ⟨a, p, rfl, hp, hs', hbody, hkeeps⟩

/-- A layout is recorded for each type that has a placement. -/
theorem aggregateLayout_of_placement (hL : L.Regular) (hs : s.Sound L.toSizing Idle) {p : Placement}
    (hp : L.placement? t = some p) : ∃ l s', (L.aggregateLayout? t).run.run s = (.ok (some l), s') := by
  have hr : L.takesRoom t = true := takesRoom_of_placement hp
  obtain ⟨a, s', hrun, hs', -, hl⟩ := lower_of_takesRoom hL hs hr
  have hd := hs'.described t a (fun h => h) hl
  rw [Describes, if_pos hr, hp] at hd
  obtain ⟨l, hlayout, -, -⟩ := hd
  refine ⟨l, s', ?_⟩
  rw [aggregateLayout?_eq, hrun, ← hlayout]

/-! ## Where the fields are -/

/-- A located field is at its machine field. -/
theorem indexed_of_located (hL : L.Regular) (hs : s.Sound L.toSizing Idle) {a : Arrangement Piece} (ha : a.Tight)
    {hs' : List Handle} (hall : s.RealizesAll hs' a) {f : FieldTy} {p : FieldPlace} (hp : L.Located a f p) {k : Nat}
    (hk : p.machineIndex = some k) :
    Layout.offsetOf a.layouts k = p.offset ∧ ∃ h s', hs'[k]? = some h ∧ (L.lower p.source).run.run s = (.ok h, s') := by
  obtain ⟨v, m, hpiece, hrep, hoffset⟩ := hp.indexed k hk
  obtain ⟨h, hh, hreal⟩ := exists_getElem?_of_forall₂ hall hpiece
  have hlayout : a.layouts[k]? = some m := by rw [Arrangement.layouts, List.getElem?_map, hpiece, Option.map_some]
  obtain ⟨s', hrun⟩ := lower_of_represents hL hs hrep hreal
  refine ⟨(ha.seamless.offsetOf_eq hlayout).trans hoffset.symm, h, s', hh, ?_⟩
  rw [hp.source]
  exact hrun

/-- A placement that is kept, in a sound session, is faithful. -/
theorem faithful_of_keeps (hL : L.Regular) (hE : L.ErrorsAreCodes)
    (hs : s.Sound L.toSizing Idle) {p : Placement} (hp : L.placement? t = some p) (hk : s.Keeps p l) :
    L.Faithful s t l p.built.layouts := by
  have hb := Sizing.builds_placement hL hp
  have ha := Sizing.arranges_placement hL hE hp
  have parts : LaysOutParts L.toSizing s t := fun c _ hr e he => hs.layoutOf_lowered hL c (spares_idle _ c) hr he
  have hlayouts := Sound.mapM_layoutOf hL hb (hL.sizes t) parts hk.machine
  obtain ⟨machineFields, fields, tag, size, align⟩ := l
  obtain ⟨rfl, rfl, rfl, rfl, hmachine⟩ := hk
  exact {
    layouts := hlayouts
    extent := hb.composed.trans hb.extent.symm
    total := hb.tight.offset_eq
    seamless := fun k hk => hb.tight.seamless.offsetOf_eq (List.getElem?_eq_getElem hk)
    sources := by
      rw [← List.forall₂_eq_eq_eq, List.forall₂_map_left_iff, List.forall₂_map_right_iff]
      exact ha.fields.flip.imp fun q f h => h.source
    tagSource := by
      have htag := ha.tag
      generalize L.placedTag? t = c? at htag
      generalize p.tag = q? at htag
      cases htag with
      | none => rfl
      | some h => exact congrArg some h.source
    indexed := fun q hq k hqk => by
      rcases List.mem_append.1 hq with hq | hq
      · obtain ⟨f, -, hf⟩ := exists_of_mem_right ha.fields hq
        exact indexed_of_located hL hs hb.tight hmachine hf hqk
      · obtain ⟨c, -, hc⟩ := exists_of_rel_of_mem ha.tag q (Option.mem_toList.1 hq)
        exact indexed_of_located hL hs hb.tight hmachine hc hqk
    inside := fun x hx hc => by
      have hf := List.forall₂_zip ha.fields hx
      exact ⟨hf.aligned hc, hf.inside hc⟩
    tagInside := fun q hq => by
      obtain ⟨c, -, hc⟩ := exists_of_rel_of_mem ha.tag q hq
      rw [hc.source]
      exact ⟨hc.aligned rfl, hc.inside rfl⟩
    apart := ha.apart
    together := ha.together
    pastEnd := fun i q hq hnone hend => by
      obtain ⟨f, -, hf⟩ := exists_of_mem_right ha.fields (List.mem_of_getElem? hq)
      simp only [AggregateLayout.access?, hq, hnone, Option.map_some, Option.some.injEq] at hend
      split at hend
      · exact Nat.le_antisymm hf.offset_le ‹_›
      · cases hend }

/-- The layout given for an aggregate describes its machine type field by field. -/
theorem faithful_aggregateLayout (hL : L.Regular) (hE : L.ErrorsAreCodes) (hs : L.Reachable s)
    (h : (L.aggregateLayout? t).run.run s = (.ok (some l), s')) :
    ∃ a ls, (L.lower t).run.run s = (.ok a, s') ∧ s'.table.body? a = some ⟨false, l.machineFields⟩ ∧
      L.Faithful s' t l ls := by
  obtain ⟨a, p, hrun, hp, hs', hbody, hk⟩ := keeps_of_aggregateLayout hL (hs.sound hL) h
  exact ⟨a, _, hrun, hbody, faithful_of_keeps hL hE hs' hp hk⟩

/-- The layout of a tagged union. -/
theorem faithful_aggregateLayout_sample :
    ∃ l s' a ls, ((⟨.sample, .standard⟩ : Lowering).aggregateLayout? ⟨23⟩).run.run .empty = (.ok (some l), s') ∧
      ((⟨.sample, .standard⟩ : Lowering).lower ⟨23⟩).run.run .empty = (.ok a, s') ∧
      s'.table.body? a = some ⟨false, l.machineFields⟩ ∧ (⟨.sample, .standard⟩ : Lowering).Faithful s' ⟨23⟩ l ls := by
  have hsome : (Sizing.sample.placement? ⟨23⟩).isSome = true := by decide +kernel
  obtain ⟨p, hp⟩ := Option.isSome_iff_exists.1 hsome
  obtain ⟨l, s', hrun⟩ := aggregateLayout_of_placement (L := ⟨.sample, .standard⟩) Sizing.regular_sample
    (sound_empty _) hp
  obtain ⟨a, ls, hlower, hbody, hfaithful⟩ := faithful_aggregateLayout (L := ⟨.sample, .standard⟩)
    Sizing.regular_sample Sizing.errorsAreCodes_sample .empty hrun
  exact ⟨l, s', a, ls, hrun, hlower, hbody, hfaithful⟩

end Lowering

end MachineAbi
