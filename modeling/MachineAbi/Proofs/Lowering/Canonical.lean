import MachineAbi.Proofs.Lowering.Forms
import MachineAbi.Proofs.Lowering.Values

/-!
# Sessions that hold what the types say

A session is canonical (`Session.Canonical`) if everything that is noted in it follows from the types alone: each type
lowered has the machine type of its form, each layout kept is the plan of its form, no body was refused, and each named
struct belongs to one type (`Session.Owned`).

This holds of any pool, whatever the sizes of its types are, so layouts of machine types are not compared with those of
source types here: the builders follow the plans because both look up the same layouts (`Follows.push`).

While a type is being lowered, it is pending, and nothing is said about it but that a named struct is its own.
-/

namespace MachineAbi

namespace Session

/-! ## What is noted for a type -/

/-- The layout kept for an aggregate is its plan. -/
structure Meets (P : SealedPool) (s : Session) (p : Plan) (l : AggregateLayout) : Prop where
  fields : l.fields = p.fields
  tag : l.tag = p.tag
  size : l.size = p.built.offset
  align : l.align = p.built.align
  machine : s.ShowsAll P p.built.trees l.machineFields

/-- The machine type of type `t` and the layout kept for it are those of the form. -/
structure HasForm (P : SealedPool) (s : Session) (t : TypeId) (f : Form) (h : Handle) : Prop where
  shows : s.Shows P f.tree h
  planned : ∀ p ∈ f.plan?, ∃ l, s.layouts[t]? = some l ∧ s.table.body? h = some ⟨false, l.machineFields⟩ ∧ s.Meets P p l

/-- Each named struct belongs to one type and is named after it, and those of types without known content have no
body. -/
structure Owned (P : SealedPool) (s : Session) : Prop where
  bare : s.Bare P
  apart : s.Apart P
  titled : ∀ (t : TypeId) (h : Handle) (id : Nat), P.hasName t = true → s.lowered[t]? = some h →
    s.table.Stores h (.named id) → s.table.Titled id (P.structName t)
  own : ∀ (t : TypeId) (h : Handle), P.hasName t = true → s.lowered[t]? = some h → ∃ id, s.table.Stores h (.named id)
  owner : ∀ id, id < s.table.named.size → ∃ t h, P.hasName t = true ∧ s.lowered[t]? = some h ∧
    s.table.Stores h (.named id)

/-- Everything noted follows from the types. -/
structure Canonical (L : Lowering) (pending : TypeId → Prop) (s : Session) : Prop where
  wellFormed : s.table.WellFormed
  refused : s.table.refused = []
  formed : ∀ (t : TypeId) (h : Handle), ¬pending t → s.lowered[t]? = some h → s.HasForm L.toSealedPool t (L.form t) h
  kept : ∀ (t : TypeId) (l : AggregateLayout), ¬pending t → s.layouts[t]? = some l →
    (s.lowered[t]?).isSome = true ∧ (L.form t).plan?.isSome = true
  owned : s.Owned L.toSealedPool

variable {P : SealedPool} {L : Lowering} {pending : TypeId → Prop} {s s' : Session} {t : TypeId} {h : Handle}

theorem Meets.mono {p : Plan} {l : AggregateLayout} (hm : s.Meets P p l) (hr : s.Refines s') : s'.Meets P p l :=
  ⟨hm.fields, hm.tag, hm.size, hm.align, hm.machine.mono hr⟩

theorem HasForm.mono {f : Form} (hf : s.HasForm P t f h) (hr : s.Refines s') : s'.HasForm P t f h := by
  refine ⟨hf.shows.mono hr, fun p hp => ?_⟩
  obtain ⟨l, hl, hb, hm⟩ := hf.planned p hp
  exact ⟨l, hr.layouts t l hl, hr.table.body? hb, hm.mono hr⟩

/-! ## Owners of named structs -/

namespace Owned

theorem withTable {table : Table} (ho : s.Owned P) (hadds : s.table.Adds table) : (s.withTable table).Owned P := by
  have before : ∀ c a id, P.hasName c = true → s.lowered[c]? = some a → table.Stores a (.named id) →
      s.table.Stores a (.named id) := by
    intro c a id hc ha hid
    obtain ⟨id', hs⟩ := ho.own c a hc ha
    obtain rfl := MachineType.named.inj (hid.eq (hadds.types _ _ hs))
    exact hs
  refine { bare := ?bare, apart := ho.apart, titled := ?titled, own := ?own, owner := ?owner }
  case bare =>
    intro c a id hc ha hid
    show table.bodyAt? id = none
    rw [Table.bodyAt?, hadds.named_eq]
    exact ho.bare c a id hc ha (before c a id (P.hasName_of_isOpaque hc) ha hid)
  case titled =>
    intro c a id hc ha hid
    show table.Titled id (P.structName c)
    rw [Table.Titled, Table.nameAt?, hadds.named_eq]
    exact ho.titled c a id hc ha (before c a id hc ha hid)
  case own =>
    intro c a hc ha
    obtain ⟨id, hs⟩ := ho.own c a hc ha
    exact ⟨id, hadds.types _ _ hs⟩
  case owner =>
    intro id hid
    have hid' : id < table.named.size := hid
    rw [hadds.named_eq] at hid'
    obtain ⟨c, a, hc, ha, hs⟩ := ho.owner id hid'
    exact ⟨c, a, hc, ha, hadds.types _ _ hs⟩

/-- The machine type of a type without a name of its own owns nothing; noting the same struct again changes nothing. -/
theorem noted (ho : s.Owned P) (hname : P.hasName t = true → s.lowered[t]? = some h) : (s.noted t h).Owned P := by
  have same : ∀ c, P.hasName c = true → (s.noted t h).lowered[c]? = s.lowered[c]? := by
    intro c hc
    rw [lowered_noted]
    split
    · rename_i htc
      rw [← htc] at hc ⊢
      exact (hname hc).symm
    · rfl
  refine { bare := ?bare, apart := ?apart, titled := ?titled, own := ?own, owner := ?owner }
  case bare =>
    intro c a id hc ha hid
    rw [same c (P.hasName_of_isOpaque hc)] at ha
    exact ho.bare c a id hc ha hid
  case apart =>
    intro c c' a hc hc' ha ha'
    rw [same c hc] at ha
    rw [same c' hc'] at ha'
    exact ho.apart c c' a hc hc' ha ha'
  case titled =>
    intro c a id hc ha hid
    rw [same c hc] at ha
    exact ho.titled c a id hc ha hid
  case own =>
    intro c a hc ha
    rw [same c hc] at ha
    exact ho.own c a hc ha
  case owner =>
    intro id hid
    obtain ⟨c, a, hc, ha, hs⟩ := ho.owner id hid
    exact ⟨c, a, hc, by rw [same c hc]; exact ha, hs⟩

/-- What was there before is not the new struct of a declaration, and is as it was. -/
theorem before_declare {named : Handle} {table : Table} (ho : s.Owned P) (hwf : s.table.WellFormed)
    (hext : s.table.Extends table) (hstores : table.Stores named (.named s.table.named.size)) {c : TypeId} {a : Handle}
    (hc : P.hasName c = true) (ha : s.lowered[c]? = some a) :
    a ≠ named ∧ ∃ id, s.table.Stores a (.named id) ∧ id < s.table.named.size ∧
      ∀ id', table.Stores a (.named id') → id' = id := by
  obtain ⟨id, hs⟩ := ho.own c a hc ha
  have hid := hwf.known a id hs
  have hs' := hext.types _ _ hs
  refine ⟨?_, id, hs, hid, fun id' h' => MachineType.named.inj (h'.eq hs')⟩
  rintro rfl
  exact Nat.ne_of_lt hid (MachineType.named.inj (hs'.eq hstores))

/-- A new struct belongs to the type that it is declared for. -/
theorem declared {s₁ : Session} (ho : s.Owned P) (hwf : s.table.WellFormed) (hl : s.lowered[t]? = none)
    (hname : P.hasName t = true) (htable : s₁.table = (Table.declare (P.structName t) s.table).2)
    (hlowered : ∀ c, s₁.lowered[c]? =
      if t = c then some (Table.declare (P.structName t) s.table).1 else s.lowered[c]?) : s₁.Owned P := by
  have hsize := Table.size_declare s.table (P.structName t)
  obtain ⟨hext, hstores, hnew⟩ := Table.declare_spec (t := s.table) (P.structName t)
  generalize Table.declare (P.structName t) s.table = r at *
  obtain ⟨named, table⟩ := r
  dsimp only at htable hlowered hsize hext hstores hnew
  -- What a type has is the new struct, if it is the type declared for, and what it had, if not.
  have new_or_old : ∀ c a, s₁.lowered[c]? = some a → t = c ∧ a = named ∨ t ≠ c ∧ s.lowered[c]? = some a := by
    intro c a ha
    rw [hlowered] at ha
    split at ha
    · exact Or.inl ⟨‹_›, (Option.some.inj ha).symm⟩
    · exact Or.inr ⟨‹_›, ha⟩
  refine { bare := ?bare, apart := ?apart, titled := ?titled, own := ?own, owner := ?owner }
  case bare =>
    intro c a id hc ha hid
    rw [htable] at hid ⊢
    rcases new_or_old c a ha with ⟨-, rfl⟩ | ⟨-, ha⟩
    · obtain rfl := MachineType.named.inj (hid.eq hstores)
      simp [Table.bodyAt?, hnew]
    · obtain ⟨-, id', hs, hlt, heq⟩ := ho.before_declare hwf hext hstores (P.hasName_of_isOpaque hc) ha
      obtain rfl := heq id hid
      rw [hext.bodyAt?_eq hlt]
      exact ho.bare c a id hc ha hs
  case apart =>
    intro c c' a hc hc' ha ha'
    rcases new_or_old c a ha with ⟨htc, hnamed⟩ | ⟨-, ha⟩ <;> rcases new_or_old c' a ha' with ⟨htc', hnamed'⟩ | ⟨-, ha'⟩
    · exact htc.symm.trans htc'
    · exact absurd hnamed (ho.before_declare hwf hext hstores hc' ha').1
    · exact absurd hnamed' (ho.before_declare hwf hext hstores hc ha).1
    · exact ho.apart c c' a hc hc' ha ha'
  case titled =>
    intro c a id hc ha hid
    rw [htable] at hid ⊢
    rcases new_or_old c a ha with ⟨rfl, rfl⟩ | ⟨-, ha⟩
    · obtain rfl := MachineType.named.inj (hid.eq hstores)
      exact ⟨_, by rw [Table.nameAt?, hnew]; rfl, Table.isTitle_nextName _ _⟩
    · obtain ⟨-, id', hs, hlt, heq⟩ := ho.before_declare hwf hext hstores hc ha
      obtain rfl := heq id hid
      obtain ⟨name, hn, htitle⟩ := ho.titled c a id hc ha hs
      obtain ⟨n, hn, hname⟩ := Option.map_eq_some_iff.1 hn
      exact ⟨name, by rw [Table.nameAt?, hext.named id n hn, Option.map_some, hname], htitle⟩
  case own =>
    intro c a hc ha
    rw [htable]
    rcases new_or_old c a ha with ⟨-, rfl⟩ | ⟨-, ha⟩
    · exact ⟨_, hstores⟩
    · obtain ⟨id, hs⟩ := ho.own c a hc ha
      exact ⟨id, hext.types _ _ hs⟩
  case owner =>
    intro id hid
    rw [htable] at hid ⊢
    by_cases hlt : id < s.table.named.size
    · obtain ⟨c, a, hc, ha, hs⟩ := ho.owner id hlt
      have htc : t ≠ c := by
        rintro rfl
        rw [hl] at ha
        cases ha
      exact ⟨c, a, hc, by rw [hlowered, if_neg htc]; exact ha, hext.types _ _ hs⟩
    · obtain rfl : id = s.table.named.size := by omega
      exact ⟨t, named, hname, by rw [hlowered, if_pos rfl], hstores⟩

/-- The body of a struct or union belongs to no type without known content. -/
theorem fill {table : Table} {id : Nat} {body : StructBody} (ho : s.Owned P) (hwf : s.table.WellFormed)
    (ht : P.isNamedContainer t = true) (hl : s.lowered[t]? = some h) (hs : s.table.Stores h (.named id))
    (hf : s.table.Fills id body table) : (s.withTable table).Owned P := by
  refine { bare := ?bare, apart := ho.apart, titled := ?titled, own := ?own, owner := ?owner }
  case bare =>
    intro c a id' hc ha hid
    have hid' := hf.stores_iff.1 hid
    have hne : id' ≠ id := by
      rintro rfl
      obtain rfl := hwf.distinct _ _ _ hs hid'
      obtain rfl := ho.apart t c h (P.hasName_of_isNamedContainer ht) (P.hasName_of_isOpaque hc) hl ha
      exact P.not_isNamedContainer_of_isOpaque hc ht
    show table.bodyAt? id' = none
    rw [Table.bodyAt?, hf.others id' hne]
    exact ho.bare c a id' hc ha hid'
  case titled =>
    intro c a id' hc ha hid
    show table.Titled id' (P.structName c)
    rw [Table.Titled, hf.names]
    exact ho.titled c a id' hc ha (hf.stores_iff.1 hid)
  case own =>
    intro c a hc ha
    obtain ⟨id', hs'⟩ := ho.own c a hc ha
    exact ⟨id', hf.stores_iff.2 hs'⟩
  case owner =>
    intro id' hid
    have hid : id' < table.named.size := hid
    rw [hf.size] at hid
    obtain ⟨c, a, hc, ha, hs'⟩ := ho.owner id' hid
    exact ⟨c, a, hc, ha, hf.stores_iff.2 hs'⟩

end Owned

/-! ## Steps between canonical sessions -/

namespace Canonical

theorem shows (hs : s.Canonical L pending) (ht : ¬pending t) (hl : s.lowered[t]? = some h) :
    s.Shows L.toSealedPool (L.form t).tree h :=
  (hs.formed t h ht hl).shows

theorem withTable {table : Table} (hs : s.Canonical L pending) (hadds : s.table.Adds table) :
    (s.withTable table).Canonical L pending :=
  ⟨hadds.wellFormed hs.wellFormed, hadds.refused.trans hs.refused,
    fun c a hc ha => (hs.formed c a hc ha).mono (refines_withTable hadds.toExtends), hs.kept, hs.owned.withTable hadds⟩

theorem weaken {wider : TypeId → Prop} (hs : s.Canonical L pending) (hw : ∀ p, pending p → wider p) :
    s.Canonical L wider :=
  ⟨hs.wellFormed, hs.refused, fun c a hc ha => hs.formed c a (fun hp => hc (hw c hp)) ha,
    fun c l hc hl => hs.kept c l (fun hp => hc (hw c hp)) hl, hs.owned⟩

theorem besides (hs : s.Canonical L pending) (t : TypeId) : s.Canonical L (Besides pending t) :=
  hs.weaken fun _ => Or.inl

theorem lacks (hs : s.Canonical L pending) (ht : ¬pending t) (hl : s.lowered[t]? = none) : s.Lacks t := by
  refine ⟨hl, ?_⟩
  cases hk : s.layouts[t]? with
  | none => rfl
  | some l =>
    have hsome := (hs.kept t l ht hk).1
    rw [hl] at hsome
    cases hsome

/-- A struct is declared for type `t`, which is pending from now on. -/
theorem declareFor (hs : s.Canonical L pending) (ht : ¬pending t) (hl : s.Lacks t) (hname : L.hasName t = true) :
    Ensures (Sizing.declareFor t (L.structName t)) s fun named s' =>
      s'.Canonical L (Besides pending t) ∧ Sizing.Declares pending t s named s' := by
  have howned : ((s.withTable (Table.declare (L.structName t) s.table).2).noted t
      (Table.declare (L.structName t) s.table).1).Owned L.toSealedPool :=
    hs.owned.declared hs.wellFormed hl.lowered hname rfl fun c => by
      rw [lowered_noted]
      rfl
  obtain ⟨hd, hsession⟩ := Sizing.declares_declareFor ht hl (L.structName t)
  have htable := hd.advances.table
  refine ⟨{
    wellFormed := htable.wellFormed hs.wellFormed
    refused := htable.refused.trans hs.refused
    formed := ?formed
    kept := ?kept
    owned := howned }, hd⟩
  case formed =>
    intro c a hc ha
    rw [hsession, lowered_noted, if_neg fun htc => hc (Or.inr htc.symm)] at ha
    exact (hs.formed c a (fun hp => hc (Or.inl hp)) ha).mono hd.advances.refines
  case kept =>
    intro c l hc hk
    rw [hsession] at hk
    rw [hsession, lowered_noted, if_neg fun htc => hc (Or.inr htc.symm)]
    exact hs.kept c l (fun hp => hc (Or.inl hp)) hk

/-- The struct declared for type `t` gets its body. -/
theorem setBody {s₀ : Session} {named : Handle} (hs : s.Canonical L (Besides pending t))
    (ht : L.isNamedContainer t = true) (hd : Sizing.Declares pending t s₀ named s) (body : StructBody) :
    Ensures (onTable (Table.setBody named body)) s fun _ s' =>
      s'.Canonical L (Besides pending t) ∧ s.Refines s' ∧ s₀.Advances pending s' ∧ s'.lowered = s.lowered ∧
        s'.layouts = s.layouts ∧ s'.table.body? named = some body := by
  obtain ⟨n, hn, hb⟩ := hd.unset
  refine (onTable_spec (Table.setBody_spec body hd.stores hn hb)).mono fun _ s' ⟨hs', hfills⟩ => ?_
  have hr : s.Refines s' := by
    rw [hs']
    exact ⟨hfills.refines (by simp [Table.bodyAt?, hn, hb]), fun _ _ h => h, fun _ _ h => h⟩
  have howned := hs.owned.fill hs.wellFormed ht hd.lowered hd.stores hfills
  have hext : s₀.table.Extends s'.table := hd.advances.table.fill hfills
  rw [← hs'] at howned
  have hlowered : s'.lowered = s.lowered := by rw [hs']; rfl
  have hlayouts : s'.layouts = s.layouts := by rw [hs']; rfl
  refine ⟨{
    wellFormed := hfills.wellFormed hs.wellFormed
    refused := hfills.refused.trans hs.refused
    formed := ?formed
    kept := ?kept
    owned := howned }, hr, ?advances, hlowered, hlayouts, hfills.body? hd.stores⟩
  case formed =>
    intro c a hc ha
    rw [hlowered] at ha
    exact (hs.formed c a hc ha).mono hr
  case kept =>
    intro c l hc hl
    rw [hlayouts] at hl
    rw [hlowered]
    exact hs.kept c l hc hl
  case advances =>
    rw [hs'] at hext ⊢
    exact ⟨hext, hd.advances.lowered, hd.advances.layouts, hd.advances.loweredPending, hd.advances.layoutsPending⟩

/-- A layout is recorded for type `t`, which is pending. -/
theorem recorded {l : AggregateLayout} (hs : s.Canonical L (Besides pending t)) (hnone : s.layouts[t]? = none) :
    (s.recorded t l).Canonical L (Besides pending t) := by
  have hr : s.Refines (s.recorded t l) := by
    refine ⟨⟨fun _ _ h => h, fun _ _ h => h⟩, fun _ _ h => h, fun c m hm => ?_⟩
    have htc : t ≠ c := by
      rintro rfl
      rw [hnone] at hm
      cases hm
    rwa [layouts_recorded, if_neg htc]
  refine { wellFormed := hs.wellFormed, refused := hs.refused, formed := ?formed, kept := ?kept, owned := ?owned }
  case formed =>
    intro c a hc ha
    exact (hs.formed c a hc ha).mono hr
  case kept =>
    intro c m hc hm
    rw [layouts_recorded, if_neg fun htc => hc (Or.inr htc.symm)] at hm
    exact hs.kept c m hc hm
  case owned => exact ⟨hs.owned.bare, hs.owned.apart, hs.owned.titled, hs.owned.own, hs.owned.owner⟩

/-- A machine type is noted for type `t`, which is pending. -/
theorem noted (hs : s.Canonical L (Besides pending t)) (hr : s.Refines (s.noted t h))
    (hname : L.hasName t = true → s.lowered[t]? = some h) : (s.noted t h).Canonical L (Besides pending t) := by
  refine {
    wellFormed := hs.wellFormed
    refused := hs.refused
    formed := ?formed
    kept := ?kept
    owned := hs.owned.noted hname }
  case formed =>
    intro c a hc ha
    rw [lowered_noted, if_neg fun htc => hc (Or.inr htc.symm)] at ha
    exact (hs.formed c a hc ha).mono hr
  case kept =>
    intro c l hc hl
    rw [lowered_noted, if_neg fun htc => hc (Or.inr htc.symm)]
    exact hs.kept c l hc hl

/-- When what is noted for type `t` has the form of `t`, it is no longer pending. -/
theorem settle (hs : s.Canonical L (Besides pending t))
    (hform : ∀ a, s.lowered[t]? = some a → s.HasForm L.toSealedPool t (L.form t) a)
    (hkept : ∀ l, s.layouts[t]? = some l → (s.lowered[t]?).isSome = true ∧ (L.form t).plan?.isSome = true) :
    s.Canonical L pending := by
  refine { wellFormed := hs.wellFormed, refused := hs.refused, formed := ?formed, kept := ?kept, owned := hs.owned }
  case formed =>
    intro c a hc ha
    by_cases htc : c = t
    · rw [htc] at ha ⊢
      exact hform a ha
    · exact hs.formed c a (fun hp => hp.elim hc htc) ha
  case kept =>
    intro c l hc hl
    by_cases htc : c = t
    · rw [htc] at hl ⊢
      exact hkept l hl
    · exact hs.kept c l (fun hp => hp.elim hc htc) hl

end Canonical

/-- What the lowering of type `t` leaves behind: once the machine type `h` is noted for `t`, nothing is left to do. -/
structure Settles (L : Lowering) (pending : TypeId → Prop) (t : TypeId) (s : Session) (h : Handle) (s' : Session) :
    Prop where
  canonical : (s'.noted t h).Canonical L pending
  advances : s.Advances pending (s'.noted t h)

/-- A machine type of the form of type `t` settles it. -/
theorem settles {s₀ : Session} (ha : s₀.Advances pending s) (ht : ¬pending t) (hs : s.Canonical L (Besides pending t))
    (hentry : ∀ a, s.lowered[t]? = some a → a = h) (hname : L.hasName t = true → s.lowered[t]? = some h)
    (hform : s.HasForm L.toSealedPool t (L.form t) h)
    (hkept : ∀ l, s.layouts[t]? = some l → (L.form t).plan?.isSome = true) : Settles L pending t s₀ h s := by
  have hstep : s.Advances pending (s.noted t h) := advances_noted ht hentry
  have hnoted : (s.noted t h).lowered[t]? = some h := by rw [lowered_noted, if_pos rfl]
  refine ⟨(hs.noted hstep.refines hname).settle (fun a ha => ?_) fun l hl => ?_, ha.trans hstep⟩
  · obtain rfl := Option.some.inj (hnoted.symm.trans ha)
    exact hform.mono hstep.refines
  · exact ⟨by rw [hnoted]; rfl, hkept l hl⟩

/-- A type without a name or a plan of its own is settled by its machine type alone. -/
theorem settles_of_shows (ha : s.Advances (Besides pending t) s') (ht : ¬pending t)
    (hs : s'.Canonical L (Besides pending t)) (hl : s.Lacks t) (hname : L.hasName t = false)
    (hplan : (L.form t).plan? = none) (hshows : s'.Shows L.toSealedPool (L.form t).tree h) :
    Settles L pending t s h s' := by
  have hl' := hl.of_advances ha
  refine settles (ha.weaken fun _ => Or.inl) ht hs (fun a he => ?_) (fun hn => ?_) ⟨hshows, fun p hp => ?_⟩
    fun l he => ?_
  · rw [hl'.lowered] at he
    cases he
  · rw [hname] at hn
    cases hn
  · rw [hplan] at hp
    cases hp
  · rw [hl'.layouts] at he
    cases he

theorem Settles.of_later (hy : Settles L pending t s' h s) {s₀ : Session} (ha : s₀.Advances (Besides pending t) s') :
    Settles L pending t s₀ h s :=
  ⟨hy.canonical, (ha.weaken fun _ => Or.inl).trans hy.advances⟩

/-! ## Builders -/

/-- A builder holds what an arrangement of machine types says. -/
structure Follows (P : SealedPool) (s : Session) (b : AggregateBuilder) (a : Arrangement MachineTree) : Prop where
  offset : b.offset = a.offset
  align : b.align = a.align
  machine : s.ShowsAll P a.trees b.machine

namespace Follows

variable {T : Target} {b : AggregateBuilder} {a : Arrangement MachineTree} {source : TypeId} {tree : MachineTree}

protected theorem empty (s : Session) : s.Follows P .empty .empty := ⟨rfl, rfl, trivial⟩

theorem mono (hf : s.Follows P b a) (hr : s.Refines s') : s'.Follows P b a :=
  ⟨hf.offset, hf.align, hf.machine.mono hr⟩

theorem length_eq (hf : s.Follows P b a) : b.machine.length = a.pieces.length := by
  rw [← hf.machine.length_eq, Arrangement.trees, List.length_map]

/-- One more machine field. -/
theorem concat (hf : s.Follows P b a) {v : Option MachineTree} {l : Layout} {o n : Nat}
    (hv : s.Shows P (v.getD (.bytes l.size)) h) :
    s.Follows P ⟨b.machine ++ [h], o, n⟩ ⟨a.pieces ++ [(v, l)], o, n⟩ := by
  refine ⟨rfl, rfl, ?_⟩
  have htrees : Arrangement.trees ⟨a.pieces ++ [(v, l)], o, n⟩ = a.trees ++ [v.getD (.bytes l.size)] := by
    simp [Arrangement.trees]
  rw [htrees]
  exact hf.machine.append ⟨hv, trivial⟩

theorem padTo (hf : s.Follows P b a) (offset : Nat) :
    Ensures (b.padTo offset) s.table fun b' table =>
      s.table.Adds table ∧ (s.withTable table).Follows P b' (a.padTo offset) := by
  unfold AggregateBuilder.padTo Arrangement.padTo
  rw [hf.offset]
  split
  · refine (Table.bytes_adds _).bind fun pad table ⟨hadds, hpad⟩ => ?_
    have hf' := (hf.mono (refines_withTable hadds.toExtends)).concat (h := pad) (v := none)
      (l := ⟨offset - a.offset, 1⟩) (o := offset) (n := a.align) hpad
    rw [← hf.align] at hf' ⊢
    exact ⟨hadds, hf'⟩
  · exact ⟨.refl _, hf⟩

theorem finish (hf : s.Follows P b a) :
    Ensures b.finish s.table fun b' table => s.table.Adds table ∧ (s.withTable table).Follows P b' a.finish := by
  unfold AggregateBuilder.finish Arrangement.finish
  rw [hf.offset, hf.align]
  exact hf.padTo _

/-- Placing a value of the layout looked up. -/
theorem place {h? : Option Handle} (hf : s.Follows P b a)
    (hlayout : (h?.bind (s.table.layoutOf T)).getD .zero = (tree.layout? T).getD .zero)
    (hshows : ∀ h ∈ h?, s.Shows P tree h) (hnone : h? = none → (tree.layout? T).getD .zero = .zero) :
    Ensures (b.push T source h?) s.table fun r table =>
      s.table.Adds table ∧ r.1 = (a.push (T.treeItem source tree)).1 ∧
        (s.withTable table).Follows P r.2 (a.push (T.treeItem source tree)).2 := by
  refine Ensures.get_bind ?_
  unfold Arrangement.push Target.treeItem
  simp only [hlayout]
  cases h? with
  | none =>
    rw [hnone rfl, if_neg (by simp [Layout.zero]), hf.offset]
    exact Ensures.pure ⟨.refl _, rfl, hf⟩
  | some h =>
    dsimp only
    split
    · rw [hf.offset]
      refine (hf.padTo _).bind ?_
      rintro b' table ⟨hadds, hf'⟩
      have hshows' := (hshows h rfl).mono (refines_withTable hadds.toExtends)
      rw [hf'.length_eq, hf'.offset, hf'.align]
      exact Ensures.pure ⟨hadds, rfl, hf'.concat hshows'⟩
    · rw [hf.offset]
      exact Ensures.pure ⟨.refl _, rfl, hf⟩

/-- Placing a machine type. Both sides look up its layout, so they agree even if it has none. -/
theorem push (hf : s.Follows P b a) (hb : s.Bare P) (hshows : s.Shows P tree h) :
    Ensures (b.push T source (some h)) s.table fun r table =>
      s.table.Adds table ∧ r.1 = (a.push (T.treeItem source tree)).1 ∧
        (s.withTable table).Follows P r.2 (a.push (T.treeItem source tree)).2 := by
  refine hf.place ?_ (fun a ha => Option.some.inj ha ▸ hshows) nofun
  rw [Option.bind_some, hshows.layoutOf hb]

/-- Placing several machine types in order. -/
theorem pushAll {vs : List (TypeId × Handle)} {is : List (TypeId × MachineTree)} (hf : s.Follows P b a) (hb : s.Owned P)
    (hvs : List.Forall₂ (fun v i => v.1 = i.1 ∧ s.Shows P i.2 v.2) vs is) :
    Ensures (AggregateBuilder.pushAll T (vs.map fun v => (v.1, some v.2)) b) s.table fun r table =>
      s.table.Adds table ∧ r.1 = (a.pushAll (is.map fun i => T.treeItem i.1 i.2)).1 ∧
        (s.withTable table).Follows P r.2 (a.pushAll (is.map fun i => T.treeItem i.1 i.2)).2 := by
  induction is generalizing vs s b a with
  | nil =>
    cases hvs
    exact ⟨.refl _, rfl, hf⟩
  | cons i is ih =>
    obtain ⟨source, tree⟩ := i
    cases hvs with
    | @cons v _ vs _ hv hvs =>
    obtain ⟨_, h⟩ := v
    obtain ⟨rfl, hv⟩ := hv
    refine (hf.push hb.bare hv).bind ?_
    rintro ⟨_, b'⟩ table ⟨hadds, rfl, hf'⟩
    have hvs' := hvs.imp fun _ _ h => And.imp_right (·.mono (refines_withTable hadds.toExtends)) h
    refine (ih hf' (hb.withTable hadds) hvs').bind ?_
    rintro ⟨_, b''⟩ table' ⟨hadds', rfl, hf''⟩
    exact Ensures.pure ⟨hadds.trans hadds', rfl, hf''⟩

/-- Placing nothing. -/
theorem push_none (hf : s.Follows P b a) :
    Ensures (b.push T source none) s.table fun r table =>
      s.table.Adds table ∧ r.1 = (a.push (T.treeItem source .void)).1 ∧
        (s.withTable table).Follows P r.2 (a.push (T.treeItem source .void)).2 := by
  refine hf.place ?_ nofun fun _ => rfl
  rfl

end Follows

end Session

end MachineAbi
