import MachineAbi.Lowering.Value
import MachineAbi.Proofs.Lowering.Agreement

/-!
# Single steps of lowering

* `Session.Advances`: how a session grows in a request. What is noted stays as it is, and nothing is noted about pending
  types.
* `Session.Upholds`: an action keeps an invariant, and what is noted.
* `Session.Matches`: a builder holds what an arrangement says. It goes on to do so whatever is placed next
  (`Matches.push`, `Matches.padTo`).
* `Session.Yields`: what the lowering of a type leaves behind, before its machine type is noted.
-/

namespace MachineAbi.Session

variable {Z : Sizing} {pending : TypeId → Prop} {s s' s'' : Session} {t : TypeId} {h : Handle}

/-! ## Growth in a request -/

/-- What is noted stays as it is, and nothing is noted about pending types. -/
structure Advances (pending : TypeId → Prop) (s s' : Session) : Prop where
  table : s.table.Extends s'.table
  lowered : ∀ (t : TypeId) (h : Handle), s.lowered[t]? = some h → s'.lowered[t]? = some h
  layouts : ∀ (t : TypeId) (l : AggregateLayout), s.layouts[t]? = some l → s'.layouts[t]? = some l
  loweredPending : ∀ p : TypeId, pending p → s'.lowered[p]? = s.lowered[p]?
  layoutsPending : ∀ p : TypeId, pending p → s'.layouts[p]? = s.layouts[p]?

namespace Advances

protected theorem refl (s : Session) : s.Advances pending s :=
  ⟨.refl _, fun _ _ h => h, fun _ _ h => h, fun _ _ => rfl, fun _ _ => rfl⟩

protected theorem trans (h : s.Advances pending s') (h' : s'.Advances pending s'') : s.Advances pending s'' :=
  ⟨h.table.trans h'.table, fun t a ha => h'.lowered t a (h.lowered t a ha),
    fun t l hl => h'.layouts t l (h.layouts t l hl),
    fun p hp => (h'.loweredPending p hp).trans (h.loweredPending p hp),
    fun p hp => (h'.layoutsPending p hp).trans (h.layoutsPending p hp)⟩

theorem refines (h : s.Advances pending s') : s.Refines s' := ⟨h.table.refines, h.lowered, h.layouts⟩

theorem weaken {weaker : TypeId → Prop} (h : s.Advances pending s') (hw : ∀ p, weaker p → pending p) :
    s.Advances weaker s' :=
  ⟨h.table, h.lowered, h.layouts, fun p hp => h.loweredPending p (hw p hp), fun p hp => h.layoutsPending p (hw p hp)⟩

end Advances

/-- The session with other machine types. -/
def withTable (s : Session) (table : Table) : Session := { s with table := table }

theorem advances_withTable {table : Table} (h : s.table.Extends table) : s.Advances pending (s.withTable table) :=
  ⟨h, fun _ _ h => h, fun _ _ h => h, fun _ _ => rfl, fun _ _ => rfl⟩

theorem refines_withTable {table : Table} (h : s.table.Extends table) : s.Refines (s.withTable table) :=
  ⟨h.refines, fun _ _ h => h, fun _ _ h => h⟩

theorem Sound.withTable {table : Table} (hs : s.Sound Z pending) (h : s.table.Extends table) :
    (s.withTable table).Sound Z pending :=
  ⟨h.wellFormed hs.wellFormed,
    fun t a ht ha => (hs.described t a ht ha).mono (refines_withTable h), hs.kept⟩

theorem onTable_spec {α : Type} {act : StateM Table α} {post : α → Table → Prop} (h : Ensures act s.table post) :
    Ensures (onTable act) s fun a s' => s' = s.withTable s'.table ∧ post a s'.table :=
  ⟨rfl, h⟩

theorem onTable_bind {α β : Type} (act : StateM Table α) (next : α → StateM Table β) :
    onTable (act >>= next) = onTable act >>= fun a => onTable (next a) :=
  rfl

/-! ## Actions that keep an invariant -/

/-- The action keeps what the session notes, ends in a session of which `inv` is true, and satisfies `post`. -/
def Upholds {α : Type} (inv : Session → Prop) (pending : TypeId → Prop) (s : Session) (act : StateM Session α)
    (post : α → Session → Prop) : Prop :=
  Ensures act s fun a s' => inv s' ∧ s.Advances pending s' ∧ post a s'

namespace Upholds

variable {α β γ : Type} {inv : Session → Prop} {act : StateM Session α}

protected theorem pure {a : α} {post : α → Session → Prop} (hs : inv s) (h : post a s) :
    Upholds inv pending s (pure a) post :=
  ⟨hs, .refl s, h⟩

protected theorem bind {next : α → StateM Session β} {mid : α → Session → Prop} {post : β → Session → Prop}
    (h : Upholds inv pending s act mid)
    (hnext : ∀ a s', inv s' → s.Advances pending s' → mid a s' → Upholds inv pending s' (next a) post) :
    Upholds inv pending s (act >>= next) post := by
  refine Ensures.bind h fun a s' ⟨hs', ha, hm⟩ => ?_
  refine (hnext a s' hs' ha hm).mono fun b s'' ⟨hs'', ha', hp⟩ => ?_
  exact ⟨hs'', ha.trans ha', hp⟩

theorem map_bind {f : α → γ} {next : γ → StateM Session β} {mid : α → Session → Prop} {post : β → Session → Prop}
    (h : Upholds inv pending s act mid)
    (hnext : ∀ a s', inv s' → s.Advances pending s' → mid a s' → Upholds inv pending s' (next (f a)) post) :
    Upholds inv pending s ((f <$> act) >>= next) post := by
  have hb : Upholds inv pending s (act >>= fun a => next (f a)) post := h.bind hnext
  exact hb

theorem pure_bind {a : α} {next : α → StateM Session β} {post : β → Session → Prop}
    (h : Upholds inv pending s (next a) post) : Upholds inv pending s (pure a >>= next) post :=
  h

protected theorem mono {post weak : α → Session → Prop} (h : Upholds inv pending s act post)
    (hw : ∀ a s', inv s' → s.Advances pending s' → post a s' → weak a s') : Upholds inv pending s act weak :=
  Ensures.mono h fun a s' ⟨hs', ha, hp⟩ => ⟨hs', ha, hw a s' hs' ha hp⟩

end Upholds

/-! ## Builders -/

/-- A machine value of a source type that can be placed as an item. -/
structure Ready (T : Target) (s : Session) (source : TypeId) (h : Handle) (i : Item Piece) : Prop where
  source : i.source = source
  layout : s.table.layoutOf T h = some i.layout
  realizes : s.Realizes h (some i.value, i.layout)

theorem Ready.mono {T : Target} {source : TypeId} {i : Item Piece} (hv : Ready T s source h i) (hr : s.Refines s') :
    Ready T s' source h i :=
  ⟨hv.source, hr.table.layoutOf hv.layout, hr.realizes hv.realizes⟩

/-- A builder holds what the arrangement says. -/
structure Matches (s : Session) (b : AggregateBuilder) (a : Arrangement Piece) : Prop where
  offset : b.offset = a.offset
  align : b.align = a.align
  machine : s.RealizesAll b.machine a

namespace Matches

variable {b : AggregateBuilder} {a : Arrangement Piece}

protected theorem empty (s : Session) : s.Matches .empty .empty := ⟨rfl, rfl, .nil⟩

theorem mono (hm : s.Matches b a) (hr : s.Refines s') : s'.Matches b a :=
  ⟨hm.offset, hm.align, hr.realizesAll hm.machine⟩

theorem length_eq (hm : s.Matches b a) : b.machine.length = a.pieces.length := hm.machine.length_eq

theorem padTo (hm : s.Matches b a) (offset : Nat) :
    Ensures (b.padTo offset) s.table fun b' table =>
      s.table.Extends table ∧ (s.withTable table).Matches b' (a.padTo offset) := by
  unfold AggregateBuilder.padTo Arrangement.padTo
  rw [hm.offset]
  split
  · refine (Table.bytes_spec _).bind fun pad table ⟨hext, hpad⟩ => ?_
    have hm' := hm.mono (refines_withTable hext)
    exact ⟨hext, rfl, hm'.align, List.rel_append hm'.machine (.cons hpad .nil)⟩
  · exact ⟨.refl _, hm⟩

theorem finish (hm : s.Matches b a) :
    Ensures b.finish s.table fun b' table => s.table.Extends table ∧ (s.withTable table).Matches b' a.finish := by
  unfold AggregateBuilder.finish Arrangement.finish
  rw [hm.offset, hm.align]
  exact hm.padTo _

/-- Placing a value. -/
theorem push {T : Target} {source : TypeId} {i : Item Piece} (hm : s.Matches b a) (hv : Ready T s source h i) :
    Ensures (b.push T source (some h)) s.table fun r table =>
      s.table.Extends table ∧ r.1 = (a.push i).1 ∧ (s.withTable table).Matches r.2 (a.push i).2 := by
  refine Ensures.get_bind ?_
  have hlayout : (((some h).bind (s.table.layoutOf T)).getD .zero) = i.layout := by simp [hv.layout]
  unfold Arrangement.push
  simp only [hlayout, hv.source]
  split
  · rw [hm.offset]
    refine (hm.padTo _).bind fun b' table ⟨hext, hm'⟩ => ?_
    have hr' := (refines_withTable hext).realizes hv.realizes
    rw [hm'.length_eq, hm'.offset, hm'.align]
    exact Ensures.pure ⟨hext, rfl, rfl, rfl, List.rel_append hm'.machine (.cons hr' .nil)⟩
  · rw [hm.offset]
    exact Ensures.pure ⟨.refl _, rfl, hm⟩

/-- Placing several values in order. -/
theorem pushAll {T : Target} {vs : List (TypeId × Handle)} {is : List (Item Piece)} (hm : s.Matches b a)
    (hvs : List.Forall₂ (fun v i => Ready T s v.1 v.2 i) vs is) :
    Ensures (AggregateBuilder.pushAll T (vs.map fun v => (v.1, some v.2)) b) s.table fun r table =>
      s.table.Extends table ∧ r.1 = (a.pushAll is).1 ∧ (s.withTable table).Matches r.2 (a.pushAll is).2 := by
  induction is generalizing vs s b a with
  | nil =>
    cases hvs
    exact ⟨.refl _, rfl, hm⟩
  | cons i is ih =>
    cases hvs with
    | cons hv hvs =>
    refine (hm.push hv).bind ?_
    rintro ⟨_, b'⟩ table ⟨hext, rfl, hm'⟩
    refine (ih hm' (hvs.imp fun _ _ h => h.mono (refines_withTable hext))).bind ?_
    rintro ⟨_, b''⟩ table' ⟨hext', rfl, hm''⟩
    exact Ensures.pure ⟨hext.trans hext', rfl, hm''⟩

/-- Placing a value without a machine type. -/
theorem push_none {T : Target} {i : Item Piece} (hm : s.Matches b a) (hi : i.layout = .zero) :
    Ensures (b.push T i.source none) s.table fun r table =>
      s.table.Extends table ∧ r.1 = (a.push i).1 ∧ (s.withTable table).Matches r.2 (a.push i).2 := by
  refine Ensures.get_bind ?_
  unfold Arrangement.push
  rw [if_neg (by simp [hi, Layout.zero])]
  rw [hm.offset, hi]
  exact Ensures.pure ⟨.refl _, rfl, hm⟩

end Matches

/-! ## Entries for a type -/

/-- The session with an entry for type `t`. -/
def noted (s : Session) (t : TypeId) (h : Handle) : Session := { s with lowered := s.lowered.insert t h }

/-- The session with a layout for type `t`. -/
def recorded (s : Session) (t : TypeId) (l : AggregateLayout) : Session := { s with layouts := s.layouts.insert t l }

theorem lowered_noted (s : Session) (t : TypeId) (h : Handle) (c : TypeId) :
    (s.noted t h).lowered[c]? = if t = c then some h else s.lowered[c]? := by
  unfold noted
  rw [Std.HashMap.getElem?_insert]
  simp

theorem layouts_recorded (s : Session) (t : TypeId) (l : AggregateLayout) (c : TypeId) :
    (s.recorded t l).layouts[c]? = if t = c then some l else s.layouts[c]? := by
  unfold recorded
  rw [Std.HashMap.getElem?_insert]
  simp

theorem advances_noted (ht : ¬pending t) (hentry : ∀ a, s.lowered[t]? = some a → a = h) :
    s.Advances pending (s.noted t h) := by
  refine ⟨.refl _, fun c a ha => ?_, fun _ _ hl => hl, fun p hp => ?_, fun _ _ => rfl⟩
  · rw [lowered_noted]
    split
    · rename_i hc
      rw [← hc] at ha
      rw [hentry a ha]
    · exact ha
  · rw [lowered_noted, if_neg]
    rintro rfl
    exact ht hp

theorem advances_recorded {l : AggregateLayout} (ht : ¬pending t) (hnone : s.layouts[t]? = none) :
    s.Advances pending (s.recorded t l) := by
  refine ⟨.refl _, fun _ _ ha => ha, fun c m hm => ?_, fun _ _ => rfl, fun p hp => ?_⟩
  · rw [layouts_recorded, if_neg]
    · exact hm
    · rintro rfl
      rw [hnone] at hm
      cases hm
  · rw [layouts_recorded, if_neg]
    rintro rfl
    exact ht hp

/-! ## What the lowering of a type leaves behind -/

/-- The pending types, and type `t`. -/
def Besides (pending : TypeId → Prop) (t : TypeId) : TypeId → Prop := fun p => pending p ∨ p = t

/-- Nothing is noted about type `t` yet. -/
structure Lacks (s : Session) (t : TypeId) : Prop where
  lowered : s.lowered[t]? = none
  layouts : s.layouts[t]? = none

theorem Lacks.of_advances (h : s.Lacks t) (ha : s.Advances (Besides pending t) s') : s'.Lacks t :=
  ⟨(ha.loweredPending t (Or.inr rfl)).trans h.lowered, (ha.layoutsPending t (Or.inr rfl)).trans h.layouts⟩

theorem Sound.besides (hs : s.Sound Z pending) (t : TypeId) : s.Sound Z (Besides pending t) :=
  ⟨hs.wellFormed, fun c a hc ha => hs.described c a (fun hp => hc (Or.inl hp)) ha,
    fun c l hc hl => hs.kept c l (fun hp => hc (Or.inl hp)) hl⟩

theorem Sound.lacks (hs : s.Sound Z pending) (ht : ¬pending t) (hl : s.lowered[t]? = none) : s.Lacks t := by
  refine ⟨hl, ?_⟩
  cases hk : s.layouts[t]? with
  | none => rfl
  | some l =>
    have hsome := (hs.kept t l ht hk).1
    rw [hl] at hsome
    cases hsome

/-- `h` describes type `t` in `s'`, which grew from `s`; it is not noted as the machine type of `t`, unless `t` has a name
of its own. -/
structure Yields (Z : Sizing) (pending : TypeId → Prop) (t : TypeId) (s : Session) (h : Handle) (s' : Session) :
    Prop where
  advances : s.Advances pending s'
  sound : s'.Sound Z (Besides pending t)
  described : s'.Describes Z t h
  entry : ∀ a, s'.lowered[t]? = some a → a = h
  kept : ∀ l, s'.layouts[t]? = some l → (Z.placement? t).isSome = true

/-- Type `t` gets a machine type when its parts have them. -/
theorem Yields.of_advances (ha : s.Advances (Besides pending t) s') (hs : s'.Sound Z (Besides pending t))
    (hl : s.Lacks t) (hd : s'.Describes Z t h) : Yields Z pending t s h s' := by
  have hl' := hl.of_advances ha
  refine ⟨ha.weaken fun p => Or.inl, hs, hd, fun a he => ?_, fun l he => ?_⟩
  · rw [hl'.lowered] at he
    cases he
  · rw [hl'.layouts] at he
    cases he

/-- Once its machine type is noted, `t` is no longer pending. -/
theorem Yields.remember (hy : Yields Z pending t s h s') (ht : ¬pending t) :
    Ensures (remember t h) s' fun _ s'' => s''.Sound Z pending ∧ s.Advances pending s'' ∧ s''.lowered[t]? = some h := by
  have hstep := advances_noted ht hy.entry
  show (s'.noted t h).Sound Z pending ∧ s.Advances pending (s'.noted t h) ∧ (s'.noted t h).lowered[t]? = some h
  refine ⟨⟨hy.sound.wellFormed, fun c a hc ha => ?_, fun c l hc hk => ?_⟩, hy.advances.trans hstep, ?_⟩
  · rw [lowered_noted] at ha
    by_cases htc : t = c
    · subst htc
      rw [if_pos rfl] at ha
      rw [← Option.some.inj ha]
      exact hy.described.mono hstep.refines
    · rw [if_neg htc] at ha
      exact (hy.sound.described c a (fun hp => hp.elim hc fun hct => htc hct.symm) ha).mono hstep.refines
  · rw [lowered_noted]
    by_cases htc : t = c
    · subst htc
      rw [if_pos rfl]
      exact ⟨rfl, hy.kept l hk⟩
    · rw [if_neg htc]
      exact hy.sound.kept c l (fun hp => hp.elim hc fun hct => htc hct.symm) hk
  · rw [lowered_noted, if_pos rfl]

end MachineAbi.Session
