import MachineAbi.Proofs.Lowering.Steps

/-!
# Lowering keeps sessions sound

`Sizing.lowerValue` gives every type the machine type that describes it, and keeps what other requests noted
(`Sizing.lowerValue_spec`).

Proof: by induction on the parts of the type. Each kind of type is one case of `Sizing.lowerNew_spec`, in which the parts
are lowered while the type itself is pending: it contains itself at most behind a pointer, so none of its parts asks for
it. What is placed is arranged by source layouts (`Sizing.placement?`), since each part has been found to be laid out
as its type (`Sound.layoutOf_lowered`).
-/

namespace MachineAbi

open Session

/-- The action keeps the session sound and what it notes, and satisfies `post`. -/
def Proceeds {α : Type} (Z : Sizing) (pending : TypeId → Prop) (s : Session) (act : StateM Session α)
    (post : α → Session → Prop) : Prop :=
  Ensures act s fun a s' => s'.Sound Z pending ∧ s.Advances pending s' ∧ post a s'

/-- The action gives the machine type of type `t` and notes it. -/
def Lowers (Z : Sizing) (pending : TypeId → Prop) (t : TypeId) (act : StateM Session Handle) : Prop :=
  ∀ s : Session, s.Sound Z pending → Proceeds Z pending s act fun h s' => s'.lowered[t]? = some h

namespace Proceeds

variable {α β : Type} {Z : Sizing} {pending : TypeId → Prop} {s : Session} {act : StateM Session α}

protected theorem pure {a : α} {post : α → Session → Prop} (hs : s.Sound Z pending) (h : post a s) :
    Proceeds Z pending s (pure a) post :=
  Upholds.pure hs h

protected theorem bind {next : α → StateM Session β} {mid : α → Session → Prop} {post : β → Session → Prop}
    (h : Proceeds Z pending s act mid)
    (hnext : ∀ a s', s'.Sound Z pending → s.Advances pending s' → mid a s' → Proceeds Z pending s' (next a) post) :
    Proceeds Z pending s (act >>= next) post :=
  Upholds.bind h hnext

theorem map_bind {γ : Type} {f : α → γ} {next : γ → StateM Session β} {mid : α → Session → Prop}
    {post : β → Session → Prop} (h : Proceeds Z pending s act mid)
    (hnext : ∀ a s', s'.Sound Z pending → s.Advances pending s' → mid a s' → Proceeds Z pending s' (next (f a)) post) :
    Proceeds Z pending s ((f <$> act) >>= next) post :=
  Upholds.map_bind h hnext

theorem pure_bind {a : α} {next : α → StateM Session β} {post : β → Session → Prop}
    (h : Proceeds Z pending s (next a) post) : Proceeds Z pending s (pure a >>= next) post :=
  h

protected theorem mono {post weak : α → Session → Prop} (h : Proceeds Z pending s act post)
    (hw : ∀ a s', s'.Sound Z pending → s.Advances pending s' → post a s' → weak a s') :
    Proceeds Z pending s act weak :=
  Upholds.mono h hw

/-- An action on the machine types of a session. -/
theorem onTable {act : StateM Table α} {post : α → Session → Prop} (hs : s.Sound Z pending)
    (h : Ensures act s.table fun a table => s.table.Extends table ∧ post a (s.withTable table)) :
    Proceeds Z pending s (onTable act) post :=
  ⟨hs.withTable h.1, advances_withTable h.1, h.2⟩

theorem intern {m : MachineType} (hm : Table.IsStructural m) (hs : s.Sound Z pending) :
    Proceeds Z pending s (Session.onTable (Table.intern m)) fun h s' => s'.table.Stores h m :=
  onTable hs (Table.intern_spec hm)

theorem bytes (len : Nat) (hs : s.Sound Z pending) :
    Proceeds Z pending s (Session.onTable (Table.bytes len)) fun h s' => s'.table.StoresBytes h len :=
  onTable hs (Table.bytes_spec len)

end Proceeds

namespace Session.Yields

variable {Z : Sizing} {pending : TypeId → Prop} {s s' s'' : Session} {t : TypeId} {h : Handle}

theorem of_later (hy : Yields Z pending t s' h s'') (ha : s.Advances (Besides pending t) s') :
    Yields Z pending t s h s'' :=
  { hy with advances := (ha.weaken fun _ => Or.inl).trans hy.advances }

end Session.Yields

namespace Sizing

variable {Z : Sizing} {pending : TypeId → Prop} {s : Session} {t : TypeId}

/-! ## Placing parts -/

section

variable {b : AggregateBuilder} {a : Arrangement Piece} {h : Handle}

theorem push_spec {source : TypeId} {i : Item Piece} (hs : s.Sound Z pending) (hm : s.Matches b a)
    (hv : Ready Z.target s source h i) :
    Proceeds Z pending s (onTable (b.push Z.target source (some h))) fun r s' =>
      r.1 = (a.push i).1 ∧ s'.Matches r.2 (a.push i).2 :=
  .onTable hs (hm.push hv)

theorem pushAll_spec {vs : List (TypeId × Handle)} {is : List (Item Piece)} (hs : s.Sound Z pending)
    (hm : s.Matches b a) (hvs : List.Forall₂ (fun v i => Ready Z.target s v.1 v.2 i) vs is) :
    Proceeds Z pending s (onTable (AggregateBuilder.pushAll Z.target (vs.map fun v => (v.1, some v.2)) b)) fun r s' =>
      r.1 = (a.pushAll is).1 ∧ s'.Matches r.2 (a.pushAll is).2 :=
  .onTable hs (hm.pushAll hvs)

/-- An integer can be placed for a value of any type. -/
theorem ready_int (source : TypeId) {bits : Nat} (hi : s.table.Stores h (.int bits)) :
    Ready Z.target s source h (Z.intItem source bits) :=
  ⟨rfl, Table.layoutOf_int hi, hi⟩

/-- A part that takes room can be placed by the layout of its type. -/
theorem ready_part (hZ : Z.Regular) (hs : s.Sound Z pending) {c : TypeId} (hc : Z.Spares pending c)
    (hr : Z.takesRoom c = true) (hl : s.lowered[c]? = some h) : Ready Z.target s c h (Z.item c) :=
  ⟨rfl, hs.layoutOf_lowered hZ c hc hr hl, hl⟩

theorem push_none_spec {i : Item Piece} (hs : s.Sound Z pending) (hm : s.Matches b a) (hi : i.layout = .zero) :
    Proceeds Z pending s (onTable (b.push Z.target i.source none)) fun r s' =>
      r.1 = (a.push i).1 ∧ s'.Matches r.2 (a.push i).2 :=
  .onTable hs (hm.push_none hi)

end

/-! ## Finished aggregates -/

/-- An aggregate whose layout is recorded is described by its struct. -/
theorem record_spec {s₀ : Session} {h : Handle} {p : Placement} {l : AggregateLayout}
    (ha : s₀.Advances pending s) (hs : s.Sound Z (Besides pending t)) (ht : ¬pending t) (hr : Z.takesRoom t = true)
    (hnone : s.layouts[t]? = none) (hentry : ∀ a, s.lowered[t]? = some a → a = h) (hp : Z.placement? t = some p)
    (hk : s.Keeps p l) (hb : s.table.body? h = some ⟨false, l.machineFields⟩) :
    Ensures (record t l) s fun _ s' => Yields Z pending t s₀ h s' := by
  have hstep := @advances_recorded pending s t l ht hnone
  show Yields Z pending t s₀ h (s.recorded t l)
  refine ⟨ha.trans hstep, ⟨hs.wellFormed, fun c a hc ha => ?_, fun c m hc hm => ?_⟩, ?_, hentry, fun m _ => ?_⟩
  · exact (hs.described c a hc ha).mono hstep.refines
  · rw [layouts_recorded, if_neg fun htc => hc (Or.inr htc.symm)] at hm
    exact hs.kept c m hc hm
  · rw [Describes, if_pos hr, hp]
    refine ⟨l, ?_, hb, hk.mono hstep.refines⟩
    rw [layouts_recorded, if_pos rfl]
  · rw [hp]
    rfl

section

variable {fields : List FieldPlace} {tag : Option FieldPlace} {b : AggregateBuilder} {a : Arrangement Piece}

theorem keeps_layout (hm : s.Matches b a) : s.Keeps ⟨fields, tag, a⟩ (b.layout fields tag) :=
  ⟨rfl, rfl, hm.offset, hm.align, hm.machine⟩

theorem finish_spec (hs : s.Sound Z pending) (hm : s.Matches b a) :
    Proceeds Z pending s (onTable b.finish) fun b' s' => s'.Matches b' a.finish :=
  .onTable hs hm.finish

theorem finishUnnamed_spec (hs : s.Sound Z (Besides pending t)) (ht : ¬pending t) (hr : Z.takesRoom t = true)
    (hl : s.Lacks t) (hm : s.Matches b a) (hp : Z.placement? t = some ⟨fields, tag, a.finish⟩) :
    Ensures (finishUnnamed t fields tag b) s fun h s' => Yields Z pending t s h s' := by
  refine Ensures.bind (finish_spec hs hm) fun b' s₁ ⟨hs₁, ha₁, hm₁⟩ => ?_
  refine Ensures.bind (Proceeds.intern (by trivial) hs₁) fun h s₂ ⟨hs₂, ha₂, hstruct⟩ => ?_
  have ha := ha₁.trans ha₂
  have hl₂ := hl.of_advances ha
  have hm₂ := hm₁.mono ha₂.refines
  refine Ensures.bind (record_spec (ha.weaken fun _ => Or.inl) hs₂ ht hr hl₂.layouts (fun a he => ?_) hp
    (keeps_layout hm₂) (Table.body?_of_struct hstruct)) fun _ s₃ hy => Ensures.pure hy
  rw [hl₂.lowered] at he
  cases he

/-- A declared struct stands for its type, and has no body yet. -/
structure Declares (pending : TypeId → Prop) (t : TypeId) (s₀ : Session) (named : Handle) (s : Session) : Prop where
  advances : s₀.Advances pending s
  stores : s.table.Stores named (.named s₀.table.named.size)
  unset : ∃ n : NamedStruct, s.table.named[s₀.table.named.size]? = some n ∧ n.body = none
  lowered : s.lowered[t]? = some named
  layouts : s.layouts[t]? = none

theorem Declares.of_advances {s₀ s' : Session} {named : Handle} (hd : Declares pending t s₀ named s)
    (ha : s.Advances (Besides pending t) s') : Declares pending t s₀ named s' := by
  obtain ⟨n, hn, hb⟩ := hd.unset
  exact ⟨hd.advances.trans (ha.weaken fun _ => Or.inl), ha.table.types _ _ hd.stores, ⟨n, ha.table.named _ n hn, hb⟩,
    ha.lowered _ _ hd.lowered, (ha.layoutsPending t (Or.inr rfl)).trans hd.layouts⟩

/-- What declaring a struct does to a session. -/
theorem declares_declareFor (ht : ¬pending t) (hl : s.Lacks t) (name : String) :
    Ensures (declareFor t name) s fun named s' =>
      Declares pending t s named s' ∧ s' = (s.withTable s'.table).noted t named := by
  refine Ensures.bind (onTable_spec (Table.declare_spec name)) fun named s₁ ⟨hs₁, hext, hstores, hn⟩ => ?_
  have ha : s.Advances pending (s.withTable s₁.table) := advances_withTable hext
  have hnone : s₁.lowered[t]? = none := by
    rw [hs₁]
    exact hl.lowered
  have hstep : s₁.Advances pending (s₁.noted t named) := advances_noted ht fun a he => by
    rw [hnone] at he
    cases he
  rw [← hs₁] at ha
  show Declares pending t s named (s₁.noted t named) ∧ s₁.noted t named = (s.withTable s₁.table).noted t named
  refine ⟨⟨ha.trans hstep, hstores, ⟨_, hn, rfl⟩, ?_, ?_⟩, congrArg (·.noted t named) hs₁⟩
  · rw [lowered_noted, if_pos rfl]
  · show s₁.layouts[t]? = none
    rw [hs₁]
    exact hl.layouts

theorem declareFor_spec (hs : s.Sound Z pending) (ht : ¬pending t) (hl : s.Lacks t) (name : String) :
    Ensures (declareFor t name) s fun named s' =>
      s'.Sound Z (Besides pending t) ∧ Declares pending t s named s' := by
  refine (declares_declareFor ht hl name).mono fun named s' ⟨hd, hs'⟩ => ⟨?_, hd⟩
  have hr := hd.advances.refines
  refine ⟨hd.advances.table.wellFormed hs.wellFormed, fun c a hc he => ?_, fun c l hc hk => ?_⟩
  · rw [hs', lowered_noted, if_neg fun htc => hc (Or.inr htc.symm)] at he
    exact (hs.described c a (fun hp => hc (Or.inl hp)) he).mono hr
  · rw [hs'] at hk
    rw [hs', lowered_noted, if_neg fun htc => hc (Or.inr htc.symm)]
    exact hs.kept c l (fun hp => hc (Or.inl hp)) hk

/-- Giving a declared struct its body changes nothing else. -/
theorem Declares.setBody {s₀ : Session} {named : Handle} (hs : s.Sound Z (Besides pending t))
    (hd : Declares pending t s₀ named s) (body : StructBody) :
    Ensures (onTable (Table.setBody named body)) s fun _ s' =>
      s'.Sound Z (Besides pending t) ∧ s.Refines s' ∧ s₀.Advances pending s' ∧ s'.lowered = s.lowered ∧
        s'.layouts = s.layouts ∧ s'.table.body? named = some body := by
  obtain ⟨n, hn, hb⟩ := hd.unset
  refine (onTable_spec (Table.setBody_spec body hd.stores hn hb)).mono fun _ s' ⟨hs', hfills⟩ => ?_
  have hr : s.Refines s' := by
    rw [hs']
    exact ⟨hfills.refines (by simp [Table.bodyAt?, hn, hb]), fun _ _ h => h, fun _ _ h => h⟩
  refine ⟨?_, hr, ?_, by rw [hs']; rfl, by rw [hs']; rfl, hfills.body? hd.stores⟩
  · refine ⟨hfills.wellFormed hs.wellFormed, fun c a hc ha => ?_, fun c l hc hl => ?_⟩
    · rw [hs'] at ha
      exact (hs.described c a hc ha).mono hr
    · rw [hs'] at hl ⊢
      exact hs.kept c l hc hl
  · have hext : s₀.table.Extends s'.table := hd.advances.table.fill hfills
    rw [hs'] at hext ⊢
    exact ⟨hext, hd.advances.lowered, hd.advances.layouts, hd.advances.loweredPending, hd.advances.layoutsPending⟩

theorem finishNamed_spec {s₀ : Session} {named : Handle} (hs : s.Sound Z (Besides pending t)) (ht : ¬pending t)
    (hr : Z.takesRoom t = true) (hd : Declares pending t s₀ named s) (hm : s.Matches b a)
    (hp : Z.placement? t = some ⟨fields, tag, a.finish⟩) :
    Ensures (finishNamed t named fields tag b) s fun h s' => Yields Z pending t s₀ h s' := by
  refine Ensures.bind (finish_spec hs hm) fun b' s₁ ⟨hs₁, ha₁, hm₁⟩ => ?_
  have hd₁ := hd.of_advances ha₁
  refine Ensures.bind (hd₁.setBody hs₁ ⟨false, b'.machine⟩)
    fun _ s₂ ⟨hs₂, hrefines, ha₂, hlowered, hlayouts, hbody⟩ => ?_
  refine Ensures.bind (record_spec ha₂ hs₂ ht hr ?_ (fun a he => ?_) hp (keeps_layout (hm₁.mono hrefines)) hbody)
    fun _ s₃ hy => Ensures.pure hy
  · rw [hlayouts]
    exact hd₁.layouts
  · rw [hlowered, hd₁.lowered] at he
    exact (Option.some.inj he).symm

end

/-! ## One kind of type at a time -/

/-- The parts of type `t` that take room are lowered as they should be, while `t` is pending. -/
def LowersParts (Z : Sizing) (pending : TypeId → Prop) (t : TypeId) (lowerPart : Z.PartLowering t) : Prop :=
  ∀ c hc, Z.takesRoom c = true → Lowers Z (Besides pending t) c (lowerPart c hc)

section

variable {lowerPart : Z.PartLowering t}

theorem lowerFields_spec (hZ : Z.Regular) (ht : Z.Spares pending t) (hpart : Z.LowersParts pending t lowerPart)
    (fields : List FieldTy) (hf : ∀ c ∈ storedTypes fields, c ∈ Z.parts t) {s : Session} {b : AggregateBuilder}
    {a : Arrangement Piece} (hs : s.Sound Z (Besides pending t)) (hm : s.Matches b a) :
    Proceeds Z (Besides pending t) s (Z.lowerFields lowerPart fields hf b) fun r s' =>
      r.1 = (a.pushAll (fields.map Z.fieldItem)).1 ∧ s'.Matches r.2 (a.pushAll (fields.map Z.fieldItem)).2 := by
  induction fields generalizing s b a with
  | nil => exact .pure hs ⟨rfl, hm⟩
  | cons f fields ih =>
    have hrest : ∀ c ∈ storedTypes fields, c ∈ Z.parts t := by
      intro c hc
      obtain ⟨g, hg, rfl⟩ := List.mem_map.1 hc
      exact hf g.ty (List.mem_map.2 ⟨g, List.mem_filter.2 ⟨List.mem_cons_of_mem _ (List.mem_filter.1 hg).1,
        (List.mem_filter.1 hg).2⟩, rfl⟩)
    have rest : ∀ {s' : Session} {r : FieldPlace × AggregateBuilder}, s'.Sound Z (Besides pending t) →
        r.1 = (a.push (Z.fieldItem f)).1 ∧ s'.Matches r.2 (a.push (Z.fieldItem f)).2 →
        Proceeds Z (Besides pending t) s' (Z.lowerFields lowerPart fields hrest r.2 >>= fun q =>
          return (r.1 :: q.1, q.2)) fun r s' =>
            r.1 = (a.pushAll ((f :: fields).map Z.fieldItem)).1 ∧
              s'.Matches r.2 (a.pushAll ((f :: fields).map Z.fieldItem)).2 := by
      rintro s' ⟨place, b'⟩ hs' ⟨hplace, hm'⟩
      refine (ih hrest hs' hm').bind ?_
      rintro ⟨places, b''⟩ s'' hs'' - ⟨hplaces, hm''⟩
      refine .pure hs'' ⟨?_, hm''⟩
      rw [List.map_cons, Arrangement.pushAll, ← hplaces, ← hplace]
    unfold Sizing.lowerFields
    by_cases h : f.isComptime = false ∧ Z.takesRoom f.ty = true
    · have hc : f.ty ∈ Z.parts t := hf f.ty (by simp [storedTypes, h.1])
      have hitem : Z.fieldItem f = Z.item f.ty := by simp [fieldItem, item, h.1]
      simp only [dif_pos h]
      refine Proceeds.map_bind (hpart f.ty hc h.2 s hs) fun e s₁ hs₁ ha₁ hl => ?_
      refine Proceeds.bind (push_spec hs₁ (hm.mono ha₁.refines) (ready_part hZ hs₁ (ht.part hc h.2) h.2 hl))
        fun r s₂ hs₂ _ hr => ?_
      rw [← hitem] at hr
      exact rest hs₂ hr
    · have hitem : (Z.fieldItem f).layout = .zero := by
        unfold fieldItem
        dsimp only
        split
        · rfl
        · rename_i hc
          refine layout_of_not_takesRoom hZ.supported (Bool.eq_false_iff.2 fun hr => h ⟨?_, hr⟩)
          exact Bool.eq_false_iff.2 hc
      simp only [dif_neg h]
      refine Proceeds.pure_bind ?_
      exact Proceeds.bind (@push_none_spec Z _ s b a (Z.fieldItem f) hs hm hitem) fun r s₁ hs₁ _ hr => rest hs₁ hr

theorem lowerTuple_spec (hZ : Z.Regular) (ht : Z.Spares pending t) (hpart : Z.LowersParts pending t lowerPart)
    (hr : Z.takesRoom t = true) {fields : List FieldTy} (hf : ∀ c ∈ storedTypes fields, c ∈ Z.parts t)
    (hp : Z.placement? t = some (Z.inOrder fields)) (hs : s.Sound Z pending) (hl : s.Lacks t) :
    Ensures (Z.lowerTuple lowerPart fields hf) s fun h s' => Yields Z pending t s h s' := by
  refine Ensures.bind (lowerFields_spec hZ ht hpart fields hf (hs.besides t) (.empty s)) ?_
  rintro ⟨_, b⟩ s₁ ⟨hs₁, ha₁, rfl, hm⟩
  refine (finishUnnamed_spec hs₁ ht.not_pending hr (hl.of_advances ha₁) hm ?_).mono fun h s₂ hy => hy.of_later ha₁
  exact hp

theorem lowerStruct_spec (hZ : Z.Regular) (ht : Z.Spares pending t) (hpart : Z.LowersParts pending t lowerPart)
    (hr : Z.takesRoom t = true) {str : StructTy} (hf : ∀ c ∈ str.stored, c ∈ Z.parts t)
    (hp : Z.placement? t = some (Z.inOrder str.fieldTys)) (hs : s.Sound Z pending) (hl : s.Lacks t) :
    Ensures (Z.lowerStruct lowerPart str hf) s fun h s' => Yields Z pending t s h s' := by
  refine Ensures.bind (declareFor_spec hs ht.not_pending hl str.name) fun named s₁ ⟨hs₁, hd⟩ => ?_
  refine Ensures.bind (lowerFields_spec hZ ht hpart str.fieldTys hf hs₁ (.empty s₁)) ?_
  rintro ⟨_, b⟩ s₂ ⟨hs₂, ha₂, rfl, hm⟩
  refine finishNamed_spec hs₂ ht.not_pending hr (hd.of_advances ha₂) hm ?_
  exact hp

/-! ### Slices, optionals and error unions -/

theorem lowerSlice_spec (hs : s.Sound Z pending) (space : Nat) :
    Proceeds Z pending s (onTable (lowerSlice Z.target t space)) fun h s' =>
      ∃ hs, s'.table.Stores h (.struct false hs) ∧ s'.RealizesAll hs (Z.sliceBuilt t space) := by
  unfold lowerSlice
  simp only [onTable_bind]
  refine Proceeds.bind (.intern (by trivial) hs) fun ptr s₁ hs₁ _ hptr => ?_
  refine Proceeds.bind (.intern (by trivial) hs₁) fun len s₂ hs₂ ha₂ hlen => ?_
  have hptr := ha₂.table.types _ _ hptr
  have ready : List.Forall₂ (fun v i => Ready Z.target s₂ v.1 v.2 i) [(t, ptr), (t, len)]
      [⟨t, .ptr space, Z.target.machinePtr space⟩, Z.intItem t Z.target.ptrBits] :=
    .cons ⟨rfl, Table.layoutOf_ptr hptr, hptr⟩ (.cons (ready_int t hlen) .nil)
  have hplaced := pushAll_spec hs₂ (.empty s₂) ready
  refine Proceeds.bind hplaced ?_
  rintro ⟨_, b⟩ s₃ hs₃ - ⟨-, hm₃⟩
  refine Proceeds.bind (finish_spec hs₃ hm₃) fun b' s₄ hs₄ _ hm₄ => ?_
  refine (Proceeds.intern (by trivial) hs₄).mono fun h s₅ hs₅ ha₅ hstruct => ?_
  exact ⟨b'.machine, hstruct, (hm₄.mono ha₅.refines).machine⟩

theorem lowerFlagged_spec (hZ : Z.Regular) (ht : Z.Spares pending t) (hpart : Z.LowersParts pending t lowerPart)
    (hr : Z.takesRoom t = true) {child : TypeId} (hc : child ∈ Z.parts t) (hrc : Z.takesRoom child = true)
    (hp : Z.placement? t = some (besideTag false (some (Z.intItem .u8 8)) (some (Z.item child)) (·.toList)))
    (hs : s.Sound Z pending) (hl : s.Lacks t) :
    Ensures (Z.lowerFlagged lowerPart child hc) s fun h s' => Yields Z pending t s h s' := by
  refine Ensures.bind (hpart child hc hrc s (hs.besides t)) fun payload s₁ ⟨hs₁, ha₁, hpayload⟩ => ?_
  refine Ensures.bind (Proceeds.intern (by trivial) hs₁) fun flag s₂ ⟨hs₂, ha₂, hflag⟩ => ?_
  refine Ensures.bind (push_spec hs₂ (.empty s₂) (ready_part hZ hs₂ (ht.part hc hrc) hrc (ha₂.lowered _ _ hpayload))) ?_
  rintro ⟨_, b⟩ s₃ ⟨hs₃, ha₃, rfl, hm₃⟩
  refine Ensures.bind (push_spec hs₃ hm₃ (ready_int .u8 (ha₃.table.types _ _ hflag))) ?_
  rintro ⟨_, b'⟩ s₄ ⟨hs₄, ha₄, rfl, hm₄⟩
  have ha := ((ha₁.trans ha₂).trans ha₃).trans ha₄
  refine (finishUnnamed_spec hs₄ ht.not_pending hr (hl.of_advances ha) hm₄ ?_).mono fun h s₅ hy => hy.of_later ha
  exact hp

theorem lowerErrorUnion_spec (hZ : Z.Regular) (ht : Z.Spares pending t) (hpart : Z.LowersParts pending t lowerPart)
    (hr : Z.takesRoom t = true) {set payload : TypeId} (hc : payload ∈ Z.parts t) (hrc : Z.takesRoom payload = true)
    {codeFirst : Bool}
    (hp : Z.placement? t =
      some (besideTag codeFirst (some (Z.intItem set errorCodeBits)) (some (Z.item payload)) (·.toList)))
    (hs : s.Sound Z pending) (hl : s.Lacks t) :
    Ensures (Z.lowerErrorUnion lowerPart codeFirst set payload hc) s fun h s' => Yields Z pending t s h s' := by
  refine Ensures.bind (Proceeds.intern (by trivial) (hs.besides t)) fun code s₁ ⟨hs₁, ha₁, hcode⟩ => ?_
  refine Ensures.bind (hpart payload hc hrc s₁ hs₁) fun value s₂ ⟨hs₂, ha₂, hvalue⟩ => ?_
  cases codeFirst with
  | true =>
    refine Ensures.bind (push_spec hs₂ (.empty s₂) (ready_int set (ha₂.table.types _ _ hcode))) ?_
    rintro ⟨_, b⟩ s₃ ⟨hs₃, ha₃, rfl, hm₃⟩
    refine Ensures.bind (push_spec hs₃ hm₃ (ready_part hZ hs₃ (ht.part hc hrc) hrc (ha₃.lowered _ _ hvalue))) ?_
    rintro ⟨_, b'⟩ s₄ ⟨hs₄, ha₄, rfl, hm₄⟩
    have ha := ((ha₁.trans ha₂).trans ha₃).trans ha₄
    refine (finishUnnamed_spec hs₄ ht.not_pending hr (hl.of_advances ha) hm₄ ?_).mono fun h s₅ hy => hy.of_later ha
    exact hp
  | false =>
    refine Ensures.bind (push_spec hs₂ (.empty s₂) (ready_part hZ hs₂ (ht.part hc hrc) hrc hvalue)) ?_
    rintro ⟨_, b⟩ s₃ ⟨hs₃, ha₃, rfl, hm₃⟩
    refine Ensures.bind (push_spec hs₃ hm₃ (ready_int set ((ha₂.trans ha₃).table.types _ _ hcode))) ?_
    rintro ⟨_, b'⟩ s₄ ⟨hs₄, ha₄, rfl, hm₄⟩
    have ha := ((ha₁.trans ha₂).trans ha₃).trans ha₄
    refine (finishUnnamed_spec hs₄ ht.not_pending hr (hl.of_advances ha) hm₄ ?_).mono fun h s₅ hy => hy.of_later ha
    exact hp

/-! ### Unions -/

/-- An item is to be placed exactly if there is a machine value for it. -/
def ReadyOption (T : Target) (s : Session) (v? : Option (TypeId × Handle)) (i? : Option (Item Piece)) : Prop :=
  Option.Rel (fun v i => Ready T s v.1 v.2 i) v? i?

theorem ReadyOption.mono {T : Target} {s' : Session} {v? : Option (TypeId × Handle)} {i? : Option (Item Piece)}
    (h : ReadyOption T s v? i?) (hr : s.Refines s') : ReadyOption T s' v? i? := by
  cases h with
  | none => exact .none
  | some hv => exact .some (hv.mono hr)

theorem pushOptional_spec {b : AggregateBuilder} {a : Arrangement Piece} {v? : Option (TypeId × Handle)}
    {i? : Option (Item Piece)} (hs : s.Sound Z pending) (hm : s.Matches b a) (hv : ReadyOption Z.target s v? i?) :
    Proceeds Z pending s (onTable (pushOptional Z.target b v?)) fun r s' =>
      r.1 = (a.pushOption i?).1 ∧ s'.Matches r.2 (a.pushOption i?).2 := by
  cases hv with
  | none => exact ⟨hs, .refl s, rfl, hm⟩
  | @some v i hv =>
    obtain ⟨source, h⟩ := v
    unfold pushOptional
    simp only [onTable_bind]
    refine Proceeds.bind (push_spec hs hm hv) ?_
    rintro ⟨_, b'⟩ s₁ hs₁ - ⟨rfl, hm₁⟩
    exact ⟨hs₁, .refl s₁, rfl, hm₁⟩

theorem lowerPayload_spec (hZ : Z.Regular) (ht : Z.Spares pending t) (hpart : Z.LowersParts pending t lowerPart)
    {u : UnionTy} (hu : ∀ c ∈ u.memberTypes, c ∈ Z.parts t) (hroom : (Z.payloadLayout u).size ≤ Layout.maxSize)
    (hs : s.Sound Z (Besides pending t)) :
    Proceeds Z (Besides pending t) s (Z.lowerPayload lowerPart u hu) fun r s' =>
      r.bind (·.filledBy) = Z.filledBy? u ∧
        ReadyOption Z.target s' (r.map fun p => (p.source, p.handle)) (Z.heldItem? u) := by
  unfold lowerPayload
  split
  · rename_i hw
    refine .pure hs ⟨by simp [filledBy?, hw], ?_⟩
    rw [heldItem?, hw]
    exact .none
  · rename_i c i hw
    have hrc : Z.takesRoom c = true := (getElem?_widestMember hw).2
    have hc : c ∈ Z.parts t := hu c (mem_of_widestMember hw)
    have hitem : Z.heldItem? u = some ⟨c, Z.heldPiece u c, Z.payloadLayout u⟩ := by simp [heldItem?, hw]
    have hlayout := layout_heldPiece hZ hw
    rw [hitem]
    refine Proceeds.bind (hpart c hc hrc s hs) fun h s₁ hs₁ _ hl => ?_
    have hvalue := hs₁.layoutOf_lowered hZ c (ht.part hc hrc) hrc hl
    dsimp only
    split
    · rename_i hlt
      have hpiece : Z.heldPiece u c = .padded c ((Z.payloadLayout u).size - (Z.layout c).size) := if_pos hlt
      rw [hpiece] at hlayout ⊢
      refine Proceeds.bind (.bytes _ hs₁) fun pad s₂ hs₂ ha₂ hpad => ?_
      refine Proceeds.bind (.intern (by trivial) hs₂) fun padded s₃ hs₃ ha₃ hstruct => ?_
      have ha := ha₂.trans ha₃
      refine .pure hs₃ ⟨by simp [filledBy?, hw, hlt], .some ⟨rfl, ?_, ?_⟩⟩
      · have hpad := ha₃.refines.table.storesBytes hpad
        rw [Sound.layoutOf_padded hZ.supported hstruct (ha.refines.table.layoutOf hvalue) hpad
          (Nat.le_trans (Nat.sub_le _ _) hroom)]
        exact congrArg some hlayout
      · exact ⟨h, pad, hstruct, ha.lowered _ _ hl, ha₃.refines.table.storesBytes hpad⟩
    · rename_i hlt
      have hpiece : Z.heldPiece u c = .value c := if_neg hlt
      rw [hpiece] at hlayout ⊢
      refine .pure hs₁ ⟨by simp [filledBy?, hw, hlt], .some ⟨rfl, ?_, hl⟩⟩
      rw [← hlayout]
      exact hvalue

theorem lowerTag_spec (hZ : Z.Regular) (ht : Z.Spares pending t) (hpart : Z.LowersParts pending t lowerPart)
    {u : UnionTy} (hu : ∀ c, Z.storedTag? u = some c → c ∈ Z.parts t) (hs : s.Sound Z (Besides pending t)) :
    Proceeds Z (Besides pending t) s (Z.lowerTag lowerPart u hu) fun r s' =>
      ReadyOption Z.target s' r ((Z.storedTag? u).map Z.item) := by
  unfold lowerTag
  split
  · rename_i htag
    rw [htag]
    exact .pure hs .none
  · rename_i tag htag
    have hrt : Z.takesRoom tag = true := (Option.filter_eq_some_iff.1 htag).2
    have hc : tag ∈ Z.parts t := hu tag htag
    have hitem : (Z.storedTag? u).map Z.item = some (Z.item tag) := by rw [htag]; rfl
    simp only [hitem]
    refine Proceeds.bind (hpart tag hc hrt s hs) fun h s₁ hs₁ _ hl => ?_
    exact .pure hs₁ (.some (ready_part hZ hs₁ (ht.part hc hrt) hrt hl))

theorem lowerUnion_spec (hZ : Z.Regular) (ht : Z.Spares pending t) (hpart : Z.LowersParts pending t lowerPart)
    (hr : Z.takesRoom t = true) {u : UnionTy} (hm : ∀ c ∈ u.memberTypes, c ∈ Z.parts t)
    (htag : ∀ c, Z.storedTag? u = some c → c ∈ Z.parts t) (hroom : (Z.payloadLayout u).size ≤ Layout.maxSize)
    (hp : Z.placement? t = some (besideTag (Z.tagComesFirst u) ((Z.storedTag? u).map Z.item) (Z.heldItem? u)
      (Z.memberPlaces u (Z.filledBy? u))))
    (hs : s.Sound Z pending) (hl : s.Lacks t) :
    Ensures (Z.lowerUnion lowerPart u hm htag) s fun h s' => Yields Z pending t s h s' := by
  refine Ensures.bind (declareFor_spec hs ht.not_pending hl u.name) fun named s₁ ⟨hs₁, hd₁⟩ => ?_
  refine Ensures.bind (lowerPayload_spec hZ ht hpart hm hroom hs₁) fun payload s₂ ⟨hs₂, ha₂, hfilled, hheld⟩ => ?_
  refine Ensures.bind (lowerTag_spec hZ ht hpart htag hs₂) fun tag s₃ ⟨hs₃, ha₃, htagged⟩ => ?_
  have hheld := hheld.mono ha₃.refines
  have hd₃ := (hd₁.of_advances ha₂).of_advances ha₃
  have hfirst : (tag.any fun v => (Z.layout v.1).tagFirst (Z.payloadLayout u)) = Z.tagComesFirst u := by
    unfold tagComesFirst
    cases htag : Z.storedTag? u with
    | none =>
      rw [htag] at htagged
      cases htagged
      rfl
    | some c =>
      rw [htag] at htagged
      cases htagged with
      | some hv =>
        rename_i v
        rw [Option.any_some, Option.any_some, ← hv.source]
        rfl
  cases hf : Z.tagComesFirst u with
  | true =>
    rw [hf] at hfirst hp
    simp only [hfirst, if_true]
    refine Ensures.bind (pushOptional_spec hs₃ (.empty s₃) htagged) ?_
    rintro ⟨_, b⟩ s₄ ⟨hs₄, ha₄, rfl, hm₄⟩
    refine Ensures.bind (pushOptional_spec hs₄ hm₄ (hheld.mono ha₄.refines)) ?_
    rintro ⟨_, b'⟩ s₅ ⟨hs₅, ha₅, rfl, hm₅⟩
    refine finishNamed_spec hs₅ ht.not_pending hr ((hd₃.of_advances ha₄).of_advances ha₅) hm₅ ?_
    rw [hp, hfilled]
    rfl
  | false =>
    rw [hf] at hfirst hp
    simp only [hfirst, if_false, Bool.false_eq_true]
    refine Ensures.bind (pushOptional_spec hs₃ (.empty s₃) hheld) ?_
    rintro ⟨_, b⟩ s₄ ⟨hs₄, ha₄, rfl, hm₄⟩
    refine Ensures.bind (pushOptional_spec hs₄ hm₄ (htagged.mono ha₄.refines)) ?_
    rintro ⟨_, b'⟩ s₅ ⟨hs₅, ha₅, rfl, hm₅⟩
    refine finishNamed_spec hs₅ ht.not_pending hr ((hd₃.of_advances ha₄).of_advances ha₅) hm₅ ?_
    rw [hp, hfilled]
    rfl

/-! ## All types -/

theorem describes_empty {h : Handle} (hr : Z.takesRoom t = false) (hd : s.DescribesEmpty Z t h) : s.Describes Z t h := by
  rw [Describes, if_neg (by simp [hr])]
  exact hd

theorem describes_plain {h : Handle} (hr : Z.takesRoom t = true) (hp : Z.placement? t = none)
    (hd : s.DescribesPlain Z t h) : s.Describes Z t h := by
  rw [Describes, if_pos hr, hp]
  exact hd

/-- A machine type that describes its type as soon as it is found. -/
theorem yields_of_proceeds {act : StateM Session Handle} (hl : s.Lacks t)
    (h : Proceeds Z (Besides pending t) s act fun a s' => s'.Describes Z t a) :
    Ensures act s fun a s' => Yields Z pending t s a s' :=
  Ensures.mono h fun _ _ ⟨hs', ha, hd⟩ => Yields.of_advances ha hs' hl hd

/-- One machine type for all values of a type. -/
theorem yields_intern {m : MachineType} (hs : s.Sound Z pending) (hl : s.Lacks t) (hm : Table.IsStructural m)
    (hd : ∀ (a : Handle) (s' : Session), s'.table.Stores a m → s'.Describes Z t a) :
    Ensures (onTable (Table.intern m)) s fun a s' => Yields Z pending t s a s' :=
  yields_of_proceeds hl ((Proceeds.intern hm (hs.besides t)).mono fun a s' _ _ ha => hd a s' ha)

/-- A type that is represented as one of its parts. -/
theorem yields_part (hpart : Z.LowersParts pending t lowerPart) {c : TypeId}
    (hc : c ∈ Z.parts t) (hr : Z.takesRoom c = true) (hs : s.Sound Z pending) (hl : s.Lacks t)
    (hd : ∀ (a : Handle) (s' : Session), s'.lowered[c]? = some a → s'.Describes Z t a) :
    Ensures (lowerPart c hc) s fun a s' => Yields Z pending t s a s' :=
  yields_of_proceeds hl ((hpart c hc hr s (hs.besides t)).mono fun a s' _ _ ha => hd a s' ha)

/-- Values of a type without room have no machine type, whatever the kind. -/
theorem yields_stored {act : StateM Session Handle} (hs : s.Sound Z pending) (hl : s.Lacks t)
    (hact : Z.takesRoom t = true → Ensures act s fun h s' => Yields Z pending t s h s')
    (hempty : ∀ (a : Handle) (s' : Session), s'.table.Stores a .void → s'.DescribesEmpty Z t a) :
    Ensures (if Z.takesRoom t then act else onTable Table.void) s fun h s' => Yields Z pending t s h s' := by
  cases hr : Z.takesRoom t with
  | true => exact hact hr
  | false => exact yields_intern hs hl (by trivial) fun a s' ha => describes_empty hr (hempty a s' ha)

/-- A packed container is lowered as one integer, whose width is not cut off. -/
theorem lowerPacked_spec (hZ : Z.Regular) (hs : s.Sound Z pending) (hl : s.Lacks t) (hr : Z.takesRoom t = true)
    (hd : (Z.get t).isPackedContainer = true) (hp : Z.placement? t = none) :
    Ensures (onTable (Z.lowerPacked t)) s fun h s' => Yields Z pending t s h s' := by
  unfold lowerPacked
  rw [Nat.mod_eq_of_lt (hZ.packed t hd)]
  refine yields_intern hs hl (by trivial) fun a s' ha => describes_plain hr hp ?_
  unfold DescribesPlain
  cases hg : Z.get t with
  | struct | union => exact ha
  | _ => simp [hg, Ty.isPackedContainer] at hd

theorem lowerArray_spec (hpart : Z.LowersParts pending t lowerPart) (hs : s.Sound Z pending) (hl : s.Lacks t) {len : Nat}
    {child : TypeId} {sentinel : Bool} (hd : Z.get t = .array len child sentinel)
    (hn : elementCount len sentinel ≠ 0) (hc : child ∈ Z.parts t) :
    Ensures (if Z.takesRoom child then lowerPart child hc >>= fun elem =>
        onTable (Table.array (elementCount len sentinel) elem)
      else onTable (Table.bytes (elementCount len sentinel))) s fun h s' => Yields Z pending t s h s' := by
  have hroom := Z.takesRoom_eq t
  rw [hd] at hroom
  cases hrc : Z.takesRoom child with
  | true =>
    have hr : Z.takesRoom t = true := by simp [hroom, hn, hrc]
    have harray : Proceeds Z (Besides pending t) s (lowerPart child hc >>= fun elem =>
        onTable (Table.array (elementCount len sentinel) elem)) fun a s' => s'.Describes Z t a := by
      refine (hpart child hc hrc s (hs.besides t)).bind fun elem s₁ hs₁ _ helem => ?_
      refine (Proceeds.intern (by trivial) hs₁).mono fun a s' _ ha₂ harray => ?_
      refine describes_plain hr (by simp [placement?, hd]) ?_
      rw [DescribesPlain, hd]
      exact ⟨elem, harray, ha₂.lowered _ _ helem⟩
    exact yields_of_proceeds hl harray
  | false =>
    exact yields_of_proceeds hl ((Proceeds.bytes _ (hs.besides t)).mono fun a s' _ _ ha =>
      describes_empty (by simp [hroom, hrc]) (by simpa [DescribesEmpty, hd, hn] using ha))

/-- A vector of single bits, or of what its elements are lowered as. -/
theorem lowerVector_spec (hpart : Z.LowersParts pending t lowerPart) (hs : s.Sound Z pending) (hl : s.Lacks t) {len : Nat}
    {child : TypeId} (hd : Z.get t = .vector len child) (hr : Z.takesRoom t = true) (hc : child ∈ Z.parts t) :
    Ensures (if Z.get child = .bool then onTable (Table.int 1) >>= fun elem => onTable (Table.vector len elem)
      else lowerPart child hc >>= fun elem => onTable (Table.vector len elem)) s fun h s' => Yields Z pending t s h s' := by
  have hrc : Z.takesRoom child = true := by
    rw [Z.takesRoom_eq, hd] at hr
    exact (Bool.and_eq_true_iff.1 hr).2
  have vector : ∀ {act : StateM Session Handle} {post : Handle → Session → Prop},
      Proceeds Z (Besides pending t) s act post →
      (∀ e s' s'', post e s' → s'.Advances (Besides pending t) s'' →
        if Z.get child = .bool then s''.table.Stores e (.int 1) else s''.lowered[child]? = some e) →
      Ensures (act >>= fun e => onTable (Table.vector len e)) s fun h s' => Yields Z pending t s h s' := by
    intro act post hact hpost
    refine yields_of_proceeds hl (hact.bind fun elem s₁ hs₁ _ he => ?_)
    refine (Proceeds.intern (by trivial) hs₁).mono fun a s' _ ha₂ hvector => ?_
    refine describes_plain hr (by simp [placement?, hd]) ?_
    rw [DescribesPlain, hd]
    exact ⟨elem, hvector, hpost elem s₁ s' he ha₂⟩
  split
  · rename_i hb
    exact vector (.intern (by trivial) (hs.besides t)) fun e s' s'' he ha => by
      rw [if_pos hb]
      exact ha.table.types _ _ he
  · rename_i hb
    exact vector (hpart child hc hrc s (hs.besides t)) fun e s' s'' he ha => by
      rw [if_neg hb]
      exact ha.lowered _ _ he

theorem lowerOptional_spec (hZ : Z.Regular) (ht : Z.Spares pending t) (hpart : Z.LowersParts pending t lowerPart)
    (hs : s.Sound Z pending) (hl : s.Lacks t) {child : TypeId} (hd : Z.get t = .optional child) (hc : child ∈ Z.parts t) :
    Ensures (match Z.optionalRepr child with
      | .flagOnly => onTable (Table.int 8)
      | .payload => lowerPart child hc
      | .payloadAndFlag => Z.lowerFlagged lowerPart child hc) s fun h s' => Yields Z pending t s h s' := by
  have hr : Z.takesRoom t = true := by rw [Z.takesRoom_eq, hd]
  have hrc := Z.room_of_optionalRepr child
  split
  all_goals
    rename_i hrepr
    rw [hrepr] at hrc
  · exact yields_intern hs hl (by trivial) fun a s' ha =>
      describes_plain hr (by simp [placement?, hd, hrepr]) (by simpa [DescribesPlain, hd, hrepr] using ha)
  · exact yields_part hpart hc hrc hs hl fun a s' ha =>
      describes_plain hr (by simp [placement?, hd, hrepr]) (by simpa [DescribesPlain, hd, hrepr] using ha)
  · exact lowerFlagged_spec hZ ht hpart hr hc hrc (by simp [placement?, hr, hd, hrepr]) hs hl

/-- An error union in any representation. -/
theorem lowerHalves_spec (hZ : Z.Regular) (ht : Z.Spares pending t) (hpart : Z.LowersParts pending t lowerPart)
    (hs : s.Sound Z pending) (hl : s.Lacks t) {set payload : TypeId} (hd : Z.get t = .errorUnion set payload)
    (hc : payload ∈ Z.parts t) :
    Ensures (match Z.errorUnionRepr set payload with
      | .empty => onTable Table.void
      | .payloadOnly => lowerPart payload hc
      | .errorOnly => onTable (Table.int errorCodeBits)
      | .errorFirst => Z.lowerErrorUnion lowerPart true set payload hc
      | .payloadFirst => Z.lowerErrorUnion lowerPart false set payload hc) s fun h s' => Yields Z pending t s h s' := by
  have hroom := Z.takesRoom_eq t
  rw [hd] at hroom
  have hhalves := Z.room_of_errorUnionRepr set payload
  split
  all_goals
    rename_i hrepr
    rw [hrepr] at hhalves
    obtain ⟨hset, hpayload⟩ := Prod.mk.inj hhalves
  · exact yields_intern hs hl (by trivial) fun a s' ha =>
      describes_empty (by simp [hroom, hset, hpayload]) (by simpa [DescribesEmpty, hd] using ha)
  · exact yields_part hpart hc hpayload hs hl fun a s' ha =>
      describes_plain (by simp [hroom, hpayload]) (by simp [placement?, hd, hrepr])
        (by simpa [DescribesPlain, hd, hrepr] using ha)
  · exact yields_intern hs hl (by trivial) fun a s' ha =>
      describes_plain (by simp [hroom, hset]) (by simp [placement?, hd, hrepr])
        (by simpa [DescribesPlain, hd, hrepr] using ha)
  · have hr : Z.takesRoom t = true := by simp [hroom, hset]
    exact lowerErrorUnion_spec hZ ht hpart hr hc hpayload (by simp [placement?, hr, hd, hrepr]) hs hl
  · have hr : Z.takesRoom t = true := by simp [hroom, hset]
    exact lowerErrorUnion_spec hZ ht hpart hr hc hpayload (by simp [placement?, hr, hd, hrepr]) hs hl

/-- What lowering a type for the first time leaves behind: one case for each kind of type. -/
theorem lowerNew_spec (hZ : Z.Regular) (ht : Z.Spares pending t) (hpart : Z.LowersParts pending t lowerPart)
    (hs : s.Sound Z pending) (hl : s.Lacks t) :
    Ensures (Z.lowerNew t lowerPart) s fun h s' => Yields Z pending t s h s' := by
  have hroom := Z.takesRoom_eq t
  have empty : ∀ {m : MachineType}, Table.IsStructural m → Z.takesRoom t = false →
      (∀ (a : Handle) (s' : Session), s'.table.Stores a m → s'.DescribesEmpty Z t a) →
      Ensures (onTable (Table.intern m)) s fun h s' => Yields Z pending t s h s' :=
    fun hm hr hd => yields_intern hs hl hm fun a s' ha => describes_empty hr (hd a s' ha)
  have plain : ∀ {m : MachineType}, Table.IsStructural m → Z.takesRoom t = true → Z.placement? t = none →
      (∀ (a : Handle) (s' : Session), s'.table.Stores a m → s'.DescribesPlain Z t a) →
      Ensures (onTable (Table.intern m)) s fun h s' => Yields Z pending t s h s' :=
    fun hm hr hp hd => yields_intern hs hl hm fun a s' ha => describes_plain hr hp (hd a s' ha)
  unfold lowerNew
  dsimp only
  split
  next hd =>
    exact empty (by trivial) (by rw [hroom, hd]) fun a s' ha => by simpa [DescribesEmpty, hd] using ha
  next hd =>
    exact empty (by trivial) (by rw [hroom, hd]) fun a s' ha => by simpa [DescribesEmpty, hd] using ha
  next hd =>
    exact empty (by trivial) (by rw [hroom, hd]) fun a s' ha => by simpa [DescribesEmpty, hd] using ha
  next f hd =>
    exact empty (by trivial) (by rw [hroom, hd]) fun a s' _ => by simp [DescribesEmpty, hd]
  next name hd =>
    have hdeclare : Proceeds Z (Besides pending t) s (onTable (Table.declare name)) fun a s' =>
        ∃ id, s'.table.Stores a (.named id) :=
      .onTable (hs.besides t) ((Table.declare_spec name).mono fun a t' h => ⟨h.1, _, h.2.1⟩)
    exact yields_of_proceeds hl (hdeclare.mono fun a s' _ _ ha =>
      describes_empty (by rw [hroom, hd]) (by simpa [DescribesEmpty, hd] using ha))
  next hd =>
    exact plain (by trivial) (by rw [hroom, hd]) (by simp [placement?, hd]) fun a s' ha => by
      simpa [DescribesPlain, hd] using ha
  next bits sign hd =>
    refine yields_stored hs hl (fun hr => ?_) fun a s' ha => by simpa [DescribesEmpty, hd] using ha
    exact plain (by trivial) hr (by simp [placement?, hd]) fun a s' ha => by
      simpa [DescribesPlain, hd] using ha
  next bits hd =>
    have hm : Table.IsStructural (Z.target.floatType bits) := by
      unfold Target.floatType
      repeat' split
      all_goals trivial
    exact plain hm (by rw [hroom, hd]) (by simp [placement?, hd]) fun a s' ha => by
      simpa [DescribesPlain, hd] using ha
  next p hd =>
    have hr : Z.takesRoom t = true := by rw [hroom, hd]
    have hp : Z.placement? t = none := by simp [placement?, hd]
    split
    · rename_i hq
      exact yields_of_proceeds hl ((lowerSlice_spec (hs.besides t) p.addrSpace).mono fun a s' _ _ ha =>
        describes_plain hr hp (by simpa [DescribesPlain, hd, hq] using ha))
    · rename_i hq
      exact plain (by trivial) hr hp fun a s' ha => by simpa [DescribesPlain, hd, hq] using ha
  next len child sentinel hd =>
    split
    · rename_i hn
      exact empty (by trivial) (by simp [hroom, hd, hn]) fun a s' ha => by
        simpa [DescribesEmpty, hd, hn] using ha
    · rename_i hn
      exact lowerArray_spec hpart hs hl hd hn _
  next len child hd =>
    split
    · rename_i hn
      exact empty (by trivial) (by simp [hroom, hd, hn]) fun a s' ha => by
        simpa [DescribesEmpty, hd] using ha
    · refine yields_stored hs hl (fun hr => ?_) fun a s' ha => by simpa [DescribesEmpty, hd] using ha
      exact lowerVector_spec hpart hs hl hd hr _
  next child hd => exact lowerOptional_spec hZ ht hpart hs hl hd _
  next set hd =>
    refine yields_stored hs hl (fun hr => ?_) fun a s' ha => by simpa [DescribesEmpty, hd] using ha
    exact plain (by trivial) hr (by simp [placement?, hd]) fun a s' ha => by
      simpa [DescribesPlain, hd] using ha
  next set payload hd => exact lowerHalves_spec hZ ht hpart hs hl hd _
  next name tag variants hd =>
    refine yields_stored hs hl (fun hr => ?_) fun a s' ha => by simpa [DescribesEmpty, hd] using ha
    have hrt : Z.takesRoom tag = true := by rw [hroom, hd] at hr; exact hr
    exact yields_part hpart _ hrt hs hl fun a s' ha =>
      describes_plain hr (by simp [placement?, hd]) (by simpa [DescribesPlain, hd] using ha)
  next str hd =>
    refine yields_stored hs hl (fun hr => ?_) fun a s' ha => by simpa [DescribesEmpty, hd] using ha
    split
    · rename_i hp
      exact lowerPacked_spec hZ hs hl hr (by simp [Ty.isPackedContainer, hd, hp]) (by simp [placement?, hd, hp])
    · rename_i hp
      exact lowerStruct_spec hZ ht hpart hr _ (by simp [placement?, hr, hd, hp]) hs hl
  next fields hd =>
    refine yields_stored hs hl (fun hr => ?_) fun a s' ha => by simpa [DescribesEmpty, hd] using ha
    exact lowerTuple_spec hZ ht hpart hr _ (by simp [placement?, hr, hd]) hs hl
  next u hd =>
    refine yields_stored hs hl (fun hr => ?_) fun a s' ha => by simpa [DescribesEmpty, hd] using ha
    split
    · rename_i hp
      exact lowerPacked_spec hZ hs hl hr (by simp [Ty.isPackedContainer, hd, hp]) (by simp [placement?, hd, hp])
    · rename_i hp
      have hu : u.isPacked = false := by simpa using hp
      exact lowerUnion_spec hZ ht hpart hr _ _ (Nat.le_trans (size_le_union hZ.formatted hd hu).1 (hZ.sizes t))
        (by simp [placement?, hr, hd, hu]) hs hl

end

theorem memoized_spec {act : StateM Session Handle} (ht : ¬pending t) (hs : s.Sound Z pending)
    (hact : s.Lacks t → Ensures act s fun h s' => Yields Z pending t s h s') :
    Proceeds Z pending s (memoized t act) fun h s' => s'.lowered[t]? = some h := by
  refine Ensures.get_bind ?_
  cases hl : s.lowered[t]? with
  | some h => exact Proceeds.pure hs hl
  | none =>
    refine Ensures.bind (hact (hs.lacks ht hl)) fun h s₁ hy => ?_
    exact Ensures.bind (hy.remember ht) fun _ s₂ h₂ => Ensures.pure h₂

/-- Lowering a type gives the machine type that describes it, and keeps what is noted. -/
theorem lowerValue_spec (hZ : Z.Regular) (t : TypeId) {pending : TypeId → Prop} (ht : Z.Spares pending t) :
    Lowers Z pending t (Z.lowerValue t) := by
  induction t using Z.induction_on_parts generalizing pending with
  | step t ih =>
  intro s hs
  rw [lowerValue]
  refine memoized_spec ht.not_pending hs fun hl => lowerNew_spec hZ ht (fun c hc hr => ?_) hs hl
  exact ih c hc (ht.part hc hr)

end Sizing

end MachineAbi
