import MachineAbi.Proofs.Lowering.Canonical
import MachineAbi.Proofs.Lowering.Requests

/-!
# Lowering follows the forms of types

`Sizing.lowerValue` keeps a session canonical and gives a type the machine type of its form
(`Sizing.lowerValue_follows`), whatever the session holds already. It makes no difference whether a part of the type is found or lowered on the way.

Proof: by induction on the parts of the type, one case for each kind of type (`Sizing.lowerNew_follows`). The type
itself is pending while its parts are lowered.
-/

namespace MachineAbi

open Session

/-- The action keeps sessions canonical, and satisfies `post`. -/
abbrev Serves {α : Type} (L : Lowering) (pending : TypeId → Prop) (s : Session) (act : StateM Session α)
    (post : α → Session → Prop) : Prop :=
  Upholds (fun s' => s'.Canonical L pending) pending s act post

/-- The action gives the machine type of the form of type `t`, and notes it. -/
def Grants (L : Lowering) (pending : TypeId → Prop) (t : TypeId) (act : StateM Session Handle) : Prop :=
  ∀ s : Session, s.Canonical L pending → Serves L pending s act fun h s' => s'.lowered[t]? = some h

namespace Serves

variable {α : Type} {L : Lowering} {pending : TypeId → Prop} {s : Session}

/-- An action on the machine types of a session that adds no named struct. -/
theorem onTable {act : StateM Table α} {post : α → Session → Prop} (hs : s.Canonical L pending)
    (h : Ensures act s.table fun a table => s.table.Adds table ∧ post a (s.withTable table)) :
    Serves L pending s (onTable act) post :=
  ⟨hs.withTable h.1, advances_withTable h.1.toExtends, h.2⟩

theorem intern {m : MachineType} (hm : Table.IsStructural m) (hs : s.Canonical L pending) :
    Serves L pending s (Session.onTable (Table.intern m)) fun h s' => s'.table.Stores h m :=
  onTable hs (Table.intern_adds hm)

theorem bytes (len : Nat) (hs : s.Canonical L pending) :
    Serves L pending s (Session.onTable (Table.bytes len)) fun h s' => s'.table.StoresBytes h len :=
  onTable hs (Table.bytes_adds len)

variable {act : StateM Session Handle} {tree : MachineTree}

theorem array (len : Nat) (h : Serves L pending s act fun e s' => s'.Shows L.toSealedPool tree e) :
    Serves L pending s (act >>= fun e => Session.onTable (Table.array len e)) fun a s' =>
      s'.Shows L.toSealedPool (.array len tree) a := by
  refine Upholds.bind h fun e s₁ hs₁ _ he => ?_
  refine (intern (by trivial) hs₁).mono fun a s' _ ha harray => ?_
  exact ⟨e, harray, he.mono ha.refines⟩

theorem vector (len : Nat) (h : Serves L pending s act fun e s' => s'.Shows L.toSealedPool tree e) :
    Serves L pending s (act >>= fun e => Session.onTable (Table.vector len e)) fun a s' =>
      s'.Shows L.toSealedPool (.vector len tree) a := by
  refine Upholds.bind h fun e s₁ hs₁ _ he => ?_
  refine (intern (by trivial) hs₁).mono fun a s' _ ha hvector => ?_
  exact ⟨e, hvector, he.mono ha.refines⟩

end Serves

namespace Sizing

variable {L : Lowering} {pending : TypeId → Prop} {s : Session} {t : TypeId}

/-! ## Placing parts -/

section

variable {b : AggregateBuilder} {a : Arrangement MachineTree} {h : Handle} {tree : MachineTree} {source : TypeId}

theorem push_follows (hs : s.Canonical L pending) (hf : s.Follows L.toSealedPool b a)
    (hv : s.Shows L.toSealedPool tree h) :
    Serves L pending s (onTable (b.push L.target source (some h))) fun r s' =>
      r.1 = (a.push (L.target.treeItem source tree)).1 ∧
        s'.Follows L.toSealedPool r.2 (a.push (L.target.treeItem source tree)).2 :=
  .onTable hs (hf.push hs.owned.bare hv)

theorem push_none_follows (hs : s.Canonical L pending) (hf : s.Follows L.toSealedPool b a) :
    Serves L pending s (onTable (b.push L.target source none)) fun r s' =>
      r.1 = (a.push (L.target.treeItem source .void)).1 ∧
        s'.Follows L.toSealedPool r.2 (a.push (L.target.treeItem source .void)).2 :=
  .onTable hs hf.push_none

theorem pushAll_follows {vs : List (TypeId × Handle)} {is : List (TypeId × MachineTree)} (hs : s.Canonical L pending)
    (hf : s.Follows L.toSealedPool b a)
    (hvs : List.Forall₂ (fun v i => v.1 = i.1 ∧ s.Shows L.toSealedPool i.2 v.2) vs is) :
    Serves L pending s (onTable (AggregateBuilder.pushAll L.target (vs.map fun v => (v.1, some v.2)) b)) fun r s' =>
      r.1 = (a.pushAll (is.map fun i => L.target.treeItem i.1 i.2)).1 ∧
        s'.Follows L.toSealedPool r.2 (a.pushAll (is.map fun i => L.target.treeItem i.1 i.2)).2 :=
  .onTable hs (hf.pushAll hs.owned hvs)

theorem finish_follows (hs : s.Canonical L pending) (hf : s.Follows L.toSealedPool b a) :
    Serves L pending s (onTable b.finish) fun b' s' => s'.Follows L.toSealedPool b' a.finish :=
  .onTable hs hf.finish

end

/-! ## Finished aggregates -/

section

variable {fields : List FieldPlace} {tag : Option FieldPlace} {b : AggregateBuilder} {a : Arrangement MachineTree}

theorem meets_layout (hf : s.Follows L.toSealedPool b a) :
    s.Meets L.toSealedPool ⟨fields, tag, a⟩ (b.layout fields tag) :=
  ⟨rfl, rfl, hf.offset, hf.align, hf.machine⟩

/-- An aggregate of the form of its type is settled when its layout is recorded. -/
theorem record_follows {s₀ : Session} {h : Handle} {p : Plan} {l : AggregateLayout} (ha : s₀.Advances pending s)
    (hs : s.Canonical L (Besides pending t)) (ht : ¬pending t) (hnone : s.layouts[t]? = none)
    (hentry : ∀ a, s.lowered[t]? = some a → a = h) (hname : L.hasName t = true → s.lowered[t]? = some h)
    (hplan : (L.form t).plan? = some p) (hshows : s.Shows L.toSealedPool (L.form t).tree h)
    (hbody : s.table.body? h = some ⟨false, l.machineFields⟩) (hm : s.Meets L.toSealedPool p l) :
    Ensures (record t l) s fun _ s' => Settles L pending t s₀ h s' := by
  have hstep := @advances_recorded pending s t l ht hnone
  show Settles L pending t s₀ h (s.recorded t l)
  refine settles (ha.trans hstep) ht (hs.recorded hnone) hentry hname ⟨hshows.mono hstep.refines, fun q hq => ?_⟩
    fun m _ => ?_
  · rw [hplan] at hq
    obtain rfl := Option.some.inj hq
    exact ⟨l, by rw [layouts_recorded, if_pos rfl], hbody, hm.mono hstep.refines⟩
  · rw [hplan]
    rfl

theorem finishUnnamed_follows (hs : s.Canonical L (Besides pending t)) (ht : ¬pending t) (hl : s.Lacks t)
    (hf : s.Follows L.toSealedPool b a) (hname : L.hasName t = false)
    (hform : L.form t = .unnamed ⟨fields, tag, a.finish⟩) :
    Ensures (finishUnnamed t fields tag b) s fun h s' => Settles L pending t s h s' := by
  refine Ensures.bind (finish_follows hs hf) fun b' s₁ ⟨hs₁, ha₁, hf₁⟩ => ?_
  refine Ensures.bind (Serves.intern (by trivial) hs₁) fun h s₂ ⟨hs₂, ha₂, hstruct⟩ => ?_
  have ha := ha₁.trans ha₂
  have hl₂ := hl.of_advances ha
  have hf₂ := hf₁.mono ha₂.refines
  refine Ensures.bind (record_follows (ha.weaken fun _ => Or.inl) hs₂ ht hl₂.layouts (fun a he => ?_) (fun hn => ?_)
    (by rw [hform]; rfl) ?_ (Table.body?_of_struct hstruct) (meets_layout hf₂)) fun _ s₃ hy => Ensures.pure hy
  · rw [hl₂.lowered] at he
    cases he
  · rw [hname] at hn
    cases hn
  · rw [hform]
    exact ⟨b'.machine, hstruct, hf₂.machine⟩

theorem finishNamed_follows {s₀ : Session} {named : Handle} (hs : s.Canonical L (Besides pending t)) (ht : ¬pending t)
    (hname : L.isNamedContainer t = true) (hd : Declares pending t s₀ named s) (hf : s.Follows L.toSealedPool b a)
    (hform : L.form t = .named t ⟨fields, tag, a.finish⟩) :
    Ensures (finishNamed t named fields tag b) s fun h s' => Settles L pending t s₀ h s' := by
  refine Ensures.bind (finish_follows hs hf) fun b' s₁ ⟨hs₁, ha₁, hf₁⟩ => ?_
  have hd₁ := hd.of_advances ha₁
  refine Ensures.bind (hs₁.setBody hname hd₁ ⟨false, b'.machine⟩)
    fun _ s₂ ⟨hs₂, hrefines, ha₂, hlowered, hlayouts, hbody⟩ => ?_
  have hstores := hrefines.table.types _ _ hd₁.stores
  have hl₂ : s₂.lowered[t]? = some named := by
    rw [hlowered]
    exact hd₁.lowered
  have hf₂ := hf₁.mono hrefines
  refine Ensures.bind (record_follows ha₂ hs₂ ht ?_ (fun a he => ?_) (fun _ => hl₂) (by rw [hform]; rfl) ?_ hbody
    (meets_layout hf₂)) fun _ s₃ hy => Ensures.pure hy
  · rw [hlayouts]
    exact hd₁.layouts
  · rw [hl₂] at he
    exact (Option.some.inj he).symm
  · rw [Table.body?_of_named hstores] at hbody
    rw [hform]
    exact ⟨hname, hl₂, _, b'.machine, hstores, hbody, hf₂.machine⟩

end

/-! ## One kind of type at a time -/

/-- The parts of type `t` that take room are lowered as they should be, while `t` is pending. -/
def GrantsParts (L : Lowering) (pending : TypeId → Prop) (t : TypeId) (lowerPart : L.PartLowering t) : Prop :=
  ∀ c hc, L.takesRoom c = true → ∀ s : Session, s.Canonical L (Besides pending t) →
    Serves L (Besides pending t) s (lowerPart c hc) fun h s' => s'.Shows L.toSealedPool (L.partTree t c) h

section

variable {lowerPart : L.PartLowering t}

theorem lowerFields_follows (hpart : GrantsParts L pending t lowerPart)
    (fields : List FieldTy) (hf : ∀ c ∈ storedTypes fields, c ∈ L.parts t) {s : Session} {b : AggregateBuilder}
    {a : Arrangement MachineTree} (hs : s.Canonical L (Besides pending t)) (hb : s.Follows L.toSealedPool b a) :
    Serves L (Besides pending t) s (L.lowerFields lowerPart fields hf b) fun r s' =>
      r.1 = (a.pushAll (fields.map fun f => L.target.treeItem f.ty (L.fieldTree (L.partTree t) f))).1 ∧
        s'.Follows L.toSealedPool r.2
          (a.pushAll (fields.map fun f => L.target.treeItem f.ty (L.fieldTree (L.partTree t) f))).2 := by
  induction fields generalizing s b a with
  | nil => exact .pure hs ⟨rfl, hb⟩
  | cons f fields ih =>
    have hrest : ∀ c ∈ storedTypes fields, c ∈ L.parts t := by
      intro c hc
      obtain ⟨g, hg, rfl⟩ := List.mem_map.1 hc
      exact hf g.ty (List.mem_map.2 ⟨g, List.mem_filter.2 ⟨List.mem_cons_of_mem _ (List.mem_filter.1 hg).1,
        (List.mem_filter.1 hg).2⟩, rfl⟩)
    have rest : ∀ {s' : Session} {r : FieldPlace × AggregateBuilder} {i : Item MachineTree},
        s'.Canonical L (Besides pending t) → i = L.target.treeItem f.ty (L.fieldTree (L.partTree t) f) →
        r.1 = (a.push i).1 ∧ s'.Follows L.toSealedPool r.2 (a.push i).2 →
        Serves L (Besides pending t) s' (L.lowerFields lowerPart fields hrest r.2 >>= fun q =>
          return (r.1 :: q.1, q.2)) fun r s' =>
            r.1 = (a.pushAll ((f :: fields).map fun f => L.target.treeItem f.ty (L.fieldTree (L.partTree t) f))).1 ∧
              s'.Follows L.toSealedPool r.2
                (a.pushAll ((f :: fields).map fun f => L.target.treeItem f.ty (L.fieldTree (L.partTree t) f))).2 := by
      rintro s' ⟨place, b'⟩ i hs' rfl ⟨hplace, hb'⟩
      refine (ih hrest hs' hb').bind ?_
      rintro ⟨places, b''⟩ s'' hs'' - ⟨hplaces, hb''⟩
      refine .pure hs'' ⟨?_, hb''⟩
      rw [List.map_cons, Arrangement.pushAll, ← hplaces, ← hplace]
    unfold Sizing.lowerFields
    by_cases h : f.isComptime = false ∧ L.takesRoom f.ty = true
    · have hc : f.ty ∈ L.parts t := hf f.ty (by simp [storedTypes, h.1])
      have htree : L.fieldTree (L.partTree t) f = L.partTree t f.ty := if_pos h
      simp only [dif_pos h]
      refine Upholds.map_bind (hpart f.ty hc h.2 s hs) fun e s₁ hs₁ ha₁ he => ?_
      refine Upholds.bind (push_follows hs₁ (hb.mono ha₁.refines) he) fun r s₂ hs₂ _ hr => ?_
      exact rest hs₂ (by rw [htree]) hr
    · have htree : L.fieldTree (L.partTree t) f = .void := if_neg h
      simp only [dif_neg h]
      refine Upholds.pure_bind ?_
      exact Upholds.bind (push_none_follows hs hb) fun r s₁ hs₁ _ hr => rest hs₁ (by rw [htree]) hr

theorem lowerTuple_follows (ht : ¬pending t) (hpart : GrantsParts L pending t lowerPart) {fields : List FieldTy}
    (hf : ∀ c ∈ storedTypes fields, c ∈ L.parts t) (hname : L.hasName t = false)
    (hform : L.form t = .unnamed (L.fieldsPlan (L.partTree t) fields)) (hs : s.Canonical L pending) (hl : s.Lacks t) :
    Ensures (L.lowerTuple lowerPart fields hf) s fun h s' => Settles L pending t s h s' := by
  refine Ensures.bind (lowerFields_follows hpart fields hf (hs.besides t) (.empty s)) ?_
  rintro ⟨_, b⟩ s₁ ⟨hs₁, ha₁, rfl, hb⟩
  exact (finishUnnamed_follows hs₁ ht (hl.of_advances ha₁) hb hname hform).mono fun h s₂ hy => hy.of_later ha₁

theorem lowerStruct_follows (ht : ¬pending t) (hpart : GrantsParts L pending t lowerPart) {str : StructTy}
    (hf : ∀ c ∈ str.stored, c ∈ L.parts t) (hname : L.isNamedContainer t = true) (hstem : L.structName t = str.name)
    (hform : L.form t = .named t (L.fieldsPlan (L.partTree t) str.fieldTys)) (hs : s.Canonical L pending)
    (hl : s.Lacks t) : Ensures (L.lowerStruct lowerPart str hf) s fun h s' => Settles L pending t s h s' := by
  have hhas : L.hasName t = true := L.hasName_of_isNamedContainer hname
  have hdeclared := hs.declareFor ht hl hhas
  rw [hstem] at hdeclared
  refine Ensures.bind hdeclared fun named s₁ ⟨hs₁, hd⟩ => ?_
  refine Ensures.bind (lowerFields_follows hpart str.fieldTys hf hs₁ (.empty s₁)) ?_
  rintro ⟨_, b⟩ s₂ ⟨hs₂, ha₂, rfl, hb⟩
  exact finishNamed_follows hs₂ ht hname (hd.of_advances ha₂) hb hform

/-! ### Slices, optionals and error unions -/

theorem lowerSlice_follows (hs : s.Canonical L pending) (space : Nat) :
    Serves L pending s (onTable (lowerSlice L.target t space)) fun h s' =>
      s'.Shows L.toSealedPool (L.sliceTree t space) h := by
  unfold lowerSlice
  simp only [onTable_bind]
  refine Upholds.bind (Serves.intern (by trivial) hs) fun ptr s₁ hs₁ _ hptr => ?_
  refine Upholds.bind (Serves.intern (by trivial) hs₁) fun len s₂ hs₂ ha₂ hlen => ?_
  have hptr : s₂.Shows L.toSealedPool (.ptr space) ptr := ha₂.table.types _ _ hptr
  have values : List.Forall₂ (fun v i => v.1 = i.1 ∧ s₂.Shows L.toSealedPool i.2 v.2) [(t, ptr), (t, len)]
      [(t, .ptr space), (t, .int L.target.ptrBits)] :=
    .cons ⟨rfl, hptr⟩ (.cons ⟨rfl, hlen⟩ .nil)
  refine Upholds.bind (pushAll_follows hs₂ (.empty s₂) values) ?_
  rintro ⟨_, b⟩ s₃ hs₃ - ⟨-, hb⟩
  refine Upholds.bind (finish_follows hs₃ hb) fun b' s₄ hs₄ _ hb' => ?_
  refine (Serves.intern (by trivial) hs₄).mono fun h s₅ hs₅ ha₅ hstruct => ?_
  exact ⟨b'.machine, hstruct, (hb'.mono ha₅.refines).machine⟩

theorem lowerFlagged_follows (ht : ¬pending t) (hpart : GrantsParts L pending t lowerPart) {child : TypeId}
    (hc : child ∈ L.parts t) (hrc : L.takesRoom child = true) (hname : L.hasName t = false)
    (hform : L.form t = .unnamed (L.flaggedPlan (L.partTree t) child)) (hs : s.Canonical L pending) (hl : s.Lacks t) :
    Ensures (L.lowerFlagged lowerPart child hc) s fun h s' => Settles L pending t s h s' := by
  refine Ensures.bind (hpart child hc hrc s (hs.besides t)) fun payload s₁ ⟨hs₁, ha₁, hpayload⟩ => ?_
  refine Ensures.bind (Serves.intern (by trivial) hs₁) fun flag s₂ ⟨hs₂, ha₂, hflag⟩ => ?_
  have hflag : s₂.Shows L.toSealedPool (.int 8) flag := hflag
  refine Ensures.bind (push_follows hs₂ (.empty s₂) (hpayload.mono ha₂.refines)) ?_
  rintro ⟨_, b⟩ s₃ ⟨hs₃, ha₃, rfl, hb₃⟩
  refine Ensures.bind (push_follows hs₃ hb₃ (hflag.mono ha₃.refines)) ?_
  rintro ⟨_, b'⟩ s₄ ⟨hs₄, ha₄, rfl, hb₄⟩
  have ha := ((ha₁.trans ha₂).trans ha₃).trans ha₄
  exact (finishUnnamed_follows hs₄ ht (hl.of_advances ha) hb₄ hname hform).mono fun h s₅ hy => hy.of_later ha

theorem lowerErrorUnion_follows (ht : ¬pending t) (hpart : GrantsParts L pending t lowerPart) {set payload : TypeId}
    (hc : payload ∈ L.parts t) (hrc : L.takesRoom payload = true) {codeFirst : Bool} (hname : L.hasName t = false)
    (hform : L.form t = .unnamed (L.halvesPlan (L.partTree t) codeFirst set payload)) (hs : s.Canonical L pending)
    (hl : s.Lacks t) :
    Ensures (L.lowerErrorUnion lowerPart codeFirst set payload hc) s fun h s' => Settles L pending t s h s' := by
  refine Ensures.bind (Serves.intern (by trivial) (hs.besides t)) fun code s₁ ⟨hs₁, ha₁, hcode⟩ => ?_
  refine Ensures.bind (hpart payload hc hrc s₁ hs₁) fun value s₂ ⟨hs₂, ha₂, hvalue⟩ => ?_
  have hcode : s₂.Shows L.toSealedPool (.int errorCodeBits) code := ha₂.table.types _ _ hcode
  cases codeFirst with
  | true =>
    refine Ensures.bind (push_follows hs₂ (.empty s₂) hcode) ?_
    rintro ⟨_, b⟩ s₃ ⟨hs₃, ha₃, rfl, hb₃⟩
    refine Ensures.bind (push_follows hs₃ hb₃ (hvalue.mono ha₃.refines)) ?_
    rintro ⟨_, b'⟩ s₄ ⟨hs₄, ha₄, rfl, hb₄⟩
    have ha := ((ha₁.trans ha₂).trans ha₃).trans ha₄
    exact (finishUnnamed_follows hs₄ ht (hl.of_advances ha) hb₄ hname hform).mono fun h s₅ hy => hy.of_later ha
  | false =>
    refine Ensures.bind (push_follows hs₂ (.empty s₂) hvalue) ?_
    rintro ⟨_, b⟩ s₃ ⟨hs₃, ha₃, rfl, hb₃⟩
    refine Ensures.bind (push_follows hs₃ hb₃ (hcode.mono ha₃.refines)) ?_
    rintro ⟨_, b'⟩ s₄ ⟨hs₄, ha₄, rfl, hb₄⟩
    have ha := ((ha₁.trans ha₂).trans ha₃).trans ha₄
    exact (finishUnnamed_follows hs₄ ht (hl.of_advances ha) hb₄ hname hform).mono fun h s₅ hy => hy.of_later ha

/-! ### Unions -/

/-- There is a machine value exactly if a machine type is to be placed. -/
def ShowsOption (P : SealedPool) (s : Session) (v? : Option (TypeId × Handle)) (i? : Option (TypeId × MachineTree)) :
    Prop :=
  Option.Rel (fun v i => v.1 = i.1 ∧ s.Shows P i.2 v.2) v? i?

theorem ShowsOption.mono {P : SealedPool} {s' : Session} {v? : Option (TypeId × Handle)}
    {i? : Option (TypeId × MachineTree)} (h : ShowsOption P s v? i?) (hr : s.Refines s') : ShowsOption P s' v? i? := by
  cases h with
  | none => exact .none
  | some hv => exact .some ⟨hv.1, hv.2.mono hr⟩

theorem pushOptional_follows {b : AggregateBuilder} {a : Arrangement MachineTree} {v? : Option (TypeId × Handle)}
    {i? : Option (TypeId × MachineTree)} (hs : s.Canonical L pending) (hf : s.Follows L.toSealedPool b a)
    (hv : ShowsOption L.toSealedPool s v? i?) :
    Serves L pending s (onTable (pushOptional L.target b v?)) fun r s' =>
      r.1 = (a.pushOption (i?.map fun i => L.target.treeItem i.1 i.2)).1 ∧
        s'.Follows L.toSealedPool r.2 (a.pushOption (i?.map fun i => L.target.treeItem i.1 i.2)).2 := by
  cases hv with
  | none => exact ⟨hs, .refl s, rfl, hf⟩
  | @some v i hv =>
    obtain ⟨source, h⟩ := v
    obtain ⟨_, tree⟩ := i
    obtain ⟨rfl, hv⟩ := hv
    unfold pushOptional
    simp only [onTable_bind]
    refine Upholds.bind (push_follows hs hf hv) ?_
    rintro ⟨_, b'⟩ s₁ hs₁ - ⟨rfl, hf₁⟩
    exact ⟨hs₁, .refl s₁, rfl, hf₁⟩

theorem lowerPayload_follows (hpart : GrantsParts L pending t lowerPart) {u : UnionTy}
    (hu : ∀ c ∈ u.memberTypes, c ∈ L.parts t) (hs : s.Canonical L (Besides pending t)) :
    Serves L (Besides pending t) s (L.lowerPayload lowerPart u hu) fun r s' =>
      r.bind (·.filledBy) = L.filledBy? u ∧
        ShowsOption L.toSealedPool s' (r.map fun p => (p.source, p.handle)) (L.heldTree? (L.partTree t) u) := by
  unfold lowerPayload
  split
  · rename_i hw
    refine .pure hs ⟨by simp [filledBy?, hw], ?_⟩
    rw [heldTree?, hw]
    exact .none
  · rename_i c i hw
    have hrc : L.takesRoom c = true := (getElem?_widestMember hw).2
    refine Upholds.bind (hpart c (hu c (mem_of_widestMember hw)) hrc s hs) fun h s₁ hs₁ _ hshows => ?_
    dsimp only
    split
    · rename_i hlt
      have htree : L.heldTree? (L.partTree t) u = some (c, .struct false [L.partTree t c,
          .bytes ((L.payloadLayout u).size - (L.layout c).size)]) := by
        simp [heldTree?, hw, hlt]
      rw [htree]
      refine Upholds.bind (Serves.bytes _ hs₁) fun pad s₂ hs₂ ha₂ hpad => ?_
      refine Upholds.bind (Serves.intern (by trivial) hs₂) fun padded s₃ hs₃ ha₃ hstruct => ?_
      refine .pure hs₃ ⟨by simp [filledBy?, hw, hlt], .some ⟨rfl, _, hstruct, ?_, ?_, trivial⟩⟩
      · exact hshows.mono (ha₂.trans ha₃).refines
      · exact ha₃.refines.table.storesBytes hpad
    · rename_i hlt
      have htree : L.heldTree? (L.partTree t) u = some (c, L.partTree t c) := by simp [heldTree?, hw, hlt]
      rw [htree]
      exact .pure hs₁ ⟨by simp [filledBy?, hw, hlt], .some ⟨rfl, hshows⟩⟩

theorem lowerTag_follows (hpart : GrantsParts L pending t lowerPart) {u : UnionTy}
    (hu : ∀ c, L.storedTag? u = some c → c ∈ L.parts t) (hs : s.Canonical L (Besides pending t)) :
    Serves L (Besides pending t) s (L.lowerTag lowerPart u hu) fun r s' =>
      r.map (·.1) = L.storedTag? u ∧
        ShowsOption L.toSealedPool s' r ((L.storedTag? u).map fun tag => (tag, L.partTree t tag)) := by
  unfold lowerTag
  split
  · rename_i htag
    rw [htag]
    exact .pure hs ⟨rfl, .none⟩
  · rename_i tag htag
    have hrt : L.takesRoom tag = true := (Option.filter_eq_some_iff.1 htag).2
    refine Upholds.bind (hpart tag (hu tag htag) hrt s hs) fun h s₁ hs₁ _ hshows => ?_
    refine .pure hs₁ ⟨htag.symm, ?_⟩
    rw [htag]
    exact .some ⟨rfl, hshows⟩

theorem lowerUnion_follows (ht : ¬pending t) (hpart : GrantsParts L pending t lowerPart) {u : UnionTy}
    (hm : ∀ c ∈ u.memberTypes, c ∈ L.parts t) (hu : ∀ c, L.storedTag? u = some c → c ∈ L.parts t)
    (hname : L.isNamedContainer t = true) (hstem : L.structName t = u.name)
    (hform : L.form t = .named t (L.unionPlan (L.partTree t) u)) (hs : s.Canonical L pending) (hl : s.Lacks t) :
    Ensures (L.lowerUnion lowerPart u hm hu) s fun h s' => Settles L pending t s h s' := by
  have hhas : L.hasName t = true := L.hasName_of_isNamedContainer hname
  have hdeclared := hs.declareFor ht hl hhas
  rw [hstem] at hdeclared
  refine Ensures.bind hdeclared fun named s₁ ⟨hs₁, hd₁⟩ => ?_
  refine Ensures.bind (lowerPayload_follows hpart hm hs₁) fun payload s₂ ⟨hs₂, ha₂, hfilled, hheld⟩ => ?_
  refine Ensures.bind (lowerTag_follows hpart hu hs₂) fun tag s₃ ⟨hs₃, ha₃, hsource, htag⟩ => ?_
  have hd₃ := (hd₁.of_advances ha₂).of_advances ha₃
  have hheld := hheld.mono ha₃.refines
  have htree : ((L.storedTag? u).map fun tag => (tag, L.partTree t tag)).map
      (fun i => L.target.treeItem i.1 i.2) =
      (L.storedTag? u).map fun tag => L.target.treeItem tag (L.partTree t tag) := by
    rw [Option.map_map]
    rfl
  have hfirst : (tag.any fun v => (L.layout v.1).tagFirst (L.payloadLayout u)) = L.tagComesFirst u := by
    rw [tagComesFirst, ← hsource]
    cases tag <;> rfl
  simp only [hfirst, hfilled]
  unfold unionPlan Plan.besideTag Arrangement.tagged at hform
  cases hcase : L.tagComesFirst u with
  | true =>
    simp only [hcase, if_true] at hform ⊢
    refine Ensures.bind (pushOptional_follows hs₃ (.empty s₃) htag) ?_
    rintro ⟨_, b⟩ s₄ ⟨hs₄, ha₄, rfl, hb₄⟩
    rw [htree] at hb₄ ⊢
    refine Ensures.bind (pushOptional_follows hs₄ hb₄ (hheld.mono ha₄.refines)) ?_
    rintro ⟨_, b'⟩ s₅ ⟨hs₅, ha₅, rfl, hb₅⟩
    exact finishNamed_follows hs₅ ht hname ((hd₃.of_advances ha₄).of_advances ha₅) hb₅ hform
  | false =>
    simp only [hcase, Bool.false_eq_true, if_false] at hform ⊢
    refine Ensures.bind (pushOptional_follows hs₃ (.empty s₃) hheld) ?_
    rintro ⟨_, b⟩ s₄ ⟨hs₄, ha₄, rfl, hb₄⟩
    refine Ensures.bind (pushOptional_follows hs₄ hb₄ (htag.mono ha₄.refines)) ?_
    rintro ⟨_, b'⟩ s₅ ⟨hs₅, ha₅, rfl, hb₅⟩
    rw [htree] at hb₅ ⊢
    exact finishNamed_follows hs₅ ht hname ((hd₃.of_advances ha₄).of_advances ha₅) hb₅ hform

/-! ### The other kinds -/

/-- A type that is neither an aggregate nor has a name is settled by a machine type of its form. -/
theorem settles_of_serves {act : StateM Session Handle} {tree : MachineTree} (ht : ¬pending t) (hl : s.Lacks t)
    (hname : L.hasName t = false) (hform : L.form t = .plain tree)
    (h : Serves L (Besides pending t) s act fun a s' => s'.Shows L.toSealedPool tree a) :
    Ensures act s fun a s' => Settles L pending t s a s' := by
  refine Ensures.mono h fun a s' ⟨hs', ha, hshows⟩ => ?_
  exact settles_of_shows ha ht hs' hl hname (by rw [hform]; rfl) (by rw [hform]; exact hshows)

/-- One machine type for all values of a type. -/
theorem settles_intern {m : MachineType} {tree : MachineTree} (hs : s.Canonical L pending) (ht : ¬pending t)
    (hl : s.Lacks t) (hm : Table.IsStructural m) (hname : L.hasName t = false) (hform : L.form t = .plain tree)
    (hd : ∀ (a : Handle) (s' : Session), s'.table.Stores a m → s'.Shows L.toSealedPool tree a) :
    Ensures (onTable (Table.intern m)) s fun a s' => Settles L pending t s a s' :=
  settles_of_serves ht hl hname hform ((Serves.intern hm (hs.besides t)).mono fun a s' _ _ ha => hd a s' ha)

theorem settles_void (hs : s.Canonical L pending) (ht : ¬pending t) (hl : s.Lacks t) (hname : L.hasName t = false)
    (hform : L.form t = .plain .void) : Ensures (onTable Table.void) s fun a s' => Settles L pending t s a s' :=
  settles_intern hs ht hl (by trivial) hname hform fun _ _ h => h

theorem settles_int {bits : Nat} (hs : s.Canonical L pending) (ht : ¬pending t) (hl : s.Lacks t)
    (hname : L.hasName t = false) (hform : L.form t = .plain (.int bits)) :
    Ensures (onTable (Table.int bits)) s fun a s' => Settles L pending t s a s' :=
  settles_intern hs ht hl (by trivial) hname hform fun _ _ h => h

/-- A type that is represented as one of its parts. -/
theorem settles_part (hpart : GrantsParts L pending t lowerPart) {c : TypeId} (hc : c ∈ L.parts t)
    (hr : L.takesRoom c = true) (hs : s.Canonical L pending) (ht : ¬pending t) (hl : s.Lacks t)
    (hname : L.hasName t = false) (hform : L.form t = .plain (L.partTree t c)) :
    Ensures (lowerPart c hc) s fun a s' => Settles L pending t s a s' :=
  settles_of_serves ht hl hname hform (hpart c hc hr s (hs.besides t))

theorem lowerArray_follows (hpart : GrantsParts L pending t lowerPart) (hs : s.Canonical L pending) (ht : ¬pending t)
    (hl : s.Lacks t) {count : Nat} {child : TypeId} (hc : child ∈ L.parts t) (hname : L.hasName t = false)
    (hform : L.form t = .plain (if L.takesRoom child then .array count (L.partTree t child) else .bytes count)) :
    Ensures (if L.takesRoom child then lowerPart child hc >>= fun elem => onTable (Table.array count elem)
      else onTable (Table.bytes count)) s fun a s' => Settles L pending t s a s' := by
  cases hrc : L.takesRoom child with
  | true =>
    rw [hrc, if_pos rfl] at hform
    exact settles_of_serves ht hl hname hform (.array count (hpart child hc hrc s (hs.besides t)))
  | false =>
    rw [hrc, if_neg Bool.false_ne_true] at hform
    exact settles_of_serves ht hl hname hform ((Serves.bytes _ (hs.besides t)).mono fun a s' _ _ ha => ha)

/-- A vector of single bits, or of what its elements are lowered as. -/
theorem lowerVector_follows (hpart : GrantsParts L pending t lowerPart) (hs : s.Canonical L pending) (ht : ¬pending t)
    (hl : s.Lacks t) {len : Nat} {child : TypeId} (hc : child ∈ L.parts t) (hrc : L.takesRoom child = true)
    (hname : L.hasName t = false)
    (hform : L.form t = .plain (.vector len (if L.get child = .bool then .int 1 else L.partTree t child))) :
    Ensures (if L.get child = .bool then onTable (Table.int 1) >>= fun elem => onTable (Table.vector len elem)
      else lowerPart child hc >>= fun elem => onTable (Table.vector len elem)) s fun a s' =>
        Settles L pending t s a s' := by
  split
  · rename_i hb
    rw [if_pos hb] at hform
    have hbit : Serves L (Besides pending t) s (onTable (Table.int 1)) fun e s' => s'.Shows L.toSealedPool (.int 1) e :=
      Serves.intern (by trivial) (hs.besides t)
    exact settles_of_serves ht hl hname hform (hbit.vector len)
  · rename_i hb
    rw [if_neg hb] at hform
    exact settles_of_serves ht hl hname hform (.vector len (hpart child hc hrc s (hs.besides t)))

theorem lowerOptional_follows (hpart : GrantsParts L pending t lowerPart) (hs : s.Canonical L pending) (ht : ¬pending t)
    (hl : s.Lacks t) {child : TypeId} (hc : child ∈ L.parts t) (hname : L.hasName t = false)
    (hform : L.form t = L.optionalForm (L.partTree t) child) :
    Ensures (match L.optionalRepr child with
      | .flagOnly => onTable (Table.int 8)
      | .payload => lowerPart child hc
      | .payloadAndFlag => L.lowerFlagged lowerPart child hc) s fun a s' => Settles L pending t s a s' := by
  have hrc := L.room_of_optionalRepr child
  unfold optionalForm at hform
  cases hrepr : L.optionalRepr child <;> rw [hrepr] at hform hrc
  · exact settles_int hs ht hl hname hform
  · exact settles_part hpart hc hrc hs ht hl hname hform
  · exact lowerFlagged_follows ht hpart hc hrc hname hform hs hl

/-- An error union in any representation. -/
theorem lowerHalves_follows (hpart : GrantsParts L pending t lowerPart) (hs : s.Canonical L pending) (ht : ¬pending t)
    (hl : s.Lacks t) {set payload : TypeId} (hc : payload ∈ L.parts t) (hname : L.hasName t = false)
    (hform : L.form t = L.errorUnionForm (L.partTree t) set payload) :
    Ensures (match L.errorUnionRepr set payload with
      | .empty => onTable Table.void
      | .payloadOnly => lowerPart payload hc
      | .errorOnly => onTable (Table.int errorCodeBits)
      | .errorFirst => L.lowerErrorUnion lowerPart true set payload hc
      | .payloadFirst => L.lowerErrorUnion lowerPart false set payload hc) s fun a s' =>
        Settles L pending t s a s' := by
  have hhalves := L.room_of_errorUnionRepr set payload
  unfold errorUnionForm at hform
  cases hrepr : L.errorUnionRepr set payload <;> rw [hrepr] at hform hhalves <;> have hrc := (Prod.mk.inj hhalves).2
  · exact settles_void hs ht hl hname hform
  · exact settles_part hpart hc hrc hs ht hl hname hform
  · exact settles_int hs ht hl hname hform
  · exact lowerErrorUnion_follows ht hpart hc hrc hname hform hs hl
  · exact lowerErrorUnion_follows ht hpart hc hrc hname hform hs hl

/-- A type without known content gets a named struct, and that is all. -/
theorem declare_follows (hs : s.Canonical L pending) (ht : ¬pending t) (hl : s.Lacks t) (ho : L.isOpaque t = true)
    (hform : L.form t = .plain (.unknown t)) :
    Ensures (onTable (Table.declare (L.structName t))) s fun a s' => Settles L pending t s a s' := by
  have hhas : L.hasName t = true := L.hasName_of_isOpaque ho
  have hdeclared : Ensures (onTable (Table.declare (L.structName t))) s fun a s' =>
      (s'.noted t a).Canonical L (Besides pending t) ∧ Declares pending t s a (s'.noted t a) :=
    hs.declareFor ht hl hhas
  refine hdeclared.mono fun a s' ⟨hs', hd⟩ => ⟨hs'.settle (fun b hb => ?_) fun l hl => ?_, hd.advances⟩
  · obtain rfl := Option.some.inj (hd.lowered.symm.trans hb)
    rw [hform]
    exact ⟨⟨ho, hd.lowered, _, hd.stores⟩, nofun⟩
  · rw [hd.layouts] at hl
    cases hl

/-- A type that is lowered only if it takes room. -/
theorem settles_stored {act : StateM Session Handle} {f : Form} (hs : s.Canonical L pending) (ht : ¬pending t)
    (hl : s.Lacks t) (hname : L.takesRoom t = false → L.hasName t = false)
    (hform : L.form t = if L.takesRoom t then f else .plain .void)
    (hact : L.takesRoom t = true → L.form t = f → Ensures act s fun a s' => Settles L pending t s a s') :
    Ensures (if L.takesRoom t then act else onTable Table.void) s fun a s' => Settles L pending t s a s' := by
  cases hr : L.takesRoom t with
  | true =>
    rw [hr, if_pos rfl] at hform
    exact hact hr hform
  | false =>
    rw [hr, if_neg Bool.false_ne_true] at hform
    exact settles_void hs ht hl (hname hr) hform

theorem lowerPointer_follows (hs : s.Canonical L pending) (ht : ¬pending t) (hl : s.Lacks t) {p : PointerTy}
    (hname : L.hasName t = false)
    (hform : L.form t = .plain (if p.isSlice then L.sliceTree t p.addrSpace else .ptr p.addrSpace)) :
    Ensures (onTable (if p.isSlice then lowerSlice L.target t p.addrSpace else Table.ptr p.addrSpace)) s
      fun a s' => Settles L pending t s a s' := by
  cases hp : p.isSlice with
  | true =>
    rw [hp, if_pos rfl] at hform
    exact settles_of_serves ht hl hname hform (lowerSlice_follows (hs.besides t) p.addrSpace)
  | false =>
    rw [hp, if_neg Bool.false_ne_true] at hform
    exact settles_intern hs ht hl (by trivial) hname hform fun _ _ h => h

/-- What lowering a type for the first time leaves behind: one case for each kind of type. -/
theorem lowerNew_follows (hf : L.fnTy? t = none) (hpart : GrantsParts L pending t lowerPart)
    (hs : s.Canonical L pending) (ht : ¬pending t) (hl : s.Lacks t) :
    Ensures (L.lowerNew t lowerPart) s fun a s' => Settles L pending t s a s' := by
  have hform : L.form t = L.formNew (L.partTree t) t := (Lowering.form_of_value hf).trans (L.form_eq t)
  have hroom := L.takesRoom_eq t
  unfold formNew at hform
  unfold lowerNew
  dsimp only at hform ⊢
  split
  next hd => exact settles_void hs ht hl (by simp [SealedPool.hasName_eq, hd]) (by simpa only [hd] using hform)
  next hd => exact settles_void hs ht hl (by simp [SealedPool.hasName_eq, hd]) (by simpa only [hd] using hform)
  next hd => exact settles_void hs ht hl (by simp [SealedPool.hasName_eq, hd]) (by simpa only [hd] using hform)
  next f hd => exact settles_void hs ht hl (by simp [SealedPool.hasName_eq, hd]) (by simpa only [hd] using hform)
  next name hd =>
    have hdeclare := declare_follows hs ht hl (by simp [SealedPool.isOpaque, hd]) (by simpa only [hd] using hform)
    have hstem : L.structName t = name := by simp [SealedPool.structName, hd]
    rwa [hstem] at hdeclare
  next hd => exact settles_int hs ht hl (by simp [SealedPool.hasName_eq, hd]) (by simpa only [hd] using hform)
  next bits sign hd =>
    have hname : L.hasName t = false := by simp [SealedPool.hasName_eq, hd]
    simp only [hd] at hform
    exact settles_stored hs ht hl (fun _ => hname) hform fun _ => settles_int hs ht hl hname
  next bits hd =>
    have hm : Table.IsStructural (L.target.floatType bits) := by
      rcases floatType_cases L.target bits with ⟨width, h⟩ | ⟨kind, h⟩ <;> rw [h] <;> trivial
    exact settles_intern hs ht hl hm (by simp [SealedPool.hasName_eq, hd]) (by simpa only [hd] using hform)
      fun a s' ha => shows_floatTree ha
  next p hd =>
    exact lowerPointer_follows hs ht hl (by simp [SealedPool.hasName_eq, hd]) (by simpa only [hd] using hform)
  next len child sentinel hd =>
    have hname : L.hasName t = false := by simp [SealedPool.hasName_eq, hd]
    simp only [hd] at hform
    split
    · rename_i hn
      rw [if_pos hn] at hform
      exact settles_void hs ht hl hname hform
    · rename_i hn
      rw [if_neg hn] at hform
      exact lowerArray_follows hpart hs ht hl _ hname hform
  next len child hd =>
    have hname : L.hasName t = false := by simp [SealedPool.hasName_eq, hd]
    simp only [hd] at hform hroom
    split
    · rename_i hn
      rw [if_pos hn] at hform
      exact settles_void hs ht hl hname hform
    · rename_i hn
      rw [if_neg hn] at hform
      refine settles_stored hs ht hl (fun _ => hname) hform fun hr hform => ?_
      rw [hr] at hroom
      exact lowerVector_follows hpart hs ht hl _ (Bool.and_eq_true_iff.1 hroom.symm).2 hname hform
  next child hd =>
    exact lowerOptional_follows hpart hs ht hl _ (by simp [SealedPool.hasName_eq, hd]) (by simpa only [hd] using hform)
  next set hd =>
    have hname : L.hasName t = false := by simp [SealedPool.hasName_eq, hd]
    simp only [hd] at hform
    exact settles_stored hs ht hl (fun _ => hname) hform fun _ => settles_int hs ht hl hname
  next set payload hd =>
    exact lowerHalves_follows hpart hs ht hl _ (by simp [SealedPool.hasName_eq, hd]) (by simpa only [hd] using hform)
  next name tag variants hd =>
    have hname : L.hasName t = false := by simp [SealedPool.hasName_eq, hd]
    simp only [hd] at hform hroom
    refine settles_stored hs ht hl (fun _ => hname) hform fun hr => ?_
    exact settles_part hpart _ (hroom.symm.trans hr) hs ht hl hname
  next str hd =>
    simp only [hd] at hform
    refine settles_stored hs ht hl (fun hr => by simp [SealedPool.hasName_eq, hd, hr]) hform fun hr hform => ?_
    split
    · rename_i hp
      rw [if_pos hp] at hform
      exact settles_int hs ht hl (by simp [SealedPool.hasName_eq, hd, hp]) hform
    · rename_i hp
      rw [if_neg hp] at hform
      exact lowerStruct_follows ht hpart _ (by simp [SealedPool.isNamedContainer, hd, hr, hp])
        (by simp [SealedPool.structName, hd]) hform hs hl
  next fields hd =>
    have hname : L.hasName t = false := by simp [SealedPool.hasName_eq, hd]
    simp only [hd] at hform
    exact settles_stored hs ht hl (fun _ => hname) hform fun _ hform => lowerTuple_follows ht hpart _ hname hform hs hl
  next u hd =>
    simp only [hd] at hform
    refine settles_stored hs ht hl (fun hr => by simp [SealedPool.hasName_eq, hd, hr]) hform fun hr hform => ?_
    split
    · rename_i hp
      rw [if_pos hp] at hform
      exact settles_int hs ht hl (by simp [SealedPool.hasName_eq, hd, hp]) hform
    · rename_i hp
      rw [if_neg hp] at hform
      exact lowerUnion_follows ht hpart _ _ (by simp [SealedPool.isNamedContainer, hd, hr, hp])
        (by simp [SealedPool.structName, hd]) hform hs hl

end

/-! ## Any type -/

theorem memoized_follows {act : StateM Session Handle} (ht : ¬pending t) (hs : s.Canonical L pending)
    (hact : s.Lacks t → Ensures act s fun a s' => Settles L pending t s a s') :
    Serves L pending s (memoized t act) fun a s' => s'.lowered[t]? = some a := by
  refine Ensures.get_bind ?_
  cases hl : s.lowered[t]? with
  | some a => exact Upholds.pure hs hl
  | none =>
    refine Ensures.bind (hact (hs.lacks ht hl)) fun a s' hy => ?_
    have hnoted : (s'.noted t a).lowered[t]? = some a := by rw [lowered_noted, if_pos rfl]
    exact ⟨hy.canonical, hy.advances, hnoted⟩

theorem fnTy?_of_takesRoom {P : SealedPool} {t : TypeId} (h : P.takesRoom t = true) : P.fnTy? t = none :=
  Pool.fnTy?_eq_none fun f hd => by
    rw [P.takesRoom_eq, hd] at h
    cases h

/-- Lowering the values of a type gives the machine type of its form. -/
theorem lowerValue_follows (t : TypeId) {pending : TypeId → Prop} (hf : L.fnTy? t = none) (ht : L.Spares pending t) :
    Grants L pending t (L.lowerValue t) := by
  induction t using L.induction_on_parts generalizing pending with
  | step t ih =>
  intro s hs
  rw [lowerValue]
  refine memoized_follows ht.not_pending hs fun hl => ?_
  refine lowerNew_follows hf (fun c hc hr s₁ hs₁ => ?_) hs ht.not_pending hl
  have hfc := fnTy?_of_takesRoom hr
  have hspares := ht.part hc hr
  refine (ih c hc hfc hspares s₁ hs₁).mono fun a s' hs' _ ha => ?_
  have hshows := hs'.shows hspares.not_pending ha
  rwa [Lowering.form_of_value hfc, ← partTree_of_mem hc] at hshows

end Sizing

end MachineAbi
