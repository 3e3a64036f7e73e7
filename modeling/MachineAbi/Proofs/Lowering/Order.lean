import MachineAbi.Proofs.Lowering.Answers

/-!
# The order of requests makes no difference

Two sessions of the same lowering, whatever was asked for in each and in which order, answer a request alike
(`Lowering.answers_agree`): they fail for the same reason, or the two answers say the same once handles are read in
their own sessions. Handles are not compared by number, and named structs not by their position, but by the source type
that they were declared for and by their bodies (`Session.SameType`). Their names may differ by a number
(`Session.SameNames`).

Neither session is compared with the other on the way. Each follows the forms of types (`Lowering.answer_follows`), in
which no session occurs.
-/

namespace MachineAbi

namespace Session

section

variable (P : SealedPool) (s₁ s₂ : Session)

/-- Written out, the two machine types are one tree, in which named structs go by their source types. -/
def SameType (h₁ h₂ : Handle) : Prop := ∃ tree, s₁.Shows P tree h₁ ∧ s₂.Shows P tree h₂

/-- The same attributes, up to handles. -/
structure SameAttrs (a₁ a₂ : AttrSet) : Prop where
  flags : a₁.flags = a₂.flags
  align : a₁.align = a₂.align
  pointee : Option.Rel (SameType P s₁ s₂) a₁.pointee a₂.pointee

/-- The same machine parameter, up to handles. -/
structure SameParam (p₁ p₂ : MachineParam) : Prop where
  ty : SameType P s₁ s₂ p₁.ty p₂.ty
  origin : p₁.origin = p₂.origin
  attrs : SameAttrs P s₁ s₂ p₁.attrs p₂.attrs

/-- The same signature, up to handles. -/
structure SameSignature (sig₁ sig₂ : Signature) : Prop where
  cc : sig₁.cc = sig₂.cc
  params : List.Forall₂ (SameParam P s₁ s₂) sig₁.params sig₂.params
  ret : SameType P s₁ s₂ sig₁.ret sig₂.ret
  retAttrs : SameAttrs P s₁ s₂ sig₁.retAttrs sig₂.retAttrs
  paramClasses : sig₁.paramClasses = sig₂.paramClasses
  returnClass : sig₁.returnClass = sig₂.returnClass
  varargs : sig₁.varargs = sig₂.varargs

/-- The same layout of an aggregate, up to handles: its fields have the same places, offsets and positions among the
machine fields alike. -/
structure SameAggregate (l₁ l₂ : AggregateLayout) : Prop where
  machineFields : List.Forall₂ (SameType P s₁ s₂) l₁.machineFields l₂.machineFields
  fields : l₁.fields = l₂.fields
  tag : l₁.tag = l₂.tag
  size : l₁.size = l₂.size
  align : l₁.align = l₂.align

/-- Where a type has a named struct in both sessions, the two go by one name, to which each may add a number. -/
def SameNames : Prop :=
  ∀ (t : TypeId) (h₁ h₂ : Handle), P.hasName t = true → s₁.lowered[t]? = some h₁ → s₂.lowered[t]? = some h₂ →
    ∃ stem name₁ name₂, s₁.table.name? h₁ = some name₁ ∧ Table.IsTitle stem name₁ ∧
      s₂.table.name? h₂ = some name₂ ∧ Table.IsTitle stem name₂

/-- The same answer, up to handles. Machine types have the same layout as well. -/
def SameAnswer (T : Target) : Answer → Answer → Prop
  | .machineType h₁, .machineType h₂ => SameType P s₁ s₂ h₁ h₂ ∧ s₁.table.layoutOf T h₁ = s₂.table.layoutOf T h₂
  | .signature sig₁?, .signature sig₂? => Option.Rel (SameSignature P s₁ s₂) sig₁? sig₂?
  | .aggregateLayout l₁?, .aggregateLayout l₂? => Option.Rel (SameAggregate P s₁ s₂) l₁? l₂?
  | .fieldAccess a₁?, .fieldAccess a₂? => a₁? = a₂?
  | _, _ => False

end

/-! ## Answers of one form -/

section

variable {P : SealedPool} {s₁ s₂ : Session}

theorem forall₂_join {α β γ : Type} {R₁ : α → β → Prop} {R₂ : α → γ → Prop} {R : β → γ → Prop}
    {as : List α} {bs : List β} {cs : List γ} (h₁ : List.Forall₂ R₁ as bs) (h₂ : List.Forall₂ R₂ as cs)
    (h : ∀ a b c, R₁ a b → R₂ a c → R b c) : List.Forall₂ R bs cs := by
  induction h₁ generalizing cs with
  | nil =>
    cases h₂
    exact .nil
  | cons hab _ ih =>
    cases h₂ with
    | cons hac h₂ => exact .cons (h _ _ _ hab hac) (ih h₂)

theorem optionRel_join {α β γ : Type} {R₁ : α → β → Prop} {R₂ : α → γ → Prop} {R : β → γ → Prop}
    {a? : Option α} {b? : Option β} {c? : Option γ} (h₁ : Option.Rel R₁ a? b?) (h₂ : Option.Rel R₂ a? c?)
    (h : ∀ a b c, R₁ a b → R₂ a c → R b c) : Option.Rel R b? c? := by
  cases h₁ with
  | none =>
    cases h₂
    exact .none
  | some hab =>
    cases h₂ with
    | some hac => exact .some (h _ _ _ hab hac)

theorem Shows.join {tree : MachineTree} {h₁ h₂ : Handle} (hs₁ : s₁.Shows P tree h₁) (hs₂ : s₂.Shows P tree h₂) :
    SameType P s₁ s₂ h₁ h₂ :=
  ⟨tree, hs₁, hs₂⟩

theorem ShowsAttrs.join {f : AttrForm} {a₁ a₂ : AttrSet} (h₁ : s₁.ShowsAttrs P f a₁) (h₂ : s₂.ShowsAttrs P f a₂) :
    SameAttrs P s₁ s₂ a₁ a₂ :=
  ⟨h₁.flags.trans h₂.flags.symm, h₁.align.trans h₂.align.symm,
    optionRel_join h₁.pointee h₂.pointee fun _ _ _ h h' => h.join h'⟩

theorem ShowsParam.join {f : ParamForm} {p₁ p₂ : MachineParam} (h₁ : s₁.ShowsParam P f p₁)
    (h₂ : s₂.ShowsParam P f p₂) : SameParam P s₁ s₂ p₁ p₂ :=
  ⟨h₁.ty.join h₂.ty, h₁.origin.trans h₂.origin.symm, h₁.attrs.join h₂.attrs⟩

theorem ShowsSignature.join {f : SignatureForm} {sig₁ sig₂ : Signature} (h₁ : s₁.ShowsSignature P f sig₁)
    (h₂ : s₂.ShowsSignature P f sig₂) : SameSignature P s₁ s₂ sig₁ sig₂ where
  cc := h₁.cc.trans h₂.cc.symm
  params := forall₂_join h₁.params h₂.params fun _ _ _ h h' => h.join h'
  ret := h₁.ret.join h₂.ret
  retAttrs := h₁.retAttrs.join h₂.retAttrs
  paramClasses := h₁.paramClasses.trans h₂.paramClasses.symm
  returnClass := h₁.returnClass.trans h₂.returnClass.symm
  varargs := h₁.varargs.trans h₂.varargs.symm

theorem Meets.join {p : Plan} {l₁ l₂ : AggregateLayout} (h₁ : s₁.Meets P p l₁) (h₂ : s₂.Meets P p l₂) :
    SameAggregate P s₁ s₂ l₁ l₂ where
  machineFields := forall₂_join (showsAll_iff.1 h₁.machine) (showsAll_iff.1 h₂.machine) fun _ _ _ h h' => h.join h'
  fields := h₁.fields.trans h₂.fields.symm
  tag := h₁.tag.trans h₂.tag.symm
  size := h₁.size.trans h₂.size.symm
  align := h₁.align.trans h₂.align.symm

/-- A type that has a named struct gives it its name. -/
theorem Owned.name? {s : Session} {t : TypeId} {h : Handle} (ho : s.Owned P) (ht : P.hasName t = true)
    (hl : s.lowered[t]? = some h) : ∃ name, s.table.name? h = some name ∧ Table.IsTitle (P.structName t) name := by
  obtain ⟨id, hs⟩ := ho.own t h ht hl
  obtain ⟨name, hn, htitle⟩ := ho.titled t h id ht hl hs
  exact ⟨name, (Table.name?_of_named hs).trans hn, htitle⟩

theorem Owned.sameNames (ho₁ : s₁.Owned P) (ho₂ : s₂.Owned P) : SameNames P s₁ s₂ := by
  intro t h₁ h₂ ht hl₁ hl₂
  obtain ⟨name₁, hn₁, htitle₁⟩ := ho₁.name? ht hl₁
  obtain ⟨name₂, hn₂, htitle₂⟩ := ho₂.name? ht hl₂
  exact ⟨P.structName t, name₁, name₂, hn₁, htitle₁, hn₂, htitle₂⟩

/-- Two answers of the same form say the same. -/
theorem ShowsAnswer.join {T : Target} {f : AnswerForm} {a₁ a₂ : Answer} (hb₁ : s₁.Bare P) (hb₂ : s₂.Bare P)
    (h₁ : s₁.ShowsAnswer P f a₁) (h₂ : s₂.ShowsAnswer P f a₂) : SameAnswer P s₁ s₂ T a₁ a₂ := by
  cases f with
  | machineType tree =>
    cases a₁ <;> cases a₂ <;> first | exact h₁.elim | exact h₂.elim | skip
    have hlayout := (Shows.layoutOf (T := T) hb₁ h₁).trans (Shows.layoutOf hb₂ h₂).symm
    exact ⟨⟨tree, h₁, h₂⟩, hlayout⟩
  | signature f? =>
    cases a₁ <;> cases a₂ <;> first | exact h₁.elim | exact h₂.elim | skip
    have h₁ : Option.Rel (s₁.ShowsSignature P) f? _ := h₁
    exact optionRel_join h₁ h₂ fun _ _ _ h h' => h.join h'
  | aggregateLayout p? =>
    cases a₁ <;> cases a₂ <;> first | exact h₁.elim | exact h₂.elim | skip
    have h₁ : Option.Rel (s₁.Meets P) p? _ := h₁
    exact optionRel_join h₁ h₂ fun _ _ _ h h' => h.join h'
  | fieldAccess a? =>
    cases a₁ <;> cases a₂ <;> first | exact h₁.elim | exact h₂.elim | skip
    exact Eq.trans (Eq.symm h₁) h₂

end

end Session

/-! ## Two sessions -/

namespace Lowering

open Session

variable {L : Lowering} {s s' : Session}

/-- Further requests lead from one session to the other. -/
inductive Later (L : Lowering) (s : Session) : Session → Prop
  | refl : L.Later s s
  | after {s' : Session} (h : L.Later s s') (q : Query) : L.Later s (L.after s' q)

theorem Later.canonical (h : L.Later s s') (hs : s.Canonical L Idle) : s'.Canonical L Idle ∧ s.Advances Idle s' := by
  induction h with
  | refl => exact ⟨hs, .refl s⟩
  | after _ q ih =>
    obtain ⟨hs', ha⟩ := ih
    obtain ⟨hs'', ha', -⟩ := answer_follows hs' q
    exact ⟨hs'', ha.trans ha'⟩

/-- What a session answered keeps its form, whatever is asked for afterwards. -/
theorem answer_follows_later (hs : s.Canonical L Idle) {q : Query} (h : L.Later (L.after s q) s') :
    s'.Canonical L Idle ∧ Outcomes (s'.ShowsAnswer L.toSealedPool) (L.answerForm q) (L.answer s q) := by
  obtain ⟨hs', -, hanswer⟩ := answer_follows hs q
  obtain ⟨hs'', ha⟩ := h.canonical hs'
  exact ⟨hs'', hanswer.mono fun f a h => h.mono ha.refines⟩

/-- Two sessions answer a request alike, whatever was asked for before and after in each. -/
theorem answers_agree {s₁ s₂ s₁' s₂' : Session} (h₁ : L.Reachable s₁) (h₂ : L.Reachable s₂) (q : Query)
    (h₁' : L.Later (L.after s₁ q) s₁') (h₂' : L.Later (L.after s₂ q) s₂') :
    SameNames L.toSealedPool s₁' s₂' ∧
      Outcomes (SameAnswer L.toSealedPool s₁' s₂' L.target) (L.answer s₁ q) (L.answer s₂ q) := by
  obtain ⟨hs₁, hf₁⟩ := answer_follows_later h₁.canonical h₁'
  obtain ⟨hs₂, hf₂⟩ := answer_follows_later h₂.canonical h₂'
  refine ⟨hs₁.owned.sameNames hs₂.owned, ?_⟩
  exact hf₁.join hf₂ fun f a₁ a₂ ha₁ ha₂ => ha₁.join hs₁.owned.bare hs₂.owned.bare ha₂

/-- A union is lowered on its own, or after an error union that it is the payload of. -/
theorem answers_agree_sample :
    ∃ s₁ s₂, (⟨.sample, .standard⟩ : Lowering).Reachable s₁ ∧ (⟨.sample, .standard⟩ : Lowering).Reachable s₂ ∧
      SameNames Sizing.sample.toSealedPool s₁ s₂ ∧
      Outcomes (SameAnswer Sizing.sample.toSealedPool s₁ s₂ .sample)
        ((⟨.sample, .standard⟩ : Lowering).answer .empty (.machineType ⟨23⟩))
        ((⟨.sample, .standard⟩ : Lowering).answer
          ((⟨.sample, .standard⟩ : Lowering).after .empty (.machineType ⟨24⟩)) (.machineType ⟨23⟩)) := by
  have h₁ : (⟨.sample, .standard⟩ : Lowering).Reachable .empty := .empty
  have h₂ := h₁.after (.machineType ⟨24⟩)
  exact ⟨_, _, h₁.after _, h₂.after _, answers_agree h₁ h₂ (.machineType ⟨23⟩) .refl .refl⟩

end Lowering

end MachineAbi
