import MachineAbi.Proofs.Lowering.Signatures

/-!
# What requests are answered

The answer to a request, up to the handles in it, is a function of the request alone: `Lowering.answerForm`, in which no
session occurs. Every session that requests lead to is canonical (`Lowering.Reachable.canonical`), and in such a session
each request is answered by its form (`Lowering.answer_follows`).
-/

namespace MachineAbi

open Session

/-- Both fail for the same reason, or both succeed with related results. -/
inductive Outcomes {ε α β : Type} (R : α → β → Prop) : Except ε α → Except ε β → Prop
  | error (e : ε) : Outcomes R (.error e) (.error e)
  | ok {a : α} {b : β} (h : R a b) : Outcomes R (.ok a) (.ok b)

namespace Outcomes

variable {ε α β γ δ : Type} {R : α → β → Prop} {x : Except ε α} {y : Except ε β}

theorem mono {R' : α → β → Prop} (h : Outcomes R x y) (hr : ∀ a b, R a b → R' a b) : Outcomes R' x y := by
  cases h with
  | error e => exact .error e
  | ok h => exact .ok (hr _ _ h)

theorem map {R' : γ → δ → Prop} {f : α → γ} {g : β → δ} (h : Outcomes R x y) (hr : ∀ a b, R a b → R' (f a) (g b)) :
    Outcomes R' (f <$> x) (g <$> y) := by
  cases h with
  | error e => exact .error e
  | ok h => exact .ok (hr _ _ h)

/-- Two outcomes that are related to the same third one. -/
theorem join {R' : α → γ → Prop} {Q : β → γ → Prop} {z : Except ε γ} (h : Outcomes R x y) (h' : Outcomes R' x z)
    (hr : ∀ a b c, R a b → R' a c → Q b c) : Outcomes Q y z := by
  cases h with
  | error e =>
    cases h' with
    | error => exact .error e
  | ok h =>
    cases h' with
    | ok h' => exact .ok (hr _ _ _ h h')

end Outcomes

/-! ## Answers -/

/-- The answer to a request. -/
inductive Answer where
  | machineType (h : Handle)
  | signature (sig? : Option Signature)
  | aggregateLayout (l? : Option AggregateLayout)
  | fieldAccess (a? : Option FieldAccess)

/-- The answer to a request, told by the types alone. -/
inductive AnswerForm where
  | machineType (tree : MachineTree)
  | signature (f? : Option SignatureForm)
  | aggregateLayout (p? : Option Plan)
  | fieldAccess (a? : Option FieldAccess)

/-- How field number `index` of an aggregate is reached. -/
def Plan.access? (p : Plan) (index : Nat) : Option FieldAccess :=
  (AggregateLayout.mk [] p.fields p.tag p.built.offset p.built.align).access? index

namespace Session

variable {P : SealedPool} {s s' : Session}

theorem Meets.access?_eq {p : Plan} {l : AggregateLayout} (h : s.Meets P p l) (index : Nat) :
    l.access? index = p.access? index := by
  simp only [Plan.access?, AggregateLayout.access?, h.fields, h.size]

theorem ShowsSignature.mono {f : SignatureForm} {sig : Signature} (h : s.ShowsSignature P f sig) (hr : s.Refines s') :
    s'.ShowsSignature P f sig :=
  ⟨h.cc, showsParams_mono h.params hr, h.ret.mono hr, h.retAttrs.mono hr, h.paramClasses, h.returnClass, h.varargs⟩

/-- The answer is that of the form. -/
def ShowsAnswer (P : SealedPool) (s : Session) : AnswerForm → Answer → Prop
  | .machineType tree, .machineType h => s.Shows P tree h
  | .signature f?, .signature sig? => Option.Rel (s.ShowsSignature P) f? sig?
  | .aggregateLayout p?, .aggregateLayout l? => Option.Rel (s.Meets P) p? l?
  | .fieldAccess a?, .fieldAccess b? => a? = b?
  | _, _ => False

/-- An answer goes on to be what it was. -/
theorem ShowsAnswer.mono {f : AnswerForm} {a : Answer} (h : s.ShowsAnswer P f a) (hr : s.Refines s') :
    s'.ShowsAnswer P f a := by
  cases f <;> cases a <;> first | exact h.elim | skip
  · exact Shows.mono hr h
  · cases h with
    | none => exact Option.Rel.none
    | some h => exact Option.Rel.some (h.mono hr)
  · cases h with
    | none => exact Option.Rel.none
    | some h => exact Option.Rel.some (h.mono hr)
  · exact h

/-- The layout kept for a type that is lowered is the plan of its form, if it has one. -/
theorem Canonical.layouts {L : Lowering} {pending : TypeId → Prop} {t : TypeId} {h : Handle}
    (hs : s.Canonical L pending) (ht : ¬pending t) (hl : s.lowered[t]? = some h) :
    Option.Rel (s.Meets L.toSealedPool) (L.form t).plan? s.layouts[t]? := by
  cases hp : (L.form t).plan? with
  | some p =>
    obtain ⟨l, hk, -, hm⟩ := (hs.formed t h ht hl).planned p hp
    rw [hk]
    exact .some hm
  | none =>
    cases hk : s.layouts[t]? with
    | none => exact .none
    | some l =>
      have hsome := (hs.kept t l ht hk).2
      rw [hp] at hsome
      cases hsome

theorem Upholds.lift {α : Type} {inv : Session → Prop} {pending : TypeId → Prop} {act : StateM Session α}
    {mid : α → Session → Prop} {post : Except LowerError α → Session → Prop} (h : Upholds inv pending s act mid)
    (hpost : ∀ a s', inv s' → mid a s' → post (.ok a) s') :
    Upholds inv pending s (ExceptT.lift act : Request α).run post := by
  have hb : Upholds inv pending s (act >>= fun a => pure (Except.ok a)) post :=
    h.bind fun a s' hs' _ hm => .pure hs' (hpost a s' hs' hm)
  exact hb

theorem Upholds.request_bind {α β : Type} {inv : Session → Prop} {pending : TypeId → Prop} {r : Request α}
    {next : α → Request β} {mid : Except LowerError α → Session → Prop} {post : Except LowerError β → Session → Prop}
    (h : Upholds inv pending s r.run mid)
    (hok : ∀ a s', inv s' → mid (.ok a) s' → Upholds inv pending s' (next a).run post)
    (herror : ∀ e s', mid (.error e) s' → post (.error e) s') : Upholds inv pending s (r >>= next).run post := by
  have hb : Upholds inv pending s (r.run >>= ExceptT.bindCont next) post := by
    refine h.bind fun a s' hs' _ hm => ?_
    cases a with
    | ok a => exact hok a s' hs' hm
    | error e => exact .pure hs' (herror e s' hm)
  exact hb

end Session

namespace Lowering

variable {L : Lowering} {s s' : Session} {t : TypeId}

/-- The form of a type that is asked for. -/
def formFor (L : Lowering) (t : TypeId) : Except LowerError Form :=
  match L.fnTy? t with
  | some f => (fun _ => L.form t) <$> classifierFor f.cc L.target
  | none => .ok (L.form t)

/-- The form of the signature of a function type that is asked for. -/
def signatureFormFor (L : Lowering) (f : FnTy) : Except LowerError SignatureForm :=
  (fun c => L.signatureForm c f) <$> classifierFor f.cc L.target

/-- The form of the signature of a type that is asked for, if it is a function type. -/
def signatureFormFor? (L : Lowering) (t : TypeId) : Except LowerError (Option SignatureForm) :=
  match L.fnTy? t with
  | some f => some <$> L.signatureFormFor f
  | none => .ok none

/-- The answer to a request, told by the types alone. -/
def answerForm (L : Lowering) : Query → Except LowerError AnswerForm
  | .machineType t | .slot (.source t) => (fun f => .machineType f.tree) <$> L.formFor t
  | .slot slot => .ok (.machineType (L.slotTree slot))
  | .signature f => (fun f => .signature (some f)) <$> L.signatureFormFor f
  | .functionSignature t => .signature <$> L.signatureFormFor? t
  | .aggregateLayout t => (fun f => .aggregateLayout f.plan?) <$> L.formFor t
  | .fieldAccess t index => (fun f => .fieldAccess (f.plan?.bind (·.access? index))) <$> L.formFor t

/-- The answer to a request in a session. -/
def answer (L : Lowering) (s : Session) : Query → Except LowerError Answer
  | .machineType t => .machineType <$> ((L.lower t).run.run s).1
  | .slot slot => .machineType <$> ((L.lowerAnySlot slot).run.run s).1
  | .signature f => (fun sig => .signature (some sig)) <$> ((L.signature f).run.run s).1
  | .functionSignature t => .signature <$> ((L.signature? t).run.run s).1
  | .aggregateLayout t => .aggregateLayout <$> ((L.aggregateLayout? t).run.run s).1
  | .fieldAccess t index => .fieldAccess <$> ((L.fieldAccess? t index).run.run s).1

/-- The type that is lowered for itself, whether it takes room or not. -/
def Query.subject? : Query → Option TypeId
  | .machineType t | .slot (.source t) | .aggregateLayout t | .fieldAccess t _ => some t
  | .slot _ | .signature _ | .functionSignature _ => none

/-! ## Each request -/

section

variable {pending : TypeId → Prop} (hp : Roomless L.toSizing pending)

include hp

/-- A type is lowered unless it is a function type of a convention without machine form, and then it is noted. -/
theorem lower_answers (ht : ¬pending t) (hs : s.Canonical L pending) :
    Serves L pending s (L.lower t).run fun r s' =>
      Outcomes (fun f h => f = L.form t ∧ s'.lowered[t]? = some h) (L.formFor t) r := by
  cases hf : L.fnTy? t with
  | none =>
    rw [lower_of_value hf, formFor, hf]
    exact (Sizing.lowerValue_follows t hf (hp.spares_of_not_pending ht) s hs).lift fun a s' _ ha => .ok ⟨rfl, ha⟩
  | some f =>
    unfold lower formFor
    rw [Pool.get_of_fnTy? hf, hf]
    dsimp only
    cases hc : classifierFor f.cc L.target with
    | error e => exact Upholds.pure hs (.error e)
    | ok c =>
      exact (lowerFunction_follows hp ht hf hc s hs).lift fun a s' _ ha => .ok ⟨rfl, ha⟩

theorem lowerAnySlot_answers (slot : Slot) (ht : ∀ t, slot = .source t → ¬pending t) (hs : s.Canonical L pending) :
    Serves L pending s (L.lowerAnySlot slot).run fun r s' =>
      Outcomes (s'.ShowsAnswer L.toSealedPool) (L.answerForm (.slot slot)) (.machineType <$> r) := by
  have other : ∀ slot : Slot, slot.Stored L.toSizing →
      Serves L pending s (ExceptT.lift (L.lowerSlot slot) : Request Handle).run fun r s' =>
        Outcomes (s'.ShowsAnswer L.toSealedPool) (.ok (.machineType (L.slotTree slot))) (.machineType <$> r) :=
    fun slot h => (lowerSlot_follows hp h hs).lift fun a s' _ ha => .ok ha
  cases slot with
  | source t =>
    have ht := ht t rfl
    refine (lower_answers hp ht hs).mono fun r s' hs' _ hr => hr.map fun f h hf => ?_
    obtain ⟨rfl, hl⟩ := hf
    exact hs'.shows ht hl
  | int | float | floatVector | intVector => exact other _ trivial

theorem signature_answers (f : FnTy) (hs : s.Canonical L pending) :
    Serves L pending s (L.signature f).run fun r s' =>
      Outcomes (s'.ShowsSignature L.toSealedPool) (L.signatureFormFor f) r := by
  unfold signature signatureFormFor
  cases hc : classifierFor f.cc L.target with
  | error e => exact Upholds.pure hs (.error e)
  | ok c => exact (signatureWith_follows hp c f hs).lift fun sig s' _ hsig => .ok hsig

theorem signature?_answers (t : TypeId) (hs : s.Canonical L pending) :
    Serves L pending s (L.signature? t).run fun r s' =>
      Outcomes (Option.Rel (s'.ShowsSignature L.toSealedPool)) (L.signatureFormFor? t) r := by
  unfold signature? signatureFormFor?
  cases L.fnTy? t with
  | none => exact Upholds.pure hs (.ok .none)
  | some f =>
    have some : ∀ {s' : Session} {r : Except LowerError Signature},
        Outcomes (s'.ShowsSignature L.toSealedPool) (L.signatureFormFor f) r →
        Outcomes (Option.Rel (s'.ShowsSignature L.toSealedPool)) (some <$> L.signatureFormFor f) (some <$> r) :=
      fun hr => hr.map fun f sig h => .some h
    exact Upholds.request_bind (signature_answers hp f hs) (fun sig s' hs' hr => .pure hs' (some hr))
      fun e s' hr => some hr

theorem aggregateLayout?_answers (ht : ¬pending t) (hs : s.Canonical L pending) :
    Serves L pending s (L.aggregateLayout? t).run fun r s' =>
      Outcomes (fun f l? => Option.Rel (s'.Meets L.toSealedPool) f.plan? l?) (L.formFor t) r := by
  refine Upholds.request_bind (lower_answers hp ht hs) (fun a s' hs' hr => ?_) fun e s' hr => ?_
  · refine ⟨hs', .refl s', ?_⟩
    cases hf : L.formFor t with
    | error e => rw [hf] at hr; cases hr
    | ok f =>
      rw [hf] at hr
      cases hr with
      | ok hr =>
        obtain ⟨rfl, hl⟩ := hr
        exact .ok (hs'.layouts ht hl)
  · cases hf : L.formFor t with
    | error e' => rw [hf] at hr; cases hr; exact .error _
    | ok f => rw [hf] at hr; cases hr

theorem fieldAccess?_answers (index : Nat) (ht : ¬pending t) (hs : s.Canonical L pending) :
    Serves L pending s (L.fieldAccess? t index).run fun r _ =>
      Outcomes (fun f a? => f.plan?.bind (·.access? index) = a?) (L.formFor t) r := by
  refine Upholds.request_bind (aggregateLayout?_answers hp ht hs) (fun l? s' hs' hr => ?_) fun e s' hr => ?_
  · refine .pure hs' ?_
    generalize L.formFor t = x at hr ⊢
    cases hr with
    | ok hr =>
      refine .ok ?_
      generalize Form.plan? _ = p? at hr ⊢
      cases hr with
      | none => rfl
      | some hm => exact (hm.access?_eq index).symm
  · generalize L.formFor t = x at hr ⊢
    cases hr
    exact .error _

/-- Every request is answered by its form, keeps the session canonical, and notes nothing about types without room but
the one that is asked for. -/
theorem answer_spares (q : Query) (hq : ∀ t ∈ q.subject?, ¬pending t) (hs : s.Canonical L pending) :
    (L.after s q).Canonical L pending ∧ s.Advances pending (L.after s q) ∧
      Outcomes ((L.after s q).ShowsAnswer L.toSealedPool) (L.answerForm q) (L.answer s q) := by
  cases q with
  | machineType t =>
    have ht := hq t rfl
    obtain ⟨hs', ha, hr⟩ := lower_answers hp ht hs
    refine ⟨hs', ha, hr.map fun f h hf => ?_⟩
    obtain ⟨rfl, hl⟩ := hf
    exact hs'.shows ht hl
  | slot slot =>
    refine lowerAnySlot_answers hp slot (fun t h => hq t ?_) hs
    rw [h]
    rfl
  | signature f =>
    obtain ⟨hs', ha, hr⟩ := signature_answers hp f hs
    exact ⟨hs', ha, hr.map fun f sig h => Option.Rel.some h⟩
  | functionSignature t =>
    obtain ⟨hs', ha, hr⟩ := signature?_answers hp t hs
    exact ⟨hs', ha, hr.map fun f? sig? h => h⟩
  | aggregateLayout t =>
    obtain ⟨hs', ha, hr⟩ := aggregateLayout?_answers hp (hq t rfl) hs
    exact ⟨hs', ha, hr.map fun f l? h => h⟩
  | fieldAccess t index =>
    obtain ⟨hs', ha, hr⟩ := fieldAccess?_answers hp index (hq t rfl) hs
    exact ⟨hs', ha, hr.map fun f a? h => h⟩

end

/-- The machine signature of a convention that has one is that of the form. -/
theorem exists_signature {f : FnTy} {c : Option Classifier} (hs : s.Canonical L Idle)
    (hc : classifierFor f.cc L.target = .ok c) :
    ∃ sig s', (L.signature f).run.run s = (.ok sig, s') ∧ s'.Canonical L Idle ∧
      s'.ShowsSignature L.toSealedPool (L.signatureForm c f) sig := by
  obtain ⟨hs', -, hanswer⟩ := signature_answers (roomless_idle _) f hs
  rw [signatureFormFor, hc] at hanswer
  cases hrun : (L.signature f).run s with
  | mk r s' =>
    rw [hrun] at hs' hanswer
    cases hanswer with
    | ok hsig => exact ⟨_, s', hrun, hs', hsig⟩

/-- A type that is lowered has the machine type of its form. -/
theorem exists_lower_of_form (hs : s.Canonical L Idle) (hf : L.formFor t = .ok (L.form t)) :
    ∃ h s', (L.lower t).run.run s = (.ok h, s') ∧ s'.Canonical L Idle ∧ s.Advances Idle s' ∧
      s'.Shows L.toSealedPool (L.form t).tree h := by
  obtain ⟨hs', ha, hanswer⟩ := lower_answers (roomless_idle _) (fun h => h) hs
  rw [hf] at hanswer
  cases hrun : (L.lower t).run s with
  | mk r s' =>
    rw [hrun] at hs' ha hanswer
    cases hanswer with
    | ok hl => exact ⟨_, s', hrun, hs', ha, hs'.shows (fun h => h) hl.2⟩

/-- A type that is no function type has the machine type of its form. -/
theorem exists_lower (hs : s.Canonical L Idle) (hf : L.fnTy? t = none) :
    ∃ h s', (L.lower t).run.run s = (.ok h, s') ∧ s'.Canonical L Idle ∧ s.Advances Idle s' ∧
      s'.Shows L.toSealedPool (L.form t).tree h :=
  exists_lower_of_form hs (by rw [formFor, hf])

/-- Every request is answered by its form, and keeps the session canonical. -/
theorem answer_follows (hs : s.Canonical L Idle) (q : Query) :
    (L.after s q).Canonical L Idle ∧ s.Advances Idle (L.after s q) ∧
      Outcomes ((L.after s q).ShowsAnswer L.toSealedPool) (L.answerForm q) (L.answer s q) :=
  answer_spares (roomless_idle _) q (fun _ _ h => h) hs

/-! ## Sessions that requests lead to -/

theorem canonical_empty (L : Lowering) : Session.empty.Canonical L Idle := by
  have nothing : ∀ c : TypeId, Session.empty.lowered[c]? = none := by
    intro c
    simp [Session.empty]
  refine ⟨.empty, rfl, fun t h _ hl => ?_, fun t l _ hl => ?_, fun t h id _ hl => ?_, fun t t' h _ _ hl => ?_,
    fun t h id _ hl => ?_, fun t h _ hl => ?_, fun id hid => ?_⟩
  · rw [nothing] at hl; cases hl
  · simp [Session.empty] at hl
  · rw [nothing] at hl; cases hl
  · rw [nothing] at hl; cases hl
  · rw [nothing] at hl; cases hl
  · rw [nothing] at hl; cases hl
  · exact absurd hid (Nat.not_lt_zero id)

/-- Whatever was asked for, and in which order, the session is canonical. -/
theorem Reachable.canonical (h : L.Reachable s) : s.Canonical L Idle := by
  induction h with
  | empty => exact canonical_empty L
  | after _ q ih => exact (answer_follows ih q).1

end Lowering

end MachineAbi
