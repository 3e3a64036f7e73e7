import MachineAbi.Proofs.Lowering.Order

/-!
# A request that is made again

A request that was made before is answered as it was, handle for handle, and changes nothing
(`Lowering.answer_again`), whatever was asked for in between.

Only the machine types of source types are remembered. Slots and signatures are put together anew at each request, so
this holds because each step repeats itself (`Session.Repeats`): a machine type that was interned is found again
(`Repeats.intern`), and so is what was noted for a source type (`Repeats.memoized`). One step after another repeats
itself if both do (`Repeats.bind`), and so does what calls are put together from (`Lowering.stepClosed_repeats`).
-/

namespace MachineAbi

open Session

namespace Session

variable {α β : Type} {L : Lowering} {s : Session} {t : TypeId}

/-- In every later session that is canonical, the action gives `a` and changes nothing. -/
def Stable (L : Lowering) (act : StateM Session α) (a : α) (s : Session) : Prop :=
  ∀ s', s'.Canonical L Lowering.Idle → s.Refines s' → act s' = (a, s')

namespace Stable

variable {act : StateM Session α} {a : α}

theorem mono {s₁ : Session} (h : Stable L act a s) (hr : s.Refines s₁) : Stable L act a s₁ :=
  fun s' hs' hr' => h s' hs' (hr.trans hr')

protected theorem bind {next : α → StateM Session β} {b : β} (h : Stable L act a s)
    (hnext : Stable L (next a) b s) : Stable L (act >>= next) b s := by
  intro s' hs' hr
  have hrun : (act >>= next) s' = next (act s').1 (act s').2 := rfl
  rw [hrun, h s' hs' hr]
  exact hnext s' hs' hr

end Stable

/-- What the action gives once, it gives again, and then it changes nothing. -/
def Repeats (L : Lowering) (act : StateM Session α) : Prop :=
  ∀ s : Session, s.Canonical L Lowering.Idle → Serves L Lowering.Idle s act (Stable L act)

theorem memoized_of_lowered {act : StateM Session Handle} {h : Handle} (hl : s.lowered[t]? = some h) :
    memoized t act s = (h, s) := by
  change (memoized t act).run s = (h, s)
  simp only [memoized, StateT.run_bind, StateT.run_get, pure_bind, hl]
  rfl

namespace Repeats

protected theorem pure (a : α) : Repeats L (pure a) := fun _ hs => Upholds.pure hs fun _ _ _ => rfl

protected theorem bind {act : StateM Session α} {next : α → StateM Session β} (h : Repeats L act)
    (hnext : ∀ a, Repeats L (next a)) : Repeats L (act >>= next) := by
  intro s hs
  refine (h s hs).bind fun a s₁ hs₁ _ ha => ?_
  refine (hnext a s₁ hs₁).mono fun b s₂ _ hadvances hb => ?_
  exact (ha.mono hadvances.refines).bind hb

theorem intern {m : MachineType} (hm : Table.IsStructural m) : Repeats L (onTable (Table.intern m)) := by
  intro s hs
  refine (Serves.intern hm hs).mono fun h s₁ _ _ hstores s' hs' hr => ?_
  have hfound := Table.intern_of_stores hs'.wellFormed (hr.table.types _ _ hstores)
  have hrun : onTable (Table.intern m) s' =
      ((Table.intern m s'.table).1, { s' with table := (Table.intern m s'.table).2 }) := rfl
  rw [hrun, hfound]

/-- What is noted for a source type is found again. -/
theorem memoized {act : StateM Session Handle} (h : Grants L Lowering.Idle t (memoized t act)) :
    Repeats L (memoized t act) :=
  fun s hs => (h s hs).mono fun _ _ _ _ hl _ _ hr => memoized_of_lowered (hr.lowered _ _ hl)

end Repeats

end Session

namespace Lowering

variable {L : Lowering} {s s' : Session} {t : TypeId}

/-! ## Machine values -/

theorem repeats_lowerValue (hf : L.fnTy? t = none) : Repeats L (L.lowerValue t) := by
  have hgrants := Sizing.lowerValue_follows t hf (spares_idle _ t)
  rw [Sizing.lowerValue] at hgrants ⊢
  exact .memoized hgrants

theorem stepClosed_repeats (L : Lowering) : L.StepClosed (Repeats L) where
  pure := .pure
  bind := .bind
  intern := .intern
  value ht := repeats_lowerValue (Sizing.fnTy?_of_takesRoom ht)

/-! ## Requests -/

theorem repeats_lower (t : TypeId) : Repeats L (L.lower t).run := by
  cases hf : L.fnTy? t with
  | none =>
    rw [lower_of_value hf]
    exact (stepClosed_repeats L).lift (repeats_lowerValue hf)
  | some f =>
    unfold lower
    rw [Pool.get_of_fnTy? hf]
    dsimp only
    cases hc : classifierFor f.cc L.target with
    | error e => exact .pure _
    | ok c => exact (stepClosed_repeats L).lift (.memoized (lowerFunction_follows (roomless_idle _) (fun h => h) hf hc))

/-- The layout that is kept for a type does not change once the type is lowered. -/
theorem layouts_of_refines (hs : s.Canonical L Idle) (hs' : s'.Canonical L Idle) (hr : s.Refines s') {h : Handle}
    (hl : s.lowered[t]? = some h) : s'.layouts[t]? = s.layouts[t]? := by
  cases hk : s.layouts[t]? with
  | some l => exact hr.layouts t l hk
  | none =>
    have hrel := hs.layouts (fun h => h) hl
    have hrel' := hs'.layouts (fun h => h) (hr.lowered t h hl)
    rw [hk] at hrel
    generalize (L.form t).plan? = p? at hrel hrel'
    cases hrel
    generalize s'.layouts[t]? = l? at hrel' ⊢
    cases hrel'
    rfl

theorem repeats_aggregateLayout? (t : TypeId) : Repeats L (L.aggregateLayout? t).run := by
  intro s hs
  have hlower : Serves L Idle s (L.lower t).run fun r s₁ =>
      Stable L (L.lower t).run r s₁ ∧ ∀ h, r = .ok h → s₁.lowered[t]? = some h := by
    obtain ⟨hs₁, ha, hanswer⟩ := lower_answers (roomless_idle _) (fun h => h) hs
    refine ⟨hs₁, ha, (repeats_lower t s hs).2.2, fun h hr => ?_⟩
    rw [hr] at hanswer
    cases hf : L.formFor t with
    | error e => rw [hf] at hanswer; cases hanswer
    | ok f =>
      rw [hf] at hanswer
      cases hanswer with
      | ok hl => exact hl.2
  have hb : Serves L Idle s ((L.lower t).run >>= ExceptT.bindCont fun _ => do return (← get).layouts[t]?)
      (Stable L ((L.lower t).run >>= ExceptT.bindCont fun _ => do return (← get).layouts[t]?)) := by
    refine Upholds.bind hlower fun r s₁ hs₁ _ hr => ?_
    obtain ⟨hstable, hl⟩ := hr
    cases r with
    | error e => exact Upholds.pure hs₁ (hstable.bind fun _ _ _ => rfl)
    | ok h =>
      refine ⟨hs₁, .refl s₁, hstable.bind fun s' hs' hr => ?_⟩
      exact congrArg (fun l? => (Except.ok l?, s')) (layouts_of_refines hs₁ hs' hr (hl h rfl))
  exact hb

/-! ## Sessions that requests lead to -/

/-- A request that repeats itself is answered as before, and changes nothing. -/
theorem run_again {α : Type} {r : Request α} (hr : Repeats L r.run) (hs : s.Canonical L Idle)
    (h : L.Later (r.run.run s).2 s') : r.run.run s' = ((r.run.run s).1, s') := by
  obtain ⟨hs₁, -, hstable⟩ := hr s hs
  obtain ⟨hs', ha⟩ := h.canonical hs₁
  exact hstable s' hs' ha.refines

/-- A request that was made before is answered as it was, handle for handle, and leaves the session as it is. -/
theorem answer_again (hs : L.Reachable s) (q : Query) (h : L.Later (L.after s q) s') :
    L.answer s' q = L.answer s q ∧ L.after s' q = s' := by
  have hs := hs.canonical
  have hclosed := stepClosed_repeats L
  cases q with
  | machineType t => simp only [answer, after, run_again (repeats_lower t) hs h, and_self]
  | slot slot => simp only [answer, after, run_again (hclosed.lowerAnySlot repeats_lower slot) hs h, and_self]
  | signature f => simp only [answer, after, run_again (hclosed.signature f) hs h, and_self]
  | functionSignature t => simp only [answer, after, run_again (hclosed.signature? t) hs h, and_self]
  | aggregateLayout t => simp only [answer, after, run_again (repeats_aggregateLayout? t) hs h, and_self]
  | fieldAccess t index =>
    simp only [answer, after, run_again (hclosed.fieldAccess? (repeats_aggregateLayout? t) index) hs h, and_self]

/-- The signature of a function that takes a union and returns an error union over it, before and after the union is
lowered on its own. -/
theorem answer_again_sample :
    ∃ q s, (⟨.sample, .standard⟩ : Lowering).Later ((⟨.sample, .standard⟩ : Lowering).after .empty q) s ∧
      (⟨.sample, .standard⟩ : Lowering).answer s q = (⟨.sample, .standard⟩ : Lowering).answer .empty q ∧
      (⟨.sample, .standard⟩ : Lowering).after s q = s := by
  have h : (⟨.sample, .standard⟩ : Lowering).Later
      ((⟨.sample, .standard⟩ : Lowering).after .empty (.signature ⟨[⟨23⟩], ⟨24⟩, .c, false, 0⟩)) _ :=
    .after .refl (.machineType ⟨23⟩)
  exact ⟨_, _, h, answer_again .empty _ h⟩

end Lowering

end MachineAbi
