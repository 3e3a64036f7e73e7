import MachineAbi.Proofs.Lowering.StepClosed
import MachineAbi.Proofs.Lowering.Values

/-!
# Requests keep sessions sound

Lowering of values keeps a session sound, and so does what is put together from it (`Lowering.stepClosed_maintains`). So
every session that requests lead to is sound (`Lowering.Reachable.sound`), whatever was asked for and in which order.

A function type is lowered by its signature, which asks only for types that take room. A function takes none, so it does
not ask for itself.
-/

namespace MachineAbi

open Session

/-- The action keeps sessions sound, and what they note. -/
def Maintains {α : Type} (Z : Sizing) (pending : TypeId → Prop) (act : StateM Session α) : Prop :=
  ∀ s : Session, s.Sound Z pending → Proceeds Z pending s act fun _ _ => True

namespace Maintains

variable {α β : Type} {Z : Sizing} {pending : TypeId → Prop}

protected theorem pure (a : α) : Maintains Z pending (pure a) := fun _ hs => .pure hs trivial

protected theorem bind {act : StateM Session α} {next : α → StateM Session β} (h : Maintains Z pending act)
    (hnext : ∀ a, Maintains Z pending (next a)) : Maintains Z pending (act >>= next) :=
  fun s hs => (h s hs).bind fun a s' hs' _ _ => hnext a s' hs'

theorem intern {m : MachineType} (hm : Table.IsStructural m) : Maintains Z pending (onTable (Table.intern m)) :=
  fun _ hs => (Proceeds.intern hm hs).mono fun _ _ _ _ _ => trivial

theorem of_lowers {t : TypeId} {act : StateM Session Handle} (h : Lowers Z pending t act) : Maintains Z pending act :=
  fun s hs => (h s hs).mono fun _ _ _ _ _ => trivial

end Maintains

theorem Pool.fnTy?_eq_none {p : Pool} {t : TypeId} (h : ∀ f, p.get t ≠ .function f) : p.fnTy? t = none := by
  unfold fnTy?
  split
  · exact absurd ‹_› (h _)
  · rfl

theorem Pool.get_of_fnTy? {p : Pool} {t : TypeId} {f : FnTy} (h : p.fnTy? t = some f) : p.get t = .function f := by
  unfold fnTy? at h
  split at h
  · rw [← Option.some.inj h]
    assumption
  · cases h

/-- No pending type takes room. -/
def Roomless (Z : Sizing) (pending : TypeId → Prop) : Prop := ∀ p, pending p → Z.takesRoom p = false

namespace Roomless

variable {Z : Sizing} {pending : TypeId → Prop} {t : TypeId}

theorem not_pending (h : Roomless Z pending) (ht : Z.takesRoom t = true) : ¬pending t := by
  intro hp
  rw [h t hp] at ht
  cases ht

theorem spares_of_not_pending (h : Roomless Z pending) (ht : ¬pending t) : Z.Spares pending t := by
  intro p hp
  refine Or.inr ⟨?_, h p hp⟩
  rintro rfl
  exact ht hp

theorem spares (h : Roomless Z pending) (ht : Z.takesRoom t = true) : Z.Spares pending t :=
  h.spares_of_not_pending (h.not_pending ht)

end Roomless

namespace Lowering

variable {L : Lowering} {pending : TypeId → Prop}

theorem stepClosed_maintains (hL : L.Regular) (hp : Roomless L.toSizing pending) :
    L.StepClosed (Maintains L.toSizing pending) where
  pure := .pure
  bind := .bind
  intern := .intern
  value ht := .of_lowers (Sizing.lowerValue_spec hL _ (hp.spares ht))

/-! ## Requests -/

theorem exists_classifier {cc : CallConv} (h : cc ≠ .async) (T : Target) : ∃ c, classifierFor cc T = .ok c := by
  cases cc with
  | async => exact absurd rfl h
  | _ => exact ⟨_, rfl⟩

/-- Nothing is being lowered. -/
def Idle : TypeId → Prop := fun _ => False

theorem roomless_idle (Z : Sizing) : Roomless Z Idle := fun _ h => h.elim

theorem spares_idle (Z : Sizing) (t : TypeId) : Z.Spares Idle t := fun _ h => h.elim

/-- A function type is lowered with its signature. -/
theorem lowerFunction_spec (hL : L.Regular) {t : TypeId} {f : FnTy} (hd : L.get t = .function f)
    (c : Option Classifier) :
    Lowers L.toSizing Idle t (memoized t do
      let shape ← L.signatureWith c f
      onTable (functionType shape)) := by
  intro s hs
  have hr : L.takesRoom t = false := by rw [L.takesRoom_eq, hd]
  have hp : Roomless L.toSizing (Besides Idle t) := by
    rintro p (hp | rfl)
    · exact hp.elim
    · exact hr
  refine Sizing.memoized_spec (fun h => h) hs fun hl => Sizing.yields_of_proceeds hl ?_
  refine ((stepClosed_maintains hL hp).signatureWith c f s (hs.besides t)).bind fun shape s₁ hs₁ _ _ => ?_
  refine (Proceeds.intern (by trivial) hs₁).mono fun h s' _ _ _ => ?_
  exact Sizing.describes_empty hr (by rw [DescribesEmpty, hd]; trivial)

theorem lower_of_value {t : TypeId} (h : L.fnTy? t = none) : L.lower t = ExceptT.lift (L.lowerValue t) := by
  unfold lower
  unfold Pool.fnTy? at h
  split
  · rename_i hd
    rw [hd] at h
    cases h
  · rfl

/-- Lowering a type gives the machine type that is noted for it, if it gives one. -/
theorem lower_spec (hL : L.Regular) (t : TypeId) {s : Session} (hs : s.Sound L.toSizing Idle) :
    Proceeds L.toSizing Idle s (L.lower t).run fun r s' => ∀ h, r = .ok h → s'.lowered[t]? = some h := by
  cases hf : L.fnTy? t with
  | none =>
    rw [lower_of_value hf]
    refine (Sizing.lowerValue_spec hL t (spares_idle _ t) s hs).bind fun a s' hs' _ ha => .pure hs' fun h hr => ?_
    rw [← Except.ok.inj hr]
    exact ha
  | some f =>
    have hd : L.get t = .function f := Pool.get_of_fnTy? hf
    unfold lower
    rw [hd]
    dsimp only
    cases classifierFor f.cc L.target with
    | error e => exact Proceeds.pure hs fun h hr => nomatch hr
    | ok c =>
      refine (lowerFunction_spec hL hd c s hs).bind fun a s' hs' _ ha => .pure hs' fun h hr => ?_
      rw [← Except.ok.inj hr]
      exact ha

/-- A type that takes room is always lowered. -/
theorem lower_of_takesRoom (hL : L.Regular) {s : Session} (hs : s.Sound L.toSizing Idle) {t : TypeId}
    (ht : L.takesRoom t = true) :
    ∃ h s', (L.lower t).run.run s = (.ok h, s') ∧ s'.Sound L.toSizing Idle ∧ s.Advances Idle s' ∧
      s'.lowered[t]? = some h := by
  have hf : L.fnTy? t = none := Pool.fnTy?_eq_none fun f hd => by
    rw [L.takesRoom_eq, hd] at ht
    cases ht
  rw [lower_of_value hf]
  exact ⟨_, _, rfl, Sizing.lowerValue_spec hL t (spares_idle _ t) s hs⟩

theorem maintains_lower (hL : L.Regular) (t : TypeId) : Maintains L.toSizing Idle (L.lower t).run :=
  fun _ hs => (lower_spec hL t hs).mono fun _ _ _ _ _ => trivial

theorem maintains_aggregateLayout? (hL : L.Regular) (t : TypeId) :
    Maintains L.toSizing Idle (L.aggregateLayout? t).run :=
  (stepClosed_maintains hL (roomless_idle _)).request_bind (maintains_lower hL t) fun _ s hs => ⟨hs, .refl s, trivial⟩

/-! ## Sessions that requests lead to -/

/-- What can be asked for. -/
inductive Query where
  | machineType (t : TypeId)
  | slot (slot : Slot)
  | signature (f : FnTy)
  | functionSignature (t : TypeId)
  | aggregateLayout (t : TypeId)
  | fieldAccess (t : TypeId) (index : Nat)

/-- The session after a request, whether it was answered or failed. -/
def after (L : Lowering) (s : Session) : Query → Session
  | .machineType t => ((L.lower t).run.run s).2
  | .slot slot => ((L.lowerAnySlot slot).run.run s).2
  | .signature f => ((L.signature f).run.run s).2
  | .functionSignature t => ((L.signature? t).run.run s).2
  | .aggregateLayout t => ((L.aggregateLayout? t).run.run s).2
  | .fieldAccess t index => ((L.fieldAccess? t index).run.run s).2

/-- The sessions that requests lead to. -/
inductive Reachable (L : Lowering) : Session → Prop
  | empty : L.Reachable .empty
  | after {s : Session} (h : L.Reachable s) (q : Query) : L.Reachable (L.after s q)

theorem sound_empty (Z : Sizing) : Session.empty.Sound Z Idle := by
  refine ⟨.empty, fun t h _ hl => ?_, fun t l _ hl => ?_⟩
  · simp [Session.empty] at hl
  · simp [Session.empty] at hl

theorem sound_after (hL : L.Regular) {s : Session} (hs : s.Sound L.toSizing Idle) (q : Query) :
    (L.after s q).Sound L.toSizing Idle := by
  have hclosed := stepClosed_maintains hL (roomless_idle L.toSizing)
  cases q with
  | machineType t => exact (maintains_lower hL t s hs).1
  | slot slot => exact (hclosed.lowerAnySlot (maintains_lower hL) slot s hs).1
  | signature f => exact (hclosed.signature f s hs).1
  | functionSignature t => exact (hclosed.signature? t s hs).1
  | aggregateLayout t => exact (maintains_aggregateLayout? hL t s hs).1
  | fieldAccess t index => exact (hclosed.fieldAccess? (maintains_aggregateLayout? hL t) index s hs).1

/-- Whatever was asked for, and in which order, the session is sound. -/
theorem Reachable.sound (hL : L.Regular) {s : Session} (h : L.Reachable s) : s.Sound L.toSizing Idle := by
  induction h with
  | empty => exact sound_empty _
  | after _ q ih => exact sound_after hL ih q

end Lowering

end MachineAbi
