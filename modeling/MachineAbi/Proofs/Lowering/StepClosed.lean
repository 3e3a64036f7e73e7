import MachineAbi.Lowering.Call
import MachineAbi.Proofs.Lowering.Steps
import MachineAbi.Proofs.Passing.Stored

/-!
# What calls are put together from

Lowering of calls is one thing after another: machine types are interned, and types that take room are lowered. So it has
every property that these have and that is kept from one action to the next (`Lowering.StepClosed`).

* Signatures have it (`StepClosed.signatureWith`).
* Requests have it if lowering of single types has it (`StepClosed.lowerAnySlot`, `StepClosed.signature?`).
-/

namespace MachineAbi

open Session

namespace Lowering

/-- `R` holds of what calls are put together from, and is kept from one action to the next. -/
structure StepClosed (L : Lowering) (R : ∀ {α : Type}, StateM Session α → Prop) : Prop where
  pure : ∀ {α : Type} (a : α), R (pure a)
  bind : ∀ {α β : Type} {act : StateM Session α} {next : α → StateM Session β},
    R act → (∀ a, R (next a)) → R (act >>= next)
  intern : ∀ {m : MachineType}, Table.IsStructural m → R (onTable (Table.intern m))
  value : ∀ {t : TypeId}, L.takesRoom t = true → R (L.lowerValue t)

namespace StepClosed

variable {L : Lowering} {R : ∀ {α : Type}, StateM Session α → Prop} (hR : L.StepClosed R)

include hR

/-! ## Signatures -/

theorem lowerSlot {slot : Slot} (h : slot.Stored L.toSizing) : R (L.lowerSlot slot) := by
  cases slot with
  | int bits => exact hR.intern (by trivial)
  | float kind => exact hR.intern (by trivial)
  | floatVector len elem => exact hR.bind (hR.intern (by trivial)) fun elem => hR.intern (by trivial)
  | intVector len bits => exact hR.bind (hR.intern (by trivial)) fun elem => hR.intern (by trivial)
  | source t => exact hR.value h

theorem lowerSlots {slots : List Slot} (h : ∀ slot ∈ slots, slot.Stored L.toSizing) : R (L.lowerSlots slots) := by
  induction slots with
  | nil => exact hR.pure _
  | cons slot slots ih =>
    refine hR.bind (hR.lowerSlot (h slot List.mem_cons_self)) fun a => ?_
    exact hR.bind (ih fun s hs => h s (List.mem_cons_of_mem _ hs)) fun as => hR.pure _

theorem floatArray (elem : FloatKind) (count : Nat) : R (onTable (floatArray elem count)) := by
  unfold Lowering.floatArray
  rw [onTable_bind]
  exact hR.bind (hR.intern (by trivial)) fun elem => hR.intern (by trivial)

theorem lowerReturn {f : FnTy} {c : ReturnClass} (hc : c.Stored L.toSizing)
    (hr : c ≠ .noBits → c ≠ .errorCode → L.takesRoom f.ret = true) : R (L.lowerReturn f c) := by
  unfold Lowering.lowerReturn
  split
  · exact hR.bind (hR.intern (by trivial)) fun a => hR.pure _
  · exact hR.bind (hR.intern (by trivial)) fun a => hR.pure _
  · exact hR.bind (hR.value (hr nofun nofun)) fun a => hR.pure _
  · refine hR.bind (hR.value (hr nofun nofun)) fun pointee => ?_
    refine hR.bind (hR.intern (by trivial)) fun ptr => hR.bind ?_ fun ret => hR.pure _
    split <;> exact hR.intern (by trivial)
  · exact hR.bind (hR.intern (by trivial)) fun a => hR.pure _
  · exact hR.bind (hR.lowerSlot (hc _ List.mem_cons_self)) fun a => hR.pure _
  · exact hR.bind (hR.lowerSlots hc) fun as => hR.bind (hR.intern (by trivial)) fun a => hR.pure _
  · exact hR.bind (hR.lowerSlot hc) fun a => hR.pure _
  · exact hR.bind (hR.floatArray _ _) fun a => hR.pure _

theorem lowerErrorTrace (f : FnTy) : R (L.lowerErrorTrace f) := by
  unfold Lowering.lowerErrorTrace
  split
  · exact hR.bind (hR.intern (by trivial)) fun a => hR.pure _
  · exact hR.pure _

theorem lowerSplit {cc : CallConv} {index part : Nat} {slots : List Slot}
    (h : ∀ slot ∈ slots, slot.Stored L.toSizing) : R (L.lowerSplit cc index part slots) := by
  induction slots generalizing part with
  | nil => exact hR.pure _
  | cons slot slots ih =>
    refine hR.bind (hR.lowerSlot (h slot List.mem_cons_self)) fun a => ?_
    exact hR.bind (ih fun s hs => h s (List.mem_cons_of_mem _ hs)) fun as => hR.pure _

theorem lowerParam {f : FnTy} {index : Nat} {t : TypeId} {c : ParamClass} (hc : c.Stored L.toSizing)
    (hr : c ≠ .noBits → L.takesRoom t = true) : R (L.lowerParam f index t c) := by
  unfold Lowering.lowerParam
  split
  · exact hR.pure _
  · exact hR.bind (hR.value (hr nofun)) fun a => hR.pure _
  · refine hR.bind (hR.value (hr nofun)) fun pointee => ?_
    exact hR.bind (hR.intern (by trivial)) fun ptr => hR.pure _
  · exact hR.bind (hR.intern (by trivial)) fun a => hR.pure _
  · exact hR.lowerSplit hc
  · refine hR.bind (hR.intern (by trivial)) fun ptr => ?_
    exact hR.bind (hR.intern (by trivial)) fun len => hR.pure _
  · exact hR.bind (hR.lowerSlot hc) fun a => hR.pure _
  · exact hR.bind (hR.floatArray _ _) fun a => hR.pure _

theorem lowerParams {c : Option Classifier} {f : FnTy} {index : Nat} {ts : List TypeId} :
    R (L.lowerParams c f index ts) := by
  induction ts generalizing index with
  | nil => exact hR.pure _
  | cons t ts ih =>
    refine hR.bind (hR.lowerParam (L.stored_paramClass c t) Sizing.takesRoom_of_paramClass) fun ps => ?_
    exact hR.bind ih fun rest => hR.pure _

theorem signatureWith (c : Option Classifier) (f : FnTy) : R (L.signatureWith c f) := by
  refine hR.bind (hR.lowerReturn (L.stored_returnClass c f.ret) Sizing.takesRoom_of_returnClass) fun ret => ?_
  refine hR.bind (hR.lowerErrorTrace f) fun trace => ?_
  exact hR.bind hR.lowerParams fun ps => hR.pure _

/-! ## Requests -/

theorem lift {α : Type} {act : StateM Session α} (h : R act) : R (ExceptT.lift act : Request α).run :=
  hR.bind h fun a => hR.pure (Except.ok a)

theorem request_bind {α β : Type} {r : Request α} {next : α → Request β} (h : R r.run)
    (hnext : ∀ a, R (next a).run) : R (r >>= next).run := by
  have hb : R (r.run >>= ExceptT.bindCont next) := by
    refine hR.bind h fun a => ?_
    cases a with
    | ok a => exact hnext a
    | error e => exact hR.pure _
  exact hb

theorem lowerAnySlot (h : ∀ t, R (L.lower t).run) (slot : Slot) : R (L.lowerAnySlot slot).run := by
  cases slot with
  | source t => exact h t
  | _ => exact hR.lift (hR.lowerSlot trivial)

theorem signature (f : FnTy) : R (L.signature f).run := by
  unfold Lowering.signature
  cases classifierFor f.cc L.target with
  | error e => exact hR.pure _
  | ok c => exact hR.lift (hR.signatureWith c f)

theorem signature? (t : TypeId) : R (L.signature? t).run := by
  unfold Lowering.signature?
  cases L.fnTy? t with
  | none => exact hR.pure _
  | some f => exact hR.request_bind (hR.signature f) fun sig => hR.pure _

theorem fieldAccess? {t : TypeId} (h : R (L.aggregateLayout? t).run) (index : Nat) : R (L.fieldAccess? t index).run :=
  hR.request_bind h fun _ => hR.pure _

end StepClosed

end Lowering

end MachineAbi
