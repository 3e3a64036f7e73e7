import MachineAbi.Passing.Classifier

/-!
# Only what takes room is passed

No classifier passes a value that takes no room. A parameter has a class other than `noBits` only if it takes room
(`Sizing.takesRoom_of_paramClass`), and the slots that carry it are of types that take room
(`Sizing.stored_paramClass`); so it is with return values.
-/

namespace MachineAbi

/-- A slot that does not stand for a type without room. -/
def Slot.Stored (Z : Sizing) : Slot → Prop
  | .source t => Z.takesRoom t = true
  | _ => True

/-- All slots of the class are of types that take room. -/
def ParamClass.Stored (Z : Sizing) : ParamClass → Prop
  | .split slots => ∀ slot ∈ slots, slot.Stored Z
  | .widened slot => slot.Stored Z
  | _ => True

/-- All slots of the class are of types that take room. -/
def ReturnClass.Stored (Z : Sizing) : ReturnClass → Prop
  | .split slots => ∀ slot ∈ slots, slot.Stored Z
  | .widened slot => slot.Stored Z
  | _ => True

variable {Z : Sizing} {t : TypeId}

/-! ## Slots of the classifiers -/

theorem Slot.stored_of_machine {slot : Slot} (h : ∀ c, slot ≠ .source c) : slot.Stored Z := by
  cases slot with
  | source c => exact absurd rfl (h c)
  | _ => trivial

/-- Eightbytes are no source values. -/
theorem SysV.ne_source_of_mem_slotsFrom {cs : List EightbyteClass} {slots : List Slot}
    (h : ∀ slot ∈ slots, ∀ c, slot ≠ .source c) : ∀ slot ∈ slotsFrom slots cs, ∀ c, slot ≠ .source c := by
  have snoc : ∀ {slots : List Slot} {slot : Slot}, (∀ s ∈ slots, ∀ c, s ≠ .source c) → (∀ c, slot ≠ .source c) →
      ∀ s ∈ slots ++ [slot], ∀ c, s ≠ .source c := by
    intro slots slot h hs s hm
    rcases List.mem_append.1 hm with hm | hm
    · exact h s hm
    · rw [List.mem_singleton.1 hm]
      exact hs
  induction cs generalizing slots with
  | nil => exact h
  | cons c cs ih =>
    cases c with
    | none => exact h
    | integer | sse | float | floatCombine | x87 => exact ih (snoc h nofun)
    | sseUp =>
      refine ih fun s hm => ?_
      rcases List.mem_append.1 hm with hm | hm
      · exact h s ((List.dropLast_sublist _).subset hm)
      · obtain ⟨r, -, rfl⟩ := Option.map_eq_some_iff.1 (Option.mem_toList.1 hm)
        unfold widenSlot
        split <;> nofun
    | x87Up | memory => exact ih h

theorem SysV.ne_source_of_mem_slots {e : Eightbytes} {slot : Slot} (h : slot ∈ e.slots) (c : TypeId) :
    slot ≠ .source c := by
  have hfrom : slot ∈ slotsFrom [] [e.low, e.high] := h
  exact ne_source_of_mem_slotsFrom (by simp) slot hfrom c

theorem Wasm.takesRoom_of_direct {c : TypeId} (ht : Z.takesRoom t = true) (h : direct? Z t = some c) :
    Z.takesRoom c = true := by
  induction t using Z.induction_on_parts with
  | step t ih =>
  rw [direct?_eq] at h
  split at h
  · rw [← Option.some.inj h]
    exact ht
  · obtain ⟨d, hd, h⟩ := Option.bind_eq_some_iff.1 h
    split at h
    · refine ih d (mem_parts_of_onlyMember hd) ?_ h
      have only : ∀ {ts : List TypeId}, theOnly? Z ts = some d → Z.takesRoom d = true := by
        intro ts ho
        unfold theOnly? at ho
        split at ho
        · rename_i e he
          cases ho
          exact (List.mem_filter.1 (he ▸ List.mem_singleton_self _)).2
        · cases ho
      unfold onlyMember? at hd
      repeat' split at hd
      all_goals first | exact only hd | cases hd
    · cases h

theorem RiscV.aggregateKind_ne_fields (Z : Sizing) (t : TypeId) (slots : List Slot) : aggregateKind Z t ≠ .fields slots := by
  unfold aggregateKind
  dsimp only
  repeat' split
  all_goals simp

/-- Only a struct of fields that travel on their own travels field by field. -/
theorem RiscV.floatFields_of_kind {slots : List Slot} (h : kind Z t = .fields slots) :
    floatFields? Z t = some slots := by
  have inRegisters : ∀ {found : List Slot},
      (if Z.target.features.riscvD then floatFields? Z t else none) = some found → floatFields? Z t = some found := by
    intro found hf
    split at hf
    · exact hf
    · cases hf
  unfold kind at h
  dsimp only at h
  repeat' split at h
  all_goals first
    | exact absurd h (aggregateKind_ne_fields Z t slots)
    | cases h
  all_goals exact inRegisters ‹_›

theorem RiscV.stored_kind {slots : List Slot} (h : kind Z t = .fields slots) : ∀ slot ∈ slots, slot.Stored Z := by
  intro slot hm
  obtain ⟨ts, hts, hf⟩ := Option.bind_eq_some_iff.1 (floatFields_of_kind h)
  obtain ⟨-, hslots⟩ := Option.ite_none_right_eq_some.1 hf
  rw [← Option.some.inj hslots] at hm
  obtain ⟨c, hc, rfl⟩ := List.mem_map.1 hm
  unfold storedFields? at hts
  split at hts
  · split at hts
    · cases hts
    · rw [← Option.some.inj hts] at hc
      exact (List.mem_filter.1 hc).2
  · rw [← Option.some.inj hts] at hc
    exact (List.mem_filter.1 hc).2
  · cases hts

/-! ## Classes of the classifiers -/

theorem SysV.stored_classify (Z : Sizing) (t : TypeId) :
    (classifyParam Z t).Stored Z ∧ (classifyReturn Z t).Stored Z := by
  have slots : ∀ e : Eightbytes, ∀ slot ∈ e.slots, slot.Stored Z := fun e slot hm =>
    Slot.stored_of_machine (ne_source_of_mem_slots hm)
  constructor
  · unfold classifyParam
    repeat' split
    all_goals first | trivial | exact slots _
  · unfold classifyReturn
    repeat' split
    all_goals first | trivial | exact slots _

theorem Win64.stored_classify (Z : Sizing) (t : TypeId) :
    (classifyParam Z t).Stored Z ∧ (classifyReturn Z t).Stored Z := by
  constructor
  · unfold classifyParam
    repeat' split
    all_goals trivial
  · unfold classifyReturn
    repeat' split
    all_goals trivial

theorem Aarch64.stored_classify (Z : Sizing) (t : TypeId) :
    (classifyParam Z t).Stored Z ∧ (classifyReturn Z t).Stored Z := by
  have pair : ∀ slot ∈ registerPair, slot.Stored Z := by simp [registerPair, Slot.Stored]
  constructor
  · unfold classifyParam
    split
    all_goals first | exact pair | trivial
  · unfold classifyReturn
    split
    all_goals first | exact pair | trivial

theorem Arm.stored_classify (Z : Sizing) (hardFloat : Bool) (t : TypeId) :
    (classifyParam Z hardFloat t).Stored Z ∧ (classifyReturn Z hardFloat t).Stored Z := by
  have ints : ∀ count bits, ∀ slot ∈ List.replicate count (Slot.int bits), slot.Stored Z := by
    intro count bits slot hm
    rw [List.eq_of_mem_replicate hm]
    trivial
  constructor
  · unfold classifyParam widenedHalf?
    repeat' split
    all_goals first | trivial | exact ints _ _
  · unfold classifyReturn widenedHalf?
    repeat' split
    all_goals first | trivial | exact ints 1 32

theorem RiscV.stored_classify (Z : Sizing) (t : TypeId) :
    (classifyParam Z t).Stored Z ∧ (classifyReturn Z t).Stored Z := by
  have pair : ∀ slot ∈ registerPair Z.target, slot.Stored Z := by simp [registerPair, Slot.Stored]
  constructor
  · unfold classifyParam widenedHalf?
    repeat' split
    all_goals first | trivial | exact pair | exact stored_kind ‹_›
  · unfold classifyReturn widenedHalf?
    repeat' split
    all_goals first | trivial | exact pair | exact stored_kind ‹_›

theorem Wasm.stored_classify (ht : Z.takesRoom t = true) :
    (classifyParam Z t).Stored Z ∧ (classifyReturn Z t).Stored Z := by
  constructor
  · unfold classifyParam
    repeat' split
    all_goals first | trivial | exact takesRoom_of_direct ht ‹_›
  · unfold classifyReturn
    repeat' split
    all_goals first | trivial | exact takesRoom_of_direct ht ‹_›

/-- A classifier passes a type that takes room as types that do. -/
theorem Classifier.stored_classify (c : Classifier) (ht : Z.takesRoom t = true) :
    (c.classifyParam Z t).Stored Z ∧ (c.classifyReturn Z t).Stored Z := by
  cases c with
  | sysv => exact SysV.stored_classify Z t
  | win64 => exact Win64.stored_classify Z t
  | aarch64 => exact Aarch64.stored_classify Z t
  | armSoft => exact Arm.stored_classify Z false t
  | armVfp => exact Arm.stored_classify Z true t
  | riscv => exact RiscV.stored_classify Z t
  | wasm => exact Wasm.stored_classify ht
  | generic => exact ⟨trivial, trivial⟩

/-! ## Classes of all conventions -/

namespace Sizing

variable {c : Option Classifier}

theorem takesRoom_of_paramClass (h : Z.paramClass c t ≠ .noBits) : Z.takesRoom t = true := by
  unfold paramClass at h
  split at h
  · exact absurd rfl h
  · simp_all

theorem takesRoom_of_returnClass (h : Z.returnClass c t ≠ .noBits) (he : Z.returnClass c t ≠ .errorCode) :
    Z.takesRoom t = true := by
  unfold returnClass at h he
  split at h
  · split at h
    · rename_i hr ht
      rw [if_pos hr, if_pos ht] at he
      exact absurd rfl he
    · exact absurd rfl h
  · simp_all

theorem stored_paramClass (Z : Sizing) (c : Option Classifier) (t : TypeId) : (Z.paramClass c t).Stored Z := by
  unfold paramClass
  split
  · trivial
  · rename_i hr
    have ht : Z.takesRoom t = true := by simpa using hr
    repeat' split
    all_goals first | trivial | exact (Classifier.stored_classify _ ht).1

theorem stored_returnClass (Z : Sizing) (c : Option Classifier) (t : TypeId) : (Z.returnClass c t).Stored Z := by
  unfold returnClass
  split
  · split <;> trivial
  · rename_i hr
    have ht : Z.takesRoom t = true := by simpa using hr
    repeat' split
    all_goals first | trivial | exact (Classifier.stored_classify _ ht).2

end Sizing

end MachineAbi
