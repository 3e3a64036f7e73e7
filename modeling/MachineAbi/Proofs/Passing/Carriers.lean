import MachineAbi.Passing.Classifier
import MachineAbi.Proofs.Passing.Floats

/-!
# One machine value for a whole value

A class may say that one machine value carries all of a value (`ParamClass.carrier?`, `ReturnClass.carrier?`). The
machine value has to be as large as the value (`Carrier.Holds`).

* Every classifier chooses a parameter's carrier large enough (`Sizing.carries_paramClass`).
* So it is with return values, except on Windows: integers and packed containers too wide for one register come back as
  a vector of two registers, also those that do not fit into it (`Sizing.holds_returnClass`).
-/

namespace MachineAbi

/-- One machine value that carries a whole value. -/
inductive Carrier where
  /-- The machine type of the value itself. -/
  | value
  /-- An integer of its size. -/
  | sizedInt
  | slot (slot : Slot)
  | floats (elem : FloatKind) (count : Nat)

/-- The one machine value that a parameter is passed as. -/
def ParamClass.carrier? : ParamClass → Option Carrier
  | .byValue => some .value
  | .abiSizedInt => some .sizedInt
  | .widened slot => some (.slot slot)
  | .packedArray elem count => some (.floats elem count)
  | .noBits | .byReference _ _ | .split _ | .slice => none

/-- The one machine value that a value is returned as. -/
def ReturnClass.carrier? : ReturnClass → Option Carrier
  | .byValue => some .value
  | .abiSizedInt => some .sizedInt
  | .widened slot => some (.slot slot)
  | .packedArray elem count => some (.floats elem count)
  | .noBits | .errorCode | .sret | .split _ => none

/-- The layout of the machine type of a slot. -/
def Slot.layout (Z : Sizing) : Slot → Layout
  | .int bits => Z.target.machineInt bits
  | .float kind => Z.target.machineFloat kind
  | .floatVector len elem => Z.target.vectorLayout (len * elem.bits)
  | .intVector len bits => Z.target.vectorLayout (len * bits)
  | .source t => Z.layout t

namespace Carrier

/-- The layout of the machine type that carries a value of type `t`. -/
def layout (Z : Sizing) (t : TypeId) : Carrier → Layout
  | value => Z.layout t
  | sizedInt => Z.target.machineInt ((Z.layout t).size * 8)
  | slot s => s.layout Z
  | floats elem count => .times count (Z.target.machineFloat elem)

/-- The machine value is at least as large as a value of type `t`. -/
def Holds (Z : Sizing) (t : TypeId) (k : Carrier) : Prop := (Z.layout t).size ≤ (k.layout Z t).size

end Carrier

variable {Z : Sizing} {t : TypeId} {k : Carrier}

theorem Target.bytesFor_le_machineInt {T : Target} (hT : T.Supported) (bits : Nat) :
    bytesFor bits ≤ (T.machineInt bits).size := by
  rw [machineInt_eq hT, intLayout]
  split
  · rename_i hb
    rw [hb]
    exact Nat.zero_le _
  · exact le_alignUp (isPowerOfTwo_intTyAlign hT bits)

namespace Carrier

theorem holds_value : value.Holds Z t := Nat.le_refl _

theorem holds_sizedInt (hT : Z.target.Supported) : sizedInt.Holds Z t := by
  have hbytes : bytesFor ((Z.layout t).size * 8) = (Z.layout t).size := by
    unfold bytesFor
    omega
  have hle := Target.bytesFor_le_machineInt hT ((Z.layout t).size * 8)
  rwa [hbytes] at hle

theorem holds_floats (hZ : Z.Regular) {elem : FloatKind} {count : Nat}
    (h : Z.homogeneousFloats? t Aarch64.maxFloats = some (elem, count)) : (floats elem count).Holds Z t :=
  Nat.le_min.2 ⟨(Sizing.fits_of_homogeneousFloats hZ.formatted (by decide) h).size, hZ.sizes t⟩

/-- A half float fits into an integer of its width. -/
theorem holds_half (hT : Z.target.Supported) (hd : Z.get t = .float 16) : (slot (.int 16)).Holds Z t := by
  rw [Holds, Sizing.layout_of_extent (Sizing.extent_of_get hd)]
  exact Target.bytesFor_le_machineInt hT 16

end Carrier

/-- If one machine value is to carry a value of type `t`, it is large enough. -/
def Sizing.Carries (Z : Sizing) (t : TypeId) (carrier? : Option Carrier) : Prop := ∀ k ∈ carrier?, k.Holds Z t

namespace Sizing.Carries

protected theorem none : Z.Carries t none := fun _ h => nomatch h

protected theorem some (h : k.Holds Z t) : Z.Carries t (some k) := fun j hj => by
  rw [← Option.some.inj hj]
  exact h

protected theorem value : Z.Carries t (ParamClass.byValue).carrier? := .some Carrier.holds_value

protected theorem sizedInt (hT : Z.target.Supported) : Z.Carries t (ParamClass.abiSizedInt).carrier? :=
  .some (Carrier.holds_sizedInt hT)

end Sizing.Carries

/-! ## Classifiers -/

/-- A value that travels directly travels as a part of it that has its size. -/
theorem Wasm.size_of_direct {c : TypeId} (h : direct? Z t = some c) : (Z.layout c).size = (Z.layout t).size := by
  induction t using Z.induction_on_parts with
  | step t ih =>
  rw [direct?_eq] at h
  split at h
  · rw [Option.some.inj h]
  · obtain ⟨d, hd, h⟩ := Option.bind_eq_some_iff.1 h
    split at h
    · rename_i hsize
      rw [ih d (mem_parts_of_onlyMember hd) h, hsize]
    · cases h

theorem SysV.carries_classify (hT : Z.target.Supported) (t : TypeId) :
    Z.Carries t (classifyParam Z t).carrier? ∧ Z.Carries t (classifyReturn Z t).carrier? := by
  constructor
  · unfold classifyParam
    repeat' split
    all_goals first | exact .none | exact .value | exact .sizedInt hT
  · unfold classifyReturn
    repeat' split
    all_goals first | exact .none | exact .value | exact .sizedInt hT

theorem Win64.carries_classifyParam (hT : Z.target.Supported) (t : TypeId) :
    Z.Carries t (classifyParam Z t).carrier? := by
  unfold classifyParam
  repeat' split
  all_goals first | exact .none | exact .value | exact .sizedInt hT

theorem Aarch64.carries_classify (hZ : Z.Regular) (t : TypeId) :
    Z.Carries t (classifyParam Z t).carrier? ∧ Z.Carries t (classifyReturn Z t).carrier? := by
  have hT := hZ.supported
  have floats : ∀ {elem count}, kind Z t = .floats elem count → Z.Carries t (some (.floats elem count)) := by
    intro elem count h
    unfold kind at h
    dsimp only at h
    repeat' split at h
    all_goals cases h
    exact .some (Carrier.holds_floats hZ ‹_›)
  constructor
  · unfold classifyParam
    split
    all_goals first | exact .none | exact .value | exact .sizedInt hT | exact floats ‹_›
  · unfold classifyReturn
    split
    all_goals first | exact .none | exact .value | exact .sizedInt hT | exact floats ‹_›

theorem Arm.carries_classify (hT : Z.target.Supported) (hardFloat : Bool) (t : TypeId) :
    Z.Carries t (classifyParam Z hardFloat t).carrier? ∧ Z.Carries t (classifyReturn Z hardFloat t).carrier? := by
  have half : ∀ {b : Bool}, Z.get t = .float 16 ∧ b = true → Z.Carries t (some (.slot (.int 16))) :=
    fun h => .some (Carrier.holds_half hT h.1)
  constructor
  · unfold classifyParam widenedHalf?
    repeat' split
    all_goals first | exact .none | exact .value | exact half ‹_›
  · unfold classifyReturn widenedHalf?
    repeat' split
    all_goals first | exact .none | exact .value | exact half ‹_›

theorem RiscV.carries_classify (hT : Z.target.Supported) (t : TypeId) :
    Z.Carries t (classifyParam Z t).carrier? ∧ Z.Carries t (classifyReturn Z t).carrier? := by
  have half : ∀ {b : Bool}, Z.get t = .float 16 ∧ b = true → Z.Carries t (some (.slot (.int 16))) :=
    fun h => .some (Carrier.holds_half hT h.1)
  constructor
  · unfold classifyParam widenedHalf?
    repeat' split
    all_goals first | exact .none | exact .value | exact .sizedInt hT | exact half ‹_›
  · unfold classifyReturn widenedHalf?
    repeat' split
    all_goals first | exact .none | exact .value | exact .sizedInt hT | exact half ‹_›

theorem Wasm.carries_classify (Z : Sizing) (t : TypeId) :
    Z.Carries t (classifyParam Z t).carrier? ∧ Z.Carries t (classifyReturn Z t).carrier? := by
  have part : ∀ {c}, direct? Z t = some c → Z.Carries t (some (.slot (.source c))) :=
    fun h => .some (Nat.le_of_eq (size_of_direct h).symm)
  constructor
  · unfold classifyParam
    repeat' split
    all_goals first | exact .none | exact .value | exact part ‹_›
  · unfold classifyReturn
    repeat' split
    all_goals first | exact .none | exact .value | exact part ‹_›

/-! ## Wide integers on Windows -/

namespace Win64

/-- A wide integer that does not fit into the vector that it is returned as. -/
def Oversized (Z : Sizing) (t : TypeId) : Prop := kind Z t = .wideInt ∧ 16 < (Z.layout t).size

/-- Only integers and packed containers are wide integers. -/
theorem get_of_wideInt (h : kind Z t = .wideInt) :
    (∃ bits sign, Z.get t = .int bits sign) ∨ (Z.get t).isPackedContainer = true := by
  unfold kind at h
  dsimp only at h
  split at h
  · cases h
  · cases h
  · exact Or.inl ⟨_, _, ‹_›⟩
  · rename_i s hd
    split at h
    · cases h
    · split at h
      · rename_i hs
        exact Or.inr (by rw [hd]; exact hs)
      · cases h
  · rename_i u hd
    split at h
    · cases h
    · split at h
      · rename_i hu
        exact Or.inr (by rw [hd]; exact hu)
      · cases h
  · split at h <;> cases h

/-- A value comes back whole unless it is a wide integer of more than two registers. -/
theorem holds_classifyReturn (hT : Z.target.Supported) (t : TypeId) {k : Carrier}
    (hk : (classifyReturn Z t).carrier? = some k) : k.Holds Z t ↔ ¬Oversized Z t := by
  unfold classifyReturn at hk
  cases hkind : kind Z t with
  | wideInt =>
    rw [hkind] at hk
    obtain rfl := Option.some.inj hk
    have hsize : (Carrier.layout Z t (.slot (.intVector 2 64))).size = 16 := Target.vectorLayout_registers hT
    rw [Carrier.Holds, hsize, Oversized, hkind, and_iff_right rfl, Nat.not_lt]
  | integer =>
    have hno : ¬Oversized Z t := fun h => by rw [Oversized, hkind] at h; cases h.1
    rw [hkind] at hk
    refine iff_of_true ?_ hno
    dsimp only at hk
    split at hk
    · obtain rfl := Option.some.inj hk
      exact Carrier.holds_value
    · obtain rfl := Option.some.inj hk
      exact Carrier.holds_sizedInt hT
  | sse =>
    have hno : ¬Oversized Z t := fun h => by rw [Oversized, hkind] at h; cases h.1
    rw [hkind] at hk
    obtain rfl := Option.some.inj hk
    exact iff_of_true Carrier.holds_value hno
  | memory =>
    rw [hkind] at hk
    cases hk

end Win64

/-! ## All conventions -/

theorem Classifier.carries_classifyParam (hZ : Z.Regular) (c : Classifier) (t : TypeId) :
    Z.Carries t (c.classifyParam Z t).carrier? := by
  have hT := hZ.supported
  cases c with
  | sysv => exact (SysV.carries_classify hT t).1
  | win64 => exact Win64.carries_classifyParam hT t
  | aarch64 => exact (Aarch64.carries_classify hZ t).1
  | armSoft => exact (Arm.carries_classify hT false t).1
  | armVfp => exact (Arm.carries_classify hT true t).1
  | riscv => exact (RiscV.carries_classify hT t).1
  | wasm => exact (Wasm.carries_classify Z t).1
  | generic => exact .value

theorem Classifier.carries_classifyReturn (hZ : Z.Regular) {c : Classifier} (hc : c ≠ .win64) (t : TypeId) :
    Z.Carries t (c.classifyReturn Z t).carrier? := by
  have hT := hZ.supported
  cases c with
  | sysv => exact (SysV.carries_classify hT t).2
  | win64 => exact absurd rfl hc
  | aarch64 => exact (Aarch64.carries_classify hZ t).2
  | armSoft => exact (Arm.carries_classify hT false t).2
  | armVfp => exact (Arm.carries_classify hT true t).2
  | riscv => exact (RiscV.carries_classify hT t).2
  | wasm => exact (Wasm.carries_classify Z t).2
  | generic => exact .value

namespace Sizing

variable {c : Option Classifier}

/-- One machine value that is passed for a parameter holds it. -/
theorem carries_paramClass (hZ : Z.Regular) (c : Option Classifier) (t : TypeId) :
    Z.Carries t (Z.paramClass c t).carrier? := by
  unfold paramClass
  repeat' split
  all_goals first | exact .none | exact .value | exact Classifier.carries_classifyParam hZ _ t

theorem not_oversized_of_slice (h : (Z.isSlice t || Z.isOptionalSlice t) = true) : ¬Win64.Oversized Z t := by
  rintro ⟨hwide, -⟩
  rcases Win64.get_of_wideInt hwide with ⟨bits, sign, hd⟩ | hd
  · simp [Pool.isSlice, Pool.isOptionalSlice, hd] at h
  · unfold Ty.isPackedContainer at hd
    split at hd
    · simp_all [Pool.isSlice, Pool.isOptionalSlice]
    · simp_all [Pool.isSlice, Pool.isOptionalSlice]
    · cases hd

/-- One machine value that is returned for a value holds it, unless it is a wide integer on Windows. -/
theorem holds_returnClass (hZ : Z.Regular) {k : Carrier} (hk : (Z.returnClass c t).carrier? = some k) :
    k.Holds Z t ↔ ¬(c = some .win64 ∧ Win64.Oversized Z t) := by
  unfold returnClass at hk
  split at hk
  · split at hk <;> cases hk
  · split at hk
    · rename_i hslice
      obtain rfl := Option.some.inj hk
      exact iff_of_true Carrier.holds_value fun h => not_oversized_of_slice hslice h.2
    · split at hk
      · rename_i c
        by_cases hc : c = .win64
        · subst hc
          rw [Win64.holds_classifyReturn hZ.supported t hk]
          exact ⟨fun h hc => h hc.2, fun h ho => h ⟨rfl, ho⟩⟩
        · refine iff_of_true (Classifier.carries_classifyReturn hZ hc t k hk) fun h => ?_
          exact hc (Option.some.inj h.1)
      · refine iff_of_true ?_ fun h => nomatch h.1
        split at hk
        · cases hk
        · obtain rfl := Option.some.inj hk
          exact Carrier.holds_value

end Sizing

end MachineAbi
