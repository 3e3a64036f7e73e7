import MachineAbi.Lowering.Error
import MachineAbi.Passing.Aarch64
import MachineAbi.Passing.Arm
import MachineAbi.Passing.RiscV
import MachineAbi.Passing.SysV
import MachineAbi.Passing.Wasm
import MachineAbi.Passing.Win64
import MachineAbi.Source.ByReference

/-!
# Calling conventions

A `Classifier` is the C convention of a family of architectures. The internal convention has none: it follows the
by-reference policy.

- `classifierFor`: the classifier that a calling convention means on a target;
- `classifyParam`, `classifyReturn`: the rules that all conventions share (values that take no room, slices, error
  codes), before the classifier decides.
-/

namespace MachineAbi

inductive Classifier where
  | sysv
  | win64
  | aarch64
  /-- ARM, floats in integer registers. -/
  | armSoft
  /-- ARM, floats in float registers. -/
  | armVfp
  | riscv
  | wasm
  /-- Leaves the rules of the platform to the code generator. -/
  | generic
deriving DecidableEq, Repr

namespace Classifier

def name : Classifier → String
  | sysv => SysV.name
  | win64 => Win64.name
  | aarch64 => Aarch64.name
  | armSoft => Arm.name false
  | armVfp => Arm.name true
  | riscv => RiscV.name
  | wasm => Wasm.name
  | generic => "generic"

def classifyParam (c : Classifier) (Z : Sizing) (t : TypeId) : ParamClass :=
  match c with
  | sysv => SysV.classifyParam Z t
  | win64 => Win64.classifyParam Z t
  | aarch64 => Aarch64.classifyParam Z t
  | armSoft => Arm.classifyParam Z false t
  | armVfp => Arm.classifyParam Z true t
  | riscv => RiscV.classifyParam Z t
  | wasm => Wasm.classifyParam Z t
  | generic => .byValue

def classifyReturn (c : Classifier) (Z : Sizing) (t : TypeId) : ReturnClass :=
  match c with
  | sysv => SysV.classifyReturn Z t
  | win64 => Win64.classifyReturn Z t
  | aarch64 => Aarch64.classifyReturn Z t
  | armSoft => Arm.classifyReturn Z false t
  | armVfp => Arm.classifyReturn Z true t
  | riscv => RiscV.classifyReturn Z t
  | wasm => Wasm.classifyReturn Z t
  | generic => .byValue

end Classifier

/-- The C convention of a target. -/
def Target.cClassifier (T : Target) : Classifier :=
  match T.arch with
  | .x86_64 => if T.isWindows then .win64 else .sysv
  | .aarch64 => .aarch64
  | .arm | .thumb => if T.features.armHardFloat then .armVfp else .armSoft
  | .riscv32 | .riscv64 => .riscv
  | .wasm32 | .wasm64 => .wasm
  | .x86 | .mips | .mipsel | .powerpc64le => .generic

/-- The classifier that a convention means on a target; none for the internal one. A convention of another architecture
means the generic classifier. -/
def classifierFor (cc : CallConv) (T : Target) : Except LowerError (Option Classifier) :=
  match cc with
  | .auto => .ok none
  | .async => .error .async
  | .c => .ok T.cClassifier
  | .sysv => .ok (if T.arch = .x86_64 then some .sysv else some .generic)
  | .win64 => .ok (if T.arch = .x86_64 then some .win64 else some .generic)
  | .aapcs => .ok (if T.arch.isArm then some .armSoft else some .generic)
  | .aapcsVfp => .ok (if T.arch.isArm then some .armVfp else some .generic)

namespace Sizing

/-- How a parameter of type `t` is passed; `none` is the internal convention. -/
def paramClass (Z : Sizing) (c : Option Classifier) (t : TypeId) : ParamClass :=
  if !Z.takesRoom t then .noBits
  else if Z.isSlice t || Z.isOptionalSlice t then .slice
  else
    match c with
    | some c => c.classifyParam Z t
    | none => if Z.isByReference t then .byReference false false else .byValue

/-- How a value of type `t` is returned; `none` is the internal convention. -/
def returnClass (Z : Sizing) (c : Option Classifier) (t : TypeId) : ReturnClass :=
  if !Z.takesRoom t then if Z.isErrorType t then .errorCode else .noBits
  else if Z.isSlice t || Z.isOptionalSlice t then .byValue
  else
    match c with
    | some c => c.classifyReturn Z t
    | none => if Z.isByReference t then .sret else .byValue

/-- How a parameter of type `t` is passed by a convention. -/
def classifyParam (Z : Sizing) (cc : CallConv) (t : TypeId) : Except LowerError ParamClass := do
  return Z.paramClass (← classifierFor cc Z.target) t

/-- How a value of type `t` is returned by a convention. -/
def classifyReturn (Z : Sizing) (cc : CallConv) (t : TypeId) : Except LowerError ReturnClass := do
  return Z.returnClass (← classifierFor cc Z.target) t

end Sizing

end MachineAbi
