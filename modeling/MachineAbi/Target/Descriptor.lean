import MachineAbi.Target.Basic

/-!
# Descriptors of the supported targets

Each fact about a target is a function of its architecture and, where it matters, its system or environment.
`Target.ofTriple` collects them for a supported triple.
-/

namespace MachineAbi

namespace Arch

/-- Address space 0. -/
def mainSpace (a : Arch) : AddressSpace :=
  let space := AddressSpace.plain 0 a.ptrBits a.ptrBits
  match a with
  | riscv64 | wasm64 => space.forced
  | _ => space

/-- x86 has pointers of mixed widths; WebAssembly keeps references in spaces of their own. -/
def otherSpaces (a : Arch) : List AddressSpace :=
  match a with
  | x86 | x86_64 =>
    [(AddressSpace.plain 270 32 32).forced, (AddressSpace.plain 271 32 32).forced,
      (AddressSpace.plain 272 64 64).forced]
  | wasm32 | wasm64 =>
    [(AddressSpace.plain 1 a.ptrBits a.ptrBits).notIntegral, (AddressSpace.plain 10 8 8).notIntegral,
      (AddressSpace.plain 20 8 8).notIntegral]
  | _ => []

/-- Bytes and half words that prefer the alignment of a word. -/
def narrowIntsPreferWord : List AlignSpec := [⟨8, 8, 32⟩, ⟨16, 16, 32⟩]

def intOverrides (a : Arch) (os : Os) : List AlignSpec :=
  let int64 := AlignSpec.natural 64 64
  let int128 := AlignSpec.natural 128 128
  match a with
  | x86 => [int128]
  | x86_64 => [int128, int64]
  | aarch64 => (if os = .darwin then [] else narrowIntsPreferWord) ++ [int64, int128]
  | arm | thumb | riscv32 => [int64]
  | riscv64 | wasm32 | wasm64 | powerpc64le => [int64, int128]
  | mips | mipsel => narrowIntsPreferWord ++ [int64]

def floatOverrides : Arch → List AlignSpec
  | x86 => [⟨64, 32, 64⟩, .natural 80 32]
  | x86_64 => [.natural 80 128]
  | _ => []

def vectorOverrides : Arch → List AlignSpec
  | arm | thumb => [⟨128, 64, 128⟩]
  | _ => []

def wideVectors : Arch → AlignTable
  | powerpc64le => [⟨256, 256, 512⟩]
  | _ => []

def aggregatePrefBits : Arch → Nat
  | arm | thumb => 32
  | _ => defaultAggregatePrefBits

def nativeIntWidths : Arch → List Nat
  | x86_64 => [8, 16, 32, 64]
  | x86 => [8, 16, 32]
  | aarch64 | riscv64 | wasm32 | wasm64 | powerpc64le => [32, 64]
  | arm | thumb | riscv32 | mips | mipsel => [32]

def stackAlignBits : Arch → Nat
  | arm | thumb | mips | mipsel => 64
  | _ => 128

def fnPtrAlign : Arch → Option FnPtrAlign
  | arm | thumb => some (.independent 8)
  | powerpc64le => some (.multipleOfFunction 32)
  | _ => none

def cTypes (a : Arch) (os : Os) : CTypes where
  long := if a = x86_64 ∧ os = .windows then 32 else a.ptrBits
  longLongAlign := if a = x86 then 32 else 64
  doubleAlign := if a = x86 then 32 else 64
  longDouble :=
    match a with
    | x86 => ⟨96, 32⟩
    | x86_64 => if os = .windows then ⟨64, 64⟩ else ⟨128, 128⟩
    | aarch64 => if os = .darwin then ⟨64, 64⟩ else ⟨128, 128⟩
    | riscv32 | riscv64 | wasm32 | wasm64 | powerpc64le => ⟨128, 128⟩
    | arm | thumb | mips | mipsel => ⟨64, 64⟩

/-- The letters that follow the seven of `riscv32` or `riscv64` name the extensions; `g` includes `d`. -/
def features (a : Arch) (component : String) (env : Environment) : Features where
  riscvD :=
    let extensions := component.toList.drop 7
    a.isRiscv && (extensions.contains 'g' || extensions.contains 'd')
  armHardFloat := a.isArm && env = .gnueabihf
  armFullFp16 := false

end Arch

namespace Target

/-- The descriptor of a target from the words of its triple. -/
def ofComponents (text : String) (triple : Triple) (arch : Arch) : Target :=
  let os := Os.parse triple.os
  let env := Environment.parse triple.env
  { triple := text
    components := triple
    arch := arch
    os := os
    env := env
    bigEndian := arch = .mips
    mainSpace := arch.mainSpace
    otherSpaces := arch.otherSpaces
    intAligns := AlignTable.merge defaultIntAligns (arch.intOverrides os)
    floatAligns := AlignTable.merge defaultFloatAligns arch.floatOverrides
    vectorAligns := AlignTable.merge defaultVectorAligns arch.vectorOverrides
    wideVectors := arch.wideVectors
    aggregatePrefBits := arch.aggregatePrefBits
    nativeIntWidths := arch.nativeIntWidths
    stackAlignBits := arch.stackAlignBits
    fnPtrAlign := arch.fnPtrAlign
    cTypes := arch.cTypes os
    features := arch.features triple.arch env }

/-- The descriptor of a supported triple. -/
def ofTriple (text : String) : Except TargetError Target :=
  if supportedTargets.contains text then do
    let triple ← Triple.parse text
    let arch ← Arch.parse triple.arch
    return ofComponents text triple arch
  else .error (.unsupportedTarget text)

end Target

end MachineAbi
