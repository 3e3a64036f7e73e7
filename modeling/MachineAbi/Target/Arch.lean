import MachineAbi.Target.Triple

/-!
# Architectures, systems and environments

The closed vocabularies behind the components of a triple, and what follows from each word alone.
-/

namespace MachineAbi

inductive Arch where
  | x86
  | x86_64
  | aarch64
  | arm
  | thumb
  | riscv32
  | riscv64
  | wasm32
  | wasm64
  | mips
  | mipsel
  | powerpc64le
deriving DecidableEq, Repr

namespace Arch

def name : Arch → String
  | x86 => "x86"
  | x86_64 => "x86_64"
  | aarch64 => "aarch64"
  | arm => "arm"
  | thumb => "thumb"
  | riscv32 => "riscv32"
  | riscv64 => "riscv64"
  | wasm32 => "wasm32"
  | wasm64 => "wasm64"
  | mips => "mips"
  | mipsel => "mipsel"
  | powerpc64le => "powerpc64le"

/-- Names that stand for an architecture as a whole word. -/
def ofWord? : String → Option Arch
  | "x86_64" | "amd64" => some x86_64
  | "i386" | "i486" | "i586" | "i686" | "x86" => some x86
  | "aarch64" | "arm64" => some aarch64
  | "wasm32" => some wasm32
  | "wasm64" => some wasm64
  | "mips" => some mips
  | "mipsel" => some mipsel
  | "powerpc64le" | "ppc64le" => some powerpc64le
  | _ => none

/-- Stems that an instruction set suffix may follow, as in `riscv64gc` or `thumbv7em`. -/
def stems : List (String × Arch) :=
  [("riscv64", riscv64), ("riscv32", riscv32), ("thumb", thumb), ("arm", arm)]

/-- Reads the architecture component of a triple: whole words first, then stems. -/
def parse? (text : String) : Option Arch :=
  match ofWord? text with
  | some arch => some arch
  | none => (stems.find? fun s => s.1.toList.isPrefixOf text.toList).map Prod.snd

def parse (text : String) : Except TargetError Arch :=
  match parse? text with
  | some arch => .ok arch
  | none => .error (.unknownArch text)

def isX86 : Arch → Bool
  | x86 | x86_64 => true
  | _ => false

def isArm : Arch → Bool
  | arm | thumb => true
  | _ => false

def isRiscv : Arch → Bool
  | riscv32 | riscv64 => true
  | _ => false

def isWasm : Arch → Bool
  | wasm32 | wasm64 => true
  | _ => false

def isMips : Arch → Bool
  | mips | mipsel => true
  | _ => false

/-- The width of a pointer in address space 0. -/
def ptrBits : Arch → Nat
  | x86_64 | aarch64 | riscv64 | wasm64 | powerpc64le => 64
  | x86 | arm | thumb | riscv32 | wasm32 | mips | mipsel => 32

end Arch

inductive Os where
  | linux
  | darwin
  | windows
  | wasi
  /-- No operating system, or one without rules of its own. -/
  | freestanding
deriving DecidableEq, Repr

def Os.parse : String → Os
  | "linux" => .linux
  | "darwin" | "macos" => .darwin
  | "windows" => .windows
  | "wasi" => .wasi
  | _ => .freestanding

def Os.name : Os → String
  | .linux => "linux"
  | .darwin => "darwin"
  | .windows => "windows"
  | .wasi => "wasi"
  | .freestanding => "freestanding"

/-- The last component of a triple. -/
inductive Environment where
  | gnu
  | musl
  | msvc
  | gnueabihf
  | eabi
  | none
deriving DecidableEq, Repr

def Environment.parse : Option String → Environment
  | some "gnu" => .gnu
  | some "musl" => .musl
  | some "msvc" => .msvc
  | some "gnueabihf" => .gnueabihf
  | some "eabi" => .eabi
  | _ => .none

def Environment.name : Environment → String
  | .gnu => "gnu"
  | .musl => "musl"
  | .msvc => "msvc"
  | .gnueabihf => "gnueabihf"
  | .eabi => "eabi"
  | .none => "none"

inductive ObjectFormat where
  | elf
  | macho
  | coff
  | wasm
deriving DecidableEq, Repr

def ObjectFormat.name : ObjectFormat → String
  | .elf => "elf"
  | .macho => "macho"
  | .coff => "coff"
  | .wasm => "wasm"

/-- The object format follows the system, except that WebAssembly has its own. -/
def ObjectFormat.of (arch : Arch) (os : Os) : ObjectFormat :=
  if arch.isWasm then .wasm
  else
    match os with
    | .darwin => .macho
    | .windows => .coff
    | _ => .elf

end MachineAbi
