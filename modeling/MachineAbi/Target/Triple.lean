/-!
# Target triples

A triple names a target as `<arch>-<vendor>-<os>[-<env>]`. The one accepted short form is `<arch>-<os>` for an
architecture that starts with `wasm`, whose vendor is `unknown`.

- `Triple.parse?` reads a triple and says which rule a malformed one breaks;
- `Triple.toString` writes it in its long form;
- `TargetError` lists what can be wrong with a target and `TargetError.message` its wording.
-/

namespace MachineAbi

/-- The triples with a complete descriptor. -/
def supportedTargets : List String := [
  "x86_64-unknown-linux-gnu",
  "x86_64-unknown-linux-musl",
  "x86_64-apple-darwin",
  "x86_64-pc-windows-msvc",
  "x86_64-pc-windows-gnu",
  "i686-unknown-linux-gnu",
  "aarch64-unknown-linux-gnu",
  "aarch64-unknown-linux-musl",
  "aarch64-apple-darwin",
  "arm-unknown-linux-gnueabihf",
  "riscv64gc-unknown-linux-gnu",
  "riscv32imac-unknown-none-elf",
  "wasm32-unknown-unknown",
  "wasm32-wasi",
  "wasm64-unknown-unknown",
  "mips-unknown-linux-gnu",
  "mipsel-unknown-linux-gnu",
  "powerpc64le-unknown-linux-gnu"]

/-- The rule that a malformed triple breaks. -/
inductive TripleFault where
  | emptyComponent
  | wrongShape
deriving DecidableEq, Repr

def TripleFault.message : TripleFault → String
  | .emptyComponent => "empty component"
  | .wrongShape => "expected <arch>-<vendor>-<os>[-<env>]"

/-- What can be wrong with a target. -/
inductive TargetError where
  /-- The triple is not one of `supportedTargets`. -/
  | unsupportedTarget (triple : String)
  | invalidTripleFormat (triple reason : String)
  | unknownArch (arch : String)
  /-- The derived data layout string is not the one on record. -/
  | layoutMismatch (triple expected actual : String)
deriving DecidableEq, Repr

def TargetError.message : TargetError → String
  | .unsupportedTarget triple =>
    "unsupported target '" ++ triple ++ "'. Supported targets: " ++ ", ".intercalate supportedTargets
  | .invalidTripleFormat triple reason => "invalid target triple '" ++ triple ++ "': " ++ reason
  | .unknownArch arch => "unknown architecture '" ++ arch ++ "'"
  | .layoutMismatch triple expected actual =>
    "data layout mismatch for '" ++ triple ++ "':\n  expected: " ++ expected ++ "\n  actual:   " ++ actual

/-- The components of a target triple. -/
structure Triple where
  /-- The architecture with any instruction set suffix. -/
  arch : String
  vendor : String
  os : String
  env : Option String
deriving DecidableEq, Repr

namespace Triple

/-- The pieces of a text between its dashes; always at least one. -/
def splitDash : List Char → List (List Char)
  | [] => [[]]
  | '-' :: cs => [] :: splitDash cs
  | c :: cs =>
    match splitDash cs with
    | [] => [[c]]
    | p :: ps => (c :: p) :: ps

/-- Triples from their components: three or four, or two when the first starts with `wasm`. -/
def ofComponents? : List (List Char) → Option Triple
  | [arch, os] =>
    if "wasm".toList.isPrefixOf arch then some ⟨.ofList arch, "unknown", .ofList os, none⟩ else none
  | [arch, vendor, os] => some ⟨.ofList arch, .ofList vendor, .ofList os, none⟩
  | [arch, vendor, os, env] => some ⟨.ofList arch, .ofList vendor, .ofList os, some (.ofList env)⟩
  | _ => none

/-- Reads a triple; an empty component is reported before a wrong number of them. -/
def parse? (text : String) : Except TripleFault Triple :=
  let parts := splitDash text.toList
  if parts.any List.isEmpty then .error .emptyComponent
  else
    match ofComponents? parts with
    | some triple => .ok triple
    | none => .error .wrongShape

/-- Reads a triple and names it in the error. -/
def parse (text : String) : Except TargetError Triple :=
  match parse? text with
  | .ok triple => .ok triple
  | .error fault => .error (.invalidTripleFormat text fault.message)

/-- The long form of a triple. -/
def toString (t : Triple) : String :=
  let base := t.arch ++ "-" ++ t.vendor ++ "-" ++ t.os
  match t.env with
  | some env => base ++ "-" ++ env
  | none => base

end Triple

end MachineAbi
