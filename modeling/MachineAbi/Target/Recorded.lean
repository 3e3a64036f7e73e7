import MachineAbi.Target.DataLayout

/-!
# Data layouts on record

The data layout string that the code generator reports for each supported triple. `Target.checkDataLayout` compares
the derived string with it, so that a descriptor that has drifted is noticed before any type is lowered.
-/

namespace MachineAbi

/-- Triples with the data layout on record for them. -/
def recordedLayouts : List (String × String) := [
  ("x86_64-unknown-linux-gnu",
    "e-m:e-p270:32:32-p271:32:32-p272:64:64-i64:64-i128:128-f80:128-n8:16:32:64-S128"),
  ("x86_64-unknown-linux-musl",
    "e-m:e-p270:32:32-p271:32:32-p272:64:64-i64:64-i128:128-f80:128-n8:16:32:64-S128"),
  ("x86_64-apple-darwin",
    "e-m:o-p270:32:32-p271:32:32-p272:64:64-i64:64-i128:128-f80:128-n8:16:32:64-S128"),
  ("x86_64-pc-windows-msvc",
    "e-m:w-p270:32:32-p271:32:32-p272:64:64-i64:64-i128:128-f80:128-n8:16:32:64-S128"),
  ("x86_64-pc-windows-gnu",
    "e-m:w-p270:32:32-p271:32:32-p272:64:64-i64:64-i128:128-f80:128-n8:16:32:64-S128"),
  ("i686-unknown-linux-gnu",
    "e-m:e-p:32:32-p270:32:32-p271:32:32-p272:64:64-i128:128-f64:32:64-f80:32-n8:16:32-S128"),
  ("aarch64-unknown-linux-gnu",
    "e-m:e-i8:8:32-i16:16:32-i64:64-i128:128-n32:64-S128"),
  ("aarch64-unknown-linux-musl",
    "e-m:e-i8:8:32-i16:16:32-i64:64-i128:128-n32:64-S128"),
  ("aarch64-apple-darwin",
    "e-m:o-i64:64-i128:128-n32:64-S128"),
  ("arm-unknown-linux-gnueabihf",
    "e-m:e-p:32:32-Fi8-i64:64-v128:64:128-a:0:32-n32-S64"),
  ("riscv64gc-unknown-linux-gnu",
    "e-m:e-p:64:64-i64:64-i128:128-n32:64-S128"),
  ("riscv32imac-unknown-none-elf",
    "e-m:e-p:32:32-i64:64-n32-S128"),
  ("wasm32-unknown-unknown",
    "e-m:e-p:32:32-p10:8:8-p20:8:8-i64:64-i128:128-n32:64-S128-ni:1:10:20"),
  ("wasm32-wasi",
    "e-m:e-p:32:32-p10:8:8-p20:8:8-i64:64-i128:128-n32:64-S128-ni:1:10:20"),
  ("wasm64-unknown-unknown",
    "e-m:e-p:64:64-p10:8:8-p20:8:8-i64:64-i128:128-n32:64-S128-ni:1:10:20"),
  ("mips-unknown-linux-gnu",
    "E-m:m-p:32:32-i8:8:32-i16:16:32-i64:64-n32-S64"),
  ("mipsel-unknown-linux-gnu",
    "e-m:m-p:32:32-i8:8:32-i16:16:32-i64:64-n32-S64"),
  ("powerpc64le-unknown-linux-gnu",
    "e-m:e-Fn32-i64:64-i128:128-n32:64-S128-v256:256:512")]

/-- The data layout on record for a triple. -/
def recordedLayout? (triple : String) : Option String :=
  (recordedLayouts.find? (·.1 = triple)).map Prod.snd

/-- Compares the derived data layout with the one on record; a triple without a record passes. -/
def Target.checkDataLayout (t : Target) : Except TargetError Unit :=
  match recordedLayout? t.triple with
  | none => .ok ()
  | some expected =>
    if t.dataLayout = expected then .ok () else .error (.layoutMismatch t.triple expected t.dataLayout)

end MachineAbi
