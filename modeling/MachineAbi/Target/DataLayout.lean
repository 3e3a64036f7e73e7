import MachineAbi.Target.Descriptor

/-!
# Data layout strings

The data layout string of a target is a list of entries joined by dashes, in a fixed order:

```text
e-m:e-p270:32:32-p271:32:32-p272:64:64-i64:64-i128:128-f80:128-n8:16:32:64-S128
```

An entry stands there only if it differs from what goes without saying, or if the target wants it spelled out.
-/

namespace MachineAbi

/-- Numbers separated by colons. -/
def colons (ns : List Nat) : String := ":".intercalate (ns.map toString)

/-- An alignment entry: the preferred alignment is written only if it differs from the required one. -/
def AlignSpec.entry (kind : String) (s : AlignSpec) : String :=
  kind ++ colons ([s.bits, s.abiBits] ++ if s.prefBits = s.abiBits then [] else [s.prefBits])

/-- A pointer entry: the index width is written only if it differs from the pointer width, and then the preferred
alignment is written too. -/
def AddressSpace.entry (a : AddressSpace) : String :=
  let hasIndex := a.indexBits ≠ a.sizeBits
  "p" ++ (if a.id = 0 then "" else toString a.id) ++ ":" ++
    colons ([a.sizeBits, a.abiBits] ++ (if hasIndex ∨ a.prefBits ≠ a.abiBits then [a.prefBits] else []) ++
      if hasIndex then [a.indexBits] else [])

namespace Target

/-- How names private to an object file are written. -/
def mangling (t : Target) : String :=
  if t.arch.isMips then "m"
  else
    match t.objectFormat with
    | .elf | .wasm => "e"
    | .macho => "o"
    | .coff => if t.arch = .x86 then "x" else "w"

/-- Address spaces that are forced, or shaped unlike the default (space 0) or unlike space 0 (the others). -/
def pointerEntries (t : Target) : List String :=
  let usual := AddressSpace.plain 0 defaultPointerBits defaultPointerBits
  (t.addressSpaces.filter fun a => a.force || !a.sameShape (if a.id = 0 then usual else t.pointerLayout 0)).map
    AddressSpace.entry

def fnPtrEntries (t : Target) : List String :=
  match t.fnPtrAlign with
  | some (.independent bits) => ["Fi" ++ toString bits]
  | some (.multipleOfFunction bits) => ["Fn" ++ toString bits]
  | none => []

def intEntries (t : Target) : List String :=
  (t.intAligns.filter (·.differs defaultIntAligns)).map (AlignSpec.entry "i")

/-- Formats without a machine type are left out; x86 always names its 80-bit floats. -/
def floatEntries (t : Target) : List String :=
  let supported (s : AlignSpec) :=
    if s.bits = 16 then t.supportsF16 else if s.bits = 80 then t.supportsF80 else true
  let forced (s : AlignSpec) := s.bits == 80 && t.arch.isX86
  (t.floatAligns.filter fun s => supported s && (forced s || s.differs defaultFloatAligns)).map (AlignSpec.entry "f")

def vectorEntries (t : Target) : List String :=
  (t.vectorAligns.filter (·.differs defaultVectorAligns)).map (AlignSpec.entry "v")

def aggregateEntries (t : Target) : List String :=
  if t.aggregatePrefBits = defaultAggregatePrefBits then [] else ["a:0:" ++ toString t.aggregatePrefBits]

def nativeEntries (t : Target) : List String :=
  if t.nativeIntWidths.isEmpty then [] else ["n" ++ colons t.nativeIntWidths]

/-- The stack alignment goes without saying where it is the pointer width, except on Windows. -/
def stackEntries (t : Target) : List String :=
  if t.isWindows ∨ t.stackAlignBits ≠ t.ptrBits then ["S" ++ toString t.stackAlignBits] else []

def wideVectorEntries (t : Target) : List String := t.wideVectors.map (AlignSpec.entry "v")

def nonIntegralEntries (t : Target) : List String :=
  let ids := (t.addressSpaces.filter (·.nonIntegral)).map (·.id)
  if ids.isEmpty then [] else ["ni:" ++ colons ids]

/-- The data layout string of a target. -/
def dataLayout (t : Target) : String :=
  "-".intercalate
    ([if t.bigEndian then "E" else "e", "m:" ++ t.mangling] ++ t.pointerEntries ++ t.fnPtrEntries ++ t.intEntries ++
      t.floatEntries ++ t.vectorEntries ++ t.aggregateEntries ++ t.nativeEntries ++ t.stackEntries ++
      t.wideVectorEntries ++ t.nonIntegralEntries)

end Target

end MachineAbi
