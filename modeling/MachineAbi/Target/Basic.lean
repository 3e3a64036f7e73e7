import MachineAbi.Target.AlignTable
import MachineAbi.Target.Arch

/-!
# Targets

A `Target` holds the facts about one compilation target that layouts and calls depend on: pointer widths by address
space, alignment tables, the sizes of the C scalar types, stack alignment and a few processor features.

- `Target.pointerLayout`, `Target.intAlign`, `Target.floatAlign`, `Target.vectorAlign`: the alignments of machine
  values;
- `Target.cType`, `Target.int128Align?`: the alignments of C types, which values of the language take over;
- `Target.supportsF16`, `Target.supportsF80`: the float formats that have a machine type.
-/

namespace MachineAbi

/-- Pointers of one address space; widths and alignments are in bits. -/
structure AddressSpace where
  id : Nat
  sizeBits : Nat
  abiBits : Nat
  prefBits : Nat
  /-- The width of the integers used for address arithmetic. -/
  indexBits : Nat
  /-- Pointers of this space may not be cast to integers. -/
  nonIntegral : Bool
  /-- Always spelled out in the data layout, even where it matches the default. -/
  force : Bool
deriving DecidableEq, Repr

namespace AddressSpace

/-- Pointers that are aligned and indexed as they are wide. -/
def plain (id sizeBits abiBits : Nat) : AddressSpace := ⟨id, sizeBits, abiBits, abiBits, sizeBits, false, false⟩

def forced (a : AddressSpace) : AddressSpace := { a with force := true }

def notIntegral (a : AddressSpace) : AddressSpace := { a with nonIntegral := true }

/-- Equal widths and alignments, whatever the identities and flags. -/
def sameShape (a b : AddressSpace) : Bool :=
  a.sizeBits == b.sizeBits && a.abiBits == b.abiBits && a.prefBits == b.prefBits && a.indexBits == b.indexBits

def sizeBytes (a : AddressSpace) : Nat := bytesFor a.sizeBits

def alignBytes (a : AddressSpace) : Nat := max (a.abiBits / 8) 1

def layout (a : AddressSpace) : Layout := ⟨a.sizeBytes, a.alignBytes⟩

end AddressSpace

/-- How the alignment of function pointers is given, in bits. -/
inductive FnPtrAlign where
  | independent (bits : Nat)
  | multipleOfFunction (bits : Nat)
deriving DecidableEq, Repr

/-- The C scalar types whose size and alignment differ between targets. -/
inductive CType where
  | char
  | short
  | int
  | long
  | longLong
  | float
  | double
  | longDouble
deriving DecidableEq, Repr

/-- Size and alignment of a C type, in bits. -/
structure CTypeLayout where
  bits : Nat
  abiBits : Nat
deriving DecidableEq, Repr

namespace CTypeLayout

def sizeBytes (c : CTypeLayout) : Nat := c.bits / 8

def alignBytes (c : CTypeLayout) : Nat := c.abiBits / 8

def layout (c : CTypeLayout) : Layout := ⟨c.sizeBytes, c.alignBytes⟩

end CTypeLayout

/-- The C types that are not the same everywhere. -/
structure CTypes where
  long : Nat
  longLongAlign : Nat
  doubleAlign : Nat
  longDouble : CTypeLayout
deriving DecidableEq, Repr

/-- Processor features that change how values are passed. -/
structure Features where
  /-- Doubles are passed in float registers (RISC-V `D`). -/
  riscvD : Bool
  /-- Floats are passed in float registers (ARM VFP). -/
  armHardFloat : Bool
  /-- Half precision arithmetic is native (ARM). -/
  armFullFp16 : Bool
deriving DecidableEq, Repr

/-- Read-only facts about one compilation target. -/
structure Target where
  triple : String
  components : Triple
  arch : Arch
  os : Os
  env : Environment
  bigEndian : Bool
  /-- Address space 0. -/
  mainSpace : AddressSpace
  /-- The other address spaces, in increasing order of their ids. -/
  otherSpaces : List AddressSpace
  intAligns : AlignTable
  floatAligns : AlignTable
  vectorAligns : AlignTable
  /-- Wide vectors, which the data layout names after the stack alignment. -/
  wideVectors : AlignTable
  aggregatePrefBits : Nat
  nativeIntWidths : List Nat
  stackAlignBits : Nat
  fnPtrAlign : Option FnPtrAlign
  cTypes : CTypes
  features : Features
deriving DecidableEq, Repr

namespace Target

def objectFormat (t : Target) : ObjectFormat := .of t.arch t.os

def ptrBits (t : Target) : Nat := t.arch.ptrBits

def ptrBytes (t : Target) : Nat := t.ptrBits / 8

def isWindows (t : Target) : Bool := t.os == .windows

def isDarwin (t : Target) : Bool := t.os == .darwin

def isWasm (t : Target) : Bool := t.arch.isWasm

def addressSpaces (t : Target) : List AddressSpace := t.mainSpace :: t.otherSpaces

/-- Pointers of address space `id`; a space the target does not know is like space 0. -/
def pointerLayout (t : Target) (id : Nat) : AddressSpace := (t.addressSpaces.find? (·.id = id)).getD t.mainSpace

/-- The alignment in bytes of a machine integer: that of the next wider entry, or of the widest one. -/
def intAlign (t : Target) (bits : Nat) : Nat := ((t.intAligns.atLeast bits).map AlignSpec.bytes).getD 1

/-- The alignment in bytes of a 128-bit C integer, where the target gives it one of its own. -/
def int128Align? (t : Target) : Option Nat := (t.intAligns.find 128).map (·.abiBits / 8)

/-- The alignment in bytes of a machine float. -/
def floatAlign (t : Target) (bits : Nat) : Nat :=
  ((t.floatAligns.find bits).map (·.abiBits / 8)).getD (naturalAlign bits)

/-- The alignment in bytes of a machine vector whose elements take `bits` in total. -/
def vectorAlign (t : Target) (bits : Nat) : Nat :=
  (((t.vectorAligns ++ t.wideVectors).find bits).map (·.abiBits / 8)).getD (naturalAlign bits)

/-- The layout of a vector whose elements take `bits` in total. -/
def vectorLayout (t : Target) (bits : Nat) : Layout := (Layout.mk (bytesFor bits) (t.vectorAlign bits)).pad

/-- Whether 16-bit floats have a machine type. -/
def supportsF16 (t : Target) : Bool :=
  match t.arch with
  | .wasm32 | .wasm64 | .mips | .mipsel | .powerpc64le => false
  | .arm | .thumb => !t.features.armHardFloat || t.features.armFullFp16
  | _ => true

/-- Whether 80-bit floats have a machine type. -/
def supportsF80 (t : Target) : Bool := t.arch.isX86

def cType (t : Target) : CType → CTypeLayout
  | .char => ⟨8, 8⟩
  | .short => ⟨16, 16⟩
  | .int | .float => ⟨32, 32⟩
  | .long => ⟨t.cTypes.long, t.cTypes.long⟩
  | .longLong => ⟨64, t.cTypes.longLongAlign⟩
  | .double => ⟨64, t.cTypes.doubleAlign⟩
  | .longDouble => t.cTypes.longDouble

end Target

end MachineAbi
