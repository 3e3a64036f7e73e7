import MachineAbi.Layout

/-!
# Alignment tables

An alignment table lists, by width and in increasing order of width, the alignment of integers, floats or vectors.

- `AlignTable.merge`: a default table with a target's own entries laid over it;
- `AlignSpec.differs`: the entries of a table that its defaults do not already say.
-/

namespace MachineAbi

/-- One entry of an alignment table; every number is in bits. -/
structure AlignSpec where
  bits : Nat
  abiBits : Nat
  prefBits : Nat
deriving DecidableEq, Repr

namespace AlignSpec

/-- An entry that prefers the alignment it requires. -/
def natural (bits abiBits : Nat) : AlignSpec := ⟨bits, abiBits, abiBits⟩

/-- The required alignment in bytes, at least one. -/
def bytes (s : AlignSpec) : Nat := max (s.abiBits / 8) 1

end AlignSpec

/-- Entries in increasing order of width. -/
abbrev AlignTable := List AlignSpec

namespace AlignTable

/-- Enters `s`, in place of an entry of its width if there is one. -/
def enter (s : AlignSpec) : AlignTable → AlignTable
  | [] => [s]
  | e :: es =>
    if s.bits < e.bits then s :: e :: es
    else if s.bits = e.bits then s :: es
    else e :: enter s es

/-- `defaults` with `overrides` entered in order; of two entries of one width the later one stays. -/
def merge (defaults overrides : List AlignSpec) : AlignTable :=
  (defaults ++ overrides).foldl (fun table s => enter s table) []

/-- The first entry of exactly this width. -/
def find (table : AlignTable) (bits : Nat) : Option AlignSpec := table.find? (·.bits = bits)

/-- The first entry at least this wide, or the last one. -/
def atLeast (table : AlignTable) (bits : Nat) : Option AlignSpec :=
  (table.find? (bits ≤ ·.bits)).or table.getLast?

end AlignTable

/-- Whether `s` is missing from `defaults` or entered there with other alignments. -/
def AlignSpec.differs (s : AlignSpec) (defaults : List AlignSpec) : Bool := defaults.find? (·.bits = s.bits) != some s

/-- The integer alignments that go without saying. -/
def defaultIntAligns : AlignTable := [.natural 1 8, .natural 8 8, .natural 16 16, .natural 32 32, ⟨64, 32, 64⟩]

/-- The float alignments that go without saying. -/
def defaultFloatAligns : AlignTable := [.natural 16 16, .natural 32 32, .natural 64 64, .natural 128 128]

/-- The vector alignments that go without saying. -/
def defaultVectorAligns : AlignTable := [.natural 64 64, .natural 128 128]

/-- The pointer width and alignment that go without saying. -/
def defaultPointerBits : Nat := 64

/-- The preferred alignment of aggregates that goes without saying. -/
def defaultAggregatePrefBits : Nat := 64

/-- The least power of two of bytes that holds `bits` bits. -/
def naturalAlign (bits : Nat) : Nat := (max (bytesFor bits) 1).nextPowerOfTwo

end MachineAbi
