/-!
# Sizes and alignments

- `Layout`: the size and alignment of a value, in bytes;
- `alignUp`: the least multiple of an alignment that is at least an offset;
- `Layout.compose`: members one after another, each at the next offset aligned for it, and the whole padded to the
  strictest alignment.
-/

namespace MachineAbi

/-- The number of bytes that hold `bits` bits. -/
def bytesFor (bits : Nat) : Nat := (bits + 7) / 8

/-- Rounds `offset` up to a multiple of `align`, a power of two, by clearing the bits of `align - 1`. -/
def alignUp (offset align : Nat) : Nat :=
  let top := offset + (align - 1)
  top - (top &&& (align - 1))

/-- The size and alignment of a value, in bytes. -/
structure Layout where
  size : Nat
  align : Nat
deriving DecidableEq, Repr, Inhabited

namespace Layout

/-- The layout of a value that takes no room. -/
def zero : Layout := ⟨0, 1⟩

/-- The largest size a layout reports; longer arrays stop here. -/
def maxSize : Nat := 0xffffffffffffffff

/-- `m` placed behind `l`, at the next offset aligned for it. -/
def append (l m : Layout) : Layout := ⟨alignUp l.size m.align + m.size, max l.align m.align⟩

/-- The size rounded up to the alignment. -/
def pad (l : Layout) : Layout := ⟨alignUp l.size l.align, l.align⟩

/-- The sum of the sizes. -/
def total : List Layout → Nat
  | [] => 0
  | l :: ls => l.size + total ls

/-- Members in order, each at the next offset aligned for it, padded to the strictest alignment. -/
def compose (members : List Layout) : Layout := (members.foldl append zero).pad

/-- `n` copies of `l` side by side. -/
def times (n : Nat) (l : Layout) : Layout := ⟨min (n * l.size) maxSize, l.align⟩

/-- Room for any one of the members: the largest size, padded to the strictest alignment. -/
def overlay (members : List Layout) : Layout :=
  (members.foldl (fun l m => ⟨max l.size m.size, max l.align m.align⟩) zero).pad

end Layout

end MachineAbi
