/-!
# Float formats

The formats that the machine computes with.
-/

namespace MachineAbi

inductive FloatKind where
  | half
  | float
  | double
  /-- The 80-bit format of the x87 unit. -/
  | x86Fp80
  | fp128
deriving DecidableEq, Repr

namespace FloatKind

def bits : FloatKind → Nat
  | half => 16
  | float => 32
  | double => 64
  | x86Fp80 => 80
  | fp128 => 128

def name : FloatKind → String
  | half => "half"
  | float => "float"
  | double => "double"
  | x86Fp80 => "x86_fp80"
  | fp128 => "fp128"

/-- The format of this width, if there is one. -/
def ofBits? : Nat → Option FloatKind
  | 16 => some half
  | 32 => some float
  | 64 => some double
  | 80 => some x86Fp80
  | 128 => some fp128
  | _ => none

theorem ofBits?_eq_some_iff {n : Nat} {k : FloatKind} : ofBits? n = some k ↔ n = k.bits := by
  constructor
  · unfold ofBits?
    split <;> rintro ⟨⟩ <;> rfl
  · rintro rfl
    cases k <;> rfl

end FloatKind

end MachineAbi
