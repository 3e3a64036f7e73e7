/-!
# Errors of lowering

Every type can be lowered, except for function types of a convention without machine form.
-/

namespace MachineAbi

/-- What can go wrong when a type is lowered. -/
inductive LowerError where
  /-- The request needs something that is not lowered yet. -/
  | unimplemented (what : String)
deriving DecidableEq, Repr

def LowerError.message : LowerError → String
  | .unimplemented what => "lowering of " ++ what ++ " is not implemented"

/-- The error of every request with the async convention. -/
def LowerError.async : LowerError := .unimplemented "async calling convention"

end MachineAbi
