import MachineAbi.Text.WhiteSpace

/-!
# Options

What a compilation unit can ask of its lowering. Both options can be set by a word from the environment.
-/

namespace MachineAbi

structure Options where
  /-- Compare the layout of each lowered type with that of its source. What is lowered does not depend on it. -/
  strictChecks : Bool
  /-- Hand a pointer for an error trace to internal functions that can fail. -/
  errorTracing : Bool
deriving DecidableEq, Repr

namespace Options

/-- Everything off. -/
def standard : Options := ⟨false, false⟩

/-- Whether a word turns an option on: `1`, `true`, `on` or `yes`, with ASCII letters of any case and white space
around it. -/
def isOn (word : String) : Bool :=
  let letters := (trimWhiteSpace word.toList).map Char.toLower
  ["1", "true", "on", "yes"].any fun on => on.toList = letters

/-- The standard options, as far as no word changes them. -/
def ofWords (strict tracing : Option String) : Options where
  strictChecks := (strict.map isOn).getD standard.strictChecks
  errorTracing := (tracing.map isOn).getD standard.errorTracing

def withStrictChecks (o : Options) (on : Bool) : Options := { o with strictChecks := on }

def withErrorTracing (o : Options) (on : Bool) : Options := { o with errorTracing := on }

end Options

end MachineAbi
