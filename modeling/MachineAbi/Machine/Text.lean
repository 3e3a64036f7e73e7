import MachineAbi.Machine.Table

/-!
# The text of a machine type

- `TypeTree`: a machine type with its components in place of their handles, down to the named structs;
- `Table.tree`: the tree of a handle;
- `TypeTree.text`: the tree in the syntax of the code generator, as in `[4 x i8]` or `ptr (i32, ...)`.
-/

namespace MachineAbi

/-- A machine type written out; named structs are leaves. -/
inductive TypeTree where
  | void
  | int (bits : Nat)
  | float (kind : FloatKind)
  | ptr (space : Nat)
  | array (len : Nat) (elem : TypeTree)
  | vector (len : Nat) (elem : TypeTree)
  | struct (packed : Bool) (fields : List TypeTree)
  | named (name : String)
  | function (ret : TypeTree) (params : List TypeTree) (varargs : Bool)
deriving Repr, Inhabited

namespace TypeTree

/-- The brackets around the fields of a struct. -/
def openBracket (packed : Bool) : String := if packed then "<\x7b" else "\x7b"

def closeBracket (packed : Bool) : String := if packed then "\x7d>" else "\x7d"

/-- What follows the parameters of a function that takes more than it names. -/
def ellipsis (params : List TypeTree) (varargs : Bool) : String :=
  if varargs then if params.isEmpty then "..." else ", ..." else ""

mutual

/-- The text of a machine type. -/
def text : TypeTree → String
  | void => "void"
  | int bits => "i" ++ toString bits
  | float kind => kind.name
  | ptr space => if space = 0 then "ptr" else "ptr addrspace(" ++ toString space ++ ")"
  | array len elem => "[" ++ toString len ++ " x " ++ text elem ++ "]"
  | vector len elem => "<" ++ toString len ++ " x " ++ text elem ++ ">"
  | struct packed fields =>
    if fields.isEmpty then openBracket packed ++ closeBracket packed
    else openBracket packed ++ " " ++ listText fields ++ " " ++ closeBracket packed
  | named name => "%" ++ name
  | function ret params varargs =>
    text ret ++ " (" ++ listText params ++ ellipsis params varargs ++ ")"

/-- Texts separated by commas. -/
def listText : List TypeTree → String
  | [] => ""
  | [t] => text t
  | t :: u :: ts => text t ++ ", " ++ listText (u :: ts)

end

end TypeTree

namespace Table

/-- The tree of a handle below the first argument: the components of a type are older than the type. -/
def treeBelow (t : Table) : Nat → Handle → TypeTree
  | 0, _ => .void
  | n + 1, h =>
    match t.get h with
    | .void => .void
    | .int bits => .int bits
    | .float kind => .float kind
    | .ptr space => .ptr space
    | .array len elem => .array len (t.treeBelow n elem)
    | .vector len elem => .vector len (t.treeBelow n elem)
    | .struct packed fields => .struct packed (fields.map (t.treeBelow n))
    | .named id => .named ((t.named[id]?.map (·.name)).getD "")
    | .function ret params varargs => .function (t.treeBelow n ret) (params.map (t.treeBelow n)) varargs

/-- The tree of a handle. -/
def tree (t : Table) (h : Handle) : TypeTree := t.treeBelow (h.raw + 1) h

/-- The text of a handle. -/
def text (t : Table) (h : Handle) : String := (t.tree h).text

end Table

end MachineAbi
