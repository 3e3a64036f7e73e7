import MachineAbi.Passing.Class
import MachineAbi.Passing.Nesting

/-!
# x86-64 System V

An aggregate of at most 16 bytes is seen as two eightbytes. Each scalar inside it gives the eightbytes it lies in a
class (`Eightbytes.classify`); classes that meet are merged (`EightbyteClass.merge`), and the result decides between
registers (`Eightbytes.slots`) and memory.
-/

namespace MachineAbi.SysV

inductive EightbyteClass where
  | none
  | integer
  | sse
  /-- The second eightbyte of a 16-byte float or vector. -/
  | sseUp
  /-- A float of at most 32 bits. -/
  | float
  /-- Two such floats. -/
  | floatCombine
  | x87
  | x87Up
  | memory
deriving DecidableEq, Repr

namespace EightbyteClass

def isX87 : EightbyteClass → Bool
  | x87 | x87Up => true
  | _ => false

/-- Classes that do not mix with any other but `integer`. -/
def standsAlone : EightbyteClass → Bool
  | x87 | x87Up | sseUp => true
  | _ => false

/-- The class of an eightbyte with values of both classes. -/
def merge (a b : EightbyteClass) : EightbyteClass :=
  if a = float ∧ b = float then floatCombine
  else if a = b then a
  else if a = none then b
  else if b = none then a
  else if a = memory ∨ b = memory then memory
  else if a = integer ∨ b = integer then integer
  else if a.standsAlone ∨ b.standsAlone then memory
  else sse

end EightbyteClass

/-- The classes of the two eightbytes, and whether something lies behind them. -/
structure Eightbytes where
  low : EightbyteClass
  high : EightbyteClass
  overflow : Bool
deriving DecidableEq, Repr

namespace Eightbytes

def empty : Eightbytes := ⟨.none, .none, false⟩

/-- Merges `c` into the class of the eightbyte at `offset`. -/
def put (offset : Nat) (c : EightbyteClass) (e : Eightbytes) : Eightbytes :=
  match offset / 8 with
  | 0 => { e with low := e.low.merge c }
  | 1 => { e with high := e.high.merge c }
  | _ => { e with overflow := true }

/-- Merges classes into consecutive eightbytes. -/
def putAll (offset : Nat) : List EightbyteClass → Eightbytes → Eightbytes
  | [], e => e
  | c :: cs, e => putAll (offset + 8) cs (e.put offset c)

/-- Integer eightbytes for `size` bytes. -/
def putIntegers (offset size : Nat) (e : Eightbytes) : Eightbytes :=
  e.putAll offset (.replicate ((size + 7) / 8) .integer)

def putFloat (Z : Sizing) (offset : Nat) (t : TypeId) (bits : Nat) (e : Eightbytes) : Eightbytes :=
  match bits with
  | 16 | 32 => e.put offset .float
  | 64 => e.put offset .sse
  | 80 =>
    if Z.target.supportsF80 then e.putAll offset [.x87, .x87Up] else e.putIntegers offset (Z.layout t).size
  | 128 => e.putAll offset [.sse, .sseUp]
  | _ => e.putIntegers offset (Z.layout t).size

def putVector (offset size : Nat) (child : TypeId) (e : Eightbytes) : Eightbytes :=
  if child = .bool then e.putIntegers offset size
  else if size ≤ 8 then e.put offset .sse
  else if size ≤ 16 then e.putAll offset [.sse, .sseUp]
  else { e with overflow := true }

/-- The classes after a value of type `t` at `offset`, if its type alone decides them. -/
def putScalar? (Z : Sizing) (offset : Nat) (t : TypeId) (e : Eightbytes) : Option Eightbytes :=
  let size := (Z.layout t).size
  match Z.get t with
  | .bool | .enum _ _ _ | .errorSet _ => some (e.put offset .integer)
  | .int _ _ => some (e.putIntegers offset size)
  | .pointer p => some (if p.isSlice then e.putIntegers offset size else e.put offset .integer)
  | .float bits => some (e.putFloat Z offset t bits)
  | .vector _ child => some (e.putVector offset size child)
  | .struct s => if s.isPacked then some (e.putIntegers offset size) else none
  | .union u => if u.isPacked then some (e.putIntegers offset size) else none
  | _ => none

/-- The classes after a value of type `t` at `offset` in whose nest no path is longer than the first argument: those
of the type, or else those of its members. -/
def classifyWithin (Z : Sizing) : Nat → TypeId → Nat → Eightbytes → Eightbytes
  | 0, _, _, e => e
  | n + 1, t, offset, e =>
    match e.putScalar? Z offset t with
    | some e => e
    | none => (Z.members t).foldl (fun e m => classifyWithin Z n m.ty (offset + m.offset) e) e

/-- Merges the classes of a value of type `t` at `offset`. A nest of types in which none contains itself has no path
longer than the pool. -/
def classify (Z : Sizing) (t : TypeId) (offset : Nat) (e : Eightbytes) : Eightbytes :=
  classifyWithin Z (Z.size + 1) t offset e

theorem classifyWithin_of_size_le {Z : Sizing} {t : TypeId} (h : Z.size ≤ t.raw) (n offset : Nat) (e : Eightbytes) :
    classifyWithin Z n t offset e = e := by
  have hv : Z.get t = .void := Pool.get_of_size_le h
  cases n with
  | zero => rfl
  | succ n => simp [classifyWithin, putScalar?, Sizing.members, hv]

/-- Beyond the levels of a type, the depth allowed makes no difference. -/
theorem classifyWithin_eq {Z : Sizing} {depth : TypeId → Nat} (hZ : Z.MembersNest depth) :
    ∀ {n k : Nat} {t : TypeId}, Z.levels depth t < n → Z.levels depth t < k →
      classifyWithin Z n t = classifyWithin Z k t := by
  intro n
  induction n with
  | zero => exact fun h => absurd h (Nat.not_lt_zero _)
  | succ n ih =>
    intro k t hn hk
    cases k with
    | zero => exact absurd hk (Nat.not_lt_zero _)
    | succ k =>
      have hm : ∀ m ∈ Z.members t, classifyWithin Z n m.ty = classifyWithin Z k m.ty := by
        intro m hm
        by_cases hs : m.ty.raw < Z.size
        · have hlt := Sizing.levels_lt hs (hZ t m hm)
          exact ih (by omega) (by omega)
        · have hs := Nat.le_of_not_lt hs
          funext offset e
          rw [classifyWithin_of_size_le hs, classifyWithin_of_size_le hs]
      have hfold : ∀ (ms : List Member), (∀ m ∈ ms, classifyWithin Z n m.ty = classifyWithin Z k m.ty) →
          ∀ offset e, ms.foldl (fun e m => classifyWithin Z n m.ty (offset + m.offset) e) e =
            ms.foldl (fun e m => classifyWithin Z k m.ty (offset + m.offset) e) e := by
        intro ms hms offset
        induction ms with
        | nil => exact fun e => rfl
        | cons m ms ihm =>
          intro e
          rw [List.foldl_cons, List.foldl_cons, hms m List.mem_cons_self]
          exact ihm (fun m' h => hms m' (List.mem_cons_of_mem _ h)) _
      funext offset e
      rw [classifyWithin, classifyWithin]
      split
      · rfl
      · exact hfold _ hm offset e

/-- Where members nest, the classes of a value are those of its type, or else those of its members. -/
theorem classify_eq {Z : Sizing} {depth : TypeId → Nat} (hZ : Z.MembersNest depth) (t : TypeId) (offset : Nat)
    (e : Eightbytes) :
    e.classify Z t offset =
      match e.putScalar? Z offset t with
      | some e => e
      | none => (Z.members t).foldl (fun e m => e.classify Z m.ty (offset + m.offset)) e := by
  have hle := Z.levels_le depth
  have h : classifyWithin Z (Z.size + 1) t = classifyWithin Z (Z.size + 2) t :=
    classifyWithin_eq hZ (Nat.lt_succ_of_le (hle t)) (Nat.lt_succ_of_le (Nat.le_succ_of_le (hle t)))
  unfold classify
  rw [h, classifyWithin]

/-- The eightbytes of a value of type `t`, unless it goes to memory. -/
def of? (Z : Sizing) (t : TypeId) : Option Eightbytes :=
  if 16 < (Z.layout t).size then none
  else
    let e := empty.classify Z t 0
    if e.overflow ∨ e.low = .memory ∨ e.high = .memory then none
    else if e.high = .x87Up ∧ e.low ≠ .x87 then none
    else some e

def hasX87 (e : Eightbytes) : Bool := e.low.isX87 || e.high.isX87

/-- One integer eightbyte and nothing else. -/
def isOneInteger (e : Eightbytes) : Bool := e.low == .integer && e.high == .none

end Eightbytes

/-- The vector that a machine value becomes when a second eightbyte joins it. -/
def widenSlot : Slot → Slot
  | .float .double => .floatVector 2 .double
  | _ => .floatVector 4 .float

/-- The machine values for eightbytes, after those in `slots`; the first eightbyte without a class ends them. -/
def slotsFrom (slots : List Slot) : List EightbyteClass → List Slot
  | [] => slots
  | .none :: _ => slots
  | .integer :: cs => slotsFrom (slots ++ [.int 64]) cs
  | .sse :: cs => slotsFrom (slots ++ [.float .double]) cs
  | .float :: cs => slotsFrom (slots ++ [.float .float]) cs
  | .floatCombine :: cs => slotsFrom (slots ++ [.floatVector 2 .float]) cs
  | .x87 :: cs => slotsFrom (slots ++ [.float .x86Fp80]) cs
  | .sseUp :: cs => slotsFrom (slots.dropLast ++ (slots.getLast?.map widenSlot).toList) cs
  | .x87Up :: cs => slotsFrom slots cs
  | .memory :: cs => slotsFrom slots cs

/-- The machine values that carry the eightbytes. -/
def Eightbytes.slots (e : Eightbytes) : List Slot := slotsFrom [] [e.low, e.high]

def name : String := "x86_64-sysv"

def classifyParam (Z : Sizing) (t : TypeId) : ParamClass :=
  if Z.isScalar t then .byValue
  else
    match Eightbytes.of? Z t with
    | some e =>
      if e.hasX87 then .byReference false true
      else if e.isOneInteger then .abiSizedInt
      else .split e.slots
    | none => .byReference false true

/-- x87 values come back on the stack of the unit, and only alone. -/
def classifyReturn (Z : Sizing) (t : TypeId) : ReturnClass :=
  if Z.isScalar t then .byValue
  else
    match Eightbytes.of? Z t with
    | some e =>
      if e.hasX87 ∧ ¬(e.low = .x87 ∧ e.high = .x87Up) then .sret
      else if e.isOneInteger then .abiSizedInt
      else .split e.slots
    | none => .sret

end MachineAbi.SysV
