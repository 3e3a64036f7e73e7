import MachineAbi.Proofs.Passing.Floats
import MachineAbi.Proofs.Source.Legal

/-!
# What is built of floats is laid out as they are

* `Sizing.BuiltOf`: built of floats of one format, whatever members of size zero there are besides.
* `Sizing.leafCount`: how many there are, where members that share a place count as the largest.
* What is built of `n` floats has the layout of `n` floats (`Sizing.BuiltOf.layout_eq`), as copies of one unit can be
  put one behind another and at one place (`Layout.copies_append`, `Layout.copies_join`). So only members of size zero
  have no floats in them (`Sizing.BuiltOf.leafCount_pos_iff`).
-/

namespace MachineAbi

/-! ## Copies of a unit -/

namespace Layout

/-- `n` units side by side; if there are none, they do not even need an alignment. -/
def copies (n : Nat) (unit : Layout) : Layout := if n = 0 then zero else ⟨n * unit.size, unit.align⟩

variable {unit : Layout} {a b n : Nat}

@[simp]
theorem copies_zero (unit : Layout) : copies 0 unit = zero := rfl

theorem copies_of_pos (hn : n ≠ 0) (unit : Layout) : copies n unit = ⟨n * unit.size, unit.align⟩ := if_neg hn

@[simp]
theorem copies_one (unit : Layout) : copies 1 unit = unit := by simp [copies]

@[simp]
theorem size_copies (n : Nat) (unit : Layout) : (copies n unit).size = n * unit.size := by
  by_cases hn : n = 0
  · simp [hn, zero]
  · rw [copies_of_pos hn]

section

variable (hu : unit.Placeable) (hd : unit.align ∣ unit.size)

include hu

theorem copies_join (a b : Nat) : (copies a unit).join (copies b unit) = copies (max a b) unit := by
  have hone := hu.align_pos
  by_cases ha : a = 0
  · by_cases hb : b = 0
    · simp [ha, hb, join, zero]
    · simp [ha, copies_of_pos hb, join, zero, hone]
  · by_cases hb : b = 0
    · simp [hb, copies_of_pos ha, join, zero, hone]
    · have hmax : max a b ≠ 0 := by omega
      simp [copies_of_pos ha, copies_of_pos hb, copies_of_pos hmax, join, Nat.mul_max_mul_right]

include hd

theorem copies_append (a b : Nat) : (copies a unit).append (copies b unit) = copies (a + b) unit := by
  have hone := hu.align_pos
  by_cases hb : b = 0
  · have h := append_zero (l := copies a unit) ?_
    · simpa [hb] using h
    · by_cases ha : a = 0
      · simp [ha, zero]
      · simpa [copies_of_pos ha] using hone
  · by_cases ha : a = 0
    · simp [ha, copies_of_pos hb, append, zero, alignUp_zero hu.align, hone]
    · have hstart : alignUp (a * unit.size) unit.align = a * unit.size :=
        alignUp_of_dvd hu.align (Nat.dvd_mul_left_of_dvd hd a)
      have hsum : a + b ≠ 0 := by omega
      simp [copies_of_pos ha, copies_of_pos hb, copies_of_pos hsum, append, hstart, Nat.add_mul]

theorem pad_copies (n : Nat) : (copies n unit).pad = copies n unit := by
  by_cases hn : n = 0
  · rw [hn, copies_zero, pad_zero]
  · rw [copies_of_pos hn, pad, alignUp_of_dvd hu.align (Nat.dvd_mul_left_of_dvd hd n)]

end

end Layout

namespace Sizing

open Layout (copies beside)

/-! ## What is built of floats -/

/-- Those of these types that are not of size zero. -/
def sized (Z : Sizing) (ts : List TypeId) : List TypeId := ts.filter fun c => 0 < (Z.layout c).size

/-- Built of floats of one format by structs, tuples, arrays and unions alone, apart from members of size zero. -/
inductive BuiltOf (Z : Sizing) (k : FloatKind) : TypeId → Prop
  | float {t : TypeId} (hk : Z.floatKind? t = some k) : BuiltOf Z k t
  | struct {t : TypeId} {s : StructTy} (hd : Z.get t = .struct s) (hs : s.isPacked = false)
      (h : ∀ c ∈ Z.sized s.stored, BuiltOf Z k c) : BuiltOf Z k t
  | tuple {t : TypeId} {fields : List FieldTy} (hd : Z.get t = .tuple fields)
      (h : ∀ c ∈ Z.sized (storedTypes fields), BuiltOf Z k c) : BuiltOf Z k t
  | array {t child : TypeId} {len : Nat} {sentinel : Bool} (hd : Z.get t = .array len child sentinel)
      (h : elementCount len sentinel ≠ 0 → 0 < (Z.layout child).size → BuiltOf Z k child) : BuiltOf Z k t
  | union {t : TypeId} {u : UnionTy} (hd : Z.get t = .union u) (hu : u.isPacked = false) (htag : Z.storesTag u = false)
      (h : ∀ c ∈ Z.sized u.memberTypes, BuiltOf Z k c) : BuiltOf Z k t

/-- The number of floats in a type from those in its parts. Members that share a place count as the largest of them. -/
def leafRule (Z : Sizing) : Rule Nat where
  initial := 0
  infer count
    | .float _ => 1
    | .struct s => ((Z.sized s.stored).map count).foldr (· + ·) 0
    | .tuple fields => ((Z.sized (storedTypes fields)).map count).foldr (· + ·) 0
    | .array len child sentinel => if 0 < (Z.layout child).size then elementCount len sentinel * count child else 0
    | .union u => ((Z.sized u.memberTypes).map count).foldl max 0
    | _ => 0
  infer_void _ := rfl

/-- The number of floats in a type that is built of floats. -/
def leafCount (Z : Sizing) (t : TypeId) : Nat := Z.solve Z.leafRule t

variable {Z : Sizing} {t c : TypeId} {k : FloatKind} {ts : List TypeId}

theorem mem_sized : c ∈ Z.sized ts ↔ c ∈ ts ∧ 0 < (Z.layout c).size := by simp [sized]

theorem asksParts_leafRule (Z : Sizing) : Z.leafRule.AsksParts := by
  have sized : ∀ {f g : TypeId → Nat} {ts : List TypeId}, (∀ c ∈ ts, f c = g c) →
      (Z.sized ts).map f = (Z.sized ts).map g :=
    fun h => List.map_congr_left fun c hc => h c (mem_sized.1 hc).1
  intro d f g h
  cases d with
  | struct s => exact congrArg (List.foldr (· + ·) 0) (sized h)
  | tuple fields => exact congrArg (List.foldr (· + ·) 0) (sized h)
  | array len child sentinel =>
    by_cases hn : elementCount len sentinel = 0
    · simp [leafRule, hn]
    · simp only [leafRule, h child (by simp [Ty.parts, hn])]
  | union u => exact congrArg (List.foldl max 0) (sized fun c hc => h c (List.mem_append_right _ hc))
  | _ => rfl

theorem leafCount_of_get {d : Ty} (hd : Z.get t = d) : Z.leafCount t = Z.leafRule.infer Z.leafCount d :=
  hd ▸ Z.holds_solve Z.asksParts_leafRule t

theorem leafCount_array {len : Nat} {child : TypeId} {sentinel : Bool} (hd : Z.get t = .array len child sentinel) :
    Z.leafCount t = if 0 < (Z.layout child).size then elementCount len sentinel * Z.leafCount child else 0 :=
  leafCount_of_get hd

/-- The floats in two parts together. -/
def together (shared : Bool) (n m : Nat) : Nat := if shared then max n m else n + m

/-- The floats in several parts together. -/
def tally (Z : Sizing) (shared : Bool) (ts : List TypeId) (n : Nat) : Nat :=
  (ts.map Z.leafCount).foldl (together shared) n

/-! ## What is built of floats is laid out as they are -/

section

variable {unit : Layout} (hu : unit.Placeable) (hd : unit.align ∣ unit.size)

include hu hd

theorem foldl_beside_copies (shared : Bool) (h : ∀ c ∈ ts, Z.layout c = copies (Z.leafCount c) unit) (n : Nat) :
    (ts.map Z.layout).foldl (beside shared) (copies n unit) = copies (Z.tally shared ts n) unit := by
  induction ts generalizing n with
  | nil => rfl
  | cons c ts ih =>
    have hstep : beside shared (copies n unit) (Z.layout c) = copies (together shared n (Z.leafCount c)) unit := by
      rw [h c List.mem_cons_self]
      cases shared with
      | false => exact Layout.copies_append hu hd n _
      | true => exact Layout.copies_join hu n _
    rw [List.map_cons, List.foldl_cons, hstep]
    exact ih (fun d hd => h d (List.mem_cons_of_mem _ hd)) _

/-- Members that are laid out as floats, in order or at one place, and padded. -/
theorem pad_foldl_beside (hZ : Z.Formatted) (shared : Bool)
    (h : ∀ c ∈ Z.sized ts, Z.layout c = copies (Z.leafCount c) unit) :
    ((ts.map Z.layout).foldl (beside shared) .zero).pad = copies (Z.tally shared (Z.sized ts) 0) unit := by
  have hfold : ((Z.sized ts).map Z.layout).foldl (beside shared) .zero =
      (ts.map Z.layout).foldl (beside shared) .zero := foldl_beside_sized hZ shared (Nat.le_refl 1)
  rw [← hfold]
  have hcopies := foldl_beside_copies hu hd shared h 0
  rw [Layout.copies_zero] at hcopies
  exact (congrArg Layout.pad hcopies).trans (Layout.pad_copies hu hd _)

end

theorem tally_false (ts : List TypeId) : Z.tally false ts 0 = (ts.map Z.leafCount).foldr (· + ·) 0 :=
  List.sum_eq_foldl.symm

theorem tally_true (ts : List TypeId) : Z.tally true ts 0 = (ts.map Z.leafCount).foldl max 0 := rfl

theorem get_of_floatKind {j : FloatKind} (h : Z.floatKind? t = some j) : ∃ bits, Z.get t = .float bits := by
  unfold floatKind? at h
  split at h
  · exact ⟨_, ‹_›⟩
  · cases h

theorem leafCount_of_floatKind {j : FloatKind} (h : Z.floatKind? t = some j) : Z.leafCount t = 1 := by
  obtain ⟨bits, hd⟩ := get_of_floatKind h
  exact leafCount_of_get hd

/-- What is built of `n` floats is laid out as `n` floats. -/
theorem BuiltOf.layout_eq (hZ : Z.Formatted) (hcut : ∀ t, Z.Uncut t) (h : Z.BuiltOf k t) :
    Z.layout t = copies (Z.leafCount t) (Z.target.machineFloat k) := by
  have hu := Target.placeable_machineFloat hZ.supported k
  have hdvd := Target.align_dvd_machineFloat hZ.supported k
  induction h with
  | @float t hk =>
    rw [leafCount_of_floatKind hk, Layout.copies_one]
    exact layout_of_floatKind hZ.supported hk
  | @struct t s hd hs _ ih =>
    rw [layout_struct hd hs, leafCount_of_get hd]
    exact (pad_foldl_beside hu hdvd hZ false ih).trans (congrArg (copies · _) (tally_false _))
  | @tuple t fields hd _ ih =>
    rw [layout_tuple hd, leafCount_of_get hd]
    exact (pad_foldl_beside hu hdvd hZ false ih).trans (congrArg (copies · _) (tally_false _))
  | @array t child len sentinel hd _ ih =>
    have hcount := leafCount_array hd
    by_cases hn : elementCount len sentinel = 0
    · rw [layout_array_zero hd (Or.inl hn), hcount, hn]
      simp
    · by_cases hs : 0 < (Z.layout child).size
      · have hfit := hcut t len child sentinel hd
        have hchild := ih hn hs
        have hm : Z.leafCount child ≠ 0 := by
          intro hm
          rw [hchild, hm] at hs
          simp [Layout.zero] at hs
        rw [hchild, Layout.copies_of_pos hm] at hfit
        rw [layout_array hd hn, hcount, if_pos hs, hchild, Layout.copies_of_pos hm,
          Layout.copies_of_pos (Nat.mul_ne_zero hn hm), Layout.times, Nat.min_eq_left hfit, Nat.mul_assoc]
      · have hzero := layout_of_size_zero hZ (Nat.eq_zero_of_not_pos hs)
        rw [layout_array_zero hd (Or.inr hzero), hcount, if_neg hs, Layout.copies_zero]
  | @union t u hd hpacked htag _ ih =>
    have hnone : Z.storedTag? u = none := by simpa [SealedPool.storesTag] using htag
    rw [layout_union hd hpacked, hnone, leafCount_of_get hd]
    exact pad_foldl_beside hu hdvd hZ true ih

theorem size_machineFloat_pos (hT : Z.target.Supported) (k : FloatKind) : 0 < (Z.target.machineFloat k).size :=
  Nat.lt_of_lt_of_le (Target.storeBytes_pos k) (Target.placeable_floatUnit hT k).size_le_pad

/-- So it has floats in it, unless it is of size zero. -/
theorem BuiltOf.leafCount_pos_iff (hZ : Z.Formatted) (hcut : ∀ t, Z.Uncut t) (h : Z.BuiltOf k t) :
    1 ≤ Z.leafCount t ↔ 0 < (Z.layout t).size := by
  rw [h.layout_eq hZ hcut, Layout.size_copies]
  constructor
  · intro hpos
    exact Nat.mul_pos hpos (size_machineFloat_pos hZ.supported k)
  · intro hs
    exact Nat.pos_of_mul_pos_right hs

/-! ## One kind of type at a time -/

/-- Each kind of type is built of floats in one way. -/
theorem builtOf_iff : Z.BuiltOf k t ↔
    match Z.get t with
    | .float _ => Z.floatKind? t = some k
    | .struct s => s.isPacked = false ∧ ∀ c ∈ Z.sized s.stored, Z.BuiltOf k c
    | .tuple fields => ∀ c ∈ Z.sized (storedTypes fields), Z.BuiltOf k c
    | .array len child sentinel =>
      elementCount len sentinel ≠ 0 → 0 < (Z.layout child).size → Z.BuiltOf k child
    | .union u => u.isPacked = false ∧ Z.storesTag u = false ∧ ∀ c ∈ Z.sized u.memberTypes, Z.BuiltOf k c
    | _ => False := by
  constructor
  · intro h
    cases h with
    | float hk =>
      unfold floatKind? at hk
      cases hd : Z.get t <;> simp_all [floatKind?]
    | struct hd hs h => simpa [hd] using ⟨hs, h⟩
    | tuple hd h => simpa [hd] using h
    | array hd h => simpa [hd] using h
    | union hd hu htag h => simpa [hd] using ⟨hu, htag, h⟩
  · intro h
    split at h
    next => exact .float h
    next s hd => exact .struct hd h.1 h.2
    next fields hd => exact .tuple hd h
    next len child sentinel hd => exact .array hd h
    next u hd => exact .union hd h.1 h.2.1 h.2.2
    next => exact h.elim

theorem builtOf_iff_of_floatKind {j : FloatKind} (h : Z.floatKind? t = some j) : Z.BuiltOf k t ↔ j = k := by
  obtain ⟨bits, hd⟩ := get_of_floatKind h
  rw [builtOf_iff, hd]
  simp [h]

end Sizing

end MachineAbi
