import MachineAbi.Lowering.Call
import MachineAbi.Proofs.Machine.LayoutOf
import MachineAbi.Proofs.Passing.Alike
import MachineAbi.Proofs.Passing.BuiltOf
import MachineAbi.Proofs.Passing.Lone

/-!
# Homogeneous floats are found exactly

What is found as `n` floats of one format (`Sizing.homogeneousFloats?`) is what is built of such floats alone and has
`n` of them, and it is laid out as `n` of them side by side (`Sizing.FloatsFound`). That is so unless counts of 32 bits
wrap around and hide floats (`Sizing.floatsFound_iff`).

* `Sizing.count32?`: the number of floats as it is counted. Sums wrap around, and there is no number if one on the way
  is over the limit.
* Counting finds what is built of floats, with this number (`Sizing.homogeneousFloats?_iff`). An array that is too long
  for its elements to be counted has as many floats at least.
* What has no more floats than the limit has been counted right (`Sizing.BuiltOf.count32?_eq`). So has what has fewer
  than 2^32 floats, or if the limit is below 2^31 (`Sizing.not_hidesFloats`).
-/

namespace MachineAbi

namespace Sizing

open Layout (copies)
open FloatCount (total)

variable {Z : Sizing} {t c : TypeId} {k : FloatKind} {limit n m r : Nat} {shared : Bool} {ts : List TypeId}

/-! ## Counts of 32 bits -/

/-- One more part, if it has been counted and there are not too many floats then. -/
def countNext? (limit : Nat) (shared : Bool) (n : Nat) (m? : Option Nat) : Option Nat :=
  m?.bind fun m => if total shared n m ≤ limit then some (total shared n m) else none

/-- The floats of several parts, unless there are too many on the way. -/
def countAll? (limit : Nat) (shared : Bool) (counts : List (Option Nat)) (n : Nat) : Option Nat :=
  counts.foldlM (countNext? limit shared) n

/-- The number of floats in a type from those in its parts, as it is counted. -/
def countRule (Z : Sizing) (limit : Nat) : Rule (Option Nat) where
  initial := none
  infer count
    | .float _ => some 1
    | .struct s => countAll? limit false ((Z.sized s.stored).map count) 0
    | .tuple fields => countAll? limit false ((Z.sized (storedTypes fields)).map count) 0
    | .array len child sentinel =>
      if len ≤ limit then
        if 0 < (Z.layout child).size then countAll? limit false (.replicate (elementCount len sentinel) (count child)) 0
        else some 0
      else none
    | .union u => countAll? limit true ((Z.sized u.memberTypes).map count) 0
    | _ => none
  infer_void _ := rfl

/-- The number of floats in a type that is built of floats, as it is counted: sums are those of 32 bits, and there is no
number if one on the way, or the length of an array, is over the limit. -/
def count32? (Z : Sizing) (limit : Nat) (t : TypeId) : Option Nat := Z.solve (Z.countRule limit) t

theorem asksParts_countRule (Z : Sizing) (limit : Nat) : (Z.countRule limit).AsksParts := by
  have sized : ∀ {f g : TypeId → Option Nat} {ts : List TypeId}, (∀ c ∈ ts, f c = g c) →
      (Z.sized ts).map f = (Z.sized ts).map g :=
    fun h => List.map_congr_left fun c hc => h c (mem_sized.1 hc).1
  intro d f g h
  cases d with
  | struct s => exact congrArg (countAll? limit false · 0) (sized h)
  | tuple fields => exact congrArg (countAll? limit false · 0) (sized h)
  | array len child sentinel =>
    by_cases hn : elementCount len sentinel = 0
    · simp [countRule, hn]
    · simp only [countRule, h child (by simp [Ty.parts, hn])]
  | union u => exact congrArg (countAll? limit true · 0) (sized fun c hc => h c (List.mem_append_right _ hc))
  | _ => rfl

theorem count32?_of_get {d : Ty} (hd : Z.get t = d) :
    Z.count32? limit t = (Z.countRule limit).infer (Z.count32? limit) d :=
  hd ▸ Z.holds_solve (Z.asksParts_countRule limit) t

theorem count32?_of_floatKind {j : FloatKind} (h : Z.floatKind? t = some j) : Z.count32? limit t = some 1 := by
  obtain ⟨bits, hd⟩ := get_of_floatKind h
  exact count32?_of_get hd

/-! ## Counting finds what is built of floats -/

/-- A type with parts to count is built of floats if they are, and has the floats that they have. -/
theorem builtOf_iff_of_floatParts (h : Z.floatParts? limit t = some (shared, ts)) :
    (∀ k, Z.BuiltOf k t ↔ ∀ c ∈ ts, Z.BuiltOf k c) ∧ Z.leafCount t = Z.tally shared ts 0 ∧
      Z.count32? limit t = countAll? limit shared (ts.map (Z.count32? limit)) 0 := by
  simp only [fun k => builtOf_iff (Z := Z) (k := k) (t := t)]
  unfold floatParts? at h
  dsimp only at h
  split at h
  next s hd =>
    split at h <;> simp only [Option.some.injEq, Prod.mk.injEq, reduceCtorEq] at h
    rename_i hs
    obtain ⟨rfl, rfl⟩ := h
    rw [hd, leafCount_of_get hd, count32?_of_get hd, tally_false]
    constructor
    · simp [hs, sized]
    · exact ⟨rfl, rfl⟩
  next fields hd =>
    simp only [Option.some.injEq, Prod.mk.injEq] at h
    obtain ⟨rfl, rfl⟩ := h
    rw [hd, leafCount_of_get hd, count32?_of_get hd, tally_false]
    constructor
    · simp [sized]
    · exact ⟨rfl, rfl⟩
  next len child sentinel hd =>
    split at h <;> simp only [Option.some.injEq, Prod.mk.injEq, reduceCtorEq] at h
    rename_i hlen
    obtain ⟨rfl, rfl⟩ := h
    rw [hd, leafCount_of_get hd, count32?_of_get hd, tally_false]
    dsimp only [leafRule, countRule]
    rw [if_pos hlen]
    split
    · rename_i hs
      have hsum : (List.replicate (elementCount len sentinel) (Z.leafCount child)).foldr (· + ·) 0 =
          elementCount len sentinel * Z.leafCount child := List.sum_replicate_nat
      simp [hs, hsum]
    · rename_i hs
      simp [hs, countAll?]
  next u hd =>
    split at h <;> simp only [Option.some.injEq, Prod.mk.injEq, reduceCtorEq] at h
    rename_i hplain
    obtain ⟨hpacked, htag⟩ := not_or.1 hplain
    obtain ⟨rfl, rfl⟩ := h
    rw [hd, leafCount_of_get hd, count32?_of_get hd, tally_true]
    constructor
    · simp [hpacked, htag, sized]
    · exact ⟨rfl, rfl⟩
  next => cases h

/-- A type that is built of floats has parts to count, unless it is an array of more elements than may be counted. -/
theorem exists_array_of_floatParts_eq_none (hk : Z.floatKind? t = none) (h : Z.floatParts? limit t = none)
    (hb : Z.BuiltOf k t) : ∃ len child sentinel, Z.get t = .array len child sentinel ∧ limit < len := by
  rw [builtOf_iff] at hb
  unfold floatParts? at h
  cases hd : Z.get t with
  | float bits => simp [hd, hk] at hb
  | struct s => simp_all
  | tuple fields => simp [hd] at h
  | array len child sentinel => exact ⟨len, child, sentinel, rfl, by simpa [hd] using h⟩
  | union u => simp_all
  | _ => simp [hd] at hb

theorem count32?_eq_none_of_floatParts (hk : Z.floatKind? t = none) (h : Z.floatParts? limit t = none)
    (hb : Z.BuiltOf k t) : Z.count32? limit t = none := by
  obtain ⟨len, child, sentinel, hd, hlen⟩ := exists_array_of_floatParts_eq_none hk h hb
  rw [count32?_of_get hd]
  exact if_neg (Nat.not_le_of_gt hlen)

/-- Counting a type finds what it is built of. -/
def Counts (Z : Sizing) (limit : Nat) (c : TypeId) : Prop :=
  ∀ found, Z.countFloats limit none c = some found ↔
    ∃ k n, Z.BuiltOf k c ∧ Z.count32? limit c = some n ∧ found = ⟨some k, n⟩

theorem countNext?_eq_some_iff {m? : Option Nat} :
    countNext? limit shared n m? = some r ↔ ∃ m, m? = some m ∧ total shared n m ≤ limit ∧ r = total shared n m := by
  simp only [countNext?, Option.bind_eq_some_iff, Option.ite_none_right_eq_some, Option.some.injEq, @eq_comm Nat r]

/-- One more part. -/
theorem countPart_iff (shared : Bool) (hc : Z.Counts limit c) (seen : Option FloatKind) (n : Nat) (found : FloatCount) :
    Z.countPart limit shared ⟨seen, n⟩ c = some found ↔
      ∃ k r, seen.all (· = k) = true ∧ Z.BuiltOf k c ∧ countNext? limit shared n (Z.count32? limit c) = some r ∧
        found = ⟨some k, r⟩ := by
  rw [countPart_eq (Z.countsAlone limit c)]
  constructor
  · intro h
    obtain ⟨part, hpart, hadd⟩ := Option.bind_eq_some_iff.1 h
    obtain ⟨k, m, hb, hm, rfl⟩ := (hc part).1 hpart
    obtain ⟨kind, hkind, hwithin⟩ := Option.bind_eq_some_iff.1 hadd
    obtain ⟨hle, hfound⟩ := Option.ite_none_right_eq_some.1 hwithin
    have hsame : seen.all (· = k) = true ∧ kind = some k := by
      cases seen with
      | none => simpa [FloatCount.common, eq_comm] using hkind
      | some j =>
        obtain ⟨rfl, hj⟩ := Option.ite_none_right_eq_some.1 hkind
        exact ⟨by simp, (Option.some.inj hj).symm⟩
    obtain ⟨hseen, rfl⟩ := hsame
    exact ⟨k, _, hseen, hb, countNext?_eq_some_iff.2 ⟨m, hm, hle, rfl⟩, (Option.some.inj hfound).symm⟩
  · rintro ⟨k, r, hseen, hb, hnext, rfl⟩
    obtain ⟨m, hm, hle, rfl⟩ := countNext?_eq_some_iff.1 hnext
    have hpart := (hc _).2 ⟨k, m, hb, hm, rfl⟩
    have hkind : FloatCount.common seen (some k) = some (some k) := by
      cases seen with
      | none => rfl
      | some j =>
        obtain rfl : j = k := by simpa using hseen
        exact if_pos rfl
    rw [hpart, Option.bind_some, FloatCount.add, hkind, Option.bind_some, FloatCount.within, if_pos hle]

/-- All parts, of which there is one at least. -/
theorem foldlM_countPart_iff (shared : Bool) (hc : ∀ d ∈ c :: ts, Z.Counts limit d) (seen : Option FloatKind) (n : Nat)
    (found : FloatCount) :
    (c :: ts).foldlM (Z.countPart limit shared) ⟨seen, n⟩ = some found ↔
      ∃ k r, seen.all (· = k) = true ∧ (∀ d ∈ c :: ts, Z.BuiltOf k d) ∧
        countAll? limit shared ((c :: ts).map (Z.count32? limit)) n = some r ∧ found = ⟨some k, r⟩ := by
  have hfirst := countPart_iff shared (hc c List.mem_cons_self) seen n
  induction ts generalizing c seen n with
  | nil =>
    simp only [List.foldlM_cons, List.foldlM_nil, Option.bind_eq_bind, Option.pure_def, Option.bind_fun_some,
      List.mem_singleton, forall_eq, List.map_cons, List.map_nil, countAll?]
    exact hfirst found
  | cons d ts ih =>
    have hrest : ∀ e ∈ d :: ts, Z.Counts limit e := fun e he => hc e (List.mem_cons_of_mem _ he)
    have next := fun k m => ih hrest (some k) m (countPart_iff shared (hrest d List.mem_cons_self) (some k) m)
    rw [List.foldlM_cons, List.map_cons, countAll?, List.foldlM_cons]
    constructor
    · intro h
      obtain ⟨acc, hacc, h⟩ := Option.bind_eq_some_iff.1 h
      obtain ⟨k, m, hseen, hb, hm, rfl⟩ := (hfirst acc).1 hacc
      obtain ⟨j, r, hj, hbs, hr, rfl⟩ := (next k m).1 h
      obtain rfl : k = j := by simpa using hj
      exact ⟨k, r, hseen, List.forall_mem_cons.2 ⟨hb, hbs⟩, Option.bind_eq_some_iff.2 ⟨m, hm, hr⟩, rfl⟩
    · rintro ⟨k, r, hseen, hb, hall, rfl⟩
      obtain ⟨hb, hbs⟩ := List.forall_mem_cons.1 hb
      obtain ⟨m, hm, hr⟩ := Option.bind_eq_some_iff.1 hall
      refine Option.bind_eq_some_iff.2 ⟨_, (hfirst _).2 ⟨k, m, hseen, hb, hm, rfl⟩, ?_⟩
      exact (next k m).2 ⟨k, r, by simp, hbs, hr, rfl⟩

/-- Parts of size zero are not counted. -/
theorem size_pos_of_mem_floatParts (h : Z.floatParts? limit t = some (shared, ts)) (hc : c ∈ ts) :
    0 < (Z.layout c).size := by
  unfold floatParts? at h
  dsimp only at h
  split at h
  next =>
    split at h <;> simp only [Option.some.injEq, Prod.mk.injEq, reduceCtorEq] at h
    obtain ⟨-, rfl⟩ := h
    exact (mem_sized.1 hc).2
  next =>
    simp only [Option.some.injEq, Prod.mk.injEq] at h
    obtain ⟨-, rfl⟩ := h
    exact (mem_sized.1 hc).2
  next =>
    split at h <;> simp only [Option.some.injEq, Prod.mk.injEq, reduceCtorEq] at h
    obtain ⟨-, rfl⟩ := h
    split at hc
    · obtain ⟨-, rfl⟩ := List.mem_replicate.1 hc
      assumption
    · cases hc
  next =>
    split at h <;> simp only [Option.some.injEq, Prod.mk.injEq, reduceCtorEq] at h
    obtain ⟨-, rfl⟩ := h
    exact (mem_sized.1 hc).2
  next => cases h

/-- Counting parts of which there is one at least. -/
theorem countFloats_iff_of_floatParts (hroom : Z.takesRoom t = true) (hk : Z.floatKind? t = none)
    (h : Z.floatParts? limit t = some (shared, ts)) (hne : ts ≠ []) (hts : ∀ c ∈ ts, Z.Counts limit c) :
    Z.Counts limit t := by
  intro found
  obtain ⟨c, rest, rfl⟩ := List.exists_cons_of_ne_nil hne
  have hfold := foldlM_countPart_iff shared hts none 0 found
  have hrun : Z.countFloats limit none t = (c :: rest).foldlM (Z.countPart limit shared) ⟨none, 0⟩ := by
    rw [countFloats_eq, if_pos hroom, hk, h]
    rfl
  obtain ⟨hbuilt, -, hcount⟩ := builtOf_iff_of_floatParts h
  rw [hrun, hfold, hcount]
  simp only [hbuilt, Option.all_none, true_and]

/-- Counting finds what is built of floats. -/
theorem counts (hZ : Z.Formatted) (limit : Nat) (t : TypeId) : 0 < (Z.layout t).size → Z.Counts limit t := by
  induction t using Z.induction_on_parts with
  | step t ih =>
  intro hs
  have hroom : Z.takesRoom t = true := by
    by_contra hno
    rw [layout_of_not_takesRoom hZ.supported (by simpa using hno)] at hs
    exact absurd hs (Nat.lt_irrefl 0)
  cases hk : Z.floatKind? t with
  | some j =>
    intro found
    rw [countFloats_eq, if_pos hroom, hk]
    simp only [builtOf_iff_of_floatKind hk, count32?_of_floatKind hk, Option.all_none, if_true, Option.some.injEq,
      exists_eq_left', exists_and_left]
    exact eq_comm
  | none =>
    cases hparts : Z.floatParts? limit t with
    | none =>
      intro found
      rw [countFloats_eq, if_pos hroom, hk, hparts]
      constructor
      · intro h
        cases h
      · rintro ⟨k, n, hb, hn, -⟩
        rw [count32?_eq_none_of_floatParts hk hparts hb] at hn
        cases hn
    | some parts =>
      obtain ⟨shared, ts⟩ := parts
      refine countFloats_iff_of_floatParts hroom hk hparts ?_ fun c hc => ?_
      · rintro rfl
        have hfits := fits_of_floatParts (n := 0) hZ placeable_byte (Nat.one_dvd 1) hparts (.zero placeable_byte)
        have hle := hfits.size
        omega
      · exact ih c (mem_parts_of_floatParts hparts hc) (size_pos_of_mem_floatParts hparts hc)

theorem homogeneousFloats?_eq_some_iff :
    Z.homogeneousFloats? t limit = some (k, n) ↔ Z.countFloats limit none t = some ⟨some k, n⟩ := by
  constructor
  · intro h
    obtain ⟨⟨kind, count⟩, hcount, h⟩ := Option.bind_eq_some_iff.1 h
    obtain ⟨j, hj, h⟩ := Option.bind_eq_some_iff.1 h
    obtain ⟨rfl, rfl⟩ := Prod.mk.inj (Option.some.inj h)
    obtain rfl : kind = some j := hj
    exact hcount
  · intro h
    rw [homogeneousFloats?, h]
    rfl

theorem le_tally (shared : Bool) (ts : List TypeId) (n : Nat) : n ≤ Z.tally shared ts n := by
  induction ts generalizing n with
  | nil => exact Nat.le_refl n
  | cons c ts ih =>
    refine Nat.le_trans ?_ (ih (together shared n (Z.leafCount c)))
    unfold together
    split <;> omega

theorem leafCount_le_tally (shared : Bool) (hc : c ∈ ts) (n : Nat) : Z.leafCount c ≤ Z.tally shared ts n := by
  induction ts generalizing n with
  | nil => cases hc
  | cons d ts ih =>
    rcases List.mem_cons.1 hc with rfl | hc
    · refine Nat.le_trans ?_ (le_tally shared ts (together shared n (Z.leafCount c)))
      unfold together
      split <;> omega
    · exact ih hc (together shared n (Z.leafCount d))

/-- What has floats to find is not of size zero. -/
theorem size_pos_of_countFloats (hZ : Z.Formatted) (hcut : ∀ t, Z.Uncut t)
    (h : Z.countFloats limit none t = some ⟨some k, n⟩) : 0 < (Z.layout t).size := by
  have hrun := h
  rw [countFloats_eq] at hrun
  split at hrun
  next hroom =>
    split at hrun
    next j hk =>
      rw [layout_of_floatKind hZ.supported hk]
      exact size_machineFloat_pos hZ.supported j
    next hk =>
      split at hrun
      next => cases hrun
      next shared ts hparts =>
        cases ts with
        | nil => cases hrun
        | cons c ts =>
          have sized := fun d hd => size_pos_of_mem_floatParts (c := d) hparts hd
          have hcounts := countFloats_iff_of_floatParts hroom hk hparts (List.cons_ne_nil c ts) fun d hd =>
            counts hZ limit d (sized d hd)
          obtain ⟨j, -, hb, -, -⟩ := (hcounts _).1 h
          obtain ⟨hbuilt, hcount, -⟩ := builtOf_iff_of_floatParts hparts
          have hfirst : Z.BuiltOf j c := (hbuilt j).1 hb c List.mem_cons_self
          have hpos : 1 ≤ Z.leafCount c := (hfirst.leafCount_pos_iff hZ hcut).2 (sized c List.mem_cons_self)
          have hle : Z.leafCount c ≤ Z.leafCount t := hcount ▸ leafCount_le_tally shared List.mem_cons_self 0
          exact (hb.leafCount_pos_iff hZ hcut).1 (Nat.le_trans hpos hle)
  next => cases hrun

/-- What is found is what is built of floats, with their number as it is counted. -/
theorem homogeneousFloats?_iff (hZ : Z.Formatted) (hcut : ∀ t, Z.Uncut t) :
    Z.homogeneousFloats? t limit = some (k, n) ↔
      Z.BuiltOf k t ∧ 1 ≤ Z.leafCount t ∧ Z.count32? limit t = some n := by
  rw [homogeneousFloats?_eq_some_iff]
  constructor
  · intro h
    have hs := size_pos_of_countFloats hZ hcut h
    obtain ⟨j, r, hb, hr, heq⟩ := (counts hZ limit t hs _).1 h
    obtain ⟨hk, rfl⟩ := FloatCount.mk.inj heq
    obtain rfl := Option.some.inj hk
    exact ⟨hb, (hb.leafCount_pos_iff hZ hcut).2 hs, hr⟩
  · rintro ⟨hb, hpos, hn⟩
    have hs := (hb.leafCount_pos_iff hZ hcut).1 hpos
    exact (counts hZ limit t hs _).2 ⟨k, n, hb, hn, rfl⟩

/-! ## Counts that do not wrap around -/

theorem total_eq_together (h : together shared n m < floatCountModulus) : total shared n m = together shared n m := by
  cases shared with
  | false => exact Nat.mod_eq_of_lt h
  | true => rfl

/-- Where there are not too many floats in all, there are not too many on the way. -/
theorem countAll?_eq_tally (hlimit : limit < floatCountModulus)
    (hts : ∀ c ∈ ts, Z.count32? limit c = some (Z.leafCount c)) (h : Z.tally shared ts n ≤ limit) :
    countAll? limit shared (ts.map (Z.count32? limit)) n = some (Z.tally shared ts n) := by
  induction ts generalizing n with
  | nil => rfl
  | cons c ts ih =>
    have hle : together shared n (Z.leafCount c) ≤ limit := Nat.le_trans (le_tally shared ts _) h
    have hstep : countNext? limit shared n (Z.count32? limit c) = some (together shared n (Z.leafCount c)) := by
      have htotal := total_eq_together (Nat.lt_of_le_of_lt hle hlimit)
      exact countNext?_eq_some_iff.2 ⟨_, hts c List.mem_cons_self, htotal ▸ hle, htotal.symm⟩
    rw [List.map_cons, countAll?, List.foldlM_cons, hstep]
    exact ih (fun d hd => hts d (List.mem_cons_of_mem _ hd)) h

/-- Up to the limit, floats are counted right. -/
theorem BuiltOf.count32?_eq (hZ : Z.Formatted) (hcut : ∀ t, Z.Uncut t) (hlimit : limit < floatCountModulus)
    (h : Z.BuiltOf k t) (hpos : 1 ≤ Z.leafCount t) (hle : Z.leafCount t ≤ limit) :
    Z.count32? limit t = some (Z.leafCount t) := by
  induction t using Z.induction_on_parts with
  | step t ih =>
  cases hk : Z.floatKind? t with
  | some j => rw [count32?_of_floatKind hk, leafCount_of_floatKind hk]
  | none =>
    cases hparts : Z.floatParts? limit t with
    | none =>
      obtain ⟨len, child, sentinel, hd, hlen⟩ := exists_array_of_floatParts_eq_none hk hparts h
      have hcount := leafCount_array hd
      have helems : len ≤ elementCount len sentinel := Nat.le_add_right _ _
      rw [hcount] at hpos hle
      split at hpos
      · rename_i hs
        rw [if_pos hs] at hle
        have hchild : 0 < Z.leafCount child := Nat.pos_of_mul_pos_left hpos
        have hmul := Nat.le_mul_of_pos_right (elementCount len sentinel) hchild
        omega
      · exact absurd hpos (by decide)
    | some parts =>
      obtain ⟨shared, ts⟩ := parts
      obtain ⟨hbuilt, hcount, hcount32⟩ := builtOf_iff_of_floatParts hparts
      rw [hcount] at hle ⊢
      rw [hcount32]
      refine countAll?_eq_tally hlimit (fun c hc => ?_) hle
      have hb := (hbuilt k).1 h c hc
      exact ih c (mem_parts_of_floatParts hparts hc) hb
        ((hb.leafCount_pos_iff hZ hcut).2 (size_pos_of_mem_floatParts hparts hc))
        (Nat.le_trans (leafCount_le_tally shared hc 0) hle)

/-- Sums do not wrap around if the limit is too low for that, or if there are too few floats. -/
theorem eq_tally_of_countAll? (hts : ∀ c ∈ ts, ∀ m, Z.count32? limit c = some m → m ≤ max limit 1 ∧ m = Z.leafCount c)
    (hn : n ≤ max limit 1) (hfew : 2 * limit < floatCountModulus ∨ Z.tally shared ts n < floatCountModulus)
    (h : countAll? limit shared (ts.map (Z.count32? limit)) n = some r) : r = Z.tally shared ts n := by
  induction ts generalizing n with
  | nil => exact (Option.some.inj h).symm
  | cons c ts ih =>
    rw [List.map_cons, countAll?, List.foldlM_cons] at h
    obtain ⟨next, hstep, hrest⟩ := Option.bind_eq_some_iff.1 h
    obtain ⟨m, hm, hle, rfl⟩ := countNext?_eq_some_iff.1 hstep
    obtain ⟨hmax, rfl⟩ := hts c List.mem_cons_self m hm
    have htotal : total shared n (Z.leafCount c) = together shared n (Z.leafCount c) := by
      refine total_eq_together ?_
      rcases hfew with hlimit | hfew
      · unfold floatCountModulus together at *
        split <;> omega
      · exact Nat.lt_of_le_of_lt (le_tally shared ts _) hfew
    rw [htotal] at hrest hle
    exact ih (fun d hd => hts d (List.mem_cons_of_mem _ hd)) (Nat.le_trans hle (Nat.le_max_left _ _)) hfew hrest

theorem BuiltOf.eq_of_count32? (hZ : Z.Formatted) (h : Z.BuiltOf k t)
    (hfew : 2 * limit < floatCountModulus ∨ Z.leafCount t < floatCountModulus) (hn : Z.count32? limit t = some n) :
    n = Z.leafCount t := by
  induction t using Z.induction_on_parts generalizing n with
  | step t ih =>
  cases hk : Z.floatKind? t with
  | some j =>
    rw [count32?_of_floatKind hk] at hn
    rw [leafCount_of_floatKind hk, Option.some.inj hn]
  | none =>
    cases hparts : Z.floatParts? limit t with
    | none =>
      rw [count32?_eq_none_of_floatParts hk hparts h] at hn
      cases hn
    | some parts =>
      obtain ⟨shared, ts⟩ := parts
      obtain ⟨hbuilt, hcount, hcount32⟩ := builtOf_iff_of_floatParts hparts
      rw [hcount32] at hn
      rw [hcount] at hfew ⊢
      refine eq_tally_of_countAll? (fun c hc m hm => ?_) (Nat.zero_le _) hfew hn
      have hb := (hbuilt k).1 h c hc
      have hfound := (counts hZ limit c (size_pos_of_mem_floatParts hparts hc) _).2 ⟨k, m, hb, hm, rfl⟩
      refine ⟨count_le hfound, ih c (mem_parts_of_floatParts hparts hc) hb (hfew.imp_right fun hfew => ?_) hm⟩
      exact Nat.lt_of_le_of_lt (leafCount_le_tally shared hc 0) hfew

/-! ## The array that floats are passed in -/

/-- A machine array of floats is laid out as they are, if its size can be told. -/
theorem layoutOf_floatArray (T : Target) (k : FloatKind) {n : Nat} (hn : n ≠ 0)
    (hsize : n * (T.machineFloat k).size ≤ Layout.maxSize) (table : Table) :
    Ensures (Lowering.floatArray k n) table fun h table' =>
      table'.layoutOf T h = some (copies n (T.machineFloat k)) := by
  refine (Table.intern_spec (by trivial)).bind fun elem table₁ ⟨_, helem⟩ => ?_
  refine (Table.intern_spec (by trivial)).mono fun h table₂ ⟨hext, harray⟩ => ?_
  have hfloat := Table.layoutOf_float (T := T) (hext.types _ _ helem)
  rw [Table.layoutOf_array harray hfloat, Layout.copies_of_pos hn, Layout.times, Nat.min_eq_left hsize]

/-! ## What is found -/

/-- No size is too large to be told. -/
structure Measurable (Z : Sizing) : Prop where
  uncut : ∀ t, Z.Uncut t
  sizes : ∀ t, (Z.layout t).size ≤ Layout.maxSize

theorem BuiltOf.layoutOf_floatArray (hZ : Z.Formatted) (hM : Z.Measurable) (h : Z.BuiltOf k t)
    (hpos : 1 ≤ Z.leafCount t) (table : Table) :
    Ensures (Lowering.floatArray k (Z.leafCount t)) table fun h table' =>
      table'.layoutOf Z.target h = some (Z.layout t) := by
  have hlayout := h.layout_eq hZ hM.uncut
  have hsize := hM.sizes t
  rw [hlayout, Layout.size_copies] at hsize
  rw [hlayout]
  exact Sizing.layoutOf_floatArray Z.target k (Nat.ne_of_gt hpos) hsize table

/-- Where the sizes of all types that the pool has handed out are below the largest, none is cut off. -/
theorem measurable_of_lt (h : ∀ k, k < Z.size → (Z.layout ⟨k⟩).size < Layout.maxSize) : Z.Measurable := by
  have hlt : ∀ t, (Z.layout t).size ≤ Layout.maxSize - 1 := size_layout_le fun k hk => Nat.le_pred_of_lt (h k hk)
  have hmax : 0 < Layout.maxSize := by decide
  refine ⟨fun t => uncut_of_size_lt ?_, fun t => ?_⟩
  · exact Nat.lt_of_le_pred hmax (hlt t)
  · exact Nat.le_trans (hlt t) (Nat.sub_le _ _)

theorem measurable_mixing : mixing.Measurable := measurable_of_lt (by decide)

/-- Homogeneous floats are found exactly in a type, and the machine array of them is laid out as the type. -/
structure FloatsFound (Z : Sizing) (limit : Nat) (t : TypeId) : Prop where
  exact : ∀ k n, Z.homogeneousFloats? t limit = some (k, n) ↔
    Z.BuiltOf k t ∧ n = Z.leafCount t ∧ 1 ≤ n ∧ n ≤ limit
  array : ∀ k n, Z.homogeneousFloats? t limit = some (k, n) → ∀ table,
    Ensures (Lowering.floatArray k n) table fun h table' => table'.layoutOf Z.target h = some (Z.layout t)

/-- Built of more floats than the limit, and yet no number on the way, as sums wrap around, is over the limit. -/
def HidesFloats (Z : Sizing) (limit : Nat) (t : TypeId) : Prop :=
  (∃ k, Z.BuiltOf k t) ∧ limit < Z.leafCount t ∧ (Z.count32? limit t).isSome = true

/-- It takes a limit of all 32 bits, and as many floats as wrap around, to hide any. -/
theorem not_hidesFloats (hZ : Z.Formatted) (hcut : ∀ t, Z.Uncut t) (hlimit : 1 ≤ limit)
    (hfew : 2 * limit < floatCountModulus ∨ Z.leafCount t < floatCountModulus) : ¬Z.HidesFloats limit t := by
  rintro ⟨⟨k, hb⟩, hmany, hsome⟩
  obtain ⟨n, hn⟩ := Option.isSome_iff_exists.1 hsome
  have heq := hb.eq_of_count32? hZ hfew hn
  have hfound := homogeneousFloats?_eq_some_iff.1 ((homogeneousFloats?_iff hZ hcut).2 ⟨hb, by omega, hn⟩)
  have hle : n ≤ max limit 1 := count_le hfound
  omega

/-- Homogeneous floats are found exactly, and the machine array of them is laid out as the type, unless floats over the
limit are hidden. -/
theorem floatsFound_iff (hZ : Z.Formatted) (hM : Z.Measurable) (hlimit : 1 ≤ limit)
    (hword : limit < floatCountModulus) (t : TypeId) : Z.FloatsFound limit t ↔ ¬Z.HidesFloats limit t := by
  constructor
  · rintro hfound ⟨⟨k, hb⟩, hmany, hsome⟩
    obtain ⟨n, hn⟩ := Option.isSome_iff_exists.1 hsome
    obtain ⟨-, rfl, -, hle⟩ := (hfound.exact k n).1 ((homogeneousFloats?_iff hZ hM.uncut).2 ⟨hb, by omega, hn⟩)
    omega
  · intro hhidden
    have exact_iff : ∀ k n, Z.homogeneousFloats? t limit = some (k, n) ↔
        Z.BuiltOf k t ∧ n = Z.leafCount t ∧ 1 ≤ n ∧ n ≤ limit := by
      intro k n
      rw [homogeneousFloats?_iff hZ hM.uncut]
      constructor
      · rintro ⟨hb, hpos, hn⟩
        have hle : Z.leafCount t ≤ limit := by
          by_contra hmany
          exact hhidden ⟨⟨k, hb⟩, Nat.lt_of_not_le hmany, Option.isSome_iff_exists.2 ⟨n, hn⟩⟩
        obtain rfl := Option.some.inj (hn.symm.trans (hb.count32?_eq hZ hM.uncut hword hpos hle))
        exact ⟨hb, rfl, hpos, hle⟩
      · rintro ⟨hb, rfl, hpos, hle⟩
        exact ⟨hb, hpos, hb.count32?_eq hZ hM.uncut hword hpos hle⟩
    refine ⟨exact_iff, fun k n h table => ?_⟩
    obtain ⟨hb, rfl, hpos, -⟩ := (exact_iff k n).1 h
    exact hb.layoutOf_floatArray hZ hM hpos table

/-- The array of two doubles is found. -/
theorem floatsFound_doubles : ¬mixing.HidesFloats 4 ⟨21⟩ ∧ mixing.FloatsFound 4 ⟨21⟩ ∧
    mixing.homogeneousFloats? ⟨21⟩ 4 = some (.double, 2) := by
  have hshown : ¬mixing.HidesFloats 4 ⟨21⟩ :=
    not_hidesFloats regular_mixing.formatted measurable_mixing.uncut (by decide) (Or.inl (by decide))
  have hfound : mixing.FloatsFound 4 ⟨21⟩ :=
    (floatsFound_iff regular_mixing.formatted measurable_mixing (by decide) (by decide) ⟨21⟩).2 hshown
  have hfloat : mixing.floatKind? ⟨16⟩ = some .double := by decide
  have hb : mixing.BuiltOf .double ⟨21⟩ := .array rfl fun _ _ => .float hfloat
  have hcount : mixing.leafCount ⟨21⟩ = 2 := by
    have hd : mixing.get ⟨21⟩ = .array 2 ⟨16⟩ false := rfl
    rw [leafCount_array hd, leafCount_of_floatKind hfloat]
    decide
  exact ⟨hshown, hfound, (hfound.exact .double 2).2 ⟨hb, hcount.symm, by decide, by decide⟩⟩

/-! ## As many floats as wrap around -/

/-- At the largest limit, no number is over it. -/
theorem countAll?_replicate (hlimit : floatCountModulus ≤ limit + 1) (hn : n < floatCountModulus) (len m : Nat) :
    countAll? limit false (List.replicate len (some m)) n = some ((n + len * m) % floatCountModulus) := by
  induction len generalizing n with
  | zero => simp [countAll?, Nat.mod_eq_of_lt hn]
  | succ len ih =>
    have hlt : total false n m < floatCountModulus := Nat.mod_lt _ (by decide)
    have hstep : countNext? limit false n (some m) = some (total false n m) :=
      countNext?_eq_some_iff.2 ⟨m, rfl, by omega, rfl⟩
    rw [List.replicate_succ, countAll?, List.foldlM_cons, hstep]
    refine (ih hlt).trans ?_
    rw [total, if_neg (by decide), Nat.mod_add_mod, Nat.succ_mul, Nat.add_assoc, Nat.add_comm m]

theorem count32?_array {len : Nat} {child : TypeId} (hd : Z.get t = .array len child false)
    (hs : 0 < (Z.layout child).size) (hlen : len ≤ limit) (hlimit : floatCountModulus ≤ limit + 1)
    (hm : Z.count32? limit child = some m) : Z.count32? limit t = some (len * m % floatCountModulus) := by
  rw [count32?_of_get hd]
  dsimp only [countRule]
  rw [if_pos hlen, if_pos hs, hm, countAll?_replicate hlimit (by decide), Nat.zero_add]
  rfl

end Sizing

/-- The primitive types, and an array of arrays of arrays of floats. -/
def Pool.block : Pool :=
  let row : Ty := .array 1024 ⟨15⟩ false
  let plane : Ty := .array 2048 ⟨21⟩ false
  let block : Ty := .array 2048 ⟨22⟩ false
  ⟨(primitiveTypes ++ [row, plane, block]).toArray⟩

def SealedPool.block : SealedPool where
  toPool := .block
  primitivesInPlace := by decide
  heights := (List.replicate 21 0 ++ [1, 2, 3]).toArray
  heights_hold := Rule.Settled.holds (by decide)
  rooms := ([false, false] ++ List.replicate 18 true ++ [false] ++ List.replicate 3 true).toArray
  rooms_hold := Rule.Settled.holds (by decide)

namespace Sizing

def block : Sizing where
  toSealedPool := .block
  target := .sample
  extents :=
    #[⟨⟨0, 1⟩, 0⟩, ⟨⟨0, 1⟩, 0⟩, ⟨⟨1, 1⟩, 1⟩, ⟨⟨1, 1⟩, 1⟩, ⟨⟨1, 1⟩, 8⟩, ⟨⟨1, 1⟩, 8⟩, ⟨⟨2, 2⟩, 16⟩, ⟨⟨2, 2⟩, 16⟩,
      ⟨⟨4, 4⟩, 32⟩, ⟨⟨4, 4⟩, 32⟩, ⟨⟨8, 8⟩, 64⟩, ⟨⟨8, 8⟩, 64⟩, ⟨⟨16, 16⟩, 128⟩, ⟨⟨16, 16⟩, 128⟩, ⟨⟨2, 2⟩, 16⟩,
      ⟨⟨4, 4⟩, 32⟩, ⟨⟨8, 8⟩, 64⟩, ⟨⟨16, 16⟩, 80⟩, ⟨⟨16, 16⟩, 128⟩, ⟨⟨2, 2⟩, 16⟩, ⟨⟨0, 1⟩, 0⟩, ⟨⟨0x1000, 4⟩, 0x8000⟩,
      ⟨⟨0x800000, 4⟩, 0x4000000⟩, ⟨⟨0x400000000, 4⟩, 0x2000000000⟩]
  extents_hold := Rule.Settled.holds (by decide)

theorem plain_block : block.Plain := by decide

/-- There are 2^32 floats in the block, so that a count of 32 bits comes to none at all. -/
theorem exists_not_floatsFound : ∃ (Z : Sizing) (t : TypeId) (limit : Nat), Z.Regular ∧ Z.Measurable ∧
    1 ≤ limit ∧ limit < floatCountModulus ∧ Z.takesRoom t = true ∧ Z.BuiltOf .float t ∧
    Z.leafCount t = floatCountModulus ∧ Z.homogeneousFloats? t limit = some (.float, 0) ∧ ¬Z.FloatsFound limit t := by
  have hZ : block.Regular := plain_block.regular Target.supported_sample
  have hM : block.Measurable := measurable_of_lt (by decide)
  have hrow : block.get ⟨21⟩ = .array 1024 ⟨15⟩ false := rfl
  have hplane : block.get ⟨22⟩ = .array 2048 ⟨21⟩ false := rfl
  have hblock : block.get ⟨23⟩ = .array 2048 ⟨22⟩ false := rfl
  have hfloat : block.floatKind? ⟨15⟩ = some .float := by decide
  have hbuilt : block.BuiltOf .float ⟨23⟩ :=
    .array hblock fun _ _ => .array hplane fun _ _ => .array hrow fun _ _ => .float hfloat
  have hcount : block.leafCount ⟨23⟩ = floatCountModulus := by
    rw [leafCount_array hblock, leafCount_array hplane, leafCount_array hrow, leafCount_of_floatKind hfloat]
    decide
  have hwrapped : block.count32? (floatCountModulus - 1) ⟨23⟩ = some 0 :=
    count32?_array hblock (by decide) (by decide) (by decide) <|
      count32?_array hplane (by decide) (by decide) (by decide) <|
        count32?_array hrow (by decide) (by decide) (by decide) (count32?_of_floatKind hfloat)
  have hfound : block.homogeneousFloats? ⟨23⟩ (floatCountModulus - 1) = some (.float, 0) :=
    (homogeneousFloats?_iff hZ.formatted hM.uncut).2 ⟨hbuilt, hcount ▸ by decide, hwrapped⟩
  refine ⟨block, ⟨23⟩, floatCountModulus - 1, hZ, hM, by decide, by decide, by decide, hbuilt, hcount, hfound, ?_⟩
  intro h
  obtain ⟨-, -, hpos, -⟩ := (h.exact .float 0).1 hfound
  exact absurd hpos (by decide)

end Sizing

end MachineAbi
