import Mathlib.Data.List.Forall2
import MachineAbi.Machine.Layout
import MachineAbi.Passing.Nesting
import MachineAbi.Proofs.Composition
import MachineAbi.Proofs.Machine.Growth
import MachineAbi.Proofs.Target.Supported

/-!
# Layouts of machine types by recursion

`Table.layoutOf` recurses at most as deep as the table is large. That is always deep enough: the layouts of machine
types are those of the types in them (`Table.layoutOf_eq_step`), whatever the table holds.

Proof: the types that have a layout within `n` levels become more with `n`, until for some `n` there are no new ones
and the layouts stay the same. There are not more types than the table holds.
-/

namespace MachineAbi.Table

variable {t : Table} {T : Target}

/-- The layout of a machine type from the layouts of the types in it. -/
def layoutStep (t : Table) (T : Target) (inner : Handle → Option Layout) (h : Handle) : Option Layout :=
  match t.get h with
  | .void | .function _ _ _ => none
  | .int bits => some (T.machineInt bits)
  | .float kind => some (T.machineFloat kind)
  | .ptr space => some (T.machinePtr space)
  | .array len elem => (inner elem).map (Layout.times len)
  | .vector len elem => (t.scalarBits? T elem).map fun bits => T.vectorLayout (len * bits)
  | .struct packed fields => (fields.mapM inner).map (Layout.struct packed)
  | .named id => (t.bodyAt? id).bind fun body => (body.fields.mapM inner).map (Layout.struct body.packed)

theorem layoutWithin_succ (n : Nat) (h : Handle) :
    t.layoutWithin T (n + 1) h = t.layoutStep T (t.layoutWithin T n) h := by
  unfold layoutWithin layoutStep
  cases t.get h <;> rfl

/-! ## Layouts of several types -/

theorem mapM_eq_some {f : Handle → Option Layout} {hs : List Handle} {ls : List Layout}
    (h : List.Forall₂ (fun a l => f a = some l) hs ls) : hs.mapM f = some ls := by
  induction h with
  | nil => rfl
  | cons ha _ ih => rw [List.mapM_cons, ha, ih]; rfl

theorem exists_of_mem_mapM {f : Handle → Option Layout} {hs : List Handle} {ls : List Layout}
    (h : hs.mapM f = some ls) : ∀ l ∈ ls, ∃ a, f a = some l := by
  induction hs generalizing ls with
  | nil =>
    obtain rfl : ls = [] := by simpa using h.symm
    exact fun l hl => nomatch hl
  | cons a hs ih =>
    rw [List.mapM_cons] at h
    obtain ⟨m, hm, h⟩ := Option.bind_eq_some_iff.1 h
    obtain ⟨ms, hms, h⟩ := Option.bind_eq_some_iff.1 h
    obtain rfl : m :: ms = ls := Option.some.inj h
    intro l hl
    rcases List.mem_cons.1 hl with rfl | hl
    · exact ⟨a, hm⟩
    · exact ih hms l hl

/-! ## More levels -/

theorem mapM_mono {f g : Handle → Option Layout} (hfg : ∀ h l, f h = some l → g h = some l) :
    ∀ {hs : List Handle} {ls : List Layout}, hs.mapM f = some ls → hs.mapM g = some ls
  | [], _, h => by simpa using h
  | a :: hs, _, h => by
    rw [List.mapM_cons] at h ⊢
    obtain ⟨l, hl, h⟩ := Option.bind_eq_some_iff.1 h
    obtain ⟨ls, hls, h⟩ := Option.bind_eq_some_iff.1 h
    exact Option.bind_eq_some_iff.2 ⟨l, hfg a l hl, Option.bind_eq_some_iff.2 ⟨ls, mapM_mono hfg hls, h⟩⟩

theorem layoutStep_mono {f g : Handle → Option Layout} (hfg : ∀ h l, f h = some l → g h = some l) {h : Handle}
    {l : Layout} (hl : t.layoutStep T f h = some l) : t.layoutStep T g h = some l := by
  unfold layoutStep at hl ⊢
  cases hg : t.get h with
  | array len elem =>
    simp only [hg] at hl ⊢
    obtain ⟨m, hm, rfl⟩ := Option.map_eq_some_iff.1 hl
    rw [hfg elem m hm]
    rfl
  | struct packed fields =>
    simp only [hg] at hl ⊢
    obtain ⟨ls, hls, rfl⟩ := Option.map_eq_some_iff.1 hl
    rw [mapM_mono hfg hls]
    rfl
  | named id =>
    simp only [hg] at hl ⊢
    obtain ⟨body, hb, hl⟩ := Option.bind_eq_some_iff.1 hl
    obtain ⟨ls, hls, rfl⟩ := Option.map_eq_some_iff.1 hl
    rw [hb, Option.bind_some, mapM_mono hfg hls]
    rfl
  | _ => simpa only [hg] using hl

theorem layoutWithin_mono {n : Nat} {h : Handle} {l : Layout} (hl : t.layoutWithin T n h = some l) :
    t.layoutWithin T (n + 1) h = some l := by
  induction n generalizing h l with
  | zero => cases hl
  | succ n ih =>
    rw [layoutWithin_succ] at hl ⊢
    exact layoutStep_mono (fun _ _ hm => ih hm) hl

/-! ## Enough levels -/

/-- One more level changes nothing. -/
def Saturated (t : Table) (T : Target) (n : Nat) : Prop := t.layoutWithin T (n + 1) = t.layoutWithin T n

theorem Saturated.succ {n : Nat} (h : t.Saturated T n) : t.Saturated T (n + 1) := by
  funext a
  rw [layoutWithin_succ, layoutWithin_succ]
  exact congrArg (fun f => t.layoutStep T f a) h

theorem Saturated.mono {n m : Nat} (h : t.Saturated T n) (hm : n ≤ m) : t.Saturated T m := by
  induction hm with
  | refl => exact h
  | step _ ih => exact ih.succ

theorem Saturated.eq {n m : Nat} (h : t.Saturated T n) (hm : n ≤ m) : t.layoutWithin T m = t.layoutWithin T n := by
  induction hm with
  | refl => rfl
  | step hm ih => exact (h.mono hm).trans ih

/-- The number of types with a layout within `n` levels. -/
def reached (t : Table) (T : Target) (n : Nat) : Nat :=
  (List.range t.size).countP fun i => (t.layoutWithin T n ⟨i⟩).isSome

theorem reached_lt {n : Nat} (h : ¬t.Saturated T n) : t.reached T n < t.reached T (n + 1) := by
  obtain ⟨a, ha⟩ := Classical.not_forall.1 fun hall => h (funext hall)
  have hold : t.layoutWithin T n a = none := by
    cases hl : t.layoutWithin T n a with
    | none => rfl
    | some l => exact absurd ((layoutWithin_mono hl).trans hl.symm) ha
  rw [hold] at ha
  have hlt : a.raw < t.size := by
    refine Nat.lt_of_not_le fun hle => ha ?_
    have hn : t.types[a.raw]? = none := Array.getElem?_eq_none hle
    simp [layoutWithin_succ, layoutStep, get, hn]
  refine countP_lt_countP (fun i hi => ?_) (List.mem_range.2 hlt) (by simp [hold]) (Option.isSome_iff_ne_none.2 ha)
  obtain ⟨l, hl⟩ := Option.isSome_iff_exists.1 hi
  exact Option.isSome_iff_exists.2 ⟨l, layoutWithin_mono hl⟩

theorem saturated_or_le_reached (n : Nat) : (∃ k, k < n ∧ t.Saturated T k) ∨ n ≤ t.reached T n := by
  induction n with
  | zero => exact Or.inr (Nat.zero_le _)
  | succ n ih =>
    by_cases hn : t.Saturated T n
    · exact Or.inl ⟨n, Nat.lt_succ_self n, hn⟩
    · rcases ih with ⟨k, hk, hs⟩ | hle
      · exact Or.inl ⟨k, Nat.lt_succ_of_lt hk, hs⟩
      · exact Or.inr (Nat.lt_of_le_of_lt hle (reached_lt hn))

theorem saturated_size : t.Saturated T (t.size + 1) := by
  rcases @saturated_or_le_reached t T (t.size + 1) with ⟨k, hk, hs⟩ | hle
  · exact hs.mono (Nat.le_of_lt hk)
  · have hcount : t.reached T (t.size + 1) ≤ (List.range t.size).length := List.countP_le_length
    rw [List.length_range] at hcount
    omega

/-- The layout of every machine type is that of the types in it. -/
theorem layoutOf_eq_step (t : Table) (T : Target) (h : Handle) : t.layoutOf T h = t.layoutStep T (t.layoutOf T) h := by
  have hfun : t.layoutOf T = t.layoutWithin T (t.size + 1) := funext (t.layoutOf_eq T)
  rw [hfun, ← layoutWithin_succ]
  exact congrFun saturated_size.symm h

theorem layoutOf_of_within {n : Nat} {h : Handle} {l : Layout} (hl : t.layoutWithin T n h = some l) :
    t.layoutOf T h = some l := by
  have later : ∀ m, n ≤ m → t.layoutWithin T m h = some l := by
    intro m hm
    induction hm with
    | refl => exact hl
    | step _ ih => exact layoutWithin_mono ih
  have hsat : t.layoutWithin T (max n (t.size + 1)) = t.layoutWithin T (t.size + 1) :=
    saturated_size.eq (Nat.le_max_right _ _)
  rw [layoutOf_eq, ← hsat]
  exact later _ (Nat.le_max_left _ _)

/-! ## Growing tables -/

section

variable {t' : Table} (hr : t.Refines t')

include hr

theorem Refines.get_eq {h : Handle} (hg : t.get h ≠ .void) : t'.get h = t.get h :=
  (hr.types _ _ (stores_of_get hg rfl)).get_eq

theorem Refines.scalarBits? {h : Handle} {bits : Nat} (hb : t.scalarBits? T h = some bits) :
    t'.scalarBits? T h = some bits := by
  unfold Table.scalarBits? at hb ⊢
  rw [hr.get_eq]
  · exact hb
  · intro hg
    simp [hg] at hb

theorem Refines.layoutStep {inner : Handle → Option Layout} {h : Handle} {l : Layout}
    (hl : t.layoutStep T inner h = some l) : t'.layoutStep T inner h = some l := by
  unfold Table.layoutStep at hl ⊢
  rw [hr.get_eq]
  · cases hg : t.get h with
    | vector len elem =>
      simp only [hg] at hl ⊢
      obtain ⟨bits, hb, rfl⟩ := Option.map_eq_some_iff.1 hl
      rw [hr.scalarBits? hb]
      rfl
    | named id =>
      simp only [hg] at hl ⊢
      obtain ⟨body, hb, hl⟩ := Option.bind_eq_some_iff.1 hl
      rw [hr.bodies id body hb]
      exact hl
    | _ => simpa only [hg] using hl
  · intro hg
    simp [hg] at hl

/-- A layout stays as it is while the table grows. -/
theorem Refines.layoutOf {h : Handle} {l : Layout} (hl : t.layoutOf T h = some l) : t'.layoutOf T h = some l := by
  have within : ∀ n h l, t.layoutWithin T n h = some l → t'.layoutWithin T n h = some l := by
    intro n
    induction n with
    | zero => exact fun h l hl => nomatch hl
    | succ n ih =>
      intro h l hl
      rw [layoutWithin_succ] at hl ⊢
      exact layoutStep_mono ih (hr.layoutStep hl)
  rw [layoutOf_eq] at hl
  exact layoutOf_of_within (within _ _ _ hl)

end

/-! ## One kind of type at a time -/

section

variable {h : Handle}

theorem layoutOf_int {bits : Nat} (hs : t.Stores h (.int bits)) : t.layoutOf T h = some (T.machineInt bits) := by
  rw [layoutOf_eq_step, layoutStep, hs.get_eq]

theorem layoutOf_float {kind : FloatKind} (hs : t.Stores h (.float kind)) :
    t.layoutOf T h = some (T.machineFloat kind) := by
  rw [layoutOf_eq_step, layoutStep, hs.get_eq]

theorem layoutOf_ptr {space : Nat} (hs : t.Stores h (.ptr space)) : t.layoutOf T h = some (T.machinePtr space) := by
  rw [layoutOf_eq_step, layoutStep, hs.get_eq]

theorem layoutOf_array {len : Nat} {elem : Handle} {l : Layout} (hs : t.Stores h (.array len elem))
    (hl : t.layoutOf T elem = some l) : t.layoutOf T h = some (.times len l) := by
  rw [layoutOf_eq_step, layoutStep, hs.get_eq]
  simp [hl]

theorem layoutOf_vector {len bits : Nat} {elem : Handle} (hs : t.Stores h (.vector len elem))
    (hb : t.scalarBits? T elem = some bits) : t.layoutOf T h = some (T.vectorLayout (len * bits)) := by
  rw [layoutOf_eq_step, layoutStep, hs.get_eq]
  simp [hb]

/-- The layout of a struct follows from those of its fields by the struct rule. -/
theorem layoutOf_body {body : StructBody} {ls : List Layout} (hb : t.body? h = some body)
    (hl : body.fields.mapM (t.layoutOf T) = some ls) : t.layoutOf T h = some (.struct body.packed ls) := by
  have hn := t.layoutWithin_of_body T (t.size + 1) hb
  rw [saturated_size, ← layoutOf_eq, ← funext (t.layoutOf_eq T), hl] at hn
  exact hn

theorem layoutOf_bytes {len : Nat} (hT : T.Supported) (hs : t.StoresBytes h len) (hlen : len ≤ Layout.maxSize) :
    t.layoutOf T h = some ⟨len, 1⟩ := by
  obtain ⟨byte, harray, hbyte⟩ := hs
  have hb := layoutOf_int (T := T) hbyte
  rw [Target.machineInt_eq hT, Target.intLayout_byte] at hb
  rw [layoutOf_array harray hb, Layout.times, Nat.mul_one, Nat.min_eq_left hlen]

end

/-! ## Alignments -/

theorem isPowerOfTwo_struct {ls : List Layout} (packed : Bool) (h : ∀ m ∈ ls, m.align.isPowerOfTwo) :
    (Layout.struct packed ls).align.isPowerOfTwo := by
  unfold Layout.struct
  split
  · exact Nat.isPowerOfTwo_one
  · exact Layout.isPowerOfTwo_foldl_append Nat.isPowerOfTwo_one h

/-- On a supported target every machine type is aligned at a power of two. -/
theorem isPowerOfTwo_layoutOf (hT : T.Supported) {h : Handle} {l : Layout} (hl : t.layoutOf T h = some l) :
    l.align.isPowerOfTwo := by
  rw [layoutOf_eq] at hl
  generalize t.size + 1 = n at hl
  induction n generalizing h l with
  | zero => cases hl
  | succ n ih =>
    have fields : ∀ {packed : Bool} {hs : List Handle} {l : Layout},
        (hs.mapM (t.layoutWithin T n)).map (Layout.struct packed) = some l → l.align.isPowerOfTwo := by
      intro packed hs l hl
      obtain ⟨ls, hls, rfl⟩ := Option.map_eq_some_iff.1 hl
      refine isPowerOfTwo_struct packed fun m hm => ?_
      obtain ⟨a, ha⟩ := exists_of_mem_mapM hls m hm
      exact ih ha
    rw [layoutWithin_succ, layoutStep] at hl
    split at hl
    next => cases hl
    next => cases hl
    next bits _ =>
      obtain rfl := Option.some.inj hl
      rw [Target.machineInt_eq hT]
      exact Target.isPowerOfTwo_intAlign hT bits
    next kind _ =>
      obtain rfl := Option.some.inj hl
      exact Target.isPowerOfTwo_floatAlign hT kind.bits
    next space _ =>
      obtain rfl := Option.some.inj hl
      exact (Target.machinePtr_sane hT space).1
    next len elem _ =>
      obtain ⟨m, hm, rfl⟩ := Option.map_eq_some_iff.1 hl
      have hpower := ih hm
      exact hpower
    next len elem _ =>
      obtain ⟨bits, -, rfl⟩ := Option.map_eq_some_iff.1 hl
      exact Target.isPowerOfTwo_vectorAlign hT (len * bits)
    next packed hs _ => exact fields hl
    next id _ =>
      obtain ⟨body, -, hl⟩ := Option.bind_eq_some_iff.1 hl
      exact fields hl

end MachineAbi.Table
