import MachineAbi.Passing.Members
import MachineAbi.Proofs.Source.Regular

/-!
# Homogeneous floats leave no room for anything else

A value that consists of `n` floats of one format (`Sizing.homogeneousFloats?`) fits into `n` such floats side by side
(`Sizing.fits_of_homogeneousFloats`), if the limit is too low for counts to wrap around.

* `Layout.Fits`: a value fits into a number of units, and can be placed wherever a unit can. Values that fit do so
  together, one after another (`Fits.append`) or at one place (`Fits.join`).
* Counting passes the format on from part to part, so the format found at the end is that of every part. The induction
  therefore goes backwards: it assumes what the last part found.
-/

namespace MachineAbi

namespace Layout

/-! ## Values that fit into units -/

/-- `l` fits into `n` units side by side, and can be placed wherever a unit can. -/
structure Fits (unit : Layout) (n : Nat) (l : Layout) : Prop where
  placeable : l.Placeable
  size : l.size ≤ n * unit.size
  align : l.align ≤ unit.align

/-- One value behind another, or both at one place. -/
def beside (shared : Bool) (l m : Layout) : Layout := if shared then l.join m else l.append m

theorem align_beside (shared : Bool) (l m : Layout) : (l.beside shared m).align = max l.align m.align := by
  cases shared <;> rfl

theorem beside_zero {l : Layout} (shared : Bool) (h : 1 ≤ l.align) : l.beside shared .zero = l := by
  cases shared with
  | false => exact append_zero h
  | true => simp [beside, join, zero, Nat.max_eq_left h]

/-- Copies side by side take no more room than copies one behind another. -/
theorem le_foldl_replicate {l m : Layout} (h : l.Placeable) (n : Nat) :
    m.size + n * l.size ≤ ((List.replicate n l).foldl append m).size ∧
      m.align ≤ ((List.replicate n l).foldl append m).align ∧
      (n ≠ 0 → l.align ≤ ((List.replicate n l).foldl append m).align) := by
  induction n generalizing m with
  | zero => exact ⟨by simp, Nat.le_refl _, fun hn => absurd rfl hn⟩
  | succ n ih =>
    obtain ⟨hsize, halign, -⟩ := @ih (m.append l)
    have happend : m.size + l.size ≤ (m.append l).size := h.size_le_append
    have hmax : (m.append l).align = max m.align l.align := rfl
    rw [List.replicate_succ, List.foldl_cons, Nat.succ_mul]
    refine ⟨by omega, by omega, fun _ => by omega⟩

namespace Fits

variable {unit l m : Layout} {a b n : Nat}

protected theorem zero (hu : unit.Placeable) : Fits unit n .zero := ⟨.zero, Nat.zero_le _, hu.align_pos⟩

protected theorem join (hl : Fits unit a l) (hm : Fits unit b m) : Fits unit (max a b) (l.join m) := by
  refine ⟨hl.placeable.join hm.placeable, ?_, Nat.max_le.2 ⟨hl.align, hm.align⟩⟩
  exact Nat.max_le.2 ⟨Nat.le_trans hl.size (Nat.mul_le_mul_right _ (Nat.le_max_left _ _)),
    Nat.le_trans hm.size (Nat.mul_le_mul_right _ (Nat.le_max_right _ _))⟩

section

variable (hu : unit.Placeable) (hd : unit.align ∣ unit.size)

include hu hd

/-- Where units end, whatever fits into them can start. -/
theorem dvd_mul (h : Fits unit a l) (n : Nat) : l.align ∣ n * unit.size :=
  Nat.dvd_mul_left_of_dvd (Nat.dvd_trans (dvd_of_isPowerOfTwo_of_le h.placeable.align hu.align h.align) hd) n

protected theorem append (hl : Fits unit a l) (hm : Fits unit b m) : Fits unit (a + b) (l.append m) := by
  refine ⟨hl.placeable.append hm.placeable, ?_, Nat.max_le.2 ⟨hl.align, hm.align⟩⟩
  have hstart : alignUp l.size m.align ≤ a * unit.size := alignUp_le hm.placeable.align (hm.dvd_mul hu hd a) hl.size
  rw [Nat.add_mul]
  exact Nat.add_le_add hstart hm.size

protected theorem pad (h : Fits unit n l) : Fits unit n l.pad :=
  ⟨h.placeable.pad, alignUp_le h.placeable.align (h.dvd_mul hu hd n) h.size, h.align⟩

protected theorem beside (shared : Bool) (hl : Fits unit a l) (hm : Fits unit b m) :
    Fits unit (if shared then max a b else a + b) (l.beside shared m) := by
  cases shared with
  | false => exact hl.append hu hd hm
  | true => exact hl.join hm

end

end Fits

end Layout

namespace Target

variable {T : Target}

theorem storeBytes_pos (k : FloatKind) : 0 < k.storeBytes := by cases k <;> decide

theorem placeable_floatUnit (hT : T.Supported) (k : FloatKind) : (Layout.mk k.storeBytes (T.floatAlign k.bits)).Placeable :=
  .of_size_pos (isPowerOfTwo_floatAlign hT _) (storeBytes_pos k)

theorem placeable_machineFloat (hT : T.Supported) (k : FloatKind) : (T.machineFloat k).Placeable :=
  (placeable_floatUnit hT k).pad

theorem align_dvd_machineFloat (hT : T.Supported) (k : FloatKind) : (T.machineFloat k).align ∣ (T.machineFloat k).size :=
  (placeable_floatUnit hT k).dvd_pad

end Target

namespace Sizing

open Layout (Fits beside)

variable {Z : Sizing} {t : TypeId} {limit : Nat} {shared : Bool} {ts : List TypeId}

/-! ## The parts that are counted -/

/-- What is counted as a float is laid out as one. -/
theorem layout_of_floatKind (hT : Z.target.Supported) {k : FloatKind} (h : Z.floatKind? t = some k) :
    Z.layout t = Z.target.machineFloat k := by
  unfold floatKind? at h
  split at h
  · rename_i bits hd
    split at h
    · cases h
    · rename_i hno
      obtain rfl := FloatKind.ofBits?_eq_some_iff.1 h
      have hk : k = .x86Fp80 → Z.target.supportsF80 = true := by
        rintro rfl
        simpa [FloatKind.bits] using hno
      rw [layout_of_extent (extent_of_get hd), Target.machineFloat_eq hT k hk]
      rfl
  · cases h

theorem layout_of_size_zero (hZ : Z.Formatted) (h : (Z.layout t).size = 0) : Z.layout t = .zero :=
  congrArg₂ Layout.mk h ((hZ.placeable t).anywhere h)

/-- Parts of size zero add nothing. -/
theorem foldl_beside_sized (hZ : Z.Formatted) (shared : Bool) {l : Layout} (hl : 1 ≤ l.align) :
    ((ts.filter fun c => 0 < (Z.layout c).size).map Z.layout).foldl (beside shared) l =
      (ts.map Z.layout).foldl (beside shared) l := by
  induction ts generalizing l with
  | nil => rfl
  | cons c ts ih =>
    rw [List.filter_cons, List.map_cons, List.foldl_cons]
    split
    · rw [List.map_cons, List.foldl_cons]
      exact ih (by rw [Layout.align_beside]; exact Nat.le_trans hl (Nat.le_max_left _ _))
    · rename_i hc
      rw [layout_of_size_zero hZ (by simpa using hc), Layout.beside_zero shared hl]
      exact ih hl

/-- An array of nothing, or of no elements, takes no room. -/
theorem layout_array_zero {len : Nat} {child : TypeId} {sentinel : Bool} (hd : Z.get t = .array len child sentinel)
    (h : elementCount len sentinel = 0 ∨ Z.layout child = .zero) : Z.layout t = .zero := by
  refine (layout_of_extent (extent_of_get hd)).trans ?_
  dsimp only [SealedPool.extentRule]
  split
  · rfl
  · rename_i hn
    show Layout.times _ (Z.layout child) = .zero
    rw [h.resolve_left hn, Layout.times_zero]

theorem fits_array {unit : Layout} {n len : Nat} {child : TypeId} {sentinel : Bool} (hZ : Z.Formatted) (hu : unit.Placeable)
    (hd : Z.get t = .array len child sentinel)
    (h : Fits unit n ((List.replicate (elementCount len sentinel) (Z.layout child)).foldl Layout.append .zero)) :
    Fits unit n (Z.layout t) := by
  by_cases hn : elementCount len sentinel = 0
  · rw [layout_array_zero hd (Or.inl hn)]
    exact .zero hu
  · obtain ⟨hsize, -, halign⟩ := @Layout.le_foldl_replicate _ .zero (hZ.placeable child) (elementCount len sentinel)
    rw [layout_array hd hn]
    refine ⟨placeable_times (hZ.placeable child) hn, ?_, Nat.le_trans (halign hn) h.align⟩
    refine Nat.le_trans (Nat.min_le_left _ _) (Nat.le_trans ?_ h.size)
    exact Nat.le_trans (Nat.le_add_left _ _) hsize

/-- An aggregate fits where its parts do. -/
theorem fits_of_floatParts {unit : Layout} {n : Nat} (hZ : Z.Formatted) (hu : unit.Placeable) (hd : unit.align ∣ unit.size)
    (h : Z.floatParts? limit t = some (shared, ts)) (hts : Fits unit n ((ts.map Z.layout).foldl (beside shared) .zero)) :
    Fits unit n (Z.layout t) := by
  unfold floatParts? at h
  dsimp only at h
  split at h
  next s hs =>
    split at h <;> simp only [Option.some.injEq, Prod.mk.injEq, reduceCtorEq] at h
    rename_i hpacked
    obtain ⟨rfl, rfl⟩ := h
    rw [foldl_beside_sized hZ false (Nat.le_refl 1)] at hts
    rw [layout_struct hs (by simpa using hpacked)]
    exact hts.pad hu hd
  next fields hf =>
    simp only [Option.some.injEq, Prod.mk.injEq] at h
    obtain ⟨rfl, rfl⟩ := h
    rw [foldl_beside_sized hZ false (Nat.le_refl 1)] at hts
    rw [layout_tuple hf]
    exact hts.pad hu hd
  next len child sentinel ha =>
    split at h <;> simp only [Option.some.injEq, Prod.mk.injEq, reduceCtorEq] at h
    obtain ⟨rfl, rfl⟩ := h
    split at hts
    · rw [List.map_replicate] at hts
      exact fits_array hZ hu ha hts
    · rename_i hc
      rw [layout_array_zero ha (Or.inr (layout_of_size_zero hZ (Nat.eq_zero_of_not_pos hc)))]
      exact .zero hu
  next u hun =>
    split at h <;> simp only [Option.some.injEq, Prod.mk.injEq, reduceCtorEq] at h
    rename_i hplain
    obtain ⟨rfl, rfl⟩ := h
    obtain ⟨hpacked, htag⟩ := not_or.1 hplain
    have hnone : Z.storedTag? u = none := by simpa [SealedPool.storesTag] using htag
    rw [foldl_beside_sized hZ true (Nat.le_refl 1)] at hts
    rw [layout_union hun (by simpa using hpacked), hnone, payloadLayout, Layout.overlay_eq]
    exact hts.pad hu hd
  next => cases h

/-! ## Counting -/

/-- A part only adds up to the limit. -/
theorem count_le_of_join {acc part found : FloatCount} (h : acc.join limit shared part = some found) :
    found.count ≤ limit := by
  obtain ⟨hle, h⟩ := Option.ite_none_right_eq_some.1 h
  obtain rfl := Option.some.inj h
  exact hle

theorem count_le_of_foldlM {acc found : FloatCount} (hacc : acc.count ≤ max limit 1)
    (h : ts.foldlM (fun acc c => (Z.countFloats limit acc.kind c).bind (acc.join limit shared)) acc = some found) :
    found.count ≤ max limit 1 := by
  induction ts generalizing acc with
  | nil =>
    obtain rfl : acc = found := Option.some.inj h
    exact hacc
  | cons c ts ih =>
    rw [List.foldlM_cons] at h
    obtain ⟨acc', hstep, hrest⟩ := Option.bind_eq_some_iff.1 h
    obtain ⟨part, -, hjoin⟩ := Option.bind_eq_some_iff.1 hstep
    exact ih (Nat.le_trans (count_le_of_join hjoin) (Nat.le_max_left _ _)) hrest

/-- What is counted is in the limit. A float on its own is not compared with it. -/
theorem count_le {seen : Option FloatKind} {found : FloatCount} (h : Z.countFloats limit seen t = some found) :
    found.count ≤ max limit 1 := by
  rw [countFloats_eq] at h
  split at h
  · split at h
    · split at h
      · obtain rfl := Option.some.inj h
        exact Nat.le_max_right _ _
      · cases h
    · split at h
      · cases h
      · exact count_le_of_foldlM (Nat.zero_le _) h
  · obtain rfl := Option.some.inj h
    exact Nat.zero_le _

/-- What is counted fits into as many floats of the format that is found in the end. -/
def CountsFit (Z : Sizing) (limit : Nat) (kind : FloatKind) (t : TypeId) : Prop :=
  ∀ seen found, Z.countFloats limit seen t = some found → found.kind.all (· = kind) = true →
    seen.all (· = kind) = true ∧ Fits (Z.target.machineFloat kind) found.count (Z.layout t)

theorem fits_foldlM {kind : FloatKind} {acc found : FloatCount} (hT : Z.target.Supported)
    (hlimit : 2 * limit < floatCountModulus) (parts : ∀ c ∈ ts, Z.CountsFit limit kind c)
    (hacc : acc.count ≤ max limit 1)
    (h : ts.foldlM (fun acc c => (Z.countFloats limit acc.kind c).bind (acc.join limit shared)) acc = some found)
    (hk : found.kind.all (· = kind) = true) :
    acc.kind.all (· = kind) = true ∧ ∀ l, Fits (Z.target.machineFloat kind) acc.count l →
      Fits (Z.target.machineFloat kind) found.count ((ts.map Z.layout).foldl (beside shared) l) := by
  induction ts generalizing acc with
  | nil =>
    obtain rfl : acc = found := Option.some.inj h
    exact ⟨hk, fun l hl => hl⟩
  | cons c ts ih =>
    rw [List.foldlM_cons] at h
    obtain ⟨acc', hstep, hrest⟩ := Option.bind_eq_some_iff.1 h
    obtain ⟨part, hpart, hjoin⟩ := Option.bind_eq_some_iff.1 hstep
    have hacc' := Nat.le_trans (count_le_of_join hjoin) (Nat.le_max_left limit 1)
    obtain ⟨hkind, hfold⟩ := ih (fun d hd => parts d (List.mem_cons_of_mem _ hd)) hacc' hrest
    obtain ⟨-, hjoin⟩ := Option.ite_none_right_eq_some.1 hjoin
    obtain rfl := Option.some.inj hjoin
    obtain ⟨hseen, hfits⟩ := parts c List.mem_cons_self _ _ hpart hkind
    refine ⟨hseen, fun l hl => hfold _ ?_⟩
    -- two counts in the limit are added without wrapping around
    have hpart := count_le hpart
    have hsum : (acc.count + part.count) % floatCountModulus = acc.count + part.count := by
      refine Nat.mod_eq_of_lt ?_
      unfold floatCountModulus at hlimit ⊢
      omega
    simp only [hsum]
    exact hl.beside (Target.placeable_machineFloat hT kind) (Target.align_dvd_machineFloat hT kind) shared hfits

theorem countsFit (hZ : Z.Formatted) (hlimit : 2 * limit < floatCountModulus) (kind : FloatKind) (t : TypeId) :
    Z.CountsFit limit kind t := by
  have hT := hZ.supported
  have hunit := Target.placeable_machineFloat hT kind
  induction t using Z.induction_on_parts with
  | step t ih =>
  intro seen found h hk
  rw [countFloats_eq] at h
  split at h
  · split at h
    · rename_i k hfloat
      split at h
      · rename_i hseen
        obtain rfl := Option.some.inj h
        obtain rfl : k = kind := by simpa using hk
        rw [layout_of_floatKind hT hfloat]
        exact ⟨hseen, hunit, Nat.le_of_eq (Nat.one_mul _).symm, Nat.le_refl _⟩
      · cases h
    · split at h
      · cases h
      · rename_i shared ts hparts
        have parts : ∀ c ∈ ts, Z.CountsFit limit kind c := fun c hc => ih c (mem_parts_of_floatParts hparts hc)
        obtain ⟨hseen, hfits⟩ := fits_foldlM hT hlimit parts (Nat.zero_le _) h hk
        refine ⟨hseen, fits_of_floatParts hZ hunit (Target.align_dvd_machineFloat hT kind) hparts ?_⟩
        exact hfits .zero (.zero hunit)
  · rename_i hroom
    obtain rfl := Option.some.inj h
    rw [layout_of_not_takesRoom hT (by simpa using hroom)]
    exact ⟨hk, .zero hunit⟩

/-- A value that consists of `n` equal floats fits into `n` of them, if the limit is too low for their count to wrap
around. -/
theorem fits_of_homogeneousFloats (hZ : Z.Formatted) (hlimit : 2 * limit < floatCountModulus) {kind : FloatKind}
    {n : Nat} (h : Z.homogeneousFloats? t limit = some (kind, n)) :
    Fits (Z.target.machineFloat kind) n (Z.layout t) := by
  obtain ⟨found, hcount, h⟩ := Option.bind_eq_some_iff.1 h
  obtain ⟨k, hk, h⟩ := Option.bind_eq_some_iff.1 h
  obtain ⟨rfl, rfl⟩ := Prod.mk.inj (Option.some.inj h)
  exact (countsFit hZ hlimit k t none found hcount (by simp [hk])).2

end Sizing

end MachineAbi
