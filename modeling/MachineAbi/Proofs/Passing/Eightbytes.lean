import MachineAbi.Passing.SysV
import MachineAbi.Proofs.Passing.Leaves
import MachineAbi.Proofs.Target.Eightbyte

/-!
# What eightbyte classes say about a value

The class of an eightbyte is that of all scalars in it, merged in order (`Eightbytes.exists_deposits`).
-/

namespace MachineAbi

namespace SysV

variable {Z : Sizing} {t : TypeId}

/-! ## Merging -/

namespace EightbyteClass

/-- Classes that a scalar gives to its first eightbyte. -/
def Begins (c : EightbyteClass) : Prop := c = integer ∨ c = sse ∨ c = float ∨ c = x87

/-- Classes that a scalar gives to its second eightbyte. -/
def GoesOn (c : EightbyteClass) : Prop := c = integer ∨ c = sseUp ∨ c = x87Up

/-- The class of an eightbyte in which these classes meet. -/
def mergeAll (cs : List EightbyteClass) : EightbyteClass := cs.foldl merge none

variable {cs : List EightbyteClass} {c : EightbyteClass}

theorem mergeAll_concat (cs : List EightbyteClass) (c : EightbyteClass) :
    mergeAll (cs ++ [c]) = (mergeAll cs).merge c := by
  rw [mergeAll, List.foldl_append]
  rfl

theorem merge_eq_none {a b : EightbyteClass} : merge a b = none → a = none ∧ b = none := by
  cases a <;> cases b <;> decide

theorem merge_eq_float {a b : EightbyteClass} : merge a b = float → b ≠ none → a = none ∧ b = float := by
  cases a <;> cases b <;> decide

theorem merge_integer {a b : EightbyteClass} :
    a = integer ∨ a = memory ∨ b = integer → merge a b = integer ∨ merge a b = memory := by
  cases a <;> cases b <;> decide

theorem merge_begins {a b : EightbyteClass} : merge a b = sseUp ∨ merge a b = x87Up →
    a = sseUp ∨ a = x87Up ∨ b = sseUp ∨ b = x87Up := by
  cases a <;> cases b <;> decide

/-- Only an eightbyte without scalars has no class. -/
theorem eq_nil_of_mergeAll (hcs : none ∉ cs) (h : mergeAll cs = none) : cs = [] := by
  cases cs using List.reverseRecOn with
  | nil => rfl
  | append_singleton cs c =>
    rw [mergeAll_concat] at h
    exact absurd (by simp [(merge_eq_none h).2]) hcs

/-- A float stands alone in its eightbyte, where that has the class of one. -/
theorem eq_singleton_of_mergeAll (hcs : none ∉ cs) (h : mergeAll cs = float) : cs = [float] := by
  cases cs using List.reverseRecOn with
  | nil => cases h
  | append_singleton cs c =>
    rw [mergeAll_concat] at h
    have hc : c ≠ none := fun hc => hcs (by simp [hc])
    obtain ⟨hinit, rfl⟩ := merge_eq_float h hc
    rw [eq_nil_of_mergeAll (fun hm => hcs (List.mem_append_left _ hm)) hinit]
    rfl

/-- Integers prevail over all but memory. -/
theorem mergeAll_of_mem_integer (h : integer ∈ cs) : mergeAll cs = integer ∨ mergeAll cs = memory := by
  induction cs using List.reverseRecOn with
  | nil => exact nomatch h
  | append_singleton cs c ih =>
    rw [mergeAll_concat]
    refine merge_integer ?_
    rcases List.mem_append.1 h with h | h
    · exact (ih h).elim Or.inl fun h => Or.inr (Or.inl h)
    · exact Or.inr (Or.inr (List.mem_singleton.1 h).symm)

/-- No second half comes of first halves. -/
theorem mergeAll_ne_up (h : ∀ c ∈ cs, c.Begins) : mergeAll cs ≠ sseUp ∧ mergeAll cs ≠ x87Up := by
  induction cs using List.reverseRecOn with
  | nil => exact ⟨nofun, nofun⟩
  | append_singleton cs c ih =>
    obtain ⟨h1, h2⟩ := ih fun c hc => h c (List.mem_append_left _ hc)
    have hc : c ≠ sseUp ∧ c ≠ x87Up := by
      rcases h c (by simp) with rfl | rfl | rfl | rfl <;> exact ⟨nofun, nofun⟩
    have hno : ¬(merge (mergeAll cs) c = sseUp ∨ merge (mergeAll cs) c = x87Up) := fun hup => by
      have := merge_begins hup
      simp_all
    rw [mergeAll_concat]
    exact ⟨fun h => hno (Or.inl h), fun h => hno (Or.inr h)⟩

end EightbyteClass

/-! ## The classes of a scalar -/

open EightbyteClass

/-- The classes that a scalar gives to the eightbytes from its own on. -/
structure Deposits (Z : Sizing) (c : TypeId) (cs : List EightbyteClass) : Prop where
  put : ∀ offset (e : Eightbytes), e.putScalar? Z offset c = some (e.putAll offset cs)
  begins : ∀ k ∈ cs.head?, k.Begins
  goesOn : ∀ k ∈ cs.tail, k.GoesOn
  /-- Every eightbyte of the scalar gets a class, except for the second one of a wide enum. -/
  reaches : (Z.layout c).size ≤ 8 * cs.length ∨
    (∃ name tag variants, Z.get c = .enum name tag variants) ∧ cs = [integer]
  short : .float ∈ cs → (Z.layout c).size ≤ 4

/-- Floats, and vectors of anything but single bits. -/
def isFloatLike (Z : Sizing) (c : TypeId) : Bool :=
  match Z.get c with
  | .float _ => true
  | .vector _ child => child != .bool
  | _ => false

/-- An enum of more than one eightbyte. -/
def WideEnum (Z : Sizing) (c : TypeId) : Prop :=
  8 < (Z.layout c).size ∧ ∃ name tag variants, Z.get c = .enum name tag variants

/-- The lists of classes that scalars give to the eightbytes from their own on. -/
inductive Shape (Z : Sizing) (c : TypeId) : List EightbyteClass → Prop
  /-- An integer in every eightbyte. -/
  | words (hf : isFloatLike Z c = false) (he : ¬WideEnum Z c) :
    Shape Z c (.replicate (((Z.layout c).size + 7) / 8) .integer)
  /-- One integer, for a wide enum too. -/
  | word (hf : isFloatLike Z c = false) (hp : (Z.get c).isPackedContainer = false)
    (hs : (Z.layout c).size ≤ 8 ∨ WideEnum Z c) : Shape Z c [integer]
  | float (hf : isFloatLike Z c = true) (hs : (Z.layout c).size ≤ 4) : Shape Z c [float]
  | sse (hf : isFloatLike Z c = true) (hs : (Z.layout c).size ≤ 8) : Shape Z c [sse]
  | wide (hf : isFloatLike Z c = true) (hd : Z.get c ≠ .float 80) (hs : 8 < (Z.layout c).size)
    (hle : (Z.layout c).size ≤ 16) : Shape Z c [sse, sseUp]
  | x87 (hf : isFloatLike Z c = true) (hd : Z.get c = .float 80) (hs : 8 < (Z.layout c).size)
    (hle : (Z.layout c).size ≤ 16) : Shape Z c [x87, x87Up]

theorem Shape.deposits {c : TypeId} {cs : List EightbyteClass} (h : Shape Z c cs)
    (hput : ∀ offset (e : Eightbytes), e.putScalar? Z offset c = some (e.putAll offset cs)) : Deposits Z c cs := by
  cases h with
  | words =>
    refine ⟨hput, fun k hk => ?_, fun k hk => ?_, Or.inl ?_, fun hf => ?_⟩
    · exact Or.inl (List.eq_of_mem_replicate (List.mem_of_mem_head? hk))
    · exact Or.inl (List.eq_of_mem_replicate (List.mem_of_mem_tail hk))
    · rw [List.length_replicate]
      omega
    · cases (List.mem_replicate.1 hf).2
  | word hf hp hs =>
    refine ⟨hput, by simp [Begins], by simp, ?_, by simp⟩
    rcases hs with hs | ⟨-, he⟩
    · exact Or.inl hs
    · exact Or.inr ⟨he, rfl⟩
  | float hf hs => exact ⟨hput, by simp [Begins], by simp, Or.inl (by simp; omega), fun _ => hs⟩
  | sse hf hs => exact ⟨hput, by simp [Begins], by simp, Or.inl hs, by simp⟩
  | wide hf hd hs hle => exact ⟨hput, by simp [Begins], by simp [GoesOn], Or.inl hle, by simp⟩
  | x87 hf hd hs hle => exact ⟨hput, by simp [Begins], by simp [GoesOn], Or.inl hle, by simp⟩

/-- The scalar gives classes of one of the shapes. -/
def Shaped (Z : Sizing) (c : TypeId) : Prop :=
  ∃ cs, (∀ offset (e : Eightbytes), e.putScalar? Z offset c = some (e.putAll offset cs)) ∧ Shape Z c cs

/-- Floats of up to 32 bits share an eightbyte with what stands next to them; longer ones do not. -/
theorem shaped_float (hZ : Z.Regular) (hX : Z.target.arch = .x86_64) {c : TypeId} {bits : Nat}
    (hd : Z.get c = .float bits) : Shaped Z c := by
  obtain ⟨k, hk⟩ := Option.isSome_iff_exists.1 (hZ.floats c bits hd)
  obtain rfl := FloatKind.ofBits?_eq_some_iff.1 hk
  have hl : Z.layout c = Z.target.floatLayout k.bits := by rw [Sizing.layout, Sizing.extent_eq, hd]
  have hf : isFloatLike Z c = true := by simp [isFloatLike, hd]
  have hsize := @Target.size_floatLayout Z.target k
  cases k with
  | half | float =>
    refine ⟨_, fun offset e => ?_, .float hf ?_⟩
    · simp only [Eightbytes.putScalar?, hd]
      rfl
    · rw [hl, hsize (by decide)]
      decide
  | double =>
    refine ⟨_, fun offset e => ?_, .sse hf ?_⟩
    · simp only [Eightbytes.putScalar?, hd]
      rfl
    · rw [hl, hsize (by decide)]
      decide
  | x86Fp80 =>
    have h80 : Z.target.supportsF80 = true := by rw [Target.supportsF80, hX]; rfl
    have h16 : (Z.layout c).size = 16 := by
      rw [hl]
      exact Target.size_floatLayout_x87 hZ.supported hX
    refine ⟨_, fun offset e => ?_, .x87 hf hd (by omega) (by omega)⟩
    simp [Eightbytes.putScalar?, hd, Eightbytes.putFloat, FloatKind.bits, h80]
  | fp128 =>
    have h16 : (Z.layout c).size = 16 := by
      rw [hl, hsize (by decide)]
      rfl
    refine ⟨_, fun offset e => ?_, .wide hf (by rw [hd]; decide) (by omega) (by omega)⟩
    simp only [Eightbytes.putScalar?, hd]
    rfl

/-- Vectors of single bits are integers. -/
theorem shaped_vector {c : TypeId} {len : Nat} {child : TypeId} (hd : Z.get c = .vector len child)
    (hs : (Z.layout c).size ≤ 16) : Shaped Z c := by
  by_cases hc : child = .bool
  · have hf : isFloatLike Z c = false := by simp [isFloatLike, hd, hc]
    refine ⟨_, fun offset e => ?_, .words hf ?_⟩
    · simp [Eightbytes.putScalar?, hd, Eightbytes.putVector, hc, Eightbytes.putIntegers]
    · rintro ⟨-, name, tag, variants, he⟩
      simp [hd] at he
  have hf : isFloatLike Z c = true := by simp [isFloatLike, hd, hc]
  by_cases h8 : (Z.layout c).size ≤ 8
  · refine ⟨_, fun offset e => ?_, .sse hf h8⟩
    simp [Eightbytes.putScalar?, hd, Eightbytes.putVector, hc, h8, Eightbytes.putAll]
  · refine ⟨_, fun offset e => ?_, .wide hf (by simp [hd]) (Nat.lt_of_not_le h8) hs⟩
    simp [Eightbytes.putScalar?, hd, Eightbytes.putVector, hc, h8, hs]

/-- Every scalar of at most two eightbytes gives them classes. -/
theorem shaped_of_isAtom (hZ : Z.Regular) (hX : Z.target.arch = .x86_64) {c : TypeId} (ha : Z.isAtom c = true)
    (hs : (Z.layout c).size ≤ 16) : Shaped Z c := by
  have words : (∀ offset (e : Eightbytes), e.putScalar? Z offset c = some (e.putIntegers offset (Z.layout c).size)) →
      isFloatLike Z c = false → (∀ name tag variants, Z.get c ≠ .enum name tag variants) → Shaped Z c := by
    intro h hf he
    refine ⟨_, h, .words hf ?_⟩
    rintro ⟨-, name, tag, variants, hd⟩
    exact he name tag variants hd
  have word : (∀ offset (e : Eightbytes), e.putScalar? Z offset c = some (e.put offset .integer)) →
      isFloatLike Z c = false → (Z.get c).isPackedContainer = false → ((Z.layout c).size ≤ 8 ∨ WideEnum Z c) →
      Shaped Z c :=
    fun h hf hp hle => ⟨[.integer], h, .word hf hp hle⟩
  unfold Sizing.isAtom at ha
  cases hd : Z.get c with
  | bool =>
    have hl : Z.layout c = ⟨1, 1⟩ := by rw [Sizing.layout, Sizing.extent_eq, hd]
    refine word (fun offset e => by simp only [Eightbytes.putScalar?, hd]) (by simp [isFloatLike, hd])
      (by simp [hd, Ty.isPackedContainer]) (Or.inl ?_)
    rw [hl]
    decide
  | errorSet set =>
    have hl : (Z.layout c).size ≤ 2 := by
      rw [Sizing.layout, Sizing.extent_eq, hd]
      dsimp only
      split
      · rw [Target.errorCodeLayout_eq]
        exact Nat.le_refl 2
      · exact Nat.zero_le 2
    exact word (fun offset e => by simp only [Eightbytes.putScalar?, hd]) (by simp [isFloatLike, hd])
      (by simp [hd, Ty.isPackedContainer]) (Or.inl (Nat.le_trans hl (by decide)))
  | enum name tag variants =>
    refine word (fun offset e => by simp only [Eightbytes.putScalar?, hd]) (by simp [isFloatLike, hd])
      (by simp [hd, Ty.isPackedContainer]) ?_
    exact (Nat.lt_or_ge 8 (Z.layout c).size).elim (fun h => Or.inr ⟨h, name, tag, variants, hd⟩) Or.inl
  | int bits sign =>
    exact words (fun offset e => by simp only [Eightbytes.putScalar?, hd]) (by simp [isFloatLike, hd]) (by simp [hd])
  | pointer p =>
    have hf : isFloatLike Z c = false := by simp [isFloatLike, hd]
    cases hp : p.isSlice with
    | true => exact words (fun offset e => by simp [Eightbytes.putScalar?, hd, hp]) hf (by simp [hd])
    | false =>
      have hl : (Z.layout c).size ≤ 8 := by
        rw [Sizing.layout_pointer hd, PointerTy.layout, if_neg (by simp [hp])]
        exact (Target.withinEightbyte_ptr hZ.supported hX p.addrSpace).2.1
      exact word (fun offset e => by simp [Eightbytes.putScalar?, hd, hp]) hf (by simp [hd, Ty.isPackedContainer])
        (Or.inl hl)
  | float bits => exact shaped_float hZ hX hd
  | vector len child => exact shaped_vector hd hs
  | struct s =>
    exact words (fun offset e => by simp_all [Eightbytes.putScalar?]) (by simp [isFloatLike, hd]) (by simp [hd])
  | union u =>
    exact words (fun offset e => by simp_all [Eightbytes.putScalar?]) (by simp [isFloatLike, hd]) (by simp [hd])
  | _ => simp [hd] at ha

theorem exists_deposits (hZ : Z.Regular) (hX : Z.target.arch = .x86_64) {c : TypeId} (ha : Z.isAtom c = true)
    (hs : (Z.layout c).size ≤ 16) : ∃ cs, Deposits Z c cs := by
  obtain ⟨cs, hput, hshape⟩ := shaped_of_isAtom hZ hX ha hs
  exact ⟨cs, hshape.deposits hput⟩

/-- A scalar of at most two eightbytes lies within one or starts one. -/
theorem withinEightbyte_of_isAtom (hZ : Z.Regular) (hI : Z.TagsAreIntegers) (hX : Z.target.arch = .x86_64) {c : TypeId}
    (ha : Z.isAtom c = true) (hs : (Z.layout c).size ≤ 16) : (Z.layout c).WithinEightbyte := by
  have hT := hZ.supported
  have packed : (Z.get c).isPackedContainer = true → (Z.layout c).WithinEightbyte := fun h => by
    rw [Sizing.layout_packed h]
    exact Target.withinEightbyte_int hT hX _
  unfold Sizing.isAtom at ha
  cases hd : Z.get c with
  | bool =>
    rw [Sizing.layout, Sizing.extent_eq, hd]
    exact Or.inl (Nat.le_refl 1)
  | errorSet set =>
    rw [Sizing.layout, Sizing.extent_eq, hd]
    dsimp only
    split
    · rw [Target.errorCodeLayout_eq]
      exact Or.inl (Nat.le_refl 2)
    · exact Or.inl (Nat.zero_le 1)
  | enum name tag variants =>
    obtain ⟨bits, sign, htag⟩ := hI c name tag variants hd
    have hl : Z.layout c = Z.target.intLayout bits :=
      (Sizing.layout_of_extent (Sizing.extent_enum hd)).trans (Sizing.layout_of_extent (Sizing.extent_of_get htag))
    rw [hl]
    exact Target.withinEightbyte_int hT hX bits
  | int bits sign =>
    rw [Sizing.layout, Sizing.extent_eq, hd]
    exact Target.withinEightbyte_int hT hX bits
  | pointer p =>
    rw [Sizing.layout_pointer hd]
    exact Target.withinEightbyte_pointer hT hX p
  | float bits =>
    rw [Sizing.layout, Sizing.extent_eq, hd]
    exact Target.withinEightbyte_float hT hX (hZ.floats c bits hd)
  | vector len child =>
    by_cases hn : len = 0
    · rw [Sizing.layout, Sizing.extent_eq, hd]
      simp [hn, Extent.none, Layout.zero, Layout.WithinEightbyte]
    · rw [Sizing.layout_vector hd hn] at hs ⊢
      exact Target.withinEightbyte_vector hT hX hs
  | struct s =>
    rw [hd] at ha
    exact packed (by rw [hd]; exact ha)
  | union u =>
    rw [hd] at ha
    exact packed (by rw [hd]; exact ha)
  | _ => simp [hd] at ha

/-! ## The classes of a value -/

/-- The class that a scalar at this offset gives to eightbyte number `k`, by the classes that it gives in order. -/
def depositAt (k offset : Nat) (cs : List EightbyteClass) : Option EightbyteClass :=
  if offset / 8 ≤ k then cs[k - offset / 8]? else Option.none

theorem mem_of_depositAt {k offset : Nat} {cs : List EightbyteClass} {a : EightbyteClass}
    (h : depositAt k offset cs = some a) : a ∈ cs := by
  unfold depositAt at h
  split at h
  · exact List.mem_of_getElem? h
  · cases h

namespace Eightbytes

/-- The class of eightbyte number `k`, of which there are two. -/
def half (e : Eightbytes) (k : Nat) : EightbyteClass := if k = 0 then e.low else e.high

variable {k : Nat}

theorem half_put (hk : k < 2) (offset : Nat) (c : EightbyteClass) (e : Eightbytes) :
    (e.put offset c).half k = if offset / 8 = k then (e.half k).merge c else e.half k := by
  obtain rfl | rfl : k = 0 ∨ k = 1 := by omega
  all_goals
    unfold put half
    rcases offset / 8 with _ | _ | n
  all_goals simp

theorem half_putAll (hk : k < 2) (offset : Nat) (cs : List EightbyteClass) (e : Eightbytes) :
    (e.putAll offset cs).half k = (depositAt k offset cs).elim (e.half k) (e.half k).merge := by
  induction cs generalizing offset e with
  | nil => simp [putAll, depositAt]
  | cons c cs ih =>
    have hnext : (offset + 8) / 8 = offset / 8 + 1 := by omega
    rw [putAll, ih, half_put hk]
    unfold depositAt
    rw [hnext]
    rcases Nat.lt_trichotomy (offset / 8) k with hlt | heq | hgt
    · have hsub : k - offset / 8 = k - (offset / 8 + 1) + 1 := by omega
      simp only [if_neg (Nat.ne_of_lt hlt), if_pos (Nat.succ_le_of_lt hlt), if_pos (Nat.le_of_lt hlt), hsub,
        List.getElem?_cons_succ]
    · have hgt : ¬k + 1 ≤ k := Nat.not_succ_le_self k
      simp [heq, hgt]
    · simp [Nat.not_le_of_gt hgt, Nat.ne_of_gt hgt, Nat.not_le_of_gt (Nat.lt_succ_of_lt hgt)]

end Eightbytes

/-- A scalar inside a value, and the classes that it gives to eightbytes. -/
structure Deposit extends Member where
  classes : List EightbyteClass

/-- The classes of a value are those that its scalars give, put one after the other. -/
structure Deposited (Z : Sizing) (t : TypeId) (ds : List Deposit) : Prop where
  sound : ∀ d ∈ ds, Z.Leaf t d.toMember ∧ Deposits Z d.ty d.classes
  complete : ∀ l, Z.Leaf t l → 0 < (Z.layout l.ty).size → ∃ d ∈ ds, d.toMember = l
  classify : ∀ offset (e : Eightbytes),
    e.classify Z t offset = ds.foldl (fun e d => e.putAll (offset + d.offset) d.classes) e

theorem putScalar?_eq_none (ha : Z.isAtom t = false) (offset : Nat) (e : Eightbytes) :
    e.putScalar? Z offset t = Option.none := by
  unfold Sizing.isAtom at ha
  unfold Eightbytes.putScalar?
  split at ha
  all_goals simp_all

/-- Scalars inside a member, as scalars inside the aggregate. -/
def Deposit.within (m : Member) (d : Deposit) : Deposit := ⟨⟨d.ty, m.offset + d.offset⟩, d.classes⟩

/-- The classes of members in order are those of their scalars in order. -/
theorem deposited_members {ms : List Member} (hms : ∀ m ∈ ms, m ∈ Z.members t)
    (h : ∀ m ∈ ms, ∃ ds, Deposited Z m.ty ds) :
    ∃ ds : List Deposit, (∀ d ∈ ds, Z.Leaf t d.toMember ∧ Deposits Z d.ty d.classes) ∧
      (∀ m ∈ ms, ∀ l, Z.Leaf m.ty l → 0 < (Z.layout l.ty).size → ∃ d ∈ ds, d.toMember = ⟨l.ty, m.offset + l.offset⟩) ∧
      ∀ offset (e : Eightbytes), ms.foldl (fun e m => e.classify Z m.ty (offset + m.offset)) e =
        ds.foldl (fun e d => e.putAll (offset + d.offset) d.classes) e := by
  induction ms with
  | nil => exact ⟨[], fun _ hd => absurd hd List.not_mem_nil, fun _ hm => absurd hm List.not_mem_nil, fun _ _ => rfl⟩
  | cons m ms ih =>
    obtain ⟨ds, hds⟩ := h m List.mem_cons_self
    obtain ⟨rest, hsound, hcomplete, hfold⟩ :=
      ih (fun m hm => hms m (List.mem_cons_of_mem _ hm)) fun m hm => h m (List.mem_cons_of_mem _ hm)
    refine ⟨ds.map (.within m) ++ rest, fun d hd => ?_, fun n hn l hl hpos => ?_, fun offset e => ?_⟩
    · rcases List.mem_append.1 hd with hd | hd
      · obtain ⟨d, hmem, rfl⟩ := List.mem_map.1 hd
        obtain ⟨hl, hc⟩ := hds.sound d hmem
        exact ⟨.member (hms m List.mem_cons_self) hl, hc⟩
      · exact hsound d hd
    · rcases List.mem_cons.1 hn with rfl | hn
      · obtain ⟨d, hd, rfl⟩ := hds.complete l hl hpos
        exact ⟨d.within n, List.mem_append_left _ (List.mem_map_of_mem hd), rfl⟩
      · obtain ⟨d, hd, heq⟩ := hcomplete n hn l hl hpos
        exact ⟨d, List.mem_append_right _ hd, heq⟩
    · rw [List.foldl_cons, hds.classify, hfold, List.foldl_append, List.foldl_map]
      simp only [Deposit.within, Nat.add_assoc]

theorem exists_deposited (hZ : Z.Regular) (hE : Z.ErrorsAreCodes) (hX : Z.target.arch = .x86_64)
    (hs : (Z.layout t).size ≤ 16) : ∃ ds, Deposited Z t ds := by
  induction t using Sizing.induction_on_members hE with
  | step t ih =>
    have hclassify := fun offset e => Eightbytes.classify_eq (Sizing.membersNest_rank hE) t offset e
    cases ha : Z.isAtom t with
    | true =>
      obtain ⟨cs, hcs⟩ := exists_deposits hZ hX ha hs
      have hm := Sizing.members_of_isAtom ha
      refine ⟨[⟨⟨t, 0⟩, cs⟩], fun d hd => ?_, fun l hl _ => ?_, fun offset e => ?_⟩
      · obtain rfl := List.mem_singleton.1 hd
        exact ⟨.self hm, hcs⟩
      · cases hl with
        | self => exact ⟨_, List.mem_singleton_self _, rfl⟩
        | member h => exact absurd (hm ▸ h) List.not_mem_nil
      · rw [hclassify, hcs.put]
        rfl
    | false =>
      have hlt : (Z.layout t).size < Layout.maxSize := Nat.lt_of_le_of_lt hs (by decide)
      have hf := Sizing.filled hZ hE hlt ha
      obtain ⟨ds, hsound, hcomplete, hfold⟩ := deposited_members (fun _ h => h) fun m hm =>
        ih m hm (by have := hf.inside m hm; omega)
      refine ⟨ds, hsound, fun l hl hpos => ?_, fun offset e => ?_⟩
      · cases hl with
        | self h =>
          obtain ⟨m, hm, -⟩ := hf.dense 0 (Nat.dvd_zero _) hpos
          exact absurd (h ▸ hm) List.not_mem_nil
        | member hm hl => exact hcomplete _ hm _ hl hpos
      · rw [hclassify, putScalar?_eq_none ha]
        exact hfold offset e

/-! ## The two eightbytes -/

/-- The classes that come together in eightbyte number `k`. -/
def meeting (k : Nat) (ds : List Deposit) : List EightbyteClass := ds.filterMap fun d => depositAt k d.offset d.classes

variable {ds : List Deposit} {e : Eightbytes} {k : Nat}

/-- The class of each eightbyte is that of all classes that come together in it. -/
theorem Deposited.half_eq (h : Deposited Z t ds) (hk : k < 2) :
    (Eightbytes.empty.classify Z t 0).half k = mergeAll (meeting k ds) := by
  have hfold : ∀ (ds : List Deposit) (e : Eightbytes),
      (ds.foldl (fun e d => e.putAll (0 + d.offset) d.classes) e).half k = (meeting k ds).foldl merge (e.half k) := by
    intro ds
    induction ds with
    | nil => exact fun e => rfl
    | cons d ds ih =>
      intro e
      rw [List.foldl_cons, ih, Eightbytes.half_putAll hk, Nat.zero_add, meeting, meeting, List.filterMap_cons]
      cases depositAt k d.offset d.classes <;> rfl
  rw [h.classify, hfold]
  obtain rfl | rfl : k = 0 ∨ k = 1 := by omega
  · rfl
  · rfl

theorem Deposits.mem_begins_or_goesOn {c : TypeId} {cs : List EightbyteClass} (h : Deposits Z c cs) {a : EightbyteClass}
    (ha : a ∈ cs) : a.Begins ∨ a.GoesOn := by
  cases cs with
  | nil => exact nomatch ha
  | cons b cs =>
    rcases List.mem_cons.1 ha with rfl | ha
    · exact Or.inl (h.begins a rfl)
    · exact Or.inr (h.goesOn a ha)

/-- No scalar puts the class of none. -/
theorem Deposited.none_notMem (h : Deposited Z t ds) (k : Nat) : .none ∉ meeting k ds := by
  intro hm
  obtain ⟨d, hd, hat⟩ := List.mem_filterMap.1 hm
  rcases (h.sound d hd).2.mem_begins_or_goesOn (mem_of_depositAt hat) with hb | hg
  · rcases hb with hb | hb | hb | hb <;> cases hb
  · rcases hg with hg | hg | hg <;> cases hg

theorem eq_of_meeting_singleton {a : EightbyteClass} (h : meeting k ds = [a]) {d d' : Deposit} (hd : d ∈ ds)
    (hd' : d' ∈ ds) (hs : (depositAt k d.offset d.classes).isSome) (hs' : (depositAt k d'.offset d'.classes).isSome) :
    d = d' ∧ depositAt k d.offset d.classes = some a := by
  obtain ⟨init, b, rest, rfl, hinit, hb, hrest⟩ := List.filterMap_eq_cons_iff.1 h
  have hrest := List.filterMap_eq_nil_iff.1 hrest
  have only : ∀ c ∈ init ++ b :: rest, (depositAt k c.offset c.classes).isSome → c = b := by
    intro c hc hsome
    rcases List.mem_append.1 hc with hc | hc
    · rw [hinit c hc] at hsome
      cases hsome
    · rcases List.mem_cons.1 hc with rfl | hc
      · rfl
      · rw [hrest c hc] at hsome
        cases hsome
  obtain rfl := only d hd hs
  obtain rfl := only d' hd' hs'
  exact ⟨rfl, hb⟩

section

variable {l : Member} {p : Nat} (hZ : Z.Regular) (hE : Z.ErrorsAreCodes) (hI : Z.TagsAreIntegers)
  (hX : Z.target.arch = .x86_64) (hs : (Z.layout t).size ≤ 16) (h : Deposited Z t ds)

include hZ hE hI hX hs h

/-- A scalar that reaches into an eightbyte gives it a class, unless it is a wide enum. -/
theorem Deposited.exists_deposit (hl : Z.Leaf t l) (hp : Z.Spans l p) :
    (∃ d ∈ ds, d.toMember = l ∧ (depositAt (p / 8) d.offset d.classes).isSome) ∨
      p / 8 = 1 ∧ l.offset = 0 ∧ WideEnum Z l.ty ∧ .integer ∈ meeting 0 ds := by
  have hmax : (Z.layout t).size < Layout.maxSize := Nat.lt_of_le_of_lt hs (by decide)
  obtain ⟨⟨hdvd, -⟩, hin⟩ := Sizing.leaf_inside hZ hE hmax hl
  obtain ⟨hle, hlt⟩ := hp
  have hpos : 0 < (Z.layout l.ty).size := by omega
  have ha := Sizing.isAtom_of_leaf hZ hE (by omega) hl hpos
  obtain ⟨d, hd, rfl⟩ := h.complete l hl hpos
  obtain ⟨-, hc⟩ := h.sound d hd
  have hne : 0 < d.classes.length := by
    rcases hc.reaches with hr | ⟨-, hr⟩
    · omega
    · simp [hr]
  rcases Nat.lt_or_ge (d.offset / 8) (p / 8) with hlt8 | hge
  · have hdvd8 := (withinEightbyte_of_isAtom hZ hI hX ha (by omega)).dvd_of_lt (Sizing.placeable hZ d.ty) hdvd hlt hlt8
    have hzero : d.offset = 0 := by omega
    have hone : p / 8 = 1 := by omega
    rcases hc.reaches with hr | ⟨he, hr⟩
    · refine Or.inl ⟨d, hd, rfl, ?_⟩
      simp [depositAt, hzero, hone]
      omega
    · refine Or.inr ⟨hone, hzero, ⟨by omega, he⟩, List.mem_filterMap.2 ⟨d, hd, ?_⟩⟩
      simp [depositAt, hzero, hr]
  · have heq : d.offset / 8 = p / 8 := Nat.le_antisymm (Nat.div_le_div_right hle) hge
    exact Or.inl ⟨d, hd, rfl, by simp [depositAt, heq, hne]⟩

omit hI hX h in
/-- A value of more than one eightbyte has a scalar in the middle. -/
theorem exists_leaf_spans_eight (h8 : 8 < (Z.layout t).size) : ∃ l, Z.Leaf t l ∧ Z.Spans l 8 := by
  have hmax : (Z.layout t).size < Layout.maxSize := Nat.lt_of_le_of_lt hs (by decide)
  have hpow := (Sizing.placeable hZ t).align
  rcases Nat.lt_or_ge 8 (Z.layout t).align with hlt | hle
  · -- a scalar that is aligned to more than eight bytes is as large, and there is no room before it
    obtain ⟨l, hl, ha⟩ := Sizing.exists_leaf_align hZ hE hmax (by omega)
    obtain ⟨⟨hdvd, -⟩, hin⟩ := Sizing.leaf_inside hZ hE hmax hl
    have hpos : (Z.layout l.ty).size ≠ 0 := fun hz => by
      have := (Sizing.placeable hZ l.ty).anywhere hz
      omega
    have hsize := Nat.le_of_dvd (Nat.pos_of_ne_zero hpos) (Sizing.align_dvd_size hZ.formatted l.ty (by omega))
    have hzero : l.offset = 0 := Nat.eq_zero_of_dvd_of_lt hdvd (by omega)
    exact ⟨l, hl, by omega, by omega⟩
  · exact Sizing.exists_leaf_spans hZ hE hmax (dvd_of_isPowerOfTwo_of_le hpow ⟨3, rfl⟩ hle) h8

/-- Where the class of an eightbyte is that of a float, there is nothing behind the float. -/
theorem Deposited.lt_of_float (hf : mergeAll (meeting k ds) = .float)
    (hno : k = 1 → ∀ l, Z.Leaf t l → ¬WideEnum Z l.ty) {first : Member} (hfirst : Z.Leaf t first)
    (hstart : Z.Spans first (8 * k)) (hl : Z.Leaf t l) (hp : Z.Spans l p) (hk : p / 8 = k) : p < 8 * k + 4 := by
  have deposit : ∀ {l p}, Z.Leaf t l → Z.Spans l p → p / 8 = k →
      ∃ d ∈ ds, d.toMember = l ∧ (depositAt k d.offset d.classes).isSome := by
    intro l p hl hp hk
    rcases h.exists_deposit hZ hE hI hX hs hl hp with hd | ⟨hone, -, hwide, -⟩
    · rwa [hk] at hd
    · exact absurd hwide (hno (hk ▸ hone) l hl)
  have hmeet := eq_singleton_of_mergeAll (h.none_notMem k) hf
  obtain ⟨d, hd, rfl, hsome⟩ := deposit hl hp hk
  obtain ⟨d', hd', rfl, hsome'⟩ := deposit hfirst hstart (by omega)
  obtain ⟨rfl, hat⟩ := eq_of_meeting_singleton hmeet hd hd' hsome hsome'
  have hshort := (h.sound d hd).2.short (mem_of_depositAt hat)
  have := hp.2
  have := hstart.1
  omega

end

end SysV

end MachineAbi
