import MachineAbi.Machine.Text
import MachineAbi.Proofs.Decimal

/-!
# The text of a machine type can be read in one way

Types without named structs that have the same text are the same (`TypeTree.text_inj`). More generally, such a type can
be told from a text that it stands in front of (`TypeTree.reads`), as long as that does not go on with a digit, with
parameters or with an address space (`TypeTree.Ends`).

A function type is written with its return type in front, which can be a function type again. So the text of any type is
that of a type which is no function (`TypeTree.lead`) with parameter lists behind it (`TypeTree.paramLists`), and both
are read from the left. What stands inside of the brackets is smaller than the whole type.
-/

namespace MachineAbi

namespace TypeTree

mutual

/-- The machine type is built without named structs. -/
def isNameless : TypeTree → Bool
  | void | int _ | float _ | ptr _ => true
  | named _ => false
  | array _ elem | vector _ elem => isNameless elem
  | struct _ fields => areNameless fields
  | function ret params _ => isNameless ret && areNameless params

/-- All of them are built without named structs. -/
def areNameless : List TypeTree → Bool
  | [] => true
  | t :: ts => isNameless t && areNameless ts

end

theorem areNameless_iff {ts : List TypeTree} : areNameless ts = true ↔ ∀ t ∈ ts, t.isNameless = true := by
  induction ts with
  | nil => simp [areNameless]
  | cons t ts ih => simp [areNameless, ih]

/-! ## Types from left to right -/

/-- The characters of the text of a type. -/
def chars (t : TypeTree) : List Char := t.text.toList

/-- The characters of texts separated by commas. -/
def listChars (ts : List TypeTree) : List Char := (listText ts).toList

/-- The characters of a parameter list. -/
def paramChars (p : List TypeTree × Bool) : List Char :=
  ' ' :: '(' :: (listChars p.1 ++ ((ellipsis p.1 p.2).toList ++ [')']))

/-- The type that the text of a type starts with. -/
def lead : TypeTree → TypeTree
  | function ret _ _ => lead ret
  | t => t

/-- The parameter lists behind it. -/
def paramLists : TypeTree → List (List TypeTree × Bool)
  | function ret params varargs => paramLists ret ++ [(params, varargs)]
  | _ => []

/-- What stands inside of brackets. -/
def components : TypeTree → List TypeTree
  | array _ elem | vector _ elem => [elem]
  | struct _ fields => fields
  | function ret params _ => components ret ++ params
  | _ => []

/-- The type is no function. -/
def IsLead : TypeTree → Prop
  | function _ _ _ => False
  | _ => True

theorem isLead_lead : ∀ t : TypeTree, t.lead.IsLead
  | function ret _ _ => isLead_lead ret
  | void | int _ | float _ | ptr _ | array _ _ | vector _ _ | struct _ _ | named _ => trivial

theorem isNameless_lead : ∀ {t : TypeTree}, t.isNameless = true → t.lead.isNameless = true
  | function ret _ _, h => by
    simp only [isNameless, Bool.and_eq_true] at h
    exact isNameless_lead (t := ret) h.1
  | void, h | int _, h | float _, h | ptr _, h | array _ _, h | vector _ _, h | struct _ _, h | named _, h => h

theorem chars_eq : ∀ t : TypeTree, t.chars = t.lead.chars ++ t.paramLists.flatMap paramChars
  | function ret params varargs => by
    have hret := chars_eq ret
    have htext : (function ret params varargs).chars = ret.chars ++ paramChars (params, varargs) := by
      simp [chars, paramChars, listChars, text]
    rw [htext, hret, lead, paramLists, List.flatMap_append, List.flatMap_singleton, List.append_assoc]
  | void | int _ | float _ | ptr _ | array _ _ | vector _ _ | struct _ _ | named _ => by
    simp [lead, paramLists]

/-- A type is the one that it starts with, with the parameter lists one after the other. -/
theorem eq_foldl : ∀ t : TypeTree, t = t.paramLists.foldl (fun ret p => function ret p.1 p.2) t.lead
  | function ret params varargs => by
    rw [paramLists, lead, List.foldl_append, ← eq_foldl ret]
    rfl
  | void | int _ | float _ | ptr _ | array _ _ | vector _ _ | struct _ _ | named _ => rfl

theorem mem_components_of_lead : ∀ {t c : TypeTree}, c ∈ t.lead.components → c ∈ t.components
  | function _ _ _, _, h => List.mem_append_left _ (mem_components_of_lead h)
  | void, _, h | int _, _, h | float _, _, h | ptr _, _, h | array _ _, _, h | vector _ _, _, h | struct _ _, _, h
  | named _, _, h => h

theorem mem_components_of_paramLists : ∀ {t c : TypeTree} {p : List TypeTree × Bool}, p ∈ t.paramLists → c ∈ p.1 →
    c ∈ t.components
  | function _ _ _, _, _, hp, hc => by
    rcases List.mem_append.1 hp with hp | hp
    · exact List.mem_append_left _ (mem_components_of_paramLists hp hc)
    · obtain rfl := List.mem_singleton.1 hp
      exact List.mem_append_right _ hc

theorem sizeOf_components : ∀ {t c : TypeTree}, c ∈ t.components → sizeOf c < sizeOf t
  | array _ _, _, h => by
    obtain rfl := List.mem_singleton.1 h
    simp only [array.sizeOf_spec]
    omega
  | vector _ _, _, h => by
    obtain rfl := List.mem_singleton.1 h
    simp only [vector.sizeOf_spec]
    omega
  | struct _ fields, c, h => by
    have hmem : c ∈ fields := h
    have hlt := List.sizeOf_lt_of_mem hmem
    simp only [struct.sizeOf_spec]
    omega
  | function _ _ _, _, h => by
    simp only [function.sizeOf_spec]
    rcases List.mem_append.1 h with h | h
    · have hlt := sizeOf_components h
      omega
    · have hlt := List.sizeOf_lt_of_mem h
      omega

theorem isNameless_components : ∀ {t c : TypeTree}, t.isNameless = true → c ∈ t.components → c.isNameless = true
  | array _ _, _, ht, h | vector _ _, _, ht, h => by
    obtain rfl := List.mem_singleton.1 h
    simpa only [isNameless] using ht
  | struct _ _, _, ht, h => by
    simp only [isNameless] at ht
    exact areNameless_iff.1 ht _ h
  | function _ _ _, _, ht, h => by
    simp only [isNameless, Bool.and_eq_true] at ht
    obtain ⟨hret, hparams⟩ := ht
    rcases List.mem_append.1 h with h | h
    · exact isNameless_components hret h
    · exact areNameless_iff.1 hparams _ h

/-! ## What a text ends with -/

/-- The rest of a text does not go on with a digit, nor with a space and another character than these. -/
structure Ends (next : List Char) (r : List Char) : Prop where
  number : EndsNumber r
  space : ∀ c s, r = ' ' :: c :: s → c ∈ next

variable {t u : TypeTree} {ts us : List TypeTree} {r s next : List Char}

theorem Ends.mono {next' : List Char} (h : Ends next r) (hn : next ⊆ next') : Ends next' r :=
  ⟨h.number, fun c s hr => hn (h.space c s hr)⟩

theorem Ends.nil : Ends next [] := by
  refine ⟨fun c hc => ?_, fun c s h => ?_⟩
  · cases hc
  · cases h

theorem Ends.cons {c : Char} (hd : c.isDigit = false) (hc : c ≠ ' ') : Ends next (c :: r) := by
  refine ⟨fun d h => ?_, fun d s h => absurd (List.cons.inj h).1 hc⟩
  rwa [← Option.some.inj h]

theorem Ends.space_cons {c : Char} (hc : c ∈ next) : Ends next (' ' :: c :: r) := by
  refine ⟨fun d h => ?_, fun d s h => ?_⟩
  · rw [← Option.some.inj h]
    rfl
  · rwa [← (List.cons.inj (List.cons.inj h).2).1]

/-- A text starts with a character that ends no list and no structure. -/
theorem chars_eq_cons : ∀ t : TypeTree, ∃ c cs, t.chars = c :: cs ∧ c ≠ '.' ∧ c ≠ ')'
  | void | int _ | array _ _ | vector _ _ | named _ => by simp [chars, text]
  | float kind => by cases kind <;> simp [chars, text, FloatKind.name]
  | ptr space => by by_cases h : space = 0 <;> simp [chars, text, h]
  | struct packed fields => by
    cases packed <;> cases fields <;> simp [chars, text, openBracket]
  | function ret params varargs => by
    obtain ⟨c, cs, hcs, hc⟩ := chars_eq_cons ret
    have hret : ret.text.toList = c :: cs := hcs
    simp [chars, text, hret, hc]

/-! ## Reading -/

/-- The type can be told from the text behind it. -/
def Reads (t : TypeTree) : Prop :=
  ∀ u r s, Ends ['\x7d'] r → Ends ['\x7d'] s → t.chars ++ r = u.chars ++ s → t = u ∧ r = s

/-- What a list of types ends with: another type does not follow. -/
structure EndsList (r : List Char) : Prop extends Ends ['\x7d'] r where
  comma : ∀ c s, r = ',' :: ' ' :: c :: s → c = '.'

/-- The rest of a list. -/
def restChars : List TypeTree → List Char
  | [] => []
  | t :: ts => ',' :: ' ' :: listChars (t :: ts)

theorem listChars_cons (t : TypeTree) (ts : List TypeTree) : listChars (t :: ts) = t.chars ++ restChars ts := by
  cases ts <;> simp [listChars, listText, restChars, chars]

theorem ends_restChars (hr : EndsList r) (ts : List TypeTree) : Ends ['\x7d'] (restChars ts ++ r) := by
  cases ts with
  | nil => exact hr.toEnds
  | cons t ts => exact .cons rfl (by decide)

/-- Where the list goes on, a type follows the comma. -/
theorem restChars_ne (hr : EndsList r) : r ≠ restChars (t :: ts) ++ s := by
  intro h
  obtain ⟨c, cs, hcs, hdot, -⟩ := chars_eq_cons t
  rw [restChars, listChars_cons, hcs] at h
  exact hdot (hr.comma c _ h)

theorem reads_list (h : ∀ t ∈ ts, Reads t) (hr : EndsList r) (hs : EndsList s) (hts : ts ≠ []) (hus : us ≠ [])
    (heq : listChars ts ++ r = listChars us ++ s) : ts = us ∧ r = s := by
  induction ts generalizing us with
  | nil => exact absurd rfl hts
  | cons t ts ih =>
    cases us with
    | nil => exact absurd rfl hus
    | cons u us =>
      rw [listChars_cons, listChars_cons, List.append_assoc, List.append_assoc] at heq
      obtain ⟨rfl, hrest⟩ := h t List.mem_cons_self u _ _ (ends_restChars hr ts) (ends_restChars hs us) heq
      cases ts with
      | nil =>
        cases us with
        | nil => exact ⟨rfl, hrest⟩
        | cons u us => exact absurd hrest (restChars_ne hr)
      | cons t' ts =>
        cases us with
        | nil => exact absurd hrest.symm (restChars_ne hs)
        | cons u us =>
          have hlist : listChars (t' :: ts) ++ r = listChars (u :: us) ++ s := by
            simpa [restChars] using hrest
          obtain ⟨htail, hrs⟩ := ih (fun a ha => h a (List.mem_cons_of_mem _ ha)) (List.cons_ne_nil _ _)
            (List.cons_ne_nil _ _) hlist
          exact ⟨by rw [htail], hrs⟩

/-! ### Parameter lists -/

/-- What closes a parameter list. -/
def closing (varargs : Bool) (r : List Char) : List Char := (if varargs then ", ...".toList else []) ++ ')' :: r

theorem endsList_closing (varargs : Bool) : EndsList (closing varargs r) := by
  cases varargs with
  | false => exact ⟨.cons rfl (by decide), fun c s h => by simp [closing] at h⟩
  | true => exact ⟨.cons rfl (by decide), fun c s h => by simp [closing] at h; exact h.1.symm⟩

theorem closing_inj {v w : Bool} (h : closing v r = closing w s) : v = w ∧ r = s := by
  cases v <;> cases w <;> simp [closing] at h <;> exact ⟨rfl, h⟩

theorem paramChars_nil (v : Bool) :
    paramChars ([], v) ++ r = ' ' :: '(' :: ((if v then "...".toList else []) ++ ')' :: r) := by
  cases v <;> simp [paramChars, listChars, listText, ellipsis]

theorem paramChars_cons (v : Bool) :
    paramChars (t :: ts, v) ++ r = ' ' :: '(' :: (listChars (t :: ts) ++ closing v r) := by
  cases v <;> simp [paramChars, ellipsis, closing]

/-- A parameter list without parameters is closed at once. -/
theorem paramChars_nil_ne {v w : Bool} : paramChars ([], v) ++ r ≠ paramChars (t :: ts, w) ++ s := by
  intro h
  obtain ⟨c, cs, hcs, hdot, hclose⟩ := chars_eq_cons t
  rw [paramChars_nil, paramChars_cons, listChars_cons, hcs] at h
  have hinner := (List.cons.inj (List.cons.inj h).2).2
  cases v with
  | false => exact hclose (List.cons.inj hinner).1.symm
  | true => exact hdot (List.cons.inj hinner).1.symm

theorem reads_params {p q : List TypeTree × Bool} (hp : ∀ t ∈ p.1, Reads t)
    (h : paramChars p ++ r = paramChars q ++ s) : p = q ∧ r = s := by
  obtain ⟨ts, v⟩ := p
  obtain ⟨us, w⟩ := q
  cases ts with
  | nil =>
    cases us with
    | nil =>
      rw [paramChars_nil, paramChars_nil] at h
      cases v <;> cases w <;> simp_all
    | cons u us => exact absurd h paramChars_nil_ne
  | cons t ts =>
    cases us with
    | nil => exact absurd h.symm paramChars_nil_ne
    | cons u us =>
      rw [paramChars_cons, paramChars_cons] at h
      have hlist := (List.cons.inj (List.cons.inj h).2).2
      obtain ⟨htypes, hclosing⟩ := reads_list hp (endsList_closing v) (endsList_closing w) (List.cons_ne_nil _ _)
        (List.cons_ne_nil _ _) hlist
      obtain ⟨rfl, hrs⟩ := closing_inj hclosing
      exact ⟨Prod.ext htypes rfl, hrs⟩

/-- Parameter lists end where no space with a parenthesis follows. -/
theorem flatMap_paramChars_ne (hr : Ends ['\x7d'] r) (p : List TypeTree × Bool) (l : List Char) :
    r ≠ paramChars p ++ l := by
  intro h
  have hparen := hr.space '(' _ (by rw [h, paramChars]; rfl)
  simp at hparen

theorem reads_paramLists {ps qs : List (List TypeTree × Bool)} (hp : ∀ p ∈ ps, ∀ t ∈ p.1, Reads t)
    (hr : Ends ['\x7d'] r) (hs : Ends ['\x7d'] s) (h : ps.flatMap paramChars ++ r = qs.flatMap paramChars ++ s) :
    ps = qs ∧ r = s := by
  induction ps generalizing qs with
  | nil =>
    cases qs with
    | nil => exact ⟨rfl, h⟩
    | cons q qs =>
      rw [List.flatMap_cons, List.append_assoc] at h
      exact absurd h (flatMap_paramChars_ne hr q _)
  | cons p ps ih =>
    cases qs with
    | nil =>
      rw [List.flatMap_cons, List.append_assoc] at h
      exact absurd h.symm (flatMap_paramChars_ne hs p _)
    | cons q qs =>
      rw [List.flatMap_cons, List.flatMap_cons, List.append_assoc, List.append_assoc] at h
      obtain ⟨rfl, hrest⟩ := reads_params (hp p List.mem_cons_self) h
      obtain ⟨rfl, hrs⟩ := ih (fun q hq => hp q (List.mem_cons_of_mem _ hq)) hrest
      exact ⟨rfl, hrs⟩

theorem ends_paramLists (hr : Ends ['\x7d'] r) (ps : List (List TypeTree × Bool)) :
    Ends ['\x7d', '('] (ps.flatMap paramChars ++ r) := by
  cases ps with
  | nil => exact hr.mono (by simp)
  | cons p ps =>
    rw [List.flatMap_cons, paramChars]
    exact .space_cons (by simp)

/-! ### Types that are no functions -/

/-- The type, which is no function, can be told from the text behind it. -/
def ReadsLead (t : TypeTree) : Prop :=
  ∀ u r s, u.IsLead → Ends ['\x7d', '('] r → Ends ['\x7d', '('] s → t.chars ++ r = u.chars ++ s → t = u ∧ r = s

/-- The first character of a type that is no function. -/
def initial : TypeTree → Char
  | void => 'v'
  | int _ => 'i'
  | float .half => 'h'
  | float .float | float .fp128 => 'f'
  | float .double => 'd'
  | float .x86Fp80 => 'x'
  | ptr _ => 'p'
  | array _ _ => '['
  | vector _ _ | struct true _ => '<'
  | struct false _ => '\x7b'
  | named _ => '%'
  | function _ _ _ => '('

theorem head?_chars (ht : t.IsLead) : (t.chars ++ r).head? = some t.initial := by
  cases t with
  | void | int _ | array _ _ | vector _ _ | named _ => simp [chars, text, initial]
  | float kind => cases kind <;> simp [chars, text, FloatKind.name, initial]
  | ptr space => by_cases h : space = 0 <;> simp [chars, text, h, initial]
  | struct packed fields => cases packed <;> cases fields <;> simp [chars, text, openBracket, initial]
  | function _ _ _ => exact ht.elim

theorem initial_eq (h : t.chars ++ r = u.chars ++ s) (ht : t.IsLead) (hu : u.IsLead) : u.initial = t.initial := by
  have hhead := congrArg List.head? h
  rw [head?_chars ht, head?_chars hu] at hhead
  exact (Option.some.inj hhead).symm

theorem readsLead_void : ReadsLead void := by
  intro u r s hu _ _ h
  have hi := initial_eq h trivial hu
  obtain rfl : u = void := by
    fun_cases initial u <;> simp_all [initial]
  exact ⟨rfl, List.append_cancel_left h⟩

theorem readsLead_int (bits : Nat) : ReadsLead (int bits) := by
  intro u r s hu hr hs h
  have hi := initial_eq h trivial hu
  obtain ⟨bits', rfl⟩ : ∃ n, u = int n := by
    fun_cases initial u <;> simp_all [initial]
  have hdigits : digits bits ++ r = digits bits' ++ s := by
    simpa [chars, text, digits] using h
  obtain ⟨rfl, hrs⟩ := digits_append_inj hr.number hs.number hdigits
  exact ⟨rfl, hrs⟩

theorem readsLead_float (kind : FloatKind) : ReadsLead (float kind) := by
  intro u r s hu _ _ h
  have hi := initial_eq h trivial hu
  obtain ⟨kind', rfl⟩ : ∃ k, u = float k := by
    fun_cases initial u <;> cases kind <;> simp_all [initial]
  cases kind <;> cases kind' <;> simp [chars, text, FloatKind.name] at h <;> exact ⟨rfl, h⟩

theorem chars_ptr_zero : (ptr 0).chars ++ r = 'p' :: 't' :: 'r' :: r := by
  simp [chars, text]

theorem chars_ptr {space : Nat} (h : space ≠ 0) :
    (ptr space).chars ++ r = 'p' :: 't' :: 'r' :: ' ' :: ("addrspace(".toList ++ (digits space ++ ')' :: r)) := by
  simp [chars, text, digits, h]

/-- A pointer into the first address space is not followed by another one. -/
theorem chars_ptr_zero_ne {space : Nat} (hr : Ends ['\x7d', '('] r) (h : space ≠ 0) :
    (ptr 0).chars ++ r ≠ (ptr space).chars ++ s := by
  intro heq
  rw [chars_ptr_zero, chars_ptr h] at heq
  have hspace := hr.space 'a' _ (List.cons.inj (List.cons.inj (List.cons.inj heq).2).2).2
  simp at hspace

theorem readsLead_ptr (space : Nat) : ReadsLead (ptr space) := by
  intro u r s hu hr hs h
  have hi := initial_eq h trivial hu
  obtain ⟨space', rfl⟩ : ∃ n, u = ptr n := by
    fun_cases initial u <;> simp_all [initial]
  by_cases h0 : space = 0 <;> by_cases h0' : space' = 0
  · obtain rfl := h0
    obtain rfl := h0'
    exact ⟨rfl, List.append_cancel_left h⟩
  · obtain rfl := h0
    exact absurd h (chars_ptr_zero_ne hr h0')
  · obtain rfl := h0'
    exact absurd h.symm (chars_ptr_zero_ne hs h0)
  · have hdigits : digits space ++ ')' :: r = digits space' ++ ')' :: s := by
      rw [chars_ptr h0, chars_ptr h0'] at h
      simpa using h
    have hclose : ∀ l : List Char, Ends [] (')' :: l) := fun l => Ends.cons rfl (by decide)
    obtain ⟨rfl, hrs⟩ := digits_append_inj (hclose r).number (hclose s).number hdigits
    exact ⟨rfl, (List.cons.inj hrs).2⟩

/-- What stands between the brackets of an array or a vector, and behind them. -/
def elementChars (len : Nat) (elem : TypeTree) (close : Char) (r : List Char) : List Char :=
  digits len ++ (' ' :: 'x' :: ' ' :: (elem.chars ++ close :: r))

theorem chars_array (len : Nat) (elem : TypeTree) :
    (array len elem).chars ++ r = '[' :: elementChars len elem ']' r := by
  simp [chars, text, elementChars, digits]

theorem chars_vector (len : Nat) (elem : TypeTree) :
    (vector len elem).chars ++ r = '<' :: elementChars len elem '>' r := by
  simp [chars, text, elementChars, digits]

theorem reads_element {len len' : Nat} {close : Char} (ht : Reads t) (hd : close.isDigit = false) (hc : close ≠ ' ')
    (h : elementChars len t close r = elementChars len' u close s) : len = len' ∧ t = u ∧ r = s := by
  obtain ⟨rfl, hrest⟩ := digits_append_inj (Ends.space_cons (List.mem_singleton_self _)).number
    (Ends.space_cons (List.mem_singleton_self _)).number h
  have helem : t.chars ++ close :: r = u.chars ++ close :: s := by
    simpa using hrest
  obtain ⟨rfl, hrs⟩ := ht u _ _ (.cons hd hc) (.cons hd hc) helem
  exact ⟨rfl, rfl, (List.cons.inj hrs).2⟩

/-- What stands behind the first bracket of a struct. -/
def fieldChars (ts : List TypeTree) (r : List Char) : List Char :=
  if ts.isEmpty then '\x7d' :: r else ' ' :: (listChars ts ++ ' ' :: '\x7d' :: r)

theorem chars_struct (fields : List TypeTree) :
    (struct false fields).chars ++ r = '\x7b' :: fieldChars fields r := by
  cases fields <;> simp [chars, text, openBracket, closeBracket, fieldChars, listChars]

theorem chars_packed (fields : List TypeTree) :
    (struct true fields).chars ++ r = '<' :: '\x7b' :: fieldChars fields ('>' :: r) := by
  cases fields <;> simp [chars, text, openBracket, closeBracket, fieldChars, listChars]

theorem endsList_close : EndsList (' ' :: '\x7d' :: r) :=
  ⟨.space_cons (List.mem_singleton_self _), fun c s h => by simp at h⟩

theorem reads_fields (hts : ∀ t ∈ ts, Reads t) (h : fieldChars ts r = fieldChars us s) : ts = us ∧ r = s := by
  cases ts with
  | nil =>
    cases us with
    | nil => exact ⟨rfl, (List.cons.inj h).2⟩
    | cons u us => simp [fieldChars] at h
  | cons t ts =>
    cases us with
    | nil => simp [fieldChars] at h
    | cons u us =>
      obtain ⟨htypes, hrest⟩ := reads_list hts endsList_close endsList_close (List.cons_ne_nil _ _)
        (List.cons_ne_nil _ _) (List.cons.inj h).2
      exact ⟨htypes, (List.cons.inj (List.cons.inj hrest).2).2⟩

theorem readsLead_array (len : Nat) (ht : Reads t) : ReadsLead (array len t) := by
  intro u r s hu _ _ h
  have hi := initial_eq h trivial hu
  obtain ⟨len', elem, rfl⟩ : ∃ n elem, u = array n elem := by
    fun_cases initial u <;> simp_all [initial]
  rw [chars_array, chars_array] at h
  obtain ⟨rfl, rfl, hrs⟩ := reads_element ht rfl (by decide) (List.cons.inj h).2
  exact ⟨rfl, hrs⟩

/-- A vector goes on with a number, a packed struct with another bracket. -/
theorem chars_vector_ne (len : Nat) (elem : TypeTree) (fields : List TypeTree) :
    (vector len elem).chars ++ r ≠ (struct true fields).chars ++ s := by
  intro h
  rw [chars_vector, chars_packed] at h
  obtain ⟨c, cs, hcs⟩ := List.exists_cons_of_ne_nil (digits_ne_nil len)
  have hdigit : c.isDigit = true := isDigit_of_mem_digits (hcs ▸ List.mem_cons_self)
  rw [elementChars, hcs] at h
  rw [(List.cons.inj (List.cons.inj h).2).1] at hdigit
  exact absurd hdigit (by decide)

theorem readsLead_vector (len : Nat) (ht : Reads t) : ReadsLead (vector len t) := by
  intro u r s hu _ _ h
  have hi := initial_eq h trivial hu
  obtain ⟨len', elem, rfl⟩ | ⟨fields, rfl⟩ : (∃ n elem, u = vector n elem) ∨ ∃ fields, u = struct true fields := by
    fun_cases initial u <;> simp_all [initial]
  · rw [chars_vector, chars_vector] at h
    obtain ⟨rfl, rfl, hrs⟩ := reads_element ht rfl (by decide) (List.cons.inj h).2
    exact ⟨rfl, hrs⟩
  · exact absurd h (chars_vector_ne _ _ _)

theorem readsLead_struct (packed : Bool) (hts : ∀ t ∈ ts, Reads t) : ReadsLead (struct packed ts) := by
  intro u r s hu _ _ h
  have hi := initial_eq h trivial hu
  cases packed with
  | false =>
    obtain ⟨fields, rfl⟩ : ∃ fields, u = struct false fields := by
      fun_cases initial u <;> simp_all [initial]
    rw [chars_struct, chars_struct] at h
    obtain ⟨rfl, hrs⟩ := reads_fields hts (List.cons.inj h).2
    exact ⟨rfl, hrs⟩
  | true =>
    obtain ⟨len', elem, rfl⟩ | ⟨fields, rfl⟩ : (∃ n elem, u = vector n elem) ∨ ∃ fields, u = struct true fields := by
      fun_cases initial u <;> simp_all [initial]
    · exact absurd h.symm (chars_vector_ne _ _ _)
    · rw [chars_packed, chars_packed] at h
      obtain ⟨rfl, hrs⟩ := reads_fields hts (List.cons.inj (List.cons.inj h).2).2
      exact ⟨rfl, (List.cons.inj hrs).2⟩

theorem readsLead (hl : t.IsLead) (hn : t.isNameless = true) (hc : ∀ c ∈ t.components, Reads c) : ReadsLead t := by
  cases t with
  | void => exact readsLead_void
  | int bits => exact readsLead_int bits
  | float kind => exact readsLead_float kind
  | ptr space => exact readsLead_ptr space
  | array len elem => exact readsLead_array len (hc elem (List.mem_singleton_self _))
  | vector len elem => exact readsLead_vector len (hc elem (List.mem_singleton_self _))
  | struct packed fields => exact readsLead_struct packed hc
  | named _ => simp [isNameless] at hn
  | function _ _ _ => exact hl.elim

/-! ### Any type -/

/-- A type can be told from a longer text if what stands inside of its brackets can. -/
theorem reads_step (hn : t.isNameless = true) (hc : ∀ c ∈ t.components, Reads c) : Reads t := by
  intro u r s hr hs h
  rw [chars_eq t, chars_eq u, List.append_assoc, List.append_assoc] at h
  have hlead : ReadsLead t.lead :=
    readsLead t.isLead_lead (isNameless_lead hn) fun c h => hc c (mem_components_of_lead h)
  obtain ⟨hleads, hrest⟩ := hlead u.lead _ _ u.isLead_lead (ends_paramLists hr _) (ends_paramLists hs _) h
  obtain ⟨hparams, hrs⟩ := reads_paramLists (fun p hp c hmem => hc c (mem_components_of_paramLists hp hmem)) hr hs hrest
  refine ⟨?_, hrs⟩
  rw [eq_foldl t, eq_foldl u, hleads, hparams]

theorem reads (t : TypeTree) (hn : t.isNameless = true) : Reads t :=
  reads_step hn fun c hc => reads c (isNameless_components hn hc)
termination_by sizeOf t
decreasing_by exact sizeOf_components hc

/-- The text of a type without named structs tells the type. -/
theorem text_inj (hn : t.isNameless = true) (h : t.text = u.text) : t = u := by
  have hchars : t.chars ++ [] = u.chars ++ [] := by
    rw [chars, chars, h]
  exact (reads t hn u [] [] .nil .nil hchars).1

end TypeTree

end MachineAbi
