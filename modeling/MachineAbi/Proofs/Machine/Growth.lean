import MachineAbi.Machine.Table
import MachineAbi.Proofs.Store

/-!
# How tables grow

* `Ensures`: what an action gives and leaves behind, with the rule for one action after another (`Ensures.bind`).
* `Table.WellFormed`: no type is stored twice, and named structs are known. So a type known by its structure has one
  handle (`WellFormed.distinct`).
* `Table.Extends`: what is stored stays as it is. All actions extend the table, except that `Table.setBody` fills in a
  body; `Table.Refines` allows for this. Only `Table.declare` adds a named struct (`Table.Adds`).
-/

namespace MachineAbi

/-! ## What an action ensures -/

section

variable {σ α β : Type}

/-- Run from state `s`, the action gives a result and a state that satisfy `post`. -/
def Ensures (act : StateM σ α) (s : σ) (post : α → σ → Prop) : Prop := post (act s).1 (act s).2

namespace Ensures

variable {s : σ} {post : α → σ → Prop}

protected theorem pure {a : α} (h : post a s) : Ensures (pure a : StateM σ α) s post := h

protected theorem get_bind {next : σ → StateM σ β} {post : β → σ → Prop} (h : Ensures (next s) s post) :
    Ensures (get >>= next) s post :=
  h

protected theorem bind {act : StateM σ α} {next : α → StateM σ β} {mid : α → σ → Prop} {post : β → σ → Prop}
    (h : Ensures act s mid) (hnext : ∀ a s', mid a s' → Ensures (next a) s' post) : Ensures (act >>= next) s post :=
  hnext _ _ h

protected theorem mono {act : StateM σ α} {weak : α → σ → Prop} (h : Ensures act s post)
    (hpost : ∀ a s', post a s' → weak a s') : Ensures act s weak :=
  hpost _ _ h

end Ensures

end

namespace Table

/-- The table has given out this handle for this type. -/
def Stores (t : Table) (h : Handle) (m : MachineType) : Prop := t.types[h.raw]? = some m

theorem Stores.lt_size {t : Table} {h : Handle} {m : MachineType} (hs : t.Stores h m) : h.raw < t.size :=
  (Array.getElem?_eq_some_iff.1 hs).1

theorem Stores.get_eq {t : Table} {h : Handle} {m : MachineType} (hs : t.Stores h m) : t.get h = m := by
  have hs : t.types[h.raw]? = some m := hs
  simp [get, hs]

theorem Stores.eq {t : Table} {h : Handle} {m m' : MachineType} (hs : t.Stores h m) (hs' : t.Stores h m') : m = m' :=
  Option.some.inj (hs.symm.trans hs')

theorem stores_of_get {t : Table} {h : Handle} {m : MachineType} (hm : m ≠ .void) (hg : t.get h = m) :
    t.Stores h m := by
  unfold get at hg
  cases hs : t.types[h.raw]? with
  | none => exact absurd (by simpa [hs] using hg.symm) hm
  | some k =>
    obtain rfl : k = m := by simpa [hs] using hg
    exact hs

/-- The body of the named struct at this position, once it is known. -/
def bodyAt? (t : Table) (id : Nat) : Option StructBody := t.named[id]?.bind (·.body)

/-- The name of the named struct at this position. -/
def nameAt? (t : Table) (id : Nat) : Option String := t.named[id]?.map (·.name)

theorem name?_of_named {t : Table} {h : Handle} {id : Nat} (hs : t.Stores h (.named id)) : t.name? h = t.nameAt? id := by
  simp [name?, namedStruct?, hs.get_eq, nameAt?]

theorem body?_of_named {t : Table} {h : Handle} {id : Nat} (hs : t.Stores h (.named id)) :
    t.body? h = t.bodyAt? id := by
  simp [body?, namedStruct?, hs.get_eq, bodyAt?]

theorem body?_of_struct {t : Table} {h : Handle} {packed : Bool} {fields : List Handle}
    (hs : t.Stores h (.struct packed fields)) : t.body? h = some ⟨packed, fields⟩ := by
  simp [body?, hs.get_eq]

theorem stores_of_find {t : Table} {h : Handle} {m : MachineType} (hf : t.find? m = some h) : t.Stores h m := by
  obtain ⟨i, hi, rfl⟩ := Option.map_eq_some_iff.1 hf
  exact Store.getElem?_of_idxOf? hi

theorem not_stores_of_find {t : Table} {h : Handle} {m : MachineType} (hf : t.find? m = none) : ¬t.Stores h m := by
  intro hs
  have hm : m ∉ t.types := by simpa [find?] using hf
  exact hm (Array.mem_of_getElem? hs)

theorem stores_push {t : Table} {m k : MachineType} {h : Handle} :
    (push m t).2.Stores h k ↔ t.Stores h k ∨ (h = ⟨t.size⟩ ∧ k = m) := by
  have hraw : h = ⟨t.size⟩ ↔ h.raw = t.types.size := by
    cases h
    simp [size]
  rw [hraw]
  exact Store.getElem?_push_eq_some

/-! ## Well-formed tables -/

/-- No type is stored twice, and all named structs are known. -/
structure WellFormed (t : Table) : Prop where
  distinct : ∀ h h' m, t.Stores h m → t.Stores h' m → h = h'
  known : ∀ h id, t.Stores h (.named id) → id < t.named.size

protected theorem WellFormed.empty : empty.WellFormed :=
  ⟨fun _ _ _ h => absurd h.lt_size (Nat.not_lt_zero _), fun _ _ h => absurd h.lt_size (Nat.not_lt_zero _)⟩

/-- A new type that is not stored yet keeps a table well-formed. -/
theorem WellFormed.push {t : Table} {m : MachineType} (hwf : t.WellFormed) (hnew : ∀ h, ¬t.Stores h m)
    (hknown : ∀ id, m = .named id → id < t.named.size) : (push m t).2.WellFormed := by
  refine ⟨fun h h' k hs hs' => ?_, fun h id hs => ?_⟩
  · rcases stores_push.1 hs with hs | ⟨rfl, rfl⟩ <;> rcases stores_push.1 hs' with hs' | ⟨rfl, hk⟩
    · exact hwf.distinct h h' k hs hs'
    · exact absurd (hk ▸ hs) (hnew h)
    · exact absurd hs' (hnew h')
    · rfl
  · rcases stores_push.1 hs with hs | ⟨-, hk⟩
    · exact hwf.known h id hs
    · exact hknown id hk.symm

/-! ## Growth -/

/-- What is stored stays as it is, and no body is refused. -/
structure Extends (t t' : Table) : Prop where
  wellFormed : t.WellFormed → t'.WellFormed
  types : ∀ h m, t.Stores h m → t'.Stores h m
  named : ∀ (id : Nat) (n : NamedStruct), t.named[id]? = some n → t'.named[id]? = some n
  refused : t'.refused = t.refused

/-- What is stored stays as it is, but for bodies that become known. -/
structure Refines (t t' : Table) : Prop where
  types : ∀ h m, t.Stores h m → t'.Stores h m
  bodies : ∀ id body, t.bodyAt? id = some body → t'.bodyAt? id = some body

namespace Extends

variable {t t' t'' : Table}

protected theorem refl (t : Table) : t.Extends t := ⟨id, fun _ _ h => h, fun _ _ h => h, rfl⟩

protected theorem trans (h : t.Extends t') (h' : t'.Extends t'') : t.Extends t'' :=
  ⟨fun hwf => h'.wellFormed (h.wellFormed hwf), fun _ _ hs => h'.types _ _ (h.types _ _ hs),
    fun _ _ hn => h'.named _ _ (h.named _ _ hn), h'.refused.trans h.refused⟩

/-- The bodies of the structs that are there stay as they are. -/
theorem bodyAt?_eq (h : t.Extends t') {id : Nat} (hid : id < t.named.size) : t'.bodyAt? id = t.bodyAt? id := by
  have hn : t.named[id]? = some t.named[id] := Array.getElem?_eq_getElem hid
  unfold bodyAt?
  rw [hn, h.named id _ hn]

theorem refines (h : t.Extends t') : t.Refines t' := by
  refine ⟨h.types, fun id body hb => ?_⟩
  obtain ⟨n, hn, hb⟩ := Option.bind_eq_some_iff.1 hb
  exact Option.bind_eq_some_iff.2 ⟨n, h.named id n hn, hb⟩

end Extends

protected theorem Refines.trans {t t' t'' : Table} (h : t.Refines t') (h' : t'.Refines t'') : t.Refines t'' :=
  ⟨fun a m hs => h'.types a m (h.types a m hs), fun id body hb => h'.bodies id body (h.bodies id body hb)⟩

theorem Refines.body? {t t' : Table} (h : t.Refines t') {a : Handle} {body : StructBody} (hb : t.body? a = some body) :
    t'.body? a = some body := by
  cases hg : t.get a with
  | struct packed fields =>
    have hs : t.Stores a (.struct packed fields) := stores_of_get (by simp) hg
    rw [body?_of_struct hs] at hb
    rw [body?_of_struct (h.types _ _ hs), hb]
  | named id =>
    have hs : t.Stores a (.named id) := stores_of_get (by simp) hg
    rw [body?_of_named hs] at hb
    rw [body?_of_named (h.types _ _ hs)]
    exact h.bodies id body hb
  | _ => simp [Table.body?, namedStruct?, hg] at hb

/-- `len` bytes. -/
def StoresBytes (t : Table) (h : Handle) (len : Nat) : Prop := ∃ byte, t.Stores h (.array len byte) ∧ t.Stores byte (.int 8)

theorem Refines.storesBytes {t t' : Table} (h : t.Refines t') {a : Handle} {len : Nat} (hs : t.StoresBytes a len) :
    t'.StoresBytes a len := by
  obtain ⟨byte, harray, hbyte⟩ := hs
  exact ⟨byte, h.types _ _ harray, h.types _ _ hbyte⟩

/-! ## Adding types -/

variable {t : Table}

/-- The type is not a named struct, which has an identity of its own. -/
def IsStructural : MachineType → Prop
  | .named _ => False
  | _ => True

theorem intern_spec {m : MachineType} (hm : IsStructural m) :
    Ensures (intern m) t fun h t' => t.Extends t' ∧ t'.Stores h m := by
  unfold Ensures intern
  cases hf : t.find? m with
  | some h => exact ⟨.refl t, stores_of_find hf⟩
  | none =>
    refine ⟨⟨fun hwf => hwf.push (fun h => not_stores_of_find hf) fun id hid => ?_, fun h k hs => ?_,
      fun _ _ hn => hn, rfl⟩, stores_push.2 (Or.inr ⟨rfl, rfl⟩)⟩
    · subst hid
      exact hm.elim
    · exact stores_push.2 (Or.inl hs)

/-- A type that is stored is found, and nothing is added. -/
theorem intern_of_stores {h : Handle} {m : MachineType} (hwf : t.WellFormed) (hs : t.Stores h m) :
    intern m t = (h, t) := by
  unfold intern
  cases hf : t.find? m with
  | none => exact absurd hs (not_stores_of_find hf)
  | some h' => rw [hwf.distinct _ _ _ (stores_of_find hf) hs]

theorem bytes_spec (len : Nat) : Ensures (bytes len) t fun h t' => t.Extends t' ∧ t'.StoresBytes h len := by
  refine (intern_spec (by trivial)).bind fun byte t₁ ⟨h₁, hbyte⟩ => ?_
  refine (intern_spec (by trivial)).mono fun h t₂ ⟨h₂, harray⟩ => ?_
  exact ⟨h₁.trans h₂, byte, harray, h₂.types _ _ hbyte⟩

/-- The table has grown by types that are not named structs. -/
structure Adds (t t' : Table) : Prop extends Extends t t' where
  named_eq : t'.named = t.named

protected theorem Adds.refl (t : Table) : t.Adds t := ⟨.refl t, rfl⟩

protected theorem Adds.trans {t' t'' : Table} (h : t.Adds t') (h' : t'.Adds t'') : t.Adds t'' :=
  ⟨h.toExtends.trans h'.toExtends, h'.named_eq.trans h.named_eq⟩

theorem intern_adds {m : MachineType} (hm : IsStructural m) :
    Ensures (intern m) t fun h t' => t.Adds t' ∧ t'.Stores h m := by
  obtain ⟨hext, hs⟩ := @intern_spec t m hm
  refine ⟨⟨hext, ?_⟩, hs⟩
  unfold intern
  split <;> rfl

theorem bytes_adds (len : Nat) : Ensures (bytes len) t fun h t' => t.Adds t' ∧ t'.StoresBytes h len := by
  refine (intern_adds (by trivial)).bind fun byte t₁ ⟨h₁, hbyte⟩ => ?_
  refine (intern_adds (by trivial)).mono fun h t₂ ⟨h₂, harray⟩ => ?_
  exact ⟨h₁.trans h₂, byte, harray, h₂.types _ _ hbyte⟩

/-- The name is the one asked for, or this one with a number. -/
def IsTitle (stem name : String) : Prop := name = stem ∨ ∃ n : Nat, name = stem ++ "." ++ toString n

theorem isTitle_nextName (t : Table) (stem : String) : IsTitle stem (t.nextName stem) := by
  unfold nextName
  split
  · exact Or.inl rfl
  · exact Or.inr ⟨_, rfl⟩

/-- The named struct at this position goes by the name asked for. -/
def Titled (t : Table) (id : Nat) (stem : String) : Prop :=
  ∃ name, t.nameAt? id = some name ∧ IsTitle stem name

/-- A declared struct is new, and its body is not known. -/
theorem declare_spec (stem : String) :
    Ensures (declare stem) t fun h t' =>
      t.Extends t' ∧ t'.Stores h (.named t.named.size) ∧ t'.named[t.named.size]? = some ⟨stem, t.nextName stem, none⟩ := by
  refine ⟨⟨fun hwf => ?_, fun h k hs => ?_, fun id n hn => ?_, rfl⟩, ?_, ?_⟩
  · refine WellFormed.push ⟨hwf.distinct, fun h id hs => ?_⟩ (fun h hs => ?_) fun id hid => ?_
    · have hlt := hwf.known h id hs
      simp only [Array.size_push]
      omega
    · exact absurd (hwf.known h _ hs) (Nat.lt_irrefl _)
    · cases hid
      simp
  · exact stores_push.2 (Or.inl hs)
  · obtain ⟨hlt, -⟩ := Array.getElem?_eq_some_iff.1 hn
    simp only [declare, push]
    rw [Array.getElem?_push, if_neg (Nat.ne_of_lt hlt)]
    exact hn
  · exact stores_push.2 (Or.inr ⟨rfl, rfl⟩)
  · simp [declare, push]

@[simp]
theorem size_declare (t : Table) (stem : String) : (declare stem t).2.named.size = t.named.size + 1 := by
  simp [declare, push]

/-! ## Bodies -/

/-- The named struct at this position has got its body; nothing else has changed. -/
structure Fills (t : Table) (id : Nat) (body : StructBody) (t' : Table) : Prop where
  types : t'.types = t.types
  size : t'.named.size = t.named.size
  names : ∀ id', t'.nameAt? id' = t.nameAt? id'
  filled : t'.bodyAt? id = some body
  others : ∀ id', id' ≠ id → t'.named[id']? = t.named[id']?
  refused : t'.refused = t.refused

namespace Fills

variable {t t' : Table} {id : Nat} {body : StructBody}

theorem stores_iff (hf : t.Fills id body t') {h : Handle} {m : MachineType} : t'.Stores h m ↔ t.Stores h m := by
  unfold Stores
  rw [hf.types]

theorem refines (hf : t.Fills id body t') (hb : t.bodyAt? id = none) : t.Refines t' := by
  refine ⟨fun h m hs => hf.stores_iff.2 hs, fun id' body' hb' => ?_⟩
  have hne : id' ≠ id := by
    rintro rfl
    rw [hb] at hb'
    cases hb'
  unfold bodyAt? at hb' ⊢
  rw [hf.others id' hne]
  exact hb'

theorem wellFormed (hf : t.Fills id body t') (hwf : t.WellFormed) : t'.WellFormed := by
  refine ⟨fun h h' m hs hs' => ?_, fun h id' hs => ?_⟩
  · exact hwf.distinct h h' m (hf.stores_iff.1 hs) (hf.stores_iff.1 hs')
  · rw [hf.size]
    exact hwf.known h id' (hf.stores_iff.1 hs)

theorem body? (hf : t.Fills id body t') {h : Handle} (hs : t.Stores h (.named id)) : t'.body? h = some body := by
  rw [body?_of_named (hf.stores_iff.2 hs)]
  exact hf.filled

end Fills

/-- The body of a struct that was not there before extends the table. -/
theorem Extends.fill {t t' t'' : Table} {body : StructBody} (h : t.Extends t')
    (hf : t'.Fills t.named.size body t'') : t.Extends t'' := by
  refine ⟨fun hwf => hf.wellFormed (h.wellFormed hwf), fun a m hs => hf.stores_iff.2 (h.types a m hs),
    fun id n hn => ?_, hf.refused.trans h.refused⟩
  have hlt : id < t.named.size := (Array.getElem?_eq_some_iff.1 hn).1
  rw [hf.others id (Nat.ne_of_lt hlt)]
  exact h.named id n hn

/-- A named struct without a body gets it. -/
theorem setBody_spec {h : Handle} {id : Nat} {n : NamedStruct} (body : StructBody) (hs : t.Stores h (.named id))
    (hn : t.named[id]? = some n) (hb : n.body = none) :
    Ensures (setBody h body) t fun _ t' => t.Fills id body t' := by
  have hrun : setBody h body t =
      ((), { t with named := t.named.modify id fun n => if n.body.isNone then { n with body := some body } else n }) := by
    simp [setBody, hs.get_eq, hn, hb, Option.filter]
  unfold Ensures
  rw [hrun]
  refine ⟨rfl, Array.size_modify, fun id' => ?_, ?_, fun id' hid => ?_, rfl⟩
  · by_cases hid : id = id'
    · simp [nameAt?, Array.getElem?_modify, ← hid, hn, hb]
    · simp [nameAt?, Array.getElem?_modify, hid]
  · simp [bodyAt?, Array.getElem?_modify, hn, hb]
  · simp [Array.getElem?_modify, Ne.symm hid]

end Table

end MachineAbi
