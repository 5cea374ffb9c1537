import MixinTypes.Overload

/-!
# Methods and what they override

A definition is what one declaration says about a method. A method is a definition followed by the
ones it overrides, nearest first. Definitions are compared with `==`, so the order of keywords does
not matter, and a method covers a definition when it holds one that is `==` to it.
-/

namespace MixinTypes

/-- A remark on a method. -/
inductive Attribute where
  | incompatible
  | hidden
deriving DecidableEq

/-- One declaration of a method. -/
structure Definition where
  owner : Nominal
  name : String
  overloads : List Overload
  attributes : List Attribute
deriving BEq, ReflBEq

namespace Definition

def subst (σ : Subst) (d : Definition) : Definition :=
  { d with overloads := d.overloads.map (Overload.subst σ) }

/-- Definitions that are `==` have one owner. -/
theorem owner_eq_of_beq {d d' : Definition} (h : (d == d') = true) : d.owner = d'.owner := by
  change (d.owner == d'.owner && _) = true at h
  exact eq_of_beq (Bool.and_eq_true_iff.mp h).1

theorem beq_comm (d d' : Definition) : (d == d') = (d' == d) := by
  have overloads : ∀ os os' : List Overload, (os == os') = (os' == os) := by
    intro os
    induction os with
    | nil =>
      rintro (_ | ⟨o', os'⟩)
      · rfl
      · rfl
    | cons o os ih =>
      rintro (_ | ⟨o', os'⟩)
      · rfl
      · change (o == o' && os == os') = (o' == o && os' == os)
        rw [o.beq_comm, ih]
  change (d.owner == d'.owner && (d.name == d'.name && (d.overloads == d'.overloads &&
    d.attributes == d'.attributes))) = _
  rw [BEq.comm (a := d.owner), BEq.comm (a := d.name), overloads, BEq.comm (a := d.attributes)]
  rfl

theorem subst_id (d : Definition) : d.subst .id = d := by
  rw [subst, funext Overload.subst_id, List.map_id']

/-- The names in the types of all overloads. -/
def names (d : Definition) : List Nominal := d.overloads.flatMap Overload.names

theorem names_subst {P : Nominal → Prop} {σ : Subst} (hσ : σ.Each fun t => ∀ n ∈ t.names, P n)
    {d : Definition} (hd : ∀ n ∈ d.names, P n) : ∀ n ∈ (d.subst σ).names, P n := by
  rw [names, List.forall_mem_flatMap] at hd
  rw [names, subst, List.forall_mem_flatMap, List.forall_mem_map]
  exact fun o ho => Overload.names_subst hσ (hd o ho)

def has (d : Definition) (a : Attribute) : Bool := d.attributes.contains a

end Definition

/-- A method: its own definition and the ones it overrides, nearest first. -/
structure Method where
  own : Definition
  overridden : List Definition
deriving BEq

namespace Method

/-- A method that overrides nothing. -/
def ofDefinition (d : Definition) : Method := ⟨d, []⟩

/-- All definitions, most derived first. -/
def chain (m : Method) : List Definition := m.own :: m.overridden

/-- The names in the types of all definitions. -/
def names (m : Method) : List Nominal := m.chain.flatMap Definition.names

/-- The definition of `m` put over the method `base`; what `m` itself overrode is dropped. -/
def onto (m base : Method) : Method := ⟨m.own, base.chain⟩

/-- Whether `d` is one of the definitions of `m`. -/
def covers (m : Method) (d : Definition) : Bool := m.chain.any (· == d)

/-- What is there under a name once `m` has been put over the method of that name, if there is
one. -/
def atop (m : Method) : Option Method → Method
  | none => m
  | some base => if base.covers m.own then base else m.onto base

def subst (σ : Subst) (m : Method) : Method :=
  ⟨m.own.subst σ, m.overridden.map (Definition.subst σ)⟩

theorem subst_id (m : Method) : m.subst .id = m := by
  rw [subst, Definition.subst_id, funext Definition.subst_id, List.map_id']

@[simp] theorem chain_subst (σ : Subst) (m : Method) :
    (m.subst σ).chain = m.chain.map (Definition.subst σ) := rfl

theorem covers_iff {m : Method} {d : Definition} :
    m.covers d = true ↔ ∃ d' ∈ m.chain, (d' == d) = true :=
  List.any_eq_true

theorem covers_of_mem {m : Method} {d : Definition} (h : d ∈ m.chain) : m.covers d = true :=
  covers_iff.mpr ⟨d, h, beq_self_eq_true d⟩

/-- A method with a longer chain covers more. -/
theorem covers_mono {m m' : Method} {d : Definition} (h : m.chain <:+ m'.chain)
    (hd : m.covers d = true) : m'.covers d = true := by
  obtain ⟨d', hd', heq⟩ := covers_iff.mp hd
  exact covers_iff.mpr ⟨d', h.mem hd', heq⟩

/-- A method put over itself stays as it is. -/
theorem atop_self (m : Method) : m.atop (some m) = m :=
  if_pos (covers_of_mem (List.mem_cons_self ..))

/-- What is there does not matter for the definition of its own that a method has over it, unless it is
covered already. -/
theorem own_atop {m : Method} {base? : Option Method}
    (h : ∀ base, base? = some base → base.covers m.own = false) : (m.atop base?).own = m.own := by
  cases base? with
  | none => rfl
  | some base =>
    rw [atop, if_neg (by rw [h base rfl]; exact Bool.false_ne_true)]
    rfl

/-- Putting a method over another keeps the chain of the other. -/
theorem chain_suffix_atop (m base : Method) : base.chain <:+ (m.atop (some base)).chain := by
  change base.chain <:+ (if base.covers m.own then base else m.onto base).chain
  split
  · exact List.suffix_refl _
  · exact List.suffix_cons _ _

/-- Whatever was there before, the definition that is put over it is there afterwards. -/
theorem covers_atop (m : Method) (base? : Option Method) : (m.atop base?).covers m.own = true := by
  unfold atop
  split
  · exact covers_of_mem (List.mem_cons_self ..)
  · split
    · next h => exact h
    · exact covers_of_mem (List.mem_cons_self ..)

/-- The property is kept when a method is put over another one of its name. -/
def KeptAtop (P : String → Method → Prop) : Prop :=
  ∀ name m base?, P name m → (∀ base, base? = some base → P name base) → P name (m.atop base?)

/-- It is enough to look at a method that is put onto another which does not cover it. -/
theorem KeptAtop.of_onto {P : String → Method → Prop}
    (h : ∀ name m base, P name m → P name base → base.covers m.own = false → P name (m.onto base)) :
    KeptAtop P := by
  intro name m base? hm hbase
  cases base? with
  | none => exact hm
  | some base =>
    change P name (if base.covers m.own then base else m.onto base)
    split
    · exact hbase base rfl
    · next hcovers => exact h name m base hm (hbase base rfl) (Bool.eq_false_iff.mpr hcovers)

/-- Only definitions of the two methods are there afterwards. -/
theorem keptAtop_forall_mem (P : Definition → Prop) : KeptAtop fun _ m => ∀ d ∈ m.chain, P d :=
  .of_onto fun _ _ _ hm hbase _ => List.forall_mem_cons.mpr ⟨hm _ (List.mem_cons_self ..), hbase⟩

end Method

/-- Methods under their names, in the order in which the names first came up. -/
abbrev MethodTable := Table String Method

namespace MethodTable

/-- Put `m` over the method of its name. A method that already covers the definition stays as it
is. -/
def override (t : MethodTable) (name : String) (m : Method) : MethodTable :=
  match t.get? name with
  | none => t.insert name m
  | some base => if base.covers m.own then t else t.insert name (m.onto base)

theorem override_eq_or (t : MethodTable) (name : String) (m : Method) :
    t.override name m = t ∧ t.get? name = some (m.atop (t.get? name)) ∨
      t.override name m = t.insert name (m.atop (t.get? name)) := by
  unfold override Method.atop
  cases t.get? name with
  | none => exact .inr rfl
  | some base =>
    by_cases h : base.covers m.own = true
    · exact .inl (by simp [h])
    · exact .inr (by simp [h])

/-- Putting a method over another changes the look-up of its name only. -/
theorem get?_override (t : MethodTable) (name key : String) (m : Method) :
    (t.override name m).get? key = if name = key then some (m.atop (t.get? name)) else t.get? key := by
  rcases t.override_eq_or name m with ⟨hsame, hget⟩ | hinsert
  · rw [hsame]
    split
    · next h => rw [← h, ← hget]
    · rfl
  · rw [hinsert, Table.get?_insert]

/-- Methods put over a table, each under a name of its own: each one meets what the table has. -/
theorem get?_foldl_override {es : List (String × Method)} (hn : (es.map Prod.fst).Nodup)
    (t : MethodTable) (key : String) :
    (es.foldl (fun t e => t.override e.1 e.2) t).get? key =
      match Table.valueIn? key es with
      | none => t.get? key
      | some m => some (m.atop (t.get? key)) := by
  induction es generalizing t with
  | nil => rfl
  | cons e es ih =>
    obtain ⟨name, m⟩ := e
    obtain ⟨hname, hn⟩ := List.nodup_cons.mp hn
    rw [List.foldl_cons, ih hn, Table.valueIn?, get?_override]
    by_cases h : name = key
    · subst h
      rw [Table.valueIn?_eq_none_iff.mpr hname, if_pos rfl, if_pos rfl]
    · rw [if_neg h, if_neg h]

/-- Methods with new names are added in their order. -/
theorem entries_foldl_override {es : List (String × Method)} {t : MethodTable}
    (hn : ((t.entries ++ es).map Prod.fst).Nodup) :
    (es.foldl (fun t e => t.override e.1 e.2) t).entries = t.entries ++ es := by
  induction es generalizing t with
  | nil => simp
  | cons e es ih =>
    have hkey : e.1 ∉ t.keys := by
      rw [List.map_append, List.nodup_append] at hn
      exact fun h => hn.2.2 _ h _ (List.mem_cons_self ..) rfl
    have hentries : (t.override e.1 e.2).entries = t.entries ++ [e] := by
      have hget : t.get? e.1 = none := Table.valueIn?_eq_none_iff.mpr hkey
      rw [override, hget, Table.entries_insert_of_not_mem hkey]
    rw [List.foldl_cons, ih (by rwa [hentries, List.append_assoc]), hentries, List.append_assoc,
      List.singleton_append]

/-- A name keeps its place when a method is put over the one it has, and a new name comes last. -/
theorem keys_override (t : MethodTable) (name : String) (m : Method) :
    (t.override name m).keys = if name ∈ t.keys then t.keys else t.keys ++ [name] := by
  rcases t.override_eq_or name m with ⟨hsame, hget⟩ | hinsert
  · rw [hsame, if_pos (Table.mem_keys_iff.mpr ⟨_, hget⟩)]
  · rw [hinsert, Table.keys_insert]

/-- Putting a method over another loses no name. -/
theorem mem_keys_override {t : MethodTable} {name key : String} {m : Method} :
    key ∈ (t.override name m).keys ↔ key = name ∨ key ∈ t.keys := by
  rcases t.override_eq_or name m with ⟨hsame, hget⟩ | hinsert
  · have hname : name ∈ t.keys := Table.mem_keys_iff.mpr ⟨_, hget⟩
    rw [hsame]
    exact ⟨.inr, fun h => h.elim (fun h => h ▸ hname) fun h => h⟩
  · rw [hinsert]
    exact Table.mem_keys_insert

/-- Every method has the property `P` under its name. -/
def Each (P : String → Method → Prop) (t : MethodTable) : Prop :=
  ∀ name m, t.get? name = some m → P name m

section Each

variable {P : String → Method → Prop} {t : MethodTable} {name : String} {m : Method}

theorem each_empty (P : String → Method → Prop) : Each P .empty := fun _ _ h => nomatch h

theorem Each.insert (ht : Each P t) (hm : P name m) : Each P (t.insert name m) := by
  intro key m' hget
  rw [Table.get?_insert] at hget
  split at hget
  · next h =>
    cases hget
    exact h ▸ hm
  · exact ht key m' hget

theorem Each.erase (ht : Each P t) (name : String) : Each P (t.erase name) := by
  intro key m hget
  rw [Table.get?_erase] at hget
  split at hget
  · cases hget
  · exact ht key m hget

theorem Each.override (ht : Each P t) (hP : Method.KeptAtop P) (hm : P name m) :
    Each P (t.override name m) := by
  rcases t.override_eq_or name m with ⟨hsame, -⟩ | hinsert
  · rw [hsame]
    exact ht
  · rw [hinsert]
    exact ht.insert (hP name m _ hm (ht name))

end Each

/-- Every definition of every method has the property `P`. -/
def All (P : Definition → Prop) (t : MethodTable) : Prop :=
  ∀ name m, t.get? name = some m → ∀ d ∈ m.chain, P d

section All

variable {P Q : Definition → Prop} {t : MethodTable} {m : Method}

theorem all_empty (P : Definition → Prop) : All P .empty := each_empty _

theorem all_iff : All P t ↔ ∀ m ∈ t.values, ∀ d ∈ m.chain, P d := by
  constructor
  · intro h m hm
    obtain ⟨⟨name, m⟩, he, rfl⟩ := List.mem_map.mp hm
    exact h name m (Table.get?_of_mem_entries he)
  · exact fun h name m hm => h m (Table.mem_values_of_get? hm)

theorem All.of_mem_entries (ht : All P t) : ∀ e ∈ t.entries, ∀ d ∈ e.2.chain, P d :=
  fun e he => ht e.1 e.2 (Table.get?_of_mem_entries he)

theorem All.imp (ht : All P t) (h : ∀ d, P d → Q d) : All Q t :=
  fun name m hm d hd => h d (ht name m hm d hd)

theorem All.subst (ht : All P t) {σ : Subst} (h : ∀ d, P d → Q (d.subst σ)) :
    All Q (t.map (Method.subst σ)) := by
  intro name _ hget _ hmem
  rw [Table.get?_map] at hget
  obtain ⟨m, hm, rfl⟩ := Option.map_eq_some_iff.mp hget
  rw [Method.chain_subst] at hmem
  obtain ⟨d, hd, rfl⟩ := List.mem_map.mp hmem
  exact h d (ht name m hm d hd)

end All

/-- Every definition of every method has an owner with the property `P`. -/
def Owned (P : Nominal → Prop) (t : MethodTable) : Prop := All (fun d => P d.owner) t

theorem owned_empty (P : Nominal → Prop) : Owned P .empty := all_empty _

theorem Owned.imp {P Q : Nominal → Prop} {t : MethodTable} (ht : Owned P t) (h : ∀ n, P n → Q n) :
    Owned Q t :=
  All.imp ht fun d => h d.owner

theorem Owned.override {P : Nominal → Prop} {t : MethodTable} {m : Method} (ht : Owned P t)
    (hm : ∀ d ∈ m.chain, P d.owner) (name : String) : Owned P (t.override name m) :=
  Each.override ht (Method.keptAtop_forall_mem _) hm

/-- Substitution keeps owners. -/
theorem Owned.subst {P : Nominal → Prop} {t : MethodTable} (ht : Owned P t) (σ : Subst) :
    Owned P (t.map (Method.subst σ)) :=
  All.subst ht fun _ hd => hd

/-- Methods put over a table one after another add their names. -/
theorem mem_keys_foldl_override {es : List (String × Method)} {t : MethodTable} {key : String} :
    key ∈ (es.foldl (fun t e => t.override e.1 e.2) t).keys ↔ key ∈ es.map Prod.fst ∨ key ∈ t.keys := by
  induction es generalizing t with
  | nil => simp
  | cons e es ih =>
    rw [List.foldl_cons, ih, mem_keys_override, List.map_cons, List.mem_cons]
    exact or_left_comm.trans or_assoc.symm

end MethodTable

end MixinTypes
