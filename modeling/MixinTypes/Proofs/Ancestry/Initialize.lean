import MixinTypes.Assignable.Session
import MixinTypes.Proofs.Ancestry.Methods
import MixinTypes.Proofs.Linking.Outcome

/-!
# `initialize` on instances

A class or module keeps its own `initialize` from its instances, and so what a class inherits or includes
brings none. An extension keeps nothing back: an `initialize` that it declares for instances is a method like
any other there, and in everything that builds on what is extended. This is the only way in which instances
come by one (`initialize_from_extension`).
-/

namespace MixinTypes

/-- A method that the interface does not have is not selected. -/
theorem Interface.select_of_not_mem_keys {i : Interface} {name : String} (h : name ∉ i.methods.keys)
    (n : Nominal) (args : List Ty) : i.select n args name = none := by
  have hget : i.methods.get? name = none := Table.valueIn?_eq_none_iff.mpr h
  unfold select
  rw [hget]
  rfl

namespace World

variable {w : World} {n : Nominal} {p : Path} {i : Interface}

/-- An extension of what is declared at `p` declares a method of this name for instances. -/
def Extended (w : World) (p : Path) (name : String) : Prop :=
  ∃ e ∈ w.decls.extensionsOf p, ∃ m ∈ e.methods, m.onInstances = true ∧ m.name = name

/-- Of the declarations at a path, only the extensions give instances an `initialize`. -/
theorem provides_initialize_iff : w.Provides p "initialize" ↔ w.Extended p "initialize" := by
  constructor
  · rintro (⟨c, -, m, -, -, -, hname⟩ | hextended)
    · exact absurd rfl hname
    · exact hextended
  · exact .inr

theorem initialize_mem_keys_iff (h : Built w n i) (hn : n.facet = .instances) :
    "initialize" ∈ i.methods.keys ↔ ∃ a ∈ w.ancestors n.path, w.Extended a "initialize" := by
  rw [(surveys_of_built h hn).names]
  simp only [provides_initialize_iff, mem_ancestors_iff]

/-- A call of a method that no interface of the receiver has takes no overload, whatever the memo holds. -/
theorem callee_eq_none {name : String} (h : ∀ i, Built w n.toAbsolute i → name ∉ i.methods.keys)
    (args : List Ty) (m : Memo w) : (w.callee (.named n args) name m).1 = none := by
  rw [fst_callee_named]
  rcases (w.link n.toAbsolute m).1 with e | ⟨i, hi⟩
  · rfl
  · exact i.select_of_not_mem_keys (h i hi) n args

/-- Instances have `initialize` exactly when an extension of what they are instances of, or of one of its
ancestors, declares it for instances. Where none does, a call of `initialize` on them takes no overload,
whatever was asked before. -/
theorem initialize_from_extension (w : World) (n : Nominal) (hn : n.facet = .instances) :
    (∀ history scope i, (w.interfaceOf scope n (w.after history)).1 = .ok i →
      ("initialize" ∈ i.methods.keys ↔
        ∃ a ∈ w.ancestors (w.absoluteName scope n).path, w.Extended a "initialize")) ∧
    ∀ queries args, (∀ a ∈ w.ancestors n.path, ¬ w.Extended a "initialize") →
      (w.callee (.named n args) "initialize" (w.inquiry queries).memo).1 = none := by
  refine ⟨fun history scope i hi => ?_, fun queries args hnone => ?_⟩
  · have hbuilt := (interfaceOf_eq_ok_iff (isOpen_after history)).mp hi
    exact initialize_mem_keys_iff hbuilt ((w.absoluteName_facet scope n).trans hn)
  · refine callee_eq_none (fun i hi hkey => ?_) args _
    obtain ⟨a, ha, hextended⟩ := (initialize_mem_keys_iff hi hn).mp hkey
    exact hnone a ha hextended

/-- Points with an `initialize`, an extension of them with another one, and a class that inherits both. -/
def reopened : World where
  decls := (Declarations.empty.addAll
    [.constant ⟨⟨["BasicObject"], true⟩, [], [], .nowhere, .cls none⟩,
     .constant ⟨⟨["Object"], true⟩, [], [.method ⟨"initialize", .instances, [], []⟩], .nowhere,
      .cls (some ⟨⟨["BasicObject"], true⟩, []⟩)⟩,
     .constant ⟨⟨["Point"], true⟩, [], [.method ⟨"initialize", .instances, [], []⟩], .nowhere, .cls none⟩,
     .constant ⟨⟨["Pixel"], true⟩, [], [], .nowhere, .cls (some ⟨⟨["Point"], false⟩, []⟩)⟩,
     .extension ⟨⟨["Point"], true⟩, "serial",
      [.method ⟨"initialize", .instances, [⟨[], [], none, .any, .nowhere⟩], []⟩], .nowhere⟩]).1
  roots := .standard

/-- The class below the extended one has an ancestor whose extension declares `initialize`; objects have none,
and a call on one of them takes no overload. -/
theorem initialize_from_extension_reopened :
    (∃ a ∈ reopened.ancestors ⟨["Pixel"], true⟩, reopened.Extended a "initialize") ∧
      (reopened.callee (.named ⟨.instances, ⟨["Object"], true⟩⟩ []) "initialize"
        (reopened.inquiry []).memo).1 = none := by
  have hkeys : ((reopened.interfaceOf none ⟨.instances, ⟨["Pixel"], true⟩⟩
      (reopened.after [])).1.toOption.map fun i => i.methods.keys) = some ["initialize"] := by
    decide +kernel
  obtain ⟨i, hi, hkeys⟩ := Option.map_eq_some_iff.mp hkeys
  constructor
  · have hiff := (initialize_from_extension reopened ⟨.instances, ⟨["Pixel"], true⟩⟩ rfl).1 [] none i
      (eq_ok_of_toOption_eq_some hi)
    exact hiff.mp (hkeys ▸ List.mem_singleton_self _)
  · have hext : ∀ a ∈ reopened.ancestors ⟨["Object"], true⟩,
        (reopened.decls.extensionsOf a).isEmpty = true := by
      decide +kernel
    refine (initialize_from_extension reopened ⟨.instances, ⟨["Object"], true⟩⟩ rfl).2 [] [] ?_
    rintro a ha ⟨e, he, -⟩
    rw [List.isEmpty_iff.mp (hext a ha)] at he
    cases he

/-- Points do have an `initialize`, and it can be called. -/
theorem not_initialize_absent_reopened :
    (¬ ∀ i, (reopened.interfaceOf none ⟨.instances, ⟨["Point"], true⟩⟩ (.empty reopened)).1 = .ok i →
      "initialize" ∉ i.methods.keys) ∧
    (reopened.callee (.named ⟨.instances, ⟨["Point"], true⟩⟩ []) "initialize" (.empty reopened)).1 ≠
      none := by
  have hkeys : ((reopened.interfaceOf none ⟨.instances, ⟨["Point"], true⟩⟩
      (.empty reopened)).1.toOption.map fun i => i.methods.keys) = some ["initialize"] := by
    decide +kernel
  obtain ⟨i, hi, hkeys⟩ := Option.map_eq_some_iff.mp hkeys
  refine ⟨fun h => ?_, ?_⟩
  · exact h i (eq_ok_of_toOption_eq_some hi) (hkeys ▸ List.mem_singleton_self _)
  · rw [← Option.isSome_iff_ne_none]
    decide +kernel

end World

end MixinTypes
