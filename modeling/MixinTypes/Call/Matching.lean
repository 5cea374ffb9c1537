import MixinTypes.Expr.Node
import MixinTypes.Formals

/-!
# Matching arguments with parameters

Arguments fill parameters by position. When a parameter is filled by keyword, a hash literal at the
end of the arguments holds the keywords: its pairs with a symbol for a key, where a key that is
written twice counts with its last value. Other pairs of that hash are left alone.

Main statements: `mem_walked_of_mem_pairs`, only evaluated nodes fill parameters, and
`mem_types_of_mem_pairs`, they are compared with the types of the parameters.
-/

namespace MixinTypes.Formals

/-- The arguments that fill parameters by position, and the elements of the hash that holds the
keywords. -/
def split (f : Formals) (args : List Node) : List Node × Option (List Node) :=
  match args.getLast? with
  | some (.hash _ elements) => if f.hasKeywords then (args.dropLast, some elements) else (args, none)
  | _ => (args, none)

/-- The pairs with a symbol for a key. -/
def symbolPairs (elements : List Node) : List (String × Node) :=
  elements.filterMap fun
    | .pair _ (.lit _ (.sym name)) value => some (name, value)
    | _ => none

/-- The keywords that the arguments pass. -/
def passed (f : Formals) (args : List Node) : Table String Node :=
  .ofList (symbolPairs ((f.split args).2.getD []))

/-- The positions of required parameters without an argument. -/
def missing (f : Formals) (args : List Node) : List Nat :=
  let given := (f.split args).1.length
  List.range' given (f.required.length - given)

/-- The positions of arguments beyond the last parameter. -/
def extra (f : Formals) (args : List Node) : List Nat :=
  if f.rest.isSome then []
  else List.range' f.positional.length ((f.split args).1.length - f.positional.length)

/-- The required keywords that are not passed. -/
def missingKeywords (f : Formals) (args : List Node) : List String :=
  f.keywords.keys.filter fun name => !(f.passed args).contains name

/-- The keywords that are passed without a parameter to take them. -/
def extraKeywords (f : Formals) (args : List Node) : List String :=
  if f.restKeywords.isSome then []
  else (f.passed args).keys.filter fun name => !f.declares name

/-- Parameters in order, each with the entry it takes from a table of keywords, and what is left of
the table. -/
def takeNamed : List (String × Ty) → Table String Node → List (Ty × Node) × Table String Node
  | [], passed => ([], passed)
  | (name, t) :: rest, passed =>
    match passed.get? name with
    | none => takeNamed rest passed
    | some value =>
      let more := takeNamed rest (passed.erase name)
      ((t, value) :: more.1, more.2)

/-- The types of parameters with the arguments that fill them: by position, in the rest, by a keyword
of their own, and in the rest of the keywords. -/
def pairs (f : Formals) (args : List Node) : List (Ty × Node) :=
  let given := (f.split args).1
  let taken := takeNamed f.named (f.passed args)
  f.positional.zip given
    ++ f.rest.toList.flatMap (fun t => (given.drop f.positional.length).map fun n => (t, n))
    ++ taken.1
    ++ f.restKeywords.toList.flatMap (fun t => taken.2.values.map fun n => (t, n))

/-! ## Where the arguments of pairs stand -/

theorem mem_symbolPairs_iff {elements : List Node} {name : String} {value : Node} :
    (name, value) ∈ symbolPairs elements ↔
      ∃ site key, Node.pair site (.lit key (.sym name)) value ∈ elements := by
  constructor
  · intro h
    obtain ⟨element, helement, heq⟩ := List.mem_filterMap.mp h
    split at heq
    · next site key name value =>
      cases heq
      exact ⟨site, key, helement⟩
    · cases heq
  · rintro ⟨site, key, h⟩
    exact List.mem_filterMap.mpr ⟨_, h, rfl⟩

/-- A value that a symbol stands for in the last hash of the arguments, if that holds the keywords. -/
theorem exists_pair_of_passed {f : Formals} {args : List Node} {name : String} {value : Node}
    (h : (f.passed args).get? name = some value) :
    ∃ hash elements site key, Node.hash hash elements ∈ args ∧ Node.pair site key value ∈ elements := by
  obtain ⟨site, key, hmem⟩ := mem_symbolPairs_iff.mp (Table.mem_of_get?_ofList h)
  unfold split at hmem
  split at hmem
  · next hash elements hlast =>
    split at hmem
    · exact ⟨hash, elements, site, _, List.mem_of_getLast? hlast, hmem⟩
    · cases hmem
  · cases hmem

theorem mem_args_of_mem_split {f : Formals} {args : List Node} {n : Node}
    (h : n ∈ (f.split args).1) : n ∈ args := by
  unfold split at h
  split at h
  · split at h
    · exact List.dropLast_subset args h
    · exact h
  · exact h

/-- Parameters take entries of the table and leave entries of the table. -/
theorem exists_get?_of_takeNamed {value : Node} (params : List (String × Ty))
    (passed : Table String Node) (h : (∃ t, (t, value) ∈ (takeNamed params passed).1) ∨
      ∃ name, (takeNamed params passed).2.get? name = some value) :
    ∃ name, passed.get? name = some value := by
  induction params generalizing passed with
  | nil =>
    rcases h with ⟨t, ht⟩ | h
    · cases ht
    · exact h
  | cons p params ih =>
    obtain ⟨name, t⟩ := p
    unfold takeNamed at h
    split at h
    · exact ih passed h
    · next v hv =>
      have erased : (∃ name', (passed.erase name).get? name' = some value) →
          ∃ name', passed.get? name' = some value := by
        rintro ⟨name', hn⟩
        rw [Table.get?_erase] at hn
        split at hn
        · cases hn
        · exact ⟨name', hn⟩
      rcases h with ⟨t', ht⟩ | h
      · rcases List.mem_cons.mp ht with heq | ht
        · cases heq
          exact ⟨name, hv⟩
        · exact erased (ih _ (.inl ⟨t', ht⟩))
      · exact erased (ih _ (.inr h))

/-- The types that take entries are those of the parameters. -/
theorem exists_mem_of_mem_takeNamed {t : Ty} {value : Node} (params : List (String × Ty))
    (passed : Table String Node) (h : (t, value) ∈ (takeNamed params passed).1) :
    ∃ name, (name, t) ∈ params := by
  induction params generalizing passed with
  | nil => cases h
  | cons p params ih =>
    obtain ⟨name, u⟩ := p
    unfold takeNamed at h
    split at h
    · exact (ih passed h).imp fun _ => List.mem_cons_of_mem _
    · rcases List.mem_cons.mp h with heq | h
      · cases heq
        exact ⟨name, List.mem_cons_self ..⟩
      · exact (ih _ h).imp fun _ => List.mem_cons_of_mem _

/-- The types that arguments are compared with are among the types of the parameters. -/
theorem mem_types_of_mem_pairs {f : Formals} {args : List Node} {p : Ty × Node}
    (h : p ∈ f.pairs args) : p.1 ∈ f.types := by
  obtain ⟨t, value⟩ := p
  have rest : ∀ {o : Option Ty} {ns : List Node},
      (t, value) ∈ o.toList.flatMap (fun t => ns.map fun n => (t, n)) → t ∈ o.toList := by
    intro o ns h
    obtain ⟨u, hu, h⟩ := List.mem_flatMap.mp h
    obtain ⟨n, -, heq⟩ := List.mem_map.mp h
    cases heq
    exact hu
  simp only [pairs, List.mem_append] at h
  simp only [types, List.mem_append]
  rcases h with ((h | h) | h) | h
  · exact .inl (.inl (.inl (.inl (List.mem_append.mp (List.of_mem_zip h).1))))
  · exact .inl (.inl (.inl (.inr (rest h))))
  · obtain ⟨name, hname⟩ := exists_mem_of_mem_takeNamed _ _ h
    rcases List.mem_append.mp hname with hname | hname
    · exact .inl (.inl (.inr (List.mem_map_of_mem hname)))
    · exact .inl (.inr (List.mem_map_of_mem hname))
  · exact .inr (rest h)

/-- What fills a parameter is an argument, or a value in a hash among the arguments. -/
theorem mem_args_or_of_mem_pairs {f : Formals} {args : List Node} {p : Ty × Node}
    (h : p ∈ f.pairs args) :
    p.2 ∈ args ∨
      ∃ hash elements site key, Node.hash hash elements ∈ args ∧ Node.pair site key p.2 ∈ elements := by
  obtain ⟨t, value⟩ := p
  have named : ((∃ t, (t, value) ∈ (takeNamed f.named (f.passed args)).1) ∨
      ∃ name, (takeNamed f.named (f.passed args)).2.get? name = some value) →
      ∃ hash elements site key, Node.hash hash elements ∈ args ∧ Node.pair site key value ∈ elements :=
    fun h => (exists_get?_of_takeNamed _ _ h).elim fun _ => exists_pair_of_passed
  simp only [pairs, List.mem_append] at h
  rcases h with ((h | h) | h) | h
  · exact .inl (mem_args_of_mem_split (List.of_mem_zip h).2)
  · obtain ⟨_, -, h⟩ := List.mem_flatMap.mp h
    obtain ⟨n, hn, heq⟩ := List.mem_map.mp h
    cases heq
    exact .inl (mem_args_of_mem_split (List.mem_of_mem_drop hn))
  · exact .inr (named (.inl ⟨t, h⟩))
  · obtain ⟨_, -, h⟩ := List.mem_flatMap.mp h
    obtain ⟨n, hn, heq⟩ := List.mem_map.mp h
    cases heq
    obtain ⟨⟨name, n⟩, he, rfl⟩ := List.mem_map.mp hn
    exact .inr (named (.inr ⟨name, Table.get?_of_mem_entries he⟩))

/-- What fills a parameter is evaluated with the arguments. -/
theorem mem_walked_of_mem_pairs {f : Formals} {args : List Node} {p : Ty × Node}
    (h : p ∈ f.pairs args) : p.2 ∈ args.flatMap Node.walked := by
  rcases mem_args_or_of_mem_pairs h with h | ⟨hash, elements, site, key, hargs, helements⟩
  · exact List.mem_flatMap.mpr ⟨p.2, h, p.2.self_mem_walked⟩
  · refine List.mem_flatMap.mpr ⟨_, hargs, ?_⟩
    refine Node.mem_walked_of_mem_evaluated (c := Node.pair site key p.2) helements ?_
    exact Node.mem_walked_of_mem_evaluated (List.mem_singleton_self p.2) p.2.self_mem_walked

end MixinTypes.Formals
