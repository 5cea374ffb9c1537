/-!
# Constant paths

A path such as `::Net::Socket` or `Socket` names a declaration. It is a list of segments with a
mark that says whether it starts at the root (absolute) or in some scope (relative). Nothing is
assumed about the segments: they may be empty or hold any characters.

Main statements: `pieces_ne_nil_of_mem` and `not_separator_mem_pieces` describe the segments that
reading a text can produce.
-/

namespace MixinTypes

/-- A constant path; `absolute` paths start at the root. -/
structure Path where
  segments : List String
  absolute : Bool
deriving DecidableEq

namespace Path

/-- The top level. -/
def root : Path := ⟨[], true⟩

/-- The last segment, empty for a path without segments. -/
def simpleName (p : Path) : String := p.segments.getLastD ""

/-- The same segments, taken from the root. -/
def toAbsolute (p : Path) : Path := { p with absolute := true }

/-- `q` as seen from inside `p`: an absolute path stands for itself. -/
def join (p q : Path) : Path :=
  if q.absolute then q else { p with segments := p.segments ++ q.segments }

/-- The enclosing namespace; the top level has none. -/
def parent? (p : Path) : Option Path :=
  match p.segments with
  | [] => none
  | s :: rest => some { p with segments := (s :: rest).dropLast }

theorem parent?_eq_none_iff {p : Path} : p.parent? = none ↔ p.segments = [] := by
  unfold parent?
  split <;> simp_all

@[simp] theorem toAbsolute_absolute (p : Path) : p.toAbsolute.absolute = true := rfl

@[simp] theorem toAbsolute_segments (p : Path) : p.toAbsolute.segments = p.segments := rfl

theorem toAbsolute_eq_self {p : Path} (h : p.absolute = true) : p.toAbsolute = p := by
  cases p; simp_all [toAbsolute]

theorem join_of_relative (p : Path) {q : Path} (h : q.absolute = false) :
    p.join q = { p with segments := p.segments ++ q.segments } := by
  simp [join, h]

/-- The namespaces around `p`: itself first, then ever fewer of its segments, down to none. -/
def enclosing (p : Path) : List Path :=
  (List.range (p.segments.length + 1)).reverse.map fun n =>
    { p with segments := p.segments.take n }

theorem enclosing_of_parent?_eq_none {p : Path} (h : p.parent? = none) : p.enclosing = [p] := by
  obtain ⟨segments, absolute⟩ := p
  obtain rfl : segments = [] := parent?_eq_none_iff.mp h
  rfl

theorem enclosing_of_parent? {p q : Path} (h : p.parent? = some q) :
    p.enclosing = p :: q.enclosing := by
  obtain ⟨segments, absolute⟩ := p
  cases segments with
  | nil => simp [parent?] at h
  | cons s rest =>
    obtain rfl : ({ segments := (s :: rest).dropLast, absolute := absolute } : Path) = q :=
      Option.some.inj h
    simp only [enclosing]
    rw [List.range_succ, List.reverse_append, List.reverse_singleton, List.singleton_append,
      List.map_cons, List.take_length, List.length_dropLast, List.length_cons,
      Nat.add_sub_cancel]
    congr 1
    refine List.map_congr_left fun n hn => ?_
    have hn : n < rest.length + 1 := by simpa using hn
    rw [List.dropLast_eq_take, List.take_take, Nat.min_eq_left (by simp; omega)]

/-- The top level is around every absolute path. -/
theorem root_mem_enclosing {p : Path} (h : p.absolute = true) : root ∈ p.enclosing := by
  refine List.mem_map.mpr ⟨0, by simp, ?_⟩
  rw [h]
  rfl

theorem root_join (p : Path) : root.join p = p.toAbsolute := by
  obtain ⟨segments, absolute⟩ := p
  cases absolute <;> rfl

/-- Paths are ordered segment by segment, then relative before absolute. -/
instance : Ord Path where
  compare p q := (compare p.segments q.segments).then (compare p.absolute q.absolute)

/-! ## Written form -/

/-- The text of a path: its segments with a double colon between them, after one more double
colon when it is absolute. -/
def toChars (p : Path) : List Char :=
  (if p.absolute then [':', ':'] else []) ++ [':', ':'].intercalate (p.segments.map String.toList)

def render (p : Path) : String := String.ofList p.toChars

instance : ToString Path := ⟨render⟩

theorem map_toList_map_ofList (ps : List (List Char)) : (ps.map String.ofList).map String.toList = ps := by
  simp [Function.comp_def]

theorem map_ofList_map_toList (segments : List String) :
    (segments.map String.toList).map String.ofList = segments := by
  simp [Function.comp_def]

/-- Cut a text at every double colon, from the left: the piece before the first one and the
pieces after it. -/
def cut : List Char → List Char × List (List Char)
  | [] => ([], [])
  | ':' :: ':' :: rest => ([], (cut rest).1 :: (cut rest).2)
  | c :: rest => (c :: (cut rest).1, (cut rest).2)

/-- The pieces between double colons that are not empty. -/
def pieces (cs : List Char) : List (List Char) :=
  ((cut cs).1 :: (cut cs).2).filter (· ≠ [])

/-- The path that a text denotes. Any text denotes one: empty segments are dropped and a leading
double colon makes the path absolute. -/
def ofChars : List Char → Path
  | ':' :: ':' :: rest => ⟨(pieces rest).map String.ofList, true⟩
  | cs => ⟨(pieces cs).map String.ofList, false⟩

def ofString (s : String) : Path := ofChars s.toList

theorem pieces_ne_nil_of_mem {cs piece : List Char} (h : piece ∈ pieces cs) : piece ≠ [] := by
  simpa using (List.mem_filter.mp h).2

/-- No piece of a cut text holds a double colon. -/
theorem not_separator_mem_cut (cs : List Char) :
    ∀ piece ∈ (cut cs).1 :: (cut cs).2, ¬ [':', ':'] <:+: piece := by
  fun_induction cut cs with
  | case1 => simp
  | case2 rest ih =>
    intro piece hp
    rcases List.mem_cons.mp hp with rfl | hp
    · simp
    · exact ih piece hp
  | case3 c rest hc ih =>
    intro piece hp
    rcases List.mem_cons.mp hp with rfl | hp
    · rintro ⟨before, after, hs⟩
      rcases before with _ | ⟨b, before⟩
      · simp only [List.nil_append, List.cons_append, List.cons.injEq] at hs
        obtain ⟨rfl, hs⟩ := hs
        cases rest with
        | nil => simp [cut] at hs
        | cons d rest =>
          by_cases hd : d = ':'
          · subst hd; exact hc rest rfl rfl
          · have : (cut (d :: rest)).1.head? = some d := by
              unfold cut
              split <;> simp_all
            rw [← hs] at this
            simp at this
            exact hd this.symm
      · simp only [List.cons_append, List.cons.injEq] at hs
        exact ih _ (List.mem_cons_self ..) ⟨before, after, by simpa using hs.2⟩
    · exact ih piece (List.mem_cons_of_mem _ hp)

theorem not_separator_mem_pieces {cs piece : List Char} (h : piece ∈ pieces cs) :
    ¬ [':', ':'] <:+: piece :=
  not_separator_mem_cut cs piece (List.mem_filter.mp h).1

end Path

end MixinTypes
