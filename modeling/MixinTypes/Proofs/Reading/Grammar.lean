import MixinTypes.Proofs.Reading.Written

/-!
# The grammar of types as a relation

A production leads from one place of a text to a later one. There is no order among the alternatives and no
longest match: blanks are any run of them, also a part of those that are there, and a list may end wherever a
member does. In this notation, with `w` for blanks, the phrases are

    type   ::=  inter ('|' inter)*
    inter  ::=  prim ('&' prim)*
    prim   ::=  w atom w
    atom   ::=  w '(' w type w ')' w  |  any  |  self  |  instance  |  class  |  quote ident
             |  name args? suffix?
    name   ::=  '::'? const ('::' const)*
    args   ::=  w '<' w type (w ',' w type)* w '>' w
    suffix ::=  '.' module  |  '.' class (w constructor)?

and a source is `w type w`. No word is followed by an identifier character, and a name is the text of a path
whose segments are constants. `Derives` is this grammar together with what each phrase stands for, and `Denotes`
says that a whole source stands for a type. What a phrase has not taken is always an end of the text
(`Derives.suffix`).
-/

namespace MixinTypes.Ty

open Text Reader

namespace Grammar

/-! ## Blanks, words and suffixes -/

/-- Any run of blanks, then `rest`. -/
def Blanks (cs rest : List Char) : Prop := ∃ bs, (∀ b ∈ bs, isLayout b = true) ∧ cs = bs ++ rest

/-- The character with blanks around it, then `rest`. -/
def Mark (c : Char) (cs rest : List Char) : Prop := ∃ after, Blanks cs (c :: after) ∧ Blanks after rest

/-- The word `w`, then `rest`, which does not go on with the word. -/
def Word (w : String) (cs rest : List Char) : Prop :=
  cs = w.toList ++ rest ∧ ∀ c ∈ rest.head?, isIdentChar c = false

/-- A suffix, which tells a facet. -/
inductive Suffix : Facet → List Char → List Char → Prop where
  | moduleObject {cs rest} (h : Word "module" cs rest) : Suffix .moduleObject ('.' :: cs) rest
  | classObject {cs rest} (h : Word "class" cs rest) : Suffix (.classObject false) ('.' :: cs) rest
  | constructing {cs mid next rest} (h : Word "class" cs mid) (hblanks : Blanks mid next)
    (hmore : Word "constructor" next rest) : Suffix (.classObject true) ('.' :: cs) rest

/-- A suffix or none after the path `p`. -/
inductive Ending (p : Path) : Facet → List Char → List Char → Prop where
  | plain {rest} : Ending p (plainFacet p) rest rest
  | suffixed {f cs rest} (h : Suffix f cs rest) : Ending p f cs rest

/-! ## Phrases -/

/-- What stands between the members of a list. -/
inductive Joint where
  | bar
  | ampersand
  | comma

/-- A phrase that other phrases are in, with what it stands for. -/
inductive Phrase where
  | type (t : Ty)
  | inter (t : Ty)
  | prim (t : Ty)
  | atom (t : Ty)
  | list (j : Joint) (ts : List Ty)

/-- The members that the joint joins. -/
def Joint.member : Joint → Ty → Phrase
  | .bar, t => .inter t
  | .ampersand, t => .prim t
  | .comma, t => .type t

/-- Only a comma may have blanks around it. -/
def Joint.Between : Joint → List Char → List Char → Prop
  | .bar, cs, rest => cs = '|' :: rest
  | .ampersand, cs, rest => cs = '&' :: rest
  | .comma, cs, rest => Mark ',' cs rest

/-- The phrase leads from the first text to the second. -/
inductive Derives : Phrase → List Char → List Char → Prop where
  | type {ts cs rest} (h : Derives (.list .bar ts) cs rest) : Derives (.type (ofMembers .union ts)) cs rest
  | inter {ts cs rest} (h : Derives (.list .ampersand ts) cs rest) :
    Derives (.inter (ofMembers .inter ts)) cs rest
  | last {j t cs rest} (h : Derives (j.member t) cs rest) : Derives (.list j [t]) cs rest
  | more {j t ts cs mid next rest} (h : Derives (j.member t) cs mid) (hj : j.Between mid next)
    (hmore : Derives (.list j ts) next rest) : Derives (.list j (t :: ts)) cs rest
  | prim {t cs start stop rest} (hbefore : Blanks cs start) (h : Derives (.atom t) start stop)
    (hafter : Blanks stop rest) : Derives (.prim t) cs rest
  | group {t cs inside stop rest} (hopen : Mark '(' cs inside) (h : Derives (.type t) inside stop)
    (hclose : Mark ')' stop rest) : Derives (.atom t) cs rest
  | any {cs rest} (h : Word "any" cs rest) : Derives (.atom .any) cs rest
  | self {cs rest} (h : Word "self" cs rest) : Derives (.atom .self) cs rest
  | inst {cs rest} (h : Word "instance" cs rest) : Derives (.atom .inst) cs rest
  | cls {cs rest} (h : Word "class" cs rest) : Derives (.atom .cls) cs rest
  | var {name rest} (h : IsIdentifier name.toList) :
    Derives (.atom (.var name)) ('\x27' :: name.toList ++ rest) rest
  | named {p f cs rest} (hp : p.Written) (h : Ending p f cs rest) :
    Derives (.atom (.named ⟨f, p⟩ [])) (p.toChars ++ cs) rest
  | applied {p f args cs inside stop mid rest} (hp : p.Written) (hopen : Mark '<' cs inside)
    (hargs : Derives (.list .comma args) inside stop) (hclose : Mark '>' stop mid)
    (h : Ending p f mid rest) : Derives (.atom (.named ⟨f, p⟩ args)) (p.toChars ++ cs) rest

/-- The whole source is a type, but for blanks around it. -/
def Denotes (source : String) (t : Ty) : Prop :=
  ∃ start stop, Blanks source.toList start ∧ Derives (.type t) start stop ∧ Blanks stop []

/-! ## What is left -/

section Left

variable {c : Char} {w : String} {f : Facet} {p : Path} {j : Joint} {φ : Phrase} {cs rest : List Char}

theorem Blanks.suffix (h : Blanks cs rest) : rest <:+ cs := by
  obtain ⟨bs, -, rfl⟩ := h
  exact List.suffix_append bs rest

theorem Blanks.skip_eq (h : Blanks cs rest) : skip cs = skip rest := by
  obtain ⟨bs, hbs, rfl⟩ := h
  exact List.dropWhile_append_of_pos hbs

theorem blanks_skip (cs : List Char) : Blanks cs (skip cs) :=
  ⟨cs.takeWhile isLayout, fun b hb => List.all_eq_true.mp List.all_takeWhile b hb,
    List.takeWhile_append_dropWhile.symm⟩

theorem Blanks.refl (cs : List Char) : Blanks cs cs := ⟨[], List.forall_mem_nil _, rfl⟩

theorem Mark.suffix (h : Mark c cs rest) : rest <:+ cs := by
  obtain ⟨after, hbefore, hafter⟩ := h
  exact hafter.suffix.trans ((List.suffix_cons c after).trans hbefore.suffix)

/-- The character comes after blanks, and what is left comes after it and blanks. -/
theorem Mark.skip_eq (h : Mark c cs rest) (hc : isLayout c = false) :
    ∃ after, skip cs = c :: after ∧ skip after = skip rest := by
  obtain ⟨after, hbefore, hafter⟩ := h
  exact ⟨after, hbefore.skip_eq.trans (skip_of_head? rfl hc), hafter.skip_eq⟩

theorem Word.suffix (h : Word w cs rest) : rest <:+ cs := h.1 ▸ List.suffix_append _ rest

theorem Suffix.suffix (h : Suffix f cs rest) : rest <:+ cs := by
  cases h with
  | moduleObject h => exact h.suffix.trans (List.suffix_cons ..)
  | classObject h => exact h.suffix.trans (List.suffix_cons ..)
  | constructing h hblanks hmore =>
    exact hmore.suffix.trans (hblanks.suffix.trans (h.suffix.trans (List.suffix_cons ..)))

theorem Ending.suffix (h : Ending p f cs rest) : rest <:+ cs := by
  cases h with
  | plain => exact List.suffix_refl _
  | suffixed h => exact h.suffix

theorem Joint.Between.suffix (h : j.Between cs rest) : rest <:+ cs := by
  cases j with
  | bar => exact h ▸ List.suffix_cons ..
  | ampersand => exact h ▸ List.suffix_cons ..
  | comma => exact Mark.suffix h

theorem Derives.suffix (h : Derives φ cs rest) : rest <:+ cs := by
  induction h with
  | type _ ih => exact ih
  | inter _ ih => exact ih
  | last _ ih => exact ih
  | more _ hj _ ih ihmore => exact ihmore.trans (hj.suffix.trans ih)
  | prim hbefore _ hafter ih => exact hafter.suffix.trans (ih.trans hbefore.suffix)
  | group hopen _ hclose ih => exact hclose.suffix.trans (ih.trans hopen.suffix)
  | any h => exact h.suffix
  | self h => exact h.suffix
  | inst h => exact h.suffix
  | cls h => exact h.suffix
  | var _ => exact List.suffix_append _ _
  | named _ h => exact h.suffix.trans (List.suffix_append _ _)
  | applied _ hopen _ hclose h ih =>
    exact h.suffix.trans (hclose.suffix.trans (ih.trans (hopen.suffix.trans (List.suffix_append _ _))))

end Left

end Grammar

end MixinTypes.Ty
