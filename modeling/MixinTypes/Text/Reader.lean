import MixinTypes.Text.Blank

/-!
# Readers

A reader takes something from the front of a text. It answers a value and the rest, or the text
from the place where it could not go on. Both are always ends of the text it was given, which is
part of the type. Choice is ordered: the second reader is tried where the first one started, and
when both fail the place is that of the second.

The readers here are total: `sepBy` stops when an element takes nothing, and `bounded` gives a
nested grammar a depth that the length of the text bounds.
-/

namespace MixinTypes.Text

/-- What reading a text gives: a value and the rest, or the text where reading stopped. -/
abbrev Outcome (α : Type) := Except (List Char) (α × List Char)

/-- Both the rest and the place of a failure are ends of the text. -/
structure Outcome.Within (o : Outcome α) (cs : List Char) : Prop where
  rest_suffix : ∀ {a rest}, o = .ok (a, rest) → rest <:+ cs
  stop_suffix : ∀ {stop}, o = .error stop → stop <:+ cs

namespace Outcome.Within

theorem ok {rest cs : List Char} (h : rest <:+ cs) (a : α) :
    Within (.ok (a, rest) : Outcome α) cs where
  rest_suffix e := by
    obtain rfl := (Prod.mk.inj (Except.ok.inj e)).2
    exact h
  stop_suffix e := nomatch e

theorem error {stop cs : List Char} (h : stop <:+ cs) : Within (.error stop : Outcome α) cs where
  rest_suffix e := nomatch e
  stop_suffix e := by
    obtain rfl := Except.error.inj e
    exact h

theorem mono {o : Outcome α} {cs ds : List Char} (h : o.Within cs) (hs : cs <:+ ds) :
    o.Within ds where
  rest_suffix e := (h.rest_suffix e).trans hs
  stop_suffix e := (h.stop_suffix e).trans hs

end Outcome.Within

/-- A reader of values of type `α`. -/
structure Reader (α : Type) where
  run : List Char → Outcome α
  within : ∀ cs, (run cs).Within cs

namespace Reader

/-! ## Sequence and choice -/

/-- Take nothing. -/
def done (a : α) : Reader α where
  run cs := .ok (a, cs)
  within cs := .ok (List.suffix_refl cs) a

/-- Fail without taking anything. -/
def fail : Reader α where
  run cs := .error cs
  within cs := .error (List.suffix_refl cs)

/-- Read with `p`, then with what its value selects. -/
def andThen (p : Reader α) (f : α → Reader β) : Reader β where
  run cs :=
    match p.run cs with
    | .error stop => .error stop
    | .ok (a, rest) => (f a).run rest
  within cs := by
    split
    · next h => exact .error ((p.within cs).stop_suffix h)
    · next a rest h => exact ((f a).within rest).mono ((p.within cs).rest_suffix h)

instance : Monad Reader where
  pure := done
  bind := andThen

/-- Read with `p`, or with `q` where `p` fails. -/
def orElse (p q : Reader α) : Reader α where
  run cs :=
    match p.run cs with
    | .error _ => q.run cs
    | .ok r => .ok r
  within cs := by
    split
    · exact q.within cs
    · next r h => exact .ok ((p.within cs).rest_suffix h) r.1

instance : OrElse (Reader α) := ⟨fun p q => p.orElse (q ())⟩

/-- Read with `p`; where it fails, take nothing. -/
def optional (p : Reader α) : Reader (Option α) where
  run cs :=
    match p.run cs with
    | .error _ => .ok (none, cs)
    | .ok (a, rest) => .ok (some a, rest)
  within cs := by
    split
    · exact .ok (List.suffix_refl cs) none
    · next a rest h => exact .ok ((p.within cs).rest_suffix h) (some a)

/-- Read with `p`, but fail where it started when its value is not `good`. -/
def filter (p : Reader α) (good : α → Bool) : Reader α where
  run cs :=
    match p.run cs with
    | .error stop => .error stop
    | .ok (a, rest) => if good a then .ok (a, rest) else .error cs
  within cs := by
    split
    · next h => exact .error ((p.within cs).stop_suffix h)
    · next a rest h =>
      split
      · exact .ok ((p.within cs).rest_suffix h) a
      · exact .error (List.suffix_refl cs)

/-! ## Characters and words -/

/-- The character `c`. -/
def char (c : Char) : Reader Unit where
  run
    | [] => .error []
    | d :: rest => if d = c then .ok ((), rest) else .error (d :: rest)
  within
    | [] => .error (List.suffix_refl _)
    | d :: rest => by
      dsimp only
      split
      · exact .ok (List.suffix_cons ..) ()
      · exact .error (List.suffix_refl _)

/-- The characters of `w`, one after another. -/
def text (w : String) : Reader Unit where
  run cs := if w.toList <+: cs then .ok ((), cs.drop w.toList.length) else .error cs
  within cs := by
    split
    · exact .ok (List.drop_suffix ..) ()
    · exact .error (List.suffix_refl cs)

/-- Take nothing, but fail before a character that is `bad`. -/
def notBefore (bad : Char → Bool) : Reader Unit where
  run cs := if cs.head?.any bad then .error cs else .ok ((), cs)
  within cs := by
    split
    · exact .error (List.suffix_refl cs)
    · exact .ok (List.suffix_refl cs) ()

/-- All characters from here on that are `good`. -/
def takeWhile (good : Char → Bool) : Reader (List Char) where
  run cs := .ok (cs.takeWhile good, cs.dropWhile good)
  within _ := .ok (List.dropWhile_suffix _) _

/-- Any number of layout blanks. -/
def blanks : Reader Unit := do
  let _ ← takeWhile isLayout

/-- Blanks, then `p`, then blanks. -/
def padded (p : Reader α) : Reader α := do
  blanks
  let a ← p
  blanks
  return a

/-- The place after the last character. -/
def endOfText : Reader Unit where
  run cs := if cs.isEmpty then .ok ((), cs) else .error cs
  within cs := by
    split
    · exact .ok (List.suffix_refl cs) ()
    · exact .error (List.suffix_refl cs)

/-! ## Lists -/

/-- As many further elements as there are, each after a separator. What follows the last one is
left, also a separator without an element. -/
def moreOf (sep : Reader Unit) (p : Reader α) (cs : List Char) : List α × List Char :=
  match (sep.andThen fun _ => p).run cs with
  | .error _ => ([], cs)
  | .ok (a, rest) =>
    if _ : rest.length < cs.length then
      let more := moreOf sep p rest
      (a :: more.1, more.2)
    else ([], cs)
termination_by cs.length

theorem moreOf_suffix (sep : Reader Unit) (p : Reader α) (cs : List Char) :
    (moreOf sep p cs).2 <:+ cs := by
  fun_induction moreOf sep p cs with
  | case1 => exact List.suffix_refl _
  | case2 _ a rest h _ _ ih =>
    exact ih.trans (((sep.andThen fun _ => p).within _).rest_suffix h)
  | case3 => exact List.suffix_refl _

/-- One or more elements with a separator between them. -/
def sepBy1 (sep : Reader Unit) (p : Reader α) : Reader (List α) where
  run cs :=
    match p.run cs with
    | .error stop => .error stop
    | .ok (a, rest) => .ok (a :: (moreOf sep p rest).1, (moreOf sep p rest).2)
  within cs := by
    split
    · next h => exact .error ((p.within cs).stop_suffix h)
    · next a rest h =>
      exact .ok ((moreOf_suffix sep p rest).trans ((p.within cs).rest_suffix h)) _

/-- Any number of elements with a separator between them. -/
def sepBy (sep : Reader Unit) (p : Reader α) : Reader (List α) :=
  (sepBy1 sep p).orElse (done [])

/-! ## Nesting -/

/-- The reader `p ()`, worked out only when there is something to read. -/
def delay (p : Unit → Reader α) : Reader α where
  run cs := (p ()).run cs
  within cs := (p ()).within cs

/-- A nested grammar, `level n` reading what is nested less than `n` deep. Each level takes a
character, so one more level than there are characters is deep enough. -/
def bounded (level : Nat → Reader α) : Reader α where
  run cs := (level (cs.length + 1)).run cs
  within cs := (level (cs.length + 1)).within cs

end Reader

end MixinTypes.Text
