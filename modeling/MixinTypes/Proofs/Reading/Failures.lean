import Mathlib.Data.List.Basic
import MixinTypes.Proofs.Reading.Inversion
import MixinTypes.Signature.Reader
import MixinTypes.World.Basic

/-!
# Errors point into the source

Every reader answers ends of the text that it was given, also where it fails. A whole source is read from its first
character that is not blank, so the place of an error is an end of what follows the blanks in front.

1. `Reader.readAll_eq_error_iff` says which place it is: where the reader of the value fails, or what is left behind
   the value and the blanks after it.
2. An error that is made for an end of a source starts between two characters, whatever bytes these take, since the
   bytes of the source are those before and those after (`SyntaxError.pointsInto_unread`).
-/

namespace MixinTypes

open Text Reader

/-! ## The place of a failure -/

namespace Text.Reader

variable {α : Type} {p : Reader α} {subject source : String} {e : SyntaxError} {cs mid stop : List Char} {a : α}

theorem run_endOfText_of_ne_nil (h : cs ≠ []) : endOfText.run cs = .error cs := by
  simp [endOfText, h]

theorem readAll_of_error (h : p.run (skip source.toList) = .error stop) :
    p.readAll subject source = .error (.unread subject source.toList stop) := by
  have hrun : (do let a ← p.padded; endOfText; return a : Reader α).run source.toList = .error stop :=
    run_bind_of_error ((run_bind (run_blanks _)).trans (run_bind_of_error h))
  unfold readAll
  rw [hrun]

theorem readAll_of_rest (h : p.run (skip source.toList) = .ok (a, mid)) (hmid : skip mid ≠ []) :
    p.readAll subject source = .error (.unread subject source.toList (skip mid)) := by
  have hrun : (do let a ← p.padded; endOfText; return a : Reader α).run source.toList = .error (skip mid) :=
    (run_bind (run_padded h)).trans (run_bind_of_error (run_endOfText_of_ne_nil hmid))
  unfold readAll
  rw [hrun]

/-- A source is refused from where its reader fails, or from what is left when the reader does not. -/
theorem readAll_eq_error_iff :
    p.readAll subject source = .error e ↔ ∃ stop, e = .unread subject source.toList stop ∧
      (p.run (skip source.toList) = .error stop ∨
        ∃ a mid, p.run (skip source.toList) = .ok (a, mid) ∧ stop = skip mid ∧ stop ≠ []) := by
  constructor
  · intro h
    rcases refuses_or_run p (skip source.toList) with ⟨stop, hrun⟩ | ⟨a, mid, hrun⟩
    · exact ⟨stop, (Except.error.inj ((readAll_of_error hrun).symm.trans h)).symm, .inl hrun⟩
    · by_cases hmid : skip mid = []
      · exact nomatch (readAll_eq_ok_iff.mpr ⟨mid, hrun, hmid⟩).symm.trans h
      · exact ⟨skip mid, (Except.error.inj ((readAll_of_rest hrun hmid).symm.trans h)).symm,
          .inr ⟨a, mid, hrun, rfl, hmid⟩⟩
  · rintro ⟨stop, rfl, hrun | ⟨a, mid, hrun, rfl, hmid⟩⟩
    · exact readAll_of_error hrun
    · exact readAll_of_rest hrun hmid

/-- What is refused comes after the blanks at the front of the source. -/
theorem exists_stop_of_readAll (h : p.readAll subject source = .error e) :
    ∃ stop, stop <:+ skip source.toList ∧ e = .unread subject source.toList stop := by
  obtain ⟨stop, rfl, hrun | ⟨a, mid, hrun, rfl, -⟩⟩ := readAll_eq_error_iff.mp h
  · exact ⟨stop, (p.within _).stop_suffix hrun, rfl⟩
  · exact ⟨skip mid, (skip_suffix mid).trans ((p.within _).rest_suffix hrun), rfl⟩

end Text.Reader

/-! ## The extent of an error -/

namespace SyntaxError

/-- The error covers and quotes `rest`, which is what the source has after `before`. It does not cover a blank at the
front of the source. -/
structure PointsInto (e : SyntaxError) (source before rest : String) : Prop where
  parts : source = before ++ rest
  start : e.extent.start = before.utf8ByteSize
  stop : e.extent.stop = source.utf8ByteSize
  /-- The bytes covered are those of the text quoted. -/
  covers : e.extent.start + rest.utf8ByteSize = e.extent.stop
  boundary : String.Pos.Raw.IsValid source ⟨e.extent.start⟩
  quotes : e.help = some s!"could not parse `{String.ofList (trim rest.toList)}`"
  after_blanks : byteLength (source.toList.takeWhile isLayout) ≤ e.extent.start

variable {subject source before rest : String}

theorem start_unread : (unread subject (before ++ rest).toList rest.toList).extent.start = before.utf8ByteSize := by
  change byteLength _ - byteLength _ = _
  rw [byteLength_toList, byteLength_toList, String.utf8ByteSize_append, Nat.add_sub_cancel]

theorem pointsInto_unread
    (hblank : byteLength ((before ++ rest).toList.takeWhile isLayout) ≤ before.utf8ByteSize) :
    (unread subject (before ++ rest).toList rest.toList).PointsInto (before ++ rest) before rest where
  parts := rfl
  start := start_unread
  stop := byteLength_toList _
  covers := by
    rw [start_unread, ← String.utf8ByteSize_append]
    exact (byteLength_toList _).symm
  boundary := by
    rw [start_unread]
    exact String.Pos.Raw.isValid_iff_exists_append.mpr ⟨before, rest, rfl, rfl⟩
  quotes := rfl
  after_blanks := by rwa [start_unread]

/-- An end of what follows the first blanks splits the source behind them. -/
theorem exists_parts {stop : List Char} (h : stop <:+ skip source.toList) :
    ∃ before rest : String, source = before ++ rest ∧ rest.toList = stop ∧
      byteLength (source.toList.takeWhile isLayout) ≤ before.utf8ByteSize := by
  obtain ⟨mid, hmid⟩ := h
  refine ⟨String.ofList (source.toList.takeWhile isLayout ++ mid), String.ofList stop, ?_, String.toList_ofList, ?_⟩
  · rw [← String.ofList_append, List.append_assoc, hmid, skip, List.takeWhile_append_dropWhile, String.ofList_toList]
  · rw [← byteLength_toList, String.toList_ofList, byteLength_append]
    exact Nat.le_add_right ..

theorem pointsInto_of_readAll {α : Type} {p : Reader α} {e : SyntaxError}
    (h : p.readAll subject source = .error e) : ∃ before rest, e.PointsInto source before rest := by
  obtain ⟨stop, hstop, rfl⟩ := exists_stop_of_readAll h
  obtain ⟨before, rest, rfl, rfl, hblank⟩ := exists_parts hstop
  exact ⟨before, rest, pointsInto_unread hblank⟩

/-- When a source is refused as a type, as a signature or as a path, the error points into it. -/
theorem pointsInto_of_refused {source : String} {e : SyntaxError}
    (h : Ty.read source = .error e ∨ Signature.read source = .error e ∨ Path.read source = .error e) :
    ∃ before rest, e.PointsInto source before rest := by
  rcases h with h | h | h
  · exact pointsInto_of_readAll h
  · exact pointsInto_of_readAll h
  · exact pointsInto_of_readAll h

/-- Blanks in front, characters of two and three bytes in what is quoted, and no-break spaces that are not. -/
theorem pointsInto_of_refused_wide :
    let typeSource := " Set<Ünit>"
    let typeError : SyntaxError := ⟨"invalid type", ⟨4, 11⟩, some "could not parse `<Ünit>`"⟩
    let signatureSource := "\r\n(Integer) -> Net ∪ é\u00a0"
    let signatureError : SyntaxError := ⟨"invalid method type", ⟨19, 27⟩, some "could not parse `∪ é`"⟩
    let pathSource := "\tNet::Übung\u00a0"
    let pathError : SyntaxError := ⟨"invalid module name", ⟨4, 14⟩, some "could not parse `::Übung`"⟩
    (Ty.read typeSource = .error typeError ∧
        ∃ before rest, typeError.PointsInto typeSource before rest) ∧
      (Signature.read signatureSource = .error signatureError ∧
        ∃ before rest, signatureError.PointsInto signatureSource before rest) ∧
      (Path.read pathSource = .error pathError ∧
        ∃ before rest, pathError.PointsInto pathSource before rest) := by
  intro typeSource typeError signatureSource signatureError pathSource pathError
  have htype : Ty.read typeSource = .error typeError :=
    World.eq_error_of_map_eq_error (f := fun _ => ()) (by decide +kernel)
  have hsignature : Signature.read signatureSource = .error signatureError :=
    World.eq_error_of_map_eq_error (f := fun _ => ()) (by decide +kernel)
  have hpath : Path.read pathSource = .error pathError := by decide +kernel
  exact ⟨⟨htype, pointsInto_of_refused (.inl htype)⟩,
    ⟨hsignature, pointsInto_of_refused (.inr (.inl hsignature))⟩,
    ⟨hpath, pointsInto_of_refused (.inr (.inr hpath))⟩⟩

end SyntaxError

end MixinTypes
