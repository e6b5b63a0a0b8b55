import LuaStubs.Proofs.Outline.Entries

/-! The annotations of a function, among the lines that stand above it: comments, declarations of
tables, and annotations of parameters and results. In the text they are told apart by their tags. -/

namespace LuaStubs

open Text

/-- What is annotated about a function. -/
inductive AnnotationKind where
  | parameter
  | vararg
  | result
  deriving DecidableEq

def AnnotationKind.tag : AnnotationKind → String
  | parameter => "---@param"
  | vararg => "---@vararg"
  | result => "---@return"

def tagged (tag : String) (lines : List (List Char)) : List String :=
  (lines.filter (tag.toList.isPrefixOf ·)).map String.ofList

theorem tagged_append (tag : String) (lines others : List (List Char)) :
    tagged tag (lines ++ others) = tagged tag lines ++ tagged tag others := by
  rw [tagged, List.filter_append, List.map_append, tagged, tagged]

def Mark.kind? : Mark → Option AnnotationKind
  | .parameter _ _ => some .parameter
  | .vararg => some .vararg
  | .result => some .result
  | _ => none

namespace Line

theorem isPrefixOf_text {line : Line} (fits : line.Fits True) (noCode : line.code? = none)
    (a : AnnotationKind) :
    a.tag.toList.isPrefixOf line.text.toList = (line.mark?.bind Mark.kind? == some a) := by
  cases line with
  | comment text =>
    have hmark := fits.2 trivial
    have other (tag : List Char) (h : a.tag.toList = "---@".toList ++ tag) :
        a.tag.toList.isPrefixOf (Line.comment text).text.toList = false := by
      rw [← Bool.not_eq_true, List.isPrefixOf_iff_prefix, h, Line.text, String.toList_append]
      exact not_tag_comment _ hmark
    cases a with
    | parameter => exact other "param".toList rfl
    | vararg => exact other "vararg".toList rfl
    | result => exact other "return".toList rfl
  | directive text =>
    have other (tag : String) (htag : tag ∈ tags) (h : a.tag.toList = "---@".toList ++ tag.toList) :
        a.tag.toList.isPrefixOf (Line.directive text).text.toList = false := by
      rw [← Bool.not_eq_true, List.isPrefixOf_iff_prefix, h, Line.text, String.toList_append,
        List.prefix_append_right_inj]
      exact fits.2 tag htag
    cases a with
    | parameter => exact other "param" (by decide) rfl
    | vararg => exact other "vararg" (by decide) rfl
    | result => exact other "return" (by decide) rfl
  | emptyTable | openTable | closeTable | constant | function => cases noCode
  | verbatim text => exact fits.elim
  | _ => cases a <;> simp [AnnotationKind.tag, Line.text, List.isPrefixOf, mark?, Mark.kind?]

end Line

namespace Marked

variable {marks : List Mark} {lines : List Line}

/-- The annotations of one kind are the lines of the text with its tag. -/
theorem forall₂_tagged (h : Marked True marks lines) (noCode : marks.filterMap Mark.code? = [])
    (a : AnnotationKind) :
    List.Forall₂ (fun mark text => ∃ line : Line, line.mark? = some mark ∧ text = line.text)
      (marks.filter (·.kind? == some a)) (tagged a.tag (lines.map (·.text.toList))) := by
  obtain ⟨fits, rfl⟩ := h
  induction lines with
  | nil => exact .nil
  | cons line rest ih =>
    obtain ⟨hline, hrest⟩ := List.forall_mem_cons.mp fits
    have none (mark : Mark) (h : mark ∈ (line :: rest).filterMap Line.mark?) : mark.code? = none :=
      List.filterMap_eq_nil_iff.mp noCode mark h
    have htag (hcode : line.code? = .none) := Line.isPrefixOf_text hline hcode a
    unfold tagged at ih ⊢
    rw [List.filterMap_cons] at none ⊢
    rw [List.map_cons, List.filter_cons]
    cases hmark : line.mark? with
    | none =>
      simp only [hmark] at none
      rw [htag (by rw [Line.code?, hmark]; rfl), hmark]
      exact ih hrest (List.filterMap_eq_nil_iff.mpr none)
    | some mark =>
      simp only [hmark] at none
      obtain ⟨own, others⟩ := List.forall_mem_cons.mp none
      have below := ih hrest (List.filterMap_eq_nil_iff.mpr others)
      rw [htag (by rw [Line.code?, hmark]; exact own), hmark]
      simp only [Option.bind_some, List.filter_cons]
      split
      · exact .cons ⟨line, hmark, String.ofList_toList⟩ below
      · exact below

theorem length_tagged (h : Marked True marks lines) (noCode : marks.filterMap Mark.code? = [])
    (a : AnnotationKind) : (tagged a.tag (lines.map (·.text.toList))).length =
      (marks.filter (·.kind? == some a)).length :=
  (h.forall₂_tagged noCode a).length_eq.symm

theorem tagged_eq_nil (h : Marked True marks lines) (noCode : marks.filterMap Mark.code? = [])
    {a : AnnotationKind} (none : marks.filter (·.kind? == some a) = []) :
    tagged a.tag (lines.map (·.text.toList)) = [] :=
  List.length_eq_zero_iff.mp (by rw [h.length_tagged noCode, none]; rfl)

end Marked

end LuaStubs
