import LuaStubs.Proofs.Outline.Code
import LuaStubs.Proofs.Prose.Quiet
import LuaStubs.Stub.Line

/-! The outline of a stub file: its lines of code, and the heads of the classes that it declares.
Lines that fit each stand on one line of the text, where they are read as what they are, the
comments among them only if the documentation is quiet. -/

namespace LuaStubs

open Text

/-- Says whether a line of a text is code: it is not empty, and no comment. -/
def isCode (line : List Char) : Bool :=
  !line.isEmpty && !"---".toList.isPrefixOf line

def codeOf (text : String) : List String :=
  ((lines text.toList).filter isCode).map String.ofList

/-- Says whether a line of a text is the head of a class. -/
def isHead (line : List Char) : Bool :=
  "---@class ".toList.isPrefixOf line

def headsOf (text : String) : List String :=
  ((lines text.toList).filter isHead).map String.ofList

def headLine (name : String) (bases : List String) : String :=
  (Line.declaration name bases).text

/-- What is read off a line, whatever its types are and whatever is said behind them. -/
inductive Mark where
  | code (text : String)
  | head (name : String) (bases : List String)
  | parameter (name : String) (optional : Bool)
  | vararg
  | result

namespace Mark

def code? : Mark → Option String
  | .code text => some text
  | _ => none

def head? : Mark → Option (String × List String)
  | .head name bases => some (name, bases)
  | _ => none

end Mark

namespace Line

def mark? : Line → Option Mark
  | .emptyTable target => some (.code (target ++ "=\x7b\x7d"))
  | .openTable target => some (.code (target ++ "=\x7b"))
  | .closeTable => some (.code "\x7d")
  | .constant name => some (.code (name ++ "=0,"))
  | .function name arguments => some (.code (functionCode name arguments))
  | .declaration name bases => some (.head name bases)
  | .parameter name optional _ _ => some (.parameter name optional)
  | .vararg _ => some .vararg
  | .result _ _ => some .result
  | _ => none

def code? (line : Line) : Option String :=
  line.mark?.bind Mark.code?

def head? (line : Line) : Option (String × List String) :=
  line.mark?.bind Mark.head?

/-- What annotations that are read begin with. -/
def tags : List String :=
  ["class ", "param", "vararg", "return"]

/-- A line on one line of the text. A comment is not taken for an annotation, if the prose is quiet. -/
def Fits (quiet : Prop) : Line → Prop
  | .blank => True
  | .comment text => '\n' ∉ text.toList ∧ (quiet → text.toList.head? ≠ some '@')
  | .directive text => '\n' ∉ text.toList ∧ ∀ tag ∈ tags, ¬ tag.toList <+: text.toList
  | .declaration name bases => '\n' ∉ name.toList ∧ ∀ base ∈ bases, '\n' ∉ base.toList
  | .field name type _ => '\n' ∉ name.toList ∧ '\n' ∉ type.toList
  | .alternation name type => '\n' ∉ name.toList ∧ '\n' ∉ type.toList
  | .parameter name _ type remark =>
    '\n' ∉ name.toList ∧ '\n' ∉ type.toList ∧ '\n' ∉ remark.text.toList
  | .vararg type => '\n' ∉ type.toList
  | .result type remark => '\n' ∉ type.toList ∧ '\n' ∉ remark.text.toList
  | .emptyTable target => '\n' ∉ target.toList
  | .openTable target => '\n' ∉ target.toList
  | .closeTable => True
  | .constant name => '\n' ∉ name.toList
  | .function name arguments => '\n' ∉ name.toList ∧ ∀ argument ∈ arguments, '\n' ∉ argument.toList
  | .verbatim _ => False

variable {quiet : Prop} {line : Line}

theorem not_mem_text (fits : line.Fits quiet) : '\n' ∉ line.text.toList := by
  have joins := joins_not_mem '\n'
  cases line with
  | blank => decide
  | comment text => exact joins.join (by decide) fits.1
  | directive text => exact joins.join (by decide) fits.1
  | declaration name bases =>
    obtain ⟨hname, hbases⟩ := fits
    have hlist : '\n' ∉ (":" ++ ",".intercalate bases).toList :=
      joins.join (by decide) (joins.intercalate (by decide) hbases)
    refine joins.join (joins.join (by decide) hname) ?_
    split
    · decide
    · exact hlist
  | field name type nullable =>
    have hmark : '\n' ∉ (if nullable then "|nil" else "").toList := by cases nullable <;> decide
    exact joins.join (joins.join (joins.join (joins.join (by decide) fits.1) (by decide)) fits.2)
      hmark
  | alternation name type =>
    exact joins.join (joins.join (joins.join (by decide) fits.1) (by decide)) fits.2
  | parameter name optional type remark =>
    obtain ⟨hname, htype, hremark⟩ := fits
    have hmark : '\n' ∉ (if optional then "? " else " ").toList := by cases optional <;> decide
    exact joins.join (joins.join (joins.join (joins.join (by decide) hname) hmark) htype) hremark
  | vararg type => exact joins.join (by decide) fits
  | result type remark => exact joins.join (joins.join (by decide) fits.1) fits.2
  | emptyTable target => exact joins.join fits (by decide)
  | openTable target => exact joins.join fits (by decide)
  | closeTable => decide
  | constant name => exact joins.join fits (by decide)
  | function name arguments =>
    have hlist : '\n' ∉ (",".intercalate arguments).toList := joins.intercalate (by decide) fits.2
    exact joins.join (joins.join (joins.join fits.1 (by decide)) hlist) (by decide)
  | verbatim text => exact fits.elim

theorem render_eq (fits : line.Fits quiet) : line.render = line.text ++ "\n" := by
  cases line with
  | verbatim text => exact fits.elim
  | _ => rfl

/-! Code and heads in the text. -/

theorem text_of_code {s : String} (h : line.code? = some s) : line.text = s := by
  cases line <;> cases h <;> rfl

theorem isCode_iff {s : String} (h : line.code? = some s) :
    isCode s.toList = true ↔ ¬ "---".toList <+: s.toList := by
  have hne : s.toList.isEmpty = false := by
    cases line <;> cases h <;> simp [functionCode]
  rw [isCode, hne, Bool.not_false, Bool.true_and, Bool.not_eq_true', ← Bool.not_eq_true,
    List.isPrefixOf_iff_prefix]

/-- A line is code in the text if it is code as such, and does not look like a comment. -/
theorem filter_isCode_text (fits : line.Fits quiet)
    (apart : ∀ s, line.code? = some s → ¬ "---".toList <+: s.toList) :
    [line.text.toList].filter isCode = (line.code?.map String.toList).toList := by
  cases hcode : line.code? with
  | some s =>
    rw [text_of_code hcode, List.filter_cons, if_pos ((isCode_iff hcode).mpr (apart s hcode))]
    rfl
  | none =>
    cases line with
    | verbatim text => exact fits.elim
    | emptyTable | openTable | closeTable | constant | function => cases hcode
    | _ => simp [Line.text, isCode, List.isPrefixOf]

theorem isHead_of_isCode {line : List Char} (h : isCode line = true) : isHead line = false := by
  rw [← Bool.not_eq_true]
  intro head
  have hcomment : "---".toList <+: line :=
    (show "---".toList <+: "---@class ".toList by decide).trans (List.isPrefixOf_iff_prefix.mp head)
  have hmark := List.isPrefixOf_iff_prefix.mpr hcomment
  rw [isCode, hmark, Bool.not_true, Bool.and_false] at h
  cases h

/-- In a comment in which no annotation begins no tag is found. -/
theorem not_tag_comment (tag : List Char) {s : List Char} (h : s.head? ≠ some '@') :
    ¬ "---@".toList ++ tag <+: "---".toList ++ s := by
  intro front
  obtain ⟨rest, rfl⟩ := (List.prefix_append_right_inj "---".toList).mp
    (show "---".toList ++ '@' :: tag <+: "---".toList ++ s from front)
  exact h rfl

theorem filter_isHead_text (fits : line.Fits quiet) (hquiet : quiet)
    (apart : ∀ s, line.code? = some s → ¬ "---".toList <+: s.toList) :
    [line.text.toList].filter isHead =
      ((line.head?.map fun (name, bases) => headLine name bases).map String.toList).toList := by
  have other (h : ¬ "---@class ".toList <+: line.text.toList) : [line.text.toList].filter isHead = [] := by
    have hhead : isHead line.text.toList = false := by
      rwa [← Bool.not_eq_true, isHead, List.isPrefixOf_iff_prefix]
    rw [List.filter_cons, hhead]
    rfl
  cases hcode : line.code? with
  | some s =>
    have none : [line.text.toList].filter isHead = [] := by
      have hs := (isCode_iff hcode).mpr (apart s hcode)
      rw [text_of_code hcode, List.filter_cons, isHead_of_isCode hs]
      rfl
    cases line with
    | emptyTable | openTable | closeTable | constant | function => exact none
    | _ => cases hcode
  | none =>
    cases line with
    | comment text =>
      apply other
      simp only [Line.text, String.toList_append]
      exact not_tag_comment "class ".toList (fits.2 hquiet)
    | directive text =>
      apply other
      intro head
      simp only [Line.text, String.toList_append] at head
      exact fits.2 "class " (by decide) ((List.prefix_append_right_inj "---@".toList).mp head)
    | verbatim text => exact fits.elim
    | emptyTable | openTable | closeTable | constant | function => cases hcode
    | _ => simp [Line.text, isHead, List.isPrefixOf, head?, mark?, Mark.head?, headLine]

/-- The lines of the text of lines that fit, each with a newline behind it. -/
theorem lines_renderAll {lines : List Line} (fits : ∀ line ∈ lines, line.Fits quiet) :
    Text.lines (renderAll lines).toList = lines.map (·.text.toList) ++ [[]] := by
  induction lines with
  | nil => rfl
  | cons line rest ih =>
    obtain ⟨hline, hrest⟩ := List.forall_mem_cons.mp fits
    have hrow : (line.text ++ "\n" ++ renderAll rest).toList =
        line.text.toList ++ '\n' :: (renderAll rest).toList := by
      simp
    rw [renderAll, render_eq hline, hrow, lines_append_newline, lines_of_not_mem (not_mem_text hline),
      ih hrest]
    rfl

/-- What is picked line by line is what is picked from the text. -/
theorem picked_renderAll {lines : List Line} (fits : ∀ line ∈ lines, line.Fits quiet)
    {p : List Char → Bool} {f : Line → Option String} (hend : p [] = false)
    (h : ∀ line ∈ lines, [line.text.toList].filter p = ((f line).map String.toList).toList) :
    ((Text.lines (renderAll lines).toList).filter p).map String.ofList = lines.filterMap f := by
  have hlines : (lines.map (·.text.toList)).filter p = (lines.filterMap f).map String.toList := by
    clear fits
    induction lines with
    | nil => rfl
    | cons line rest ih =>
      obtain ⟨hline, hrest⟩ := List.forall_mem_cons.mp h
      rw [List.map_cons, ← List.singleton_append, List.filter_append, hline, ih hrest,
        List.filterMap_cons]
      cases f line <;> rfl
  -- Behind the last newline stands an empty line, which is never picked.
  have hlast : [[]].filter p = [] := by rw [List.filter_cons, hend]; rfl
  rw [lines_renderAll fits, List.filter_append, hlines, hlast, List.append_nil]
  simp

end Line

def Fitting (quiet : Prop) (lines : List Line) : Prop :=
  ∀ line ∈ lines, line.Fits quiet

/-- Lines that fit, with the marks that are read off them. -/
structure Marked (quiet : Prop) (marks : List Mark) (lines : List Line) : Prop where
  fits : Fitting quiet lines
  marks : lines.filterMap Line.mark? = marks

/-- Lines that fit, with the code and the heads of classes among them. -/
structure Outlined (quiet : Prop) (code : List String) (heads : List (String × List String))
    (lines : List Line) : Prop where
  fits : Fitting quiet lines
  code : lines.filterMap Line.code? = code
  heads : lines.filterMap Line.head? = heads

/-- The declaration of a class, with comments and fields, and nothing else. -/
def Declaring (quiet : Prop) (block : List Line) : Prop :=
  ∃ name, Marked quiet [.head name []] block

variable {quiet : Prop}

namespace Marked

variable {marks marks' : List Mark} {lines lines' : List Line}

theorem nil : Marked quiet [] [] := ⟨List.forall_mem_nil _, rfl⟩

theorem append (h : Marked quiet marks lines) (h' : Marked quiet marks' lines') :
    Marked quiet (marks ++ marks') (lines ++ lines') where
  fits line hline := (List.mem_append.mp hline).elim (h.fits line) (h'.fits line)
  marks := by rw [List.filterMap_append, h.marks, h'.marks]

theorem cons (h : Marked quiet marks lines) (line : Line) (hline : line.Fits quiet) :
    Marked quiet (line.mark?.toList ++ marks) (line :: lines) where
  fits := List.forall_mem_cons.mpr ⟨hline, h.fits⟩
  marks := by
    rw [List.filterMap_cons, h.marks]
    cases line.mark? <;> rfl

theorem single (line : Line) (hline : line.Fits quiet) : Marked quiet line.mark?.toList [line] := by
  simpa using nil.cons line hline

theorem outlined (h : Marked quiet marks lines) :
    Outlined quiet (marks.filterMap Mark.code?) (marks.filterMap Mark.head?) lines where
  fits := h.fits
  code := by rw [← h.marks, List.filterMap_filterMap]; rfl
  heads := by rw [← h.marks, List.filterMap_filterMap]; rfl

end Marked

namespace Outlined

variable {code code' : List String} {heads heads' : List (String × List String)}
  {lines lines' : List Line}

theorem nil : Outlined quiet [] [] [] := ⟨List.forall_mem_nil _, rfl, rfl⟩

theorem append (h : Outlined quiet code heads lines) (h' : Outlined quiet code' heads' lines') :
    Outlined quiet (code ++ code') (heads ++ heads') (lines ++ lines') where
  fits line hline := (List.mem_append.mp hline).elim (h.fits line) (h'.fits line)
  code := by rw [List.filterMap_append, h.code, h'.code]
  heads := by rw [List.filterMap_append, h.heads, h'.heads]

theorem cons (h : Outlined quiet code heads lines) (line : Line) (hline : line.Fits quiet) :
    Outlined quiet (line.code?.toList ++ code) (line.head?.toList ++ heads) (line :: lines) where
  fits := List.forall_mem_cons.mpr ⟨hline, h.fits⟩
  code := by
    rw [List.filterMap_cons, h.code]
    cases line.code? <;> rfl
  heads := by
    rw [List.filterMap_cons, h.heads]
    cases line.head? <;> rfl

theorem single (line : Line) (hline : line.Fits quiet) :
    Outlined quiet line.code?.toList line.head?.toList [line] := by
  simpa using nil.cons line hline

theorem apart (h : Outlined quiet code heads lines) (apart : ∀ s ∈ code, ¬ "---".toList <+: s.toList) :
    ∀ line ∈ lines, ∀ s, line.code? = some s → ¬ "---".toList <+: s.toList := by
  intro line hline s hs
  rw [← h.code] at apart
  exact apart s (List.mem_filterMap.mpr ⟨line, hline, hs⟩)

/-- The code in the text of outlined lines, if none of it looks like a comment. -/
theorem codeOf_renderAll (h : Outlined quiet code heads lines)
    (apart : ∀ s ∈ code, ¬ "---".toList <+: s.toList) : codeOf (Line.renderAll lines) = code := by
  have picked := Line.picked_renderAll h.fits (p := isCode) rfl
    fun line hline => Line.filter_isCode_text (h.fits line hline) (h.apart apart line hline)
  rw [codeOf, picked, h.code]

theorem headsOf_renderAll (h : Outlined quiet code heads lines)
    (apart : ∀ s ∈ code, ¬ "---".toList <+: s.toList) (hquiet : quiet) :
    headsOf (Line.renderAll lines) = heads.map fun (name, bases) => headLine name bases := by
  have picked := Line.picked_renderAll h.fits (p := isHead) rfl
    fun line hline => Line.filter_isHead_text (h.fits line hline) hquiet (h.apart apart line hline)
  rw [headsOf, picked, ← h.heads, List.map_filterMap]

end Outlined

end LuaStubs
