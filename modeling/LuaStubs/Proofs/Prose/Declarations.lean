import LuaStubs.Proofs.Outline.Lines
import LuaStubs.Proofs.Prose.Skeleton

/-! The declarations of a stub file: its text without comments, and without what is said behind the
types of parameters and results. Lines that fit have the declarations of their skeleton, if the
documentation is quiet. -/

namespace LuaStubs

open Text

def upToMark (keyword line : List Char) : List Char :=
  keyword ++ (line.drop keyword.length).takeWhile (· ≠ '@')

def declared? (line : List Char) : Option (List Char) :=
  if "---@param".toList.isPrefixOf line then some (upToMark "---@param".toList line)
  else if "---@return".toList.isPrefixOf line then some (upToMark "---@return".toList line)
  else if "---@".toList.isPrefixOf line then some line
  else if "---".toList.isPrefixOf line then none
  else some line

/-- The lines of a text that are not comments, without remarks. -/
def declaredLines (s : List Char) : List (List Char) :=
  (lines s).filterMap declared?

def declarations (text : String) : String :=
  .ofList (joinLines (declaredLines text.toList))

example : declarations "--- A sum.\n---@param x int@the addend\nadd=function(x)end," =
    "---@param x int\nadd=function(x)end," := by
  decide +kernel

theorem declaredLines_append_newline (s t : List Char) :
    declaredLines (s ++ '\n' :: t) = declaredLines s ++ declaredLines t := by
  unfold declaredLines
  rw [lines_append_newline, List.filterMap_append]

theorem declaredLines_of_not_mem {s : List Char} (h : '\n' ∉ s) :
    declaredLines s = (declared? s).toList := by
  unfold declaredLines
  rw [lines_of_not_mem h, List.filterMap_cons]
  cases declared? s with
  | none => rfl
  | some line => rfl

/-! Lines of a stub file. -/

theorem takeWhile_remark (s : List Char) (remark : Remark) :
    (s ++ remark.text.toList).takeWhile (· ≠ '@') = s.takeWhile (· ≠ '@') := by
  induction s with
  | nil =>
    cases remark with
    | none => rfl
    | inline text => simp [Remark.text]
    | below => rfl
  | cons c rest ih => rw [List.cons_append, List.takeWhile_cons, List.takeWhile_cons, ih]

theorem declared?_param (s : List Char) :
    declared? ("---@param".toList ++ s) = some ("---@param".toList ++ s.takeWhile (· ≠ '@')) := by
  have hkeyword : "---@param".toList.isPrefixOf ("---@param".toList ++ s) = true :=
    List.isPrefixOf_iff_prefix.mpr (List.prefix_append _ s)
  rw [declared?, if_pos hkeyword, upToMark, List.drop_left]

theorem declared?_return (s : List Char) :
    declared? ("---@return".toList ++ s) = some ("---@return".toList ++ s.takeWhile (· ≠ '@')) := by
  have hkeyword : "---@return".toList.isPrefixOf ("---@return".toList ++ s) = true :=
    List.isPrefixOf_iff_prefix.mpr (List.prefix_append _ s)
  have hother : ¬ "---@param".toList.isPrefixOf ("---@return".toList ++ s) = true := by
    simp [List.isPrefixOf]
  rw [declared?, if_neg hother, if_pos hkeyword, upToMark, List.drop_left]

theorem declared?_comment {s : List Char} (h : s.head? ≠ some '@') :
    declared? ("---".toList ++ s) = none := by
  cases s with
  | nil => rfl
  | cons c rest =>
    have hc : '@' ≠ c := fun e => h (congrArg some e.symm)
    simp [declared?, List.isPrefixOf, hc]

theorem declaredLines_remark {keyword body : List Char}
    (cut : ∀ s, declared? (keyword ++ s) = some (keyword ++ s.takeWhile (· ≠ '@')))
    (hbody : '\n' ∉ keyword ++ body) {remark : Remark} (hremark : '\n' ∉ remark.text.toList) :
    declaredLines (keyword ++ (body ++ remark.text.toList)) =
      [keyword ++ body.takeWhile (· ≠ '@')] := by
  have hline : '\n' ∉ keyword ++ (body ++ remark.text.toList) := by
    rw [← List.append_assoc, List.mem_append]
    exact not_or.mpr ⟨hbody, hremark⟩
  rw [declaredLines_of_not_mem hline, cut, takeWhile_remark]
  rfl

namespace Line

theorem declaredLines_text {line : Line} (fits : line.Fits True) :
    declaredLines line.text.toList =
      line.skeleton?.toList.flatMap fun bare => declaredLines bare.text.toList := by
  cases line with
  | comment text =>
    obtain ⟨hclear, hstart⟩ := fits
    have htext : '\n' ∉ ("---" ++ text).toList := by simp [hclear]
    change declaredLines ("---" ++ text).toList = []
    rw [declaredLines_of_not_mem htext, String.toList_append, declared?_comment (hstart trivial)]
    rfl
  | parameter name optional type remark =>
    obtain ⟨hname, htype, hremark⟩ := fits
    have hmark : '\n' ∉ (if optional then "? " else " ").toList := by cases optional <;> decide
    have htext (r : Remark) : (parameter name optional type r).text.toList = "---@param".toList ++
        ((" " ++ name ++ (if optional then "? " else " ") ++ type).toList ++ r.text.toList) := by
      simp [text]
    have hbody : '\n' ∉ "---@param".toList ++
        (" " ++ name ++ (if optional then "? " else " ") ++ type).toList := by
      simp [hname, hmark, htype]
    have hnone : '\n' ∉ Remark.none.text.toList := by decide
    change _ = declaredLines (parameter name optional type .none).text.toList ++ []
    rw [htext, htext, declaredLines_remark declared?_param hbody hremark,
      declaredLines_remark declared?_param hbody hnone, List.append_nil]
  | result type remark =>
    obtain ⟨htype, hremark⟩ := fits
    have htext (r : Remark) : (result type r).text.toList =
        "---@return".toList ++ ((" " ++ type).toList ++ r.text.toList) := by
      simp [text]
    have hbody : '\n' ∉ "---@return".toList ++ (" " ++ type).toList := by simp [htype]
    have hnone : '\n' ∉ Remark.none.text.toList := by decide
    change _ = declaredLines (result type .none).text.toList ++ []
    rw [htext, htext, declaredLines_remark declared?_return hbody hremark,
      declaredLines_remark declared?_return hbody hnone, List.append_nil]
  | verbatim text => exact fits.elim
  | _ => exact (List.append_nil _).symm

theorem declaredLines_renderAll {lines : List Line} (fits : Fitting True lines) (t : List Char) :
    declaredLines ((renderAll lines).toList ++ t) =
      ((skeleton lines).flatMap fun bare => declaredLines bare.text.toList) ++ declaredLines t := by
  induction lines with
  | nil => rfl
  | cons line rest ih =>
    obtain ⟨hline, hrest⟩ := List.forall_mem_cons.mp fits
    have hskeleton : skeleton (line :: rest) = line.skeleton?.toList ++ skeleton rest := by
      unfold skeleton
      rw [List.filterMap_cons]
      cases line.skeleton? with
      | none => rfl
      | some bare => rfl
    have hrow : (line.text ++ "\n" ++ renderAll rest).toList ++ t =
        line.text.toList ++ '\n' :: ((renderAll rest).toList ++ t) := by
      simp
    rw [renderAll, render_eq hline, hrow, declaredLines_append_newline, ih hrest,
      declaredLines_text hline, hskeleton, List.flatMap_append, List.append_assoc]

end Line

end LuaStubs
