/-! Lines and small phrases of a text. A text with n newlines has n + 1 lines, and joining the lines
again gives the text. -/

namespace LuaStubs.Text

def lines : List Char → List (List Char)
  | [] => [[]]
  | c :: rest =>
    if c = '\n' then [] :: lines rest
    else match lines rest with
      | [] => [[c]]
      | line :: others => (c :: line) :: others

def joinLines : List (List Char) → List Char
  | [] => []
  | [line] => line
  | line :: others => line ++ '\n' :: joinLines others

theorem lines_ne_nil (s : List Char) : lines s ≠ [] := by
  cases s with
  | nil => simp [lines]
  | cons c rest =>
    simp only [lines]
    split
    · simp
    · split <;> simp

theorem joinLines_lines (s : List Char) : joinLines (lines s) = s := by
  induction s with
  | nil => rfl
  | cons c rest ih =>
    have h := lines_ne_nil rest
    cases hl : lines rest with
    | nil => contradiction
    | cons line others =>
      rw [hl] at ih
      by_cases hc : c = '\n'
      · subst hc
        simp [lines, hl, joinLines, ih]
      · cases others with
        | nil => simp_all [lines, joinLines]
        | cons next more => simp_all [lines, joinLines]

/-- Puts a text between two others, unless it is empty. -/
def framed (before text after : String) : String :=
  if text.isEmpty then "" else before ++ text ++ after

def paragraphs (parts : List String) : String :=
  "\n\n".intercalate (parts.filter (!·.isEmpty))

/-- Names alternatives as `a, b or c`. -/
def orList : List String → String
  | [] => ""
  | [only] => only
  | first :: second :: rest =>
    ", ".intercalate (first :: (second :: rest).dropLast) ++ " or "
      ++ (second :: rest).getLastD ""

/-- Cuts a text at the first place where a mark stands, and drops the mark. -/
def splitAtMark (mark : List Char) : List Char → Option (List Char × List Char)
  | [] => none
  | c :: rest =>
    if mark.isPrefixOf (c :: rest) then some ([], (c :: rest).drop mark.length)
    else (splitAtMark mark rest).map fun (before, after) => (c :: before, after)

end LuaStubs.Text
