import LuaStubs.Proofs.Links.Comments

/-! Hard breaks by lines. The marks stand at the ends of lines, so that a text has the same lines
before and after, but for two spaces at the end of each line that is followed by another in its
paragraph. -/

namespace LuaStubs.Markdown

open Text

/-- Two spaces at the end of each line that is not empty and whose next line is not empty either. -/
def hardened (ls : List (List Char)) : List (List Char) :=
  ls.mapIdx fun k line => if line ≠ [] ∧ ls[k + 1]?.any (· ≠ []) then line ++ [' ', ' '] else line

/-- A text without the spaces right before its newlines. -/
def trimBreaks : List Char → List Char
  | [] => []
  | c :: rest =>
    if c = ' ' ∧ (rest.dropWhile (· = ' ')).head? = some '\n' then trimBreaks rest
    else c :: trimBreaks rest

/-! Lines. -/

theorem lines_cons_newline (s : List Char) : lines ('\n' :: s) = [] :: lines s := by
  rw [lines, if_pos rfl]

theorem lines_cons {c : Char} {s line : List Char} {others : List (List Char)} (hc : c ≠ '\n')
    (h : lines s = line :: others) : lines (c :: s) = (c :: line) :: others := by
  rw [lines, if_neg hc, h]

theorem any_head?_lines (s : List Char) :
    (lines s).head?.any (· ≠ []) = (!s.isEmpty && s.head? != some '\n') := by
  cases s with
  | nil => rfl
  | cons c s =>
    by_cases hc : c = '\n'
    · simp [hc, lines_cons_newline]
    · obtain ⟨line, others, hs⟩ := List.exists_cons_of_ne_nil (lines_ne_nil s)
      simp [hc, lines_cons hc hs]

theorem hardened_cons (line : List Char) (rest : List (List Char)) :
    hardened (line :: rest) =
      (if line ≠ [] ∧ rest.head?.any (· ≠ []) then line ++ [' ', ' '] else line) ::
        hardened rest := by
  rw [hardened, List.mapIdx_cons, hardened]
  simp [← List.head?_eq_getElem?]

/-- The lines of a text that goes on behind the start of its first line, or begins there. -/
theorem lines_hardBreaksAfter (inLine : Bool) {s line : List Char} {others : List (List Char)}
    (h : lines s = line :: others) :
    lines (hardBreaksAfter inLine s) =
      (if (inLine = true ∨ line ≠ []) ∧ others.head?.any (· ≠ []) then line ++ [' ', ' ']
        else line) :: hardened others := by
  induction s generalizing inLine line others with
  | nil =>
    cases h
    simp [hardBreaksAfter, lines, hardened]
  | cons c s ih =>
    obtain ⟨next, later, hs⟩ := List.exists_cons_of_ne_nil (lines_ne_nil s)
    by_cases hc : c = '\n'
    · subst hc
      rw [lines_cons_newline] at h
      obtain ⟨rfl, rfl⟩ := List.cons.inj h
      have behind : lines (hardBreaksAfter false s) = hardened (lines s) := by
        rw [ih false hs, hs, hardened_cons]
        simp
      rw [hardBreaksAfter, if_pos rfl, any_head?_lines, Bool.and_assoc]
      cases inLine
      · simp [lines_cons_newline, behind]
      · cases !s.isEmpty && s.head? != some '\n'
        · simp [lines_cons_newline, behind]
        · simp [lines, behind]
    · rw [lines_cons hc hs] at h
      obtain ⟨rfl, rfl⟩ := List.cons.inj h
      rw [hardBreaksAfter_cons_of_ne _ hc, lines_cons hc (ih true hs)]
      split <;> simp_all

theorem lines_hardBreaks (s : List Char) : lines (hardBreaks s) = hardened (lines s) := by
  obtain ⟨line, others, hs⟩ := List.exists_cons_of_ne_nil (lines_ne_nil s)
  rw [hardBreaks, lines_hardBreaksAfter false hs, hs, hardened_cons]
  simp

theorem length_hardened (ls : List (List Char)) : (hardened ls).length = ls.length :=
  List.length_mapIdx

theorem getElem?_hardened (ls : List (List Char)) (k : Nat) :
    (hardened ls)[k]? = ls[k]?.map fun line =>
      if line ≠ [] ∧ ls[k + 1]?.any (· ≠ []) then line ++ [' ', ' '] else line :=
  List.getElem?_mapIdx

theorem getElem?_hardened_eq_nil {ls : List (List Char)} {k : Nat} :
    (hardened ls)[k]? = some [] ↔ ls[k]? = some [] := by
  rw [getElem?_hardened]
  cases ls[k]? with
  | none => simp
  | some line =>
    rw [Option.map_some, Option.some_inj, Option.some_inj]
    split
    · rename_i hard
      simp [hard.1]
    · rfl

/-! Spaces. -/

/-- What stands behind spaces is behind as many more where a hard break follows. -/
theorem head?_dropWhile_hardBreaksAfter (inLine : Bool) (s : List Char) :
    ((hardBreaksAfter inLine s).dropWhile (· = ' ')).head? = (s.dropWhile (· = ' ')).head? := by
  induction s generalizing inLine with
  | nil => rfl
  | cons c s ih =>
    by_cases hc : c = '\n'
    · subst hc
      rcases hardBreaksAfter_newline inLine s with h | h <;> simp [h]
    · rw [hardBreaksAfter_cons_of_ne _ hc]
      by_cases hspace : c = ' '
      · simp [hspace, ih]
      · simp [hspace]

theorem trimBreaks_hardBreaksAfter (inLine : Bool) (s : List Char) :
    trimBreaks (hardBreaksAfter inLine s) = trimBreaks s := by
  induction s generalizing inLine with
  | nil => rfl
  | cons c s ih =>
    by_cases hc : c = '\n'
    · subst hc
      rcases hardBreaksAfter_newline inLine s with h | h <;> simp [h, trimBreaks, ih]
    · rw [hardBreaksAfter_cons_of_ne _ hc, trimBreaks, trimBreaks,
        head?_dropWhile_hardBreaksAfter, ih]

/-- Exactly the lines that are not empty and whose next line exists and is not empty get two spaces;
all lines stay apart, the empty ones stay empty, and but for spaces before newlines the text stays. -/
theorem hardBreaks_by_lines (text : List Char) :
    hardBreaks text = joinLines (hardened (lines text)) ∧
    lines (hardBreaks text) = hardened (lines text) ∧
    (lines (hardBreaks text)).length = (lines text).length ∧
    (∀ k : Nat, (lines (hardBreaks text))[k]? = some [] ↔ (lines text)[k]? = some []) ∧
    trimBreaks (hardBreaks text) = trimBreaks text := by
  have same := lines_hardBreaks text
  refine ⟨?_, same, ?_, ?_, trimBreaks_hardBreaksAfter false text⟩
  · rw [← same, joinLines_lines]
  · rw [same, length_hardened]
  · intro k
    rw [same, getElem?_hardened_eq_nil]

example : hardBreaks "\na\nb\n\n c \nd\n".toList = "\na  \nb\n\n c   \nd\n".toList := by decide

end LuaStubs.Markdown
