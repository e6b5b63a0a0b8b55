import LuaStubs.Text.Lines

/-! The little of markdown that matters here: links, fenced code, and line breaks. -/

namespace LuaStubs.Markdown

/-- A character of its own, or a link `[display](target)`. -/
inductive Piece where
  | char (c : Char)
  | link (display target : List Char)
  deriving Repr, DecidableEq

/-- The text on this line before a mark, at least one character, and the text behind the mark. -/
def lineTo? (mark : List Char) : List Char → Option (List Char × List Char)
  | [] => none
  | c :: rest =>
    if c = '\n' then none
    else if mark.isPrefixOf rest then some ([c], rest.drop mark.length)
    else (lineTo? mark rest).map fun (before, after) => (c :: before, after)

/-- The link whose opening bracket has been taken: its text up to the first `](`, and its target. -/
def link? (s : List Char) : Option (List Char × List Char) := do
  let (display, rest) ← lineTo? [']', '('] s
  let (target, _) ← lineTo? [')'] rest
  return (display, target)

/-- The pieces of a text after some characters that belong to the piece before. -/
def piecesAfter : Nat → List Char → List Piece
  | _, [] => []
  | taken + 1, _ :: rest => piecesAfter taken rest
  | 0, c :: rest =>
    match if c = '[' then link? rest else none with
    | some (display, target) =>
      .link display target :: piecesAfter (display.length + target.length + 3) rest
    | none => .char c :: piecesAfter 0 rest

/-- Links are taken from the left, and none begins inside another. -/
def pieces (s : List Char) : List Piece :=
  piecesAfter 0 s

def Piece.text : Piece → List Char
  | char c => [c]
  | link display target => ['['] ++ display ++ [']', '('] ++ target ++ [')']

theorem eq_append_of_isPrefixOf {mark s : List Char} (h : mark.isPrefixOf s = true) :
    s = mark ++ s.drop mark.length :=
  (List.prefix_iff_eq_append.mp (List.isPrefixOf_iff_prefix.mp h)).symm

@[elab_as_elim]
theorem lineTo?_induction {mark after : List Char} {motive : List Char → List Char → Prop}
    {s before : List Char} (h : lineTo? mark s = some (before, after))
    (found : ∀ c, c ≠ '\n' → motive (c :: (mark ++ after)) [c])
    (step : ∀ c rest before, c ≠ '\n' → mark.isPrefixOf rest = false →
      lineTo? mark rest = some (before, after) → motive rest before →
        motive (c :: rest) (c :: before)) : motive s before := by
  induction s generalizing before with
  | nil => cases h
  | cons c rest ih =>
    rw [lineTo?] at h
    split at h
    · cases h
    · rename_i hc
      split at h
      · rename_i begins
        cases h
        have hrest := eq_append_of_isPrefixOf begins
        have first := found c hc
        rwa [← hrest] at first
      · rename_i apart
        obtain ⟨⟨line, behind⟩, hline, hentry⟩ := Option.map_eq_some_iff.mp h
        cases hentry
        exact step c rest line hc (Bool.eq_false_iff.mpr apart) hline (ih hline)

theorem eq_of_lineTo? {mark s before after : List Char}
    (h : lineTo? mark s = some (before, after)) : s = before ++ mark ++ after := by
  refine lineTo?_induction h (fun _ _ => rfl) fun c rest before _ _ _ ih => ?_
  rw [ih]
  rfl

theorem link?_eq_some {s display target : List Char} :
    link? s = some (display, target) ↔ ∃ rest behind, lineTo? [']', '('] s = some (display, rest) ∧
      lineTo? [')'] rest = some (target, behind) := by
  simp only [link?, Option.bind_eq_bind, Option.bind_eq_some_iff, Prod.exists, Option.pure_def,
    Option.some.injEq, Prod.mk.injEq]
  constructor
  · rintro ⟨display, rest, hdisplay, target, behind, htarget, rfl, rfl⟩
    exact ⟨rest, behind, hdisplay, htarget⟩
  · rintro ⟨rest, behind, hdisplay, htarget⟩
    exact ⟨display, rest, hdisplay, target, behind, htarget, rfl, rfl⟩

theorem eq_of_link? {s display target : List Char} (h : link? s = some (display, target)) :
    ∃ rest, s = display ++ ']' :: '(' :: (target ++ ')' :: rest) := by
  obtain ⟨rest, behind, hdisplay, htarget⟩ := link?_eq_some.mp h
  exact ⟨behind, by rw [eq_of_lineTo? hdisplay, eq_of_lineTo? htarget]; simp⟩

theorem piecesAfter_eq_drop (taken : Nat) (s : List Char) :
    piecesAfter taken s = pieces (s.drop taken) := by
  induction s generalizing taken with
  | nil => cases taken <;> simp [piecesAfter, pieces]
  | cons c rest ih =>
    cases taken with
    | zero => rfl
    | succ taken => simp [piecesAfter, ih]

theorem pieces_cons_of_link {rest display target : List Char}
    (h : link? rest = some (display, target)) :
    pieces ('[' :: rest) =
      .link display target :: pieces (rest.drop (display.length + target.length + 3)) := by
  rw [← piecesAfter_eq_drop]
  simp [pieces, piecesAfter, h]

theorem pieces_cons_of_not_link {c : Char} {rest : List Char}
    (h : (if c = '[' then link? rest else none) = none) :
    pieces (c :: rest) = .char c :: pieces rest := by
  simp [pieces, piecesAfter, h]

theorem pieces_found {display target rest : List Char}
    (h : link? (display ++ ']' :: '(' :: (target ++ ')' :: rest)) = some (display, target)) :
    pieces ((Piece.link display target).text ++ rest) = .link display target :: pieces rest := by
  have hdrop : (display ++ ']' :: '(' :: (target ++ ')' :: rest)).drop
      (display.length + target.length + 3) = rest := by
    have hsplit : display ++ ']' :: '(' :: (target ++ ')' :: rest)
        = (display ++ ']' :: '(' :: (target ++ [')'])) ++ rest := by simp
    rw [hsplit, List.drop_left']
    simp only [List.length_append, List.length_cons, List.length_nil]
    omega
  have htext : (Piece.link display target).text ++ rest
      = '[' :: (display ++ ']' :: '(' :: (target ++ ')' :: rest)) := by simp [Piece.text]
  rw [htext, pieces_cons_of_link h, hdrop]

@[elab_as_elim]
theorem pieces_induction {motive : List Char → Prop} (nil : motive [])
    (char : ∀ c rest, (if c = '[' then link? rest else none) = none → motive rest →
      motive (c :: rest))
    (link : ∀ display target rest,
      link? (display ++ ']' :: '(' :: (target ++ ')' :: rest)) = some (display, target) →
      motive rest → motive ((Piece.link display target).text ++ rest))
    (s : List Char) : motive s := by
  match s with
  | [] => exact nil
  | c :: s =>
    cases hl : (if c = '[' then link? s else none) with
    | none => exact char c s hl (pieces_induction nil char link s)
    | some found =>
      obtain ⟨display, target⟩ := found
      obtain ⟨rfl, hl⟩ : c = '[' ∧ link? s = some (display, target) := by
        by_cases hc : c = '[' <;> simp_all
      obtain ⟨rest, hs⟩ := eq_of_link? hl
      have htext : '[' :: s = (Piece.link display target).text ++ rest := by simp [hs, Piece.text]
      rw [htext]
      exact link display target rest (hs ▸ hl) (pieces_induction nil char link rest)
termination_by s.length
decreasing_by
  · simp
  · simp [hs]
    omega

/-- Nothing of a text is lost or added by cutting it into pieces. -/
theorem flatMap_text_pieces (s : List Char) : (pieces s).flatMap Piece.text = s := by
  induction s using pieces_induction with
  | nil => rfl
  | char c rest plain ih =>
    rw [pieces_cons_of_not_link plain, List.flatMap_cons, ih]
    rfl
  | link display target rest found ih => rw [pieces_found found, List.flatMap_cons, ih]

def fence : List Char := ['`', '`', '`']

inductive Stretch where
  | prose (text : List Char)
  | code (text : List Char)
  deriving Repr, DecidableEq

/-- Cuts a text at its fences, two by two; a last fence without partner is prose. -/
def stretchesWithin : Nat → List Char → List Stretch
  | 0, s => [.prose s]
  | most + 1, s =>
    match Text.splitAtMark fence s with
    | none => [.prose s]
    | some (before, rest) =>
      match Text.splitAtMark fence rest with
      | none => [.prose s]
      | some (code, rest) => .prose before :: .code code :: stretchesWithin most rest

def stretches (s : List Char) : List Stretch :=
  stretchesWithin s.length s

/-- Marks a newline as a hard break if the lines before and behind it are not empty. -/
def hardBreaksAfter (inLine : Bool) : List Char → List Char
  | [] => []
  | c :: rest =>
    if c = '\n' then
      if inLine && !rest.isEmpty && rest.head? != some '\n' then
        ' ' :: ' ' :: '\n' :: hardBreaksAfter false rest
      else '\n' :: hardBreaksAfter false rest
    else c :: hardBreaksAfter true rest

def hardBreaks (s : List Char) : List Char :=
  hardBreaksAfter false s

end LuaStubs.Markdown
