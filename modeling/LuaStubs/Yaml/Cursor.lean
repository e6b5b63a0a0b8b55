/-! Places in a text of a small YAML, and the blanks and line breaks that stand between its
words. -/

namespace LuaStubs.Yaml

def isBlank (c : Char) : Bool :=
  c = ' ' || c = '\t'

/-- The line breaks of a text whose other spellings of a newline have been replaced. -/
def isBreak (c : Char) : Bool :=
  c = '\n' || c = '\u2028' || c = '\u2029'

def isGap (c : Char) : Bool :=
  isBlank c || isBreak c

def startsWithGap : List Char → Bool
  | [] => true
  | c :: _ => isGap c

/-- Spells line breaks as newlines, but for the two separators that stand for themselves. -/
def normalBreaks : List Char → List Char
  | [] => []
  | '\r' :: '\n' :: rest => '\n' :: normalBreaks rest
  | c :: rest =>
    (if c = '\r' || c = '\u0085' then '\n' else c) :: normalBreaks rest

/-- A place in a text: its line, and the characters and bytes before it on the line. -/
structure Mark where
  line : Nat
  column : Nat
  bytes : Nat

def Mark.after (m : Mark) (c : Char) : Mark :=
  if isBreak c then ⟨m.line + 1, 0, 0⟩ else ⟨m.line, m.column + 1, m.bytes + c.utf8Size⟩

structure Cursor extends Mark where
  rest : List Char

namespace Cursor

def start (text : List Char) : Cursor :=
  ⟨⟨0, 0, 0⟩, text⟩

def next (c : Cursor) : Cursor :=
  match c.rest with
  | [] => c
  | char :: rest => ⟨c.after char, rest⟩

def advance (count : Nat) (c : Cursor) : Cursor :=
  ⟨⟨c.line, c.column + count, c.bytes + count⟩, c.rest.drop count⟩

def spanFrom (p : Char → Bool) (taken : List Char) (m : Mark) :
    List Char → List Char × Cursor
  | [] => (taken.reverse, ⟨m, []⟩)
  | c :: rest =>
    if p c then spanFrom p (c :: taken) (m.after c) rest else (taken.reverse, ⟨m, c :: rest⟩)

def span (p : Char → Bool) (c : Cursor) : List Char × Cursor :=
  spanFrom p [] c.toMark c.rest

def atMarker (c : Cursor) : Bool :=
  c.column = 0 && ("---".toList.isPrefixOf c.rest || "...".toList.isPrefixOf c.rest)
    && startsWithGap (c.rest.drop 3)

end Cursor

/-- A gap inside a scalar: one newline is a space, and further line breaks stand for themselves. -/
def foldGap (gap : List Char) : List Char :=
  match gap.filter isBreak with
  | [] => gap
  | ['\n'] => [' ']
  | '\n' :: more => more
  | breaks => breaks

/-- Says whether a tab stands before a column on any line of a gap but the first. -/
def tabIndents (least : Nat) (column : Option Nat) : List Char → Bool
  | [] => false
  | c :: rest =>
    if isBreak c then tabIndents least (some 0) rest
    else match column with
      | none => tabIndents least none rest
      | some column => c = '\t' && column < least || tabIndents least (some (column + 1)) rest

end LuaStubs.Yaml
