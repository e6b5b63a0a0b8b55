/-! Places in a text: byte offsets, and lines and columns. Lines count from one; the column is the
number of bytes of the line up to and including the one meant, so that it is zero right after a
newline. -/

namespace LuaStubs.Text

def bytes : List Char → Nat
  | [] => 0
  | c :: rest => c.utf8Size + bytes rest

/-- Offsets are machine words, of which there are so many. -/
def wordSize : Nat := UInt64.size

structure Position where
  line : Nat
  column : Nat
  deriving Repr, DecidableEq

namespace Position

/-- The position reached after some bytes more, which may end inside a character. -/
def advance (p : Position) : Nat → List Char → Position
  | _, [] => p
  | count, c :: rest =>
    if count < c.utf8Size then { p with column := p.column + count }
    else if c = '\n' then advance ⟨p.line + 1, 0⟩ (count - c.utf8Size) rest
    else advance { p with column := p.column + c.utf8Size } (count - c.utf8Size) rest

def after (count : Nat) (source : List Char) : Position :=
  advance ⟨1, 0⟩ count source

/-- The bytes before the line with the given index, where the first line has index zero. -/
def lineStart? : Nat → List Char → Option Nat
  | 0, _ => some 0
  | _ + 1, [] => none
  | index + 1, c :: rest =>
    if c = '\n' then (lineStart? index rest).map (· + c.utf8Size)
    else (lineStart? (index + 1) rest).map (· + c.utf8Size)

/-- The offset of the byte that a position means, held within the text. A sum that is no word wraps. -/
def offset (p : Position) (source : List Char) : Nat :=
  match lineStart? (p.line - 1) source with
  | none => bytes source
  | some start => min ((start + (p.column - 1)) % wordSize) (bytes source)

/-- The same with sums that are checked: one that is no word has no answer. -/
def offset? (p : Position) (source : List Char) : Option Nat :=
  match lineStart? (p.line - 1) source with
  | none => some (bytes source)
  | some start =>
    if start + (p.column - 1) < wordSize then some (min (start + (p.column - 1)) (bytes source))
    else none

theorem offset_le_bytes (p : Position) (source : List Char) : p.offset source ≤ bytes source := by
  unfold offset
  split
  · exact Nat.le_refl _
  · exact Nat.min_le_right ..

theorem offset_eq_of_offset? {p : Position} {source : List Char} {n : Nat}
    (h : p.offset? source = some n) : p.offset source = n := by
  unfold offset? at h
  unfold offset
  split at h
  · exact Option.some.inj h
  · split at h
    · rename_i word
      rw [Nat.mod_eq_of_lt word]
      exact Option.some.inj h
    · cases h

end Position

end LuaStubs.Text
