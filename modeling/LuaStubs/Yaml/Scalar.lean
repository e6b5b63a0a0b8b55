import LuaStubs.Text.Chars
import LuaStubs.Yaml.Cursor

/-! The scalars of a small YAML: plain, quoted, and blocks of lines. A scalar that is not well
formed is none. Texts are gathered with the last character first. -/

namespace LuaStubs.Yaml

/-! Plain scalars. -/

def flowIndicators : List Char := [',', '[', ']', '\x7b', '\x7d']

def indicators : List Char :=
  ['-', '?', ':', '#', '&', '*', '!', '|', '>', '\'', '"', '%', '@', '`'] ++ flowIndicators

def canStartPlain (flow : Bool) : List Char → Bool
  | [] => false
  | c :: rest =>
    if isGap c then false
    else if !indicators.contains c then true
    else if c = '-' then !startsWithGap rest
    else if c = '?' || c = ':' then !flow && !startsWithGap rest
    else false

def endsWord (flow : Bool) : List Char → Bool
  | [] => true
  | c :: rest =>
    isGap c || c = ':' && startsWithGap rest || flow && flowIndicators.contains c

/-- A word of a plain scalar. In a flow no indicator follows a colon. -/
def plainWord (flow : Bool) (taken : List Char) (m : Mark) :
    List Char → Option (List Char × Cursor)
  | [] => some (taken, ⟨m, []⟩)
  | c :: rest =>
    if flow && c = ':' && ('?' :: flowIndicators).any (rest.head? == some ·) then none
    else if endsWord flow (c :: rest) then some (taken, ⟨m, c :: rest⟩)
    else plainWord flow (c :: taken) (m.after c) rest

/-- A plain scalar, and whether a line has ended behind its last word. -/
structure PlainText where
  text : List Char
  crossed : Bool
  behind : Cursor

/-- Words with gaps between them; in a block, lines but the first begin at a column or behind it. -/
def plainText? (flow : Bool) (least : Nat) : Nat → List Char → Cursor → Option PlainText
  | 0, _, _ => none
  | most + 1, taken, c => do
    let (taken, c) ← plainWord flow taken c.toMark c.rest
    let (gap, next) := c.span isGap
    if tabIndents least none gap then none
    let crossed := gap.any isBreak
    let ended := next.rest.head? == some '#' || endsWord flow next.rest || next.atMarker
      || crossed && !flow && next.column < least
    if gap.isEmpty || ended then return ⟨taken.reverse, crossed, next⟩
    plainText? flow least most ((foldGap gap).reverse ++ taken) next

/-! Quoted scalars. -/

def codeChar? (digits : Nat) (s : List Char) : Option Char := do
  let values ← (s.take digits).mapM Text.hexValue?
  let code := values.foldl (16 * · + ·) 0
  if values.length = digits && code.isValidChar then some (Char.ofNat code) else none

def escapes : List (Char × Char) := [
  ('0', '\x00'), ('a', '\x07'), ('b', '\x08'), ('t', '\t'), ('\t', '\t'), ('n', '\n'),
  ('v', '\x0b'), ('f', '\x0c'), ('r', '\r'), ('e', '\x1b'), (' ', ' '), ('"', '"'), ('/', '/'),
  ('\\', '\\'), ('N', '\u0085'), ('_', '\u00a0'), ('L', '\u2028'), ('P', '\u2029')]

/-- The character that stands behind a backslash, and the length of its name. -/
def escape? : List Char → Option (Char × Nat)
  | [] => none
  | c :: rest =>
    if c = 'x' then (codeChar? 2 rest).map (·, 3)
    else if c = 'u' then (codeChar? 4 rest).map (·, 5)
    else if c = 'U' then (codeChar? 8 rest).map (·, 9)
    else (escapes.lookup c).map (·, 1)

/-- The text up to the closing quote. A line of it cannot begin with a mark between documents. -/
def quotedText? (double : Bool) : Nat → List Char → Cursor → Option (List Char × Cursor)
  | 0, _, _ => none
  | most + 1, taken, c =>
    match c.rest with
    | [] => none
    | char :: rest =>
      if !double && char = '\'' && rest.head? == some '\'' then
        quotedText? double most ('\'' :: taken) (c.advance 2)
      else if char = (if double then '"' else '\'') then some (taken.reverse, c.advance 1)
      else if double && char = '\\' then
        if rest.head?.any isBreak then
          let (gap, c) := (c.advance 1).next.span isGap
          if c.atMarker then none
          else quotedText? double most ((gap.filter isBreak).reverse ++ taken) c
        else
          (escape? rest).bind fun (char, count) =>
            quotedText? double most (char :: taken) (c.advance (1 + count))
      else if isGap char then
        let (gap, c) := c.span isGap
        if c.atMarker then none
        else quotedText? double most ((foldGap gap).reverse ++ taken) c
      else quotedText? double most (char :: taken) c.next

/-! Blocks of lines. -/

inductive Chomp where
  | strip
  | clip
  | keep

structure BlockHeader where
  chomp : Chomp
  indent : Option Nat

def takeChomp : List Char → Chomp × List Char
  | '+' :: rest => (.keep, rest)
  | '-' :: rest => (.strip, rest)
  | rest => (.clip, rest)

def takeIndent? : List Char → Option (Option Nat × List Char)
  | [] => some (none, [])
  | c :: rest =>
    if c = '0' then none
    else if c.isDigit then some (some (c.toNat - '0'.toNat), rest)
    else some (none, c :: rest)

/-- Reads the rest of the line behind `|` or `>`: a sign and a digit in any order, and a comment. -/
def blockHeader? (c : Cursor) : Option (BlockHeader × Cursor) := do
  let (chomp, rest) := takeChomp c.rest
  let (indent, rest) ← takeIndent? rest
  let (chomp, rest) := match chomp with
    | .clip => takeChomp rest
    | _ => (chomp, rest)
  let rest := rest.dropWhile isBlank
  let rest := if rest.head? == some '#' then rest.dropWhile (!isBreak ·) else rest
  match rest with
  | [] => some (⟨chomp, indent⟩, ⟨c.toMark, []⟩)
  | char :: rest => if isBreak char then some (⟨chomp, indent⟩, ⟨c.after char, rest⟩) else none

/-- The breaks of empty lines, and the widest indentation of these and the next line. -/
structure EmptyLines where
  breaks : List Char
  widest : Nat
  behind : Cursor

def emptyLines? (indent : Option Nat) (taken : List Char) (widest : Nat) (m : Mark) :
    List Char → Option EmptyLines
  | [] => some ⟨taken.reverse, max widest m.column, ⟨m, []⟩⟩
  | c :: rest =>
    let within : Bool := indent.all (m.column < ·)
    if within && c = ' ' then emptyLines? indent taken widest (m.after c) rest
    else if within && c = '\t' then none
    else if isBreak c then
      emptyLines? indent (c :: taken) (max widest m.column) (m.after c) rest
    else some ⟨taken.reverse, max widest m.column, ⟨m, c :: rest⟩⟩

/-- A line of a block, the break at its end if there is one, and those of the empty lines below. -/
structure BlockLine where
  text : List Char
  ending : List Char
  empties : List Char

def blockLines? (indent : Nat) :
    Nat → List BlockLine → Cursor → Option (List BlockLine × Cursor)
  | 0, _, _ => none
  | most + 1, taken, c => do
    if c.column ≠ indent || c.rest.isEmpty then return (taken.reverse, c)
    let (text, c) := c.span (!isBreak ·)
    let below := c.next
    let empty ← emptyLines? (some indent) [] 0 below.toMark below.rest
    blockLines? indent most (⟨text, c.rest.take 1, empty.breaks⟩ :: taken) empty.behind

/-- What stands between two lines. A folded block joins them unless one of them is indented. -/
def BlockLine.gap (folded : Bool) (before after : BlockLine) : List Char :=
  let indented (line : BlockLine) : Bool := line.text.head?.any isBlank
  if folded && before.ending = ['\n'] && !indented before && !indented after then
    if before.empties.isEmpty then [' '] else before.empties
  else before.ending ++ before.empties

def joinBlock (folded : Bool) (chomp : Chomp) (before : BlockLine) : List BlockLine → List Char
  | [] =>
    match chomp with
    | .strip => []
    | .clip => before.ending
    | .keep => before.ending ++ before.empties
  | line :: rest => before.gap folded line ++ line.text ++ joinBlock folded chomp line rest

/-- The text of a block in surroundings indented to a column. Without a given indentation its lines
are indented like the first one, or like a longer empty line before that. -/
def blockText? (folded : Bool) (indent : Option Nat) (most : Nat) (c : Cursor) :
    Option (List Char × Cursor) := do
  let (header, c) ← blockHeader? c
  let given := header.indent.map (indent.getD 0 + ·)
  let empty ← emptyLines? given [] 0 c.toMark c.rest
  let least := match indent with
    | none => 1
    | some column => column + 1
  let (lines, c) ← blockLines? (given.getD (max empty.widest least)) most [] empty.behind
  return (joinBlock folded header.chomp ⟨[], [], empty.breaks⟩ lines, c)

end LuaStubs.Yaml
