import LuaStubs.Yaml.Scalar

/-! Tokens of a small YAML: the scalars and brackets as they stand in the text, and the beginnings
and ends that indentation and colons only imply. There are no anchors, aliases, tags or directives.
A text that is not well formed has no tokens. -/

namespace LuaStubs.Yaml

inductive Token where
  | documentStart
  | documentEnd
  | blockSequence
  | blockMapping
  | blockEnd
  | flowSequence
  | flowSequenceEnd
  | flowMapping
  | flowMappingEnd
  | item
  | comma
  /-- Stands before a key, written or implied. -/
  | key
  | value
  | scalar (plain : Bool) (text : String)
  deriving DecidableEq

/-- A place where a key may have begun: whether it has, only a colon on the same line can say. -/
structure PossibleKey extends Mark where
  before : Nat
  required : Bool

/-- A text in the course of being cut into tokens, of which the last comes first. -/
structure Lexer where
  cursor : Cursor
  tokens : List Token
  count : Nat
  /-- The columns of the blocks around, the innermost first. -/
  indents : List Nat
  /-- Whether a key may begin at the next token. -/
  keyAllowed : Bool
  key : Option PossibleKey
  /-- The possible keys around the flows that are open, the innermost first. -/
  outer : List (Option PossibleKey)

namespace Lexer

def start (text : List Char) : Lexer :=
  ⟨Cursor.start text, [], 0, [], true, none, []⟩

def flow (l : Lexer) : Bool := !l.outer.isEmpty

def emit (token : Token) (l : Lexer) : Lexer :=
  { l with tokens := token :: l.tokens, count := l.count + 1 }

def take (token : Token) (l : Lexer) : Lexer :=
  { l.emit token with cursor := l.cursor.advance 1 }

def insert (before : Nat) (token : Token) (l : Lexer) : Lexer :=
  let behind := l.count - before
  { l with
    tokens := l.tokens.take behind ++ token :: l.tokens.drop behind
    count := l.count + 1 }

/-! Blocks. -/

def opensBlock (column : Nat) (l : Lexer) : Bool :=
  !l.flow && l.indents.head?.all (· < column)

def openBlock (column before : Nat) (token : Token) (l : Lexer) : Lexer :=
  if l.opensBlock column then
    { l.insert before token with indents := column :: l.indents }
  else l

def closeBlocks (closes : Nat → Bool) (l : Lexer) : Lexer :=
  if l.flow then l
  else
    let closed := (l.indents.takeWhile closes).length
    { l with
      tokens := List.replicate closed .blockEnd ++ l.tokens
      count := l.count + closed
      indents := l.indents.drop closed }

/-! Possible keys. -/

def dropKey? (l : Lexer) : Option Lexer :=
  if l.key.any (·.required) then none else some { l with key := none }

/-- The bytes that a key and what stands around it may take. -/
def longestKey : Nat := 1024

/-- Gives up a possible key whose line has ended, or that is too long. -/
def dropStaleKey? (l : Lexer) : Option Lexer :=
  let stale (key : PossibleKey) : Bool :=
    key.line < l.cursor.line || key.bytes + longestKey < l.cursor.bytes
  if l.key.any stale then l.dropKey? else some l

def noteKey? (l : Lexer) : Option Lexer :=
  if !l.keyAllowed then some l
  else
    let required := !l.flow && l.indents.head? == some l.cursor.column
    l.dropKey?.map ({ · with key := some ⟨l.cursor.toMark, l.count, required⟩ })

/-! Gaps between tokens. -/

/-- Skips blanks, line breaks, comments and byte order marks. Where a key may begin, tabs are no
blanks; in a block it may on every new line. -/
def skipFrom (flow comment keyAllowed : Bool) (m : Mark) : List Char → Bool × Cursor
  | [] => (keyAllowed, ⟨m, []⟩)
  | c :: rest =>
    if isBreak c then skipFrom flow false (keyAllowed || !flow) (m.after c) rest
    else if comment || c = '#' then skipFrom flow true keyAllowed (m.after c) rest
    else if c = ' ' || c = '\t' && (flow || !keyAllowed) || c = '\ufeff' && m.column = 0 then
      skipFrom flow false keyAllowed (m.after c) rest
    else (keyAllowed, ⟨m, c :: rest⟩)

/-- Goes to the next token, and leaves the key and the blocks that end before it. -/
def skip? (l : Lexer) : Option Lexer := do
  let (keyAllowed, cursor) := skipFrom l.flow false l.keyAllowed l.cursor.toMark l.cursor.rest
  let l ← { l with keyAllowed, cursor }.dropStaleKey?
  return l.closeBlocks (cursor.column < ·)

/-! Tokens. -/

def marker? (token : Token) (l : Lexer) : Option Lexer := do
  let l ← (l.closeBlocks fun _ => true).dropKey?
  return { l.emit token with cursor := l.cursor.advance 3, keyAllowed := false }

def openFlow? (token : Token) (l : Lexer) : Option Lexer := do
  let l ← l.noteKey?
  return { l.take token with keyAllowed := true, key := none, outer := l.key :: l.outer }

def closeFlow? (token : Token) (l : Lexer) : Option Lexer := do
  let l ← l.dropKey?
  return { l.take token with
    keyAllowed := false, key := l.outer.head?.getD none, outer := l.outer.drop 1 }

def comma? (l : Lexer) : Option Lexer := do
  let l ← l.dropKey?
  return { l.take .comma with keyAllowed := true }

/-- A dash. In a flow it is taken, but no node can begin with it. -/
def item? (l : Lexer) : Option Lexer := do
  if !l.flow && !l.keyAllowed then none
  let l ← (l.openBlock l.cursor.column l.count .blockSequence).dropKey?
  return { l.take .item with keyAllowed := true }

def key? (l : Lexer) : Option Lexer := do
  if !l.flow && !l.keyAllowed then none
  let l ← (l.openBlock l.cursor.column l.count .blockMapping).dropKey?
  return { l.take .key with keyAllowed := !l.flow }

/-- A colon. The key before it is known as such only now. -/
def value? (l : Lexer) : Option Lexer :=
  match l.key with
  | some key =>
    let l := (l.insert key.before .key).openBlock key.column key.before .blockMapping
    some { l.take .value with key := none, keyAllowed := false }
  | none =>
    if !l.flow && !l.keyAllowed then none
    else
      let l := l.openBlock l.cursor.column l.count .blockMapping
      some { l.take .value with keyAllowed := !l.flow }

def plain? (most : Nat) (l : Lexer) : Option Lexer := do
  let l ← l.noteKey?
  let least := match l.indents with
    | [] => 0
    | column :: _ => column + 1
  let plain ← plainText? l.flow least most [] l.cursor
  return { l.emit (.scalar true (String.ofList plain.text)) with
    cursor := plain.behind, keyAllowed := plain.crossed }

def quoted? (double : Bool) (most : Nat) (l : Lexer) : Option Lexer := do
  let l ← l.noteKey?
  let (text, behind) ← quotedText? double most [] (l.cursor.advance 1)
  return { l.emit (.scalar false (String.ofList text)) with cursor := behind, keyAllowed := false }

def block? (folded : Bool) (most : Nat) (l : Lexer) : Option Lexer := do
  let l ← l.dropKey?
  let (text, behind) ← blockText? folded l.indents.head? most (l.cursor.advance 1)
  return { l.emit (.scalar false (String.ofList text)) with cursor := behind, keyAllowed := true }

def token? (most : Nat) (l : Lexer) (c : Char) (rest : List Char) : Option Lexer :=
  if l.cursor.atMarker then l.marker? (if c = '-' then .documentStart else .documentEnd)
  else if c = '[' then l.openFlow? .flowSequence
  else if c = '\x7b' then l.openFlow? .flowMapping
  else if c = ']' then l.closeFlow? .flowSequenceEnd
  else if c = '\x7d' then l.closeFlow? .flowMappingEnd
  else if c = ',' then l.comma?
  else if c = '-' && startsWithGap rest then l.item?
  else if c = '?' && (l.flow || startsWithGap rest) then l.key?
  else if c = ':' && (l.flow || startsWithGap rest) then l.value?
  else if (c = '|' || c = '>') && !l.flow then l.block? (c = '>') most
  else if c = '"' || c = '\'' then l.quoted? (c = '"') most
  else if canStartPlain l.flow (c :: rest) then l.plain? most
  else none

/-- The tokens from here to the end of the text; each takes one character at least. -/
def run : Nat → Lexer → Option (List Token)
  | 0, _ => none
  | most + 1, l => do
    let l ← l.skip?
    match l.cursor.rest with
    | [] =>
      let l ← (l.closeBlocks fun _ => true).dropKey?
      return l.tokens.reverse
    | c :: rest => run most (← l.token? (most + 1) c rest)

end Lexer

def tokens? (text : List Char) : Option (List Token) :=
  (Lexer.start text).run (text.length + 1)

end LuaStubs.Yaml
