import LuaStubs.Json.Fault
import LuaStubs.Text.Chars

/-! The scalars of a JSON text. Each function is given what is left of the text and says what is
left behind the scalar. -/

namespace LuaStubs.Json

def isBlank (c : Char) : Bool :=
  c = ' ' || c = '\n' || c = '\t' || c = '\r'

def skipBlank : List Char → List Char
  | [] => []
  | c :: rest => if isBlank c then skipBlank rest else c :: rest

def takeLiteral : List Char → List Char → Except Failure (List Char)
  | [], rest => .ok rest
  | _ :: _, [] => stop .endInValue []
  | letter :: letters, c :: rest =>
    if c = letter then takeLiteral letters rest else stopPast .expectedLiteral (c :: rest)

/-! Strings. -/

def hexUnit? (a b c d : Char) : Option Nat := do
  let a ← Text.hexValue? a
  let b ← Text.hexValue? b
  let c ← Text.hexValue? c
  let d ← Text.hexValue? d
  return ((a * 16 + b) * 16 + c) * 16 + d

/-- Four bytes are taken before they are looked at. -/
def badHex {α : Type} (rest : List Char) : Except Failure α :=
  if Text.bytes rest < 4 then stop .endInString []
  else .error (.located .invalidEscape (Text.bytes rest - 4))

def isLeadUnit (unit : Nat) : Bool := 0xd800 ≤ unit && unit ≤ 0xdbff

def isTrailUnit (unit : Nat) : Bool := 0xdc00 ≤ unit && unit ≤ 0xdfff

def pairChar (lead trail : Nat) : Char :=
  Char.ofNat (0x10000 + (lead - 0xd800) * 0x400 + (trail - 0xdc00))

def simpleEscape? (c : Char) : Option Char :=
  if c = '"' then some '"'
  else if c = '\\' then some '\\'
  else if c = '/' then some '/'
  else if c = 'b' then some '\x08'
  else if c = 'f' then some '\x0c'
  else if c = 'n' then some '\n'
  else if c = 'r' then some '\r'
  else if c = 't' then some '\t'
  else none

/-- What is wrong behind the first half of a surrogate pair that no second half follows. -/
def badPair {α : Type} : List Char → Except Failure α
  | [] => stop .endInString []
  | '\\' :: [] => stop .endInString []
  | '\\' :: 'u' :: rest => badHex rest
  | '\\' :: rest => stopPast .brokenSurrogatePair rest
  | rest => stopPast .brokenSurrogatePair rest

def prepend (c : Char) (reading : Reading (List Char)) : Reading (List Char) :=
  reading.map fun (chars, rest) => (c :: chars, rest)

def readChars : List Char → Reading (List Char)
  | [] => stop .endInString []
  | '"' :: rest => .ok ([], rest)
  | '\\' :: 'u' :: a :: b :: c :: d :: rest =>
    match hexUnit? a b c d with
    | none => badHex (a :: b :: c :: d :: rest)
    | some unit =>
      if isTrailUnit unit then stop .loneSurrogate rest
      else if isLeadUnit unit then
        match rest with
        | '\\' :: 'u' :: a' :: b' :: c' :: d' :: rest' =>
          match hexUnit? a' b' c' d' with
          | none => badHex (a' :: b' :: c' :: d' :: rest')
          | some trail =>
            if isTrailUnit trail then prepend (pairChar unit trail) (readChars rest')
            else stop .loneSurrogate rest'
        | _ => badPair rest
      else prepend (Char.ofNat unit) (readChars rest)
  | '\\' :: 'u' :: rest => badHex rest
  | '\\' :: [] => stop .endInString []
  | '\\' :: c :: rest =>
    match simpleEscape? c with
    | none => stopPast .invalidEscape (c :: rest)
    | some char => prepend char (readChars rest)
  | c :: rest =>
    if c < ' ' then stop .controlCharacter rest else prepend c (readChars rest)

def readString (s : List Char) : Reading String :=
  (readChars s).map fun (chars, rest) => (String.ofList chars, rest)

/-- Skips a string whose opening quote has been taken. Surrogates need not pair up. -/
def skipString : List Char → Except Failure (List Char)
  | [] => stop .endInString []
  | '"' :: rest => .ok rest
  | '\\' :: 'u' :: a :: b :: c :: d :: rest =>
    match hexUnit? a b c d with
    | none => badHex (a :: b :: c :: d :: rest)
    | some _ => skipString rest
  | '\\' :: 'u' :: rest => badHex rest
  | '\\' :: [] => stop .endInString []
  | '\\' :: c :: rest =>
    match simpleEscape? c with
    | none => stopPast .invalidEscape (c :: rest)
    | some _ => skipString rest
  | c :: rest =>
    if c < ' ' then stop .controlCharacter (c :: rest) else skipString rest

end LuaStubs.Json
