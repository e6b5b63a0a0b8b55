import LuaStubs.Text.Chars

/-! JSON values as trees. An object keeps its members as they are written, repeated keys included;
its normal form has each key once, with the last value given to it, in the order of the keys. -/

namespace LuaStubs.Json

/-- A number is an integer when it is written without point and exponent and fits 64 bits. -/
inductive Number where
  | integer (value : Int)
  | real (value : Float)

inductive Value where
  | null
  | bool (value : Bool)
  | number (value : Number)
  | string (value : String)
  | array (items : List Value)
  | object (members : List (String × Value))

def assign {α : Type} (key : String) (value : α) : List (String × α) → List (String × α)
  | [] => [(key, value)]
  | (other, old) :: rest =>
    if key = other then (key, value) :: rest
    else if key < other then (key, value) :: (other, old) :: rest
    else (other, old) :: assign key value rest

/-- The members with each key once, the last value kept, in the order of the keys. -/
def assignAll {α : Type} (members : List (String × α)) : List (String × α) :=
  members.foldl (fun done (key, value) => assign key value done) []

mutual

/-- The levels of arrays and objects, a scalar being one level. -/
def Value.height : Value → Nat
  | .array items => heightOfItems items + 1
  | .object members => heightOfMembers members + 1
  | _ => 1

def heightOfItems : List Value → Nat
  | [] => 0
  | v :: rest => max v.height (heightOfItems rest)

def heightOfMembers : List (String × Value) → Nat
  | [] => 0
  | (_, v) :: rest => max v.height (heightOfMembers rest)

end

mutual

def Value.normal : Value → Value
  | .array items => .array (normalItems items)
  | .object members => .object (assignAll (normalMembers members))
  | v => v

def normalItems : List Value → List Value
  | [] => []
  | v :: rest => v.normal :: normalItems rest

def normalMembers : List (String × Value) → List (String × Value)
  | [] => []
  | (key, v) :: rest => (key, v.normal) :: normalMembers rest

end

/-! Texts as they are printed. In a string the quote, the backslash and the control characters are
escaped, and all else stands as it is. -/

def escapedChar (c : Char) : List Char :=
  if c = '"' then ['\\', '"']
  else if c = '\\' then ['\\', '\\']
  else if c = '\x08' then ['\\', 'b']
  else if c = '\t' then ['\\', 't']
  else if c = '\n' then ['\\', 'n']
  else if c = '\x0c' then ['\\', 'f']
  else if c = '\r' then ['\\', 'r']
  else if c < ' ' then
    ['\\', 'u', '0', '0', Text.hexDigit (c.toNat / 16), Text.hexDigit (c.toNat % 16)]
  else [c]

def printString (text : String) : List Char :=
  '"' :: text.toList.flatMap escapedChar ++ ['"']

def commaSeparated : List (List Char) → List Char
  | [] => []
  | [item] => item
  | item :: rest => item ++ ',' :: commaSeparated rest

def printStrings (texts : List String) : List Char :=
  '[' :: commaSeparated (texts.map printString) ++ [']']

end LuaStubs.Json
