import LuaStubs.Json.Numeral

/-! Arrays and objects of a JSON text: what may follow where, and whole values read as trees or
skipped.

Every loop over the items of a container is given the length of the whole text, which no container
exceeds in items, and every descent into one the levels that are still allowed. -/

namespace LuaStubs.Json

/-- How much a reader may do: the length of the text, and the levels of nesting left. -/
structure Limits where
  length : Nat
  depth : Nat

/-- The value of a text is read with at most this many levels of arrays and objects. -/
def deepest : Nat := 127

/-! What follows inside a container. -/

/-- Looks for an item of an array: the text from the item on, or the text from the bracket on. -/
def nextItem (first : Bool) (s : List Char) : Except Failure (Bool × List Char) :=
  match skipBlank s with
  | [] => stopPast .endInList []
  | c :: rest =>
    if c = ']' then .ok (false, c :: rest)
    else if first then .ok (true, c :: rest)
    else if c = ',' then
      match skipBlank rest with
      | [] => stopPast .endInValue []
      | d :: rest => if d = ']' then stopPast .trailingComma (d :: rest) else .ok (true, d :: rest)
    else stopPast .expectedCommaInList (c :: rest)

/-- Looks for a key of an object: the key, or none at the closing bracket. -/
def nextKey (first : Bool) (s : List Char) : Except Failure (Option String × List Char) :=
  match skipBlank s with
  | [] => stopPast .endInObject []
  | c :: rest =>
    if c = '\x7d' then .ok (none, c :: rest)
    else if first then key c rest
    else if c = ',' then
      match skipBlank rest with
      | [] => stopPast .endInValue []
      | d :: rest => if d = '\x7d' then stopPast .trailingComma (d :: rest) else key d rest
    else stopPast .expectedCommaInObject (c :: rest)
where
  key (c : Char) (rest : List Char) : Except Failure (Option String × List Char) :=
    if c = '"' then (readString rest).map fun (key, rest) => (some key, rest)
    else stopPast .keyNotString (c :: rest)

def takeColon (s : List Char) : Except Failure (List Char) :=
  match skipBlank s with
  | [] => stopPast .endInObject []
  | c :: rest => if c = ':' then .ok rest else stopPast .expectedColon (c :: rest)

def readItems {α : Type} (item : List Char → Reading α) :
    Nat → Bool → List Char → Except Failure (List α × List Char)
  | 0, _, rest => stopPast .endInList rest
  | fuel + 1, first, rest => do
    match ← nextItem first rest with
    | (false, rest) => return ([], rest)
    | (true, rest) =>
      let (a, rest) ← item rest
      let (others, rest) ← readItems item fuel false rest
      return (a :: others, rest)

/-- Reads the members of an object as far as the closing bracket, each one changing a state. -/
def readMembers {σ : Type} (member : σ → String → List Char → Reading σ) :
    Nat → Bool → σ → List Char → Except Failure (σ × List Char)
  | 0, _, _, rest => stopPast .endInObject rest
  | fuel + 1, first, state, rest => do
    match ← nextKey first rest with
    | (none, rest) => return (state, rest)
    | (some key, rest) =>
      let (state, rest) ← member state key rest
      readMembers member fuel false state rest

def closeList (s : List Char) : Except Failure (List Char) :=
  match skipBlank s with
  | [] => stopPast .endInList []
  | c :: rest =>
    if c = ']' then .ok rest
    else if c = ',' then
      match skipBlank rest with
      | d :: rest =>
        if d = ']' then stopPast .trailingComma (d :: rest)
        else stopPast .trailingCharacters (d :: rest)
      | [] => stopPast .trailingCharacters []
    else stopPast .trailingCharacters (c :: rest)

def closeObject (s : List Char) : Except Failure (List Char) :=
  match skipBlank s with
  | [] => stopPast .endInObject []
  | c :: rest =>
    if c = '\x7d' then .ok rest
    else if c = ',' then stopPast .trailingComma (c :: rest)
    else stopPast .trailingCharacters (c :: rest)

/-- Places a floating failure behind the array in which it floats, as far as that can be told. -/
def Failure.settleInList : Failure → Failure
  | .located reason left => .located reason left
  | .floating reason rest =>
    .located reason <| Text.bytes <| match skipBlank rest with
      | [] => []
      | c :: rest =>
        if c = ']' then rest else if c = ',' then skipBlank rest else c :: rest

/-- Places a floating failure behind the object in which it floats, if it ends there. -/
def Failure.settleInObject : Failure → Failure
  | .located reason left => .located reason left
  | .floating reason rest =>
    .located reason <| Text.bytes <| match skipBlank rest with
      | [] => []
      | c :: rest => if c = '\x7d' then rest else c :: rest

def insideList {α : Type} (content : List Char → Reading α) (s : List Char) :
    Except Failure (α × List Char) := do
  let (a, rest) ← (content s).mapError Failure.settleInList
  let rest ← closeList rest
  return (a, rest)

def insideObject {α : Type} (content : List Char → Reading α) (s : List Char) :
    Except Failure (α × List Char) := do
  let (a, rest) ← (content s).mapError Failure.settleInObject
  let rest ← closeObject rest
  return (a, rest)

/-! Whole values. -/

def readScalar (s : List Char) : Except Failure (Value × List Char) :=
  match s with
  | [] => stopPast .endInValue []
  | c :: rest =>
    if c = '"' then (readString rest).map fun (text, rest) => (.string text, rest)
    else if c = 'n' then (takeLiteral ['u', 'l', 'l'] rest).map fun rest => (.null, rest)
    else if c = 't' then (takeLiteral ['r', 'u', 'e'] rest).map fun rest => (.bool true, rest)
    else if c = 'f' then
      (takeLiteral ['a', 'l', 's', 'e'] rest).map fun rest => (.bool false, rest)
    else if c = '-' || c.isDigit then
      (readNumber (c :: rest)).map fun (n, rest) => (.number n, rest)
    else stopPast .expectedValue (c :: rest)

def readMember (value : List Char → Reading Value) (members : List (String × Value))
    (key : String) (s : List Char) : Except Failure (List (String × Value) × List Char) := do
  let rest ← takeColon s
  let (v, rest) ← value rest
  return ((key, v) :: members, rest)

def readTree (length : Nat) : Nat → List Char → Reading Value
  | depth, s =>
    match skipBlank s with
    | '[' :: rest =>
      match depth with
      | 0 => stopPast .nestedTooDeep ('[' :: rest)
      | depth + 1 =>
        (insideList (readItems (readTree length depth) length true) rest).map
          fun (items, rest) => (.array items, rest)
    | '\x7b' :: rest =>
      match depth with
      | 0 => stopPast .nestedTooDeep ('\x7b' :: rest)
      | depth + 1 =>
        (insideObject (readMembers (readMember (readTree length depth)) length true []) rest).map
          fun (members, rest) => (.object members.reverse, rest)
    | s => readScalar s

def readValue (limits : Limits) (s : List Char) : Reading Value :=
  readTree limits.length limits.depth s

/-! Values that nobody asks for: their numbers and surrogates are not checked. -/

def skipScalar (s : List Char) : Except Failure (List Char) :=
  match s with
  | [] => stopPast .endInValue []
  | c :: rest =>
    if c = '"' then skipString rest
    else if c = 'n' then takeLiteral ['u', 'l', 'l'] rest
    else if c = 't' then takeLiteral ['r', 'u', 'e'] rest
    else if c = 'f' then takeLiteral ['a', 'l', 's', 'e'] rest
    else if c = '-' || c.isDigit then skipNumber (c :: rest)
    else stopPast .expectedValue (c :: rest)

/-- Skips what is left of an array, its bracket or the comma before an item being due first. -/
def skipItems (skip : List Char → Except Failure (List Char)) :
    Nat → Bool → List Char → Except Failure (List Char)
  | 0, _, rest => stopPast .endInList rest
  | fuel + 1, first, rest =>
    match skipBlank rest with
    | [] => stopPast .endInList []
    | c :: rest =>
      if c = ']' then .ok rest
      else if first then do
        let rest ← skip (c :: rest)
        skipItems skip fuel false rest
      else if c = ',' then do
        let rest ← skip rest
        skipItems skip fuel false rest
      else stopPast .expectedCommaInList (c :: rest)

def skipMember (skip : List Char → Except Failure (List Char)) (s : List Char) :
    Except Failure (List Char) :=
  match skipBlank s with
  | [] => stopPast .endInObject []
  | c :: rest =>
    if c = '"' then do
      let rest ← skipString rest
      let rest ← takeColon rest
      skip rest
    else stopPast .keyNotString (c :: rest)

def skipMembers (skip : List Char → Except Failure (List Char)) :
    Nat → Bool → List Char → Except Failure (List Char)
  | 0, _, rest => stopPast .endInObject rest
  | fuel + 1, first, rest =>
    match skipBlank rest with
    | [] => stopPast .endInObject []
    | c :: rest =>
      if c = '\x7d' then .ok rest
      else if first then do
        let rest ← skipMember skip (c :: rest)
        skipMembers skip fuel false rest
      else if c = ',' then do
        let rest ← skipMember skip rest
        skipMembers skip fuel false rest
      else stopPast .expectedCommaInObject (c :: rest)

/-- Skips a value; the nesting is bounded by the length of the text alone. -/
def skipTree (length : Nat) : Nat → List Char → Except Failure (List Char)
  | 0, s => stopPast .endInValue s
  | depth + 1, s =>
    match skipBlank s with
    | '[' :: rest => skipItems (skipTree length depth) length true rest
    | '\x7b' :: rest => skipMembers (skipTree length depth) length true rest
    | s => skipScalar s

def skipValue (limits : Limits) (s : List Char) : Except Failure (List Char) :=
  skipTree limits.length (limits.length + 1) s

end LuaStubs.Json
