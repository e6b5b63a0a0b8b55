import LuaStubs.Json.Reader

/-! Decoders: what a part of a document has to look like. A decoder reads a value straight from the
text, and takes one out of a tree that has been read before; the two agree on which values they
accept, and differ in how they place what is wrong. -/

namespace LuaStubs.Json

/-- Where a tree comes from: out of a buffer of members set aside, or out of a concept's body. -/
inductive Origin where
  | buffer
  | body
  deriving DecidableEq

structure Decoder (α : Type) where
  read : Limits → List Char → Except Failure (α × List Char)
  ofValue : Origin → Value → Except Reason α

def refuseScalar {α : Type} (expected : String) (s : List Char) : Except Failure α := do
  let (v, rest) ← readScalar s
  stop (.invalidType v.found expected) rest

/-- Refuses the value at the head of the text, right behind a scalar or right before a bracket. -/
def refuse {α : Type} (expected : String) (s : List Char) : Except Failure α :=
  match s with
  | '[' :: rest => stop (.invalidType .sequence expected) ('[' :: rest)
  | '\x7b' :: rest => stop (.invalidType .map expected) ('\x7b' :: rest)
  | s => refuseScalar expected s

namespace Decoder

/-- Accepts a scalar by its value; the place of a refusal is right behind it. -/
def scalar {α : Type} (expected : String) (accept : Value → Except Reason α) : Decoder α where
  read _ s :=
    match skipBlank s with
    | '[' :: rest => refuse expected ('[' :: rest)
    | '\x7b' :: rest => refuse expected ('\x7b' :: rest)
    | s => do
      let (v, rest) ← readScalar s
      match accept v with
      | .ok a => return (a, rest)
      | .error reason => stop reason rest
  ofValue _ v := accept v

def acceptText : Value → Except Reason String
  | .string text => .ok text
  | v => .error (.invalidType v.found "a string")

def text : Decoder String :=
  scalar "a string" acceptText

def acceptFlag : Value → Except Reason Bool
  | .bool b => .ok b
  | v => .error (.invalidType v.found "a boolean")

def flag : Decoder Bool :=
  scalar "a boolean" acceptFlag

def acceptNatural (bits : Nat) (expected : String) : Value → Except Reason Nat
  | .number (.integer i) =>
    if 0 ≤ i ∧ i < Nat.pow 2 bits then .ok i.toNat else .error (.invalidValue (.integer i) expected)
  | v => .error (.invalidType v.found expected)

def orderKey : Decoder Nat :=
  scalar "u32" (acceptNatural 32 "u32")

def version : Decoder Nat :=
  scalar "u64" (acceptNatural 64 "u64")

def allOf {α : Type} (item : Value → Except Reason α) : List Value → Except Reason (List α)
  | [] => .ok []
  | v :: rest => do
    let a ← item v
    let others ← allOf item rest
    return a :: others

def list {α : Type} (item : Decoder α) : Decoder (List α) where
  read limits s :=
    match skipBlank s with
    | '[' :: rest =>
      match limits.depth with
      | 0 => stopPast .nestedTooDeep ('[' :: rest)
      | depth + 1 =>
        insideList (readItems (item.read ⟨limits.length, depth⟩) limits.length true) rest
    | s => refuse "a sequence" s
  ofValue origin v :=
    match v with
    | .array items => allOf (item.ofValue origin) items
    | v => .error (.invalidType v.found "a sequence")

def optional {α : Type} (item : Decoder α) : Decoder (Option α) where
  read limits s :=
    match skipBlank s with
    | 'n' :: rest => (takeLiteral ['u', 'l', 'l'] rest).map fun rest => (none, rest)
    | s => (item.read limits s).map fun (a, rest) => (some a, rest)
  ofValue origin v :=
    match v with
    | .null => .ok none
    | v => (item.ofValue origin v).map some

/-- A value that is read as a tree first; the place of a refusal is left to its surroundings. -/
def ofTree {α : Type} (accept : Value → Except Reason α) : Decoder α where
  read limits s := do
    let (v, rest) ← readValue limits s
    match accept v with
    | .ok a => return (a, rest)
    | .error reason => .error (.floating reason rest)
  ofValue _ v := accept v

def parse {α : Type} (decoder : Decoder α) (source : String) : Except Fault α :=
  let chars := source.toList
  let reading : Except Failure α := do
    let (a, rest) ← decoder.read ⟨chars.length, deepest⟩ chars
    match skipBlank rest with
    | [] => return a
    | rest => stopPast .trailingCharacters rest
  reading.mapError (·.fault chars)

end Decoder

end LuaStubs.Json
