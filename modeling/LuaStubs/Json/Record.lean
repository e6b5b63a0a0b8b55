import LuaStubs.Json.Decoder

/-! Records: JSON objects with known keys. A record is a row of fields, each with its key, its
decoder and what it is when absent. Members may come in any order; a key that is not in the row is
ignored, or set aside if the record has further parts to be read out of such members. -/

namespace LuaStubs.Json

/-- The fields of a record, in the order in which they are declared. -/
inductive Fields : List Type → Type 1 where
  | nil : Fields []
  | cons {α : Type} {αs : List Type} (key : String) (decoder : Decoder α) (absent : Option α)
      (others : Fields αs) : Fields (α :: αs)

@[reducible]
def Values : List Type → Type
  | [] => Unit
  | α :: αs => α × Values αs

@[reducible]
def Slots : List Type → Type
  | [] => Unit
  | α :: αs => Option α × Slots αs

namespace Fields

def required {α : Type} {αs : List Type} (key : String) (decoder : Decoder α)
    (others : Fields αs) : Fields (α :: αs) :=
  .cons key decoder none others

def default {α : Type} {αs : List Type} (key : String) (decoder : Decoder α) (absent : α)
    (others : Fields αs) : Fields (α :: αs) :=
  .cons key decoder (some absent) others

def count {αs : List Type} : Fields αs → Nat
  | .nil => 0
  | .cons _ _ _ others => others.count + 1

def vacant {αs : List Type} : Fields αs → Slots αs
  | .nil => ()
  | .cons _ _ _ others => (none, others.vacant)

def put {αs : List Type} (origin : Origin) (key : String) (v : Value) :
    Fields αs → Slots αs → Except Reason (Slots αs)
  | .nil, slots => .ok slots
  | .cons own decoder _ others, (slot, slots) =>
    if key = own then
      match slot with
      | some _ => .error (.duplicateField own)
      | none => do
        let a ← decoder.ofValue origin v
        return (some a, slots)
    else do
      let slots ← others.put origin key v slots
      return (slot, slots)

def putAll {αs : List Type} (origin : Origin) (fields : Fields αs) :
    List (String × Value) → Slots αs → Except Reason (Slots αs)
  | [], slots => .ok slots
  | (key, v) :: rest, slots => do
    let slots ← fields.put origin key v slots
    fields.putAll origin rest slots

def has {αs : List Type} (key : String) : Fields αs → Bool
  | .nil => false
  | .cons own _ _ others => key = own || others.has key

/-- Reads a value into the slot of its key, the text beginning behind the key. -/
def readInto {αs : List Type} (limits : Limits) (key : String) (s : List Char) :
    Fields αs → Slots αs → Except Failure (Slots αs × List Char)
  | .nil, slots => .ok (slots, s)
  | .cons own decoder _ others, (slot, slots) =>
    if key = own then
      match slot with
      | some _ => .error (.floating (.duplicateField own) s)
      | none => do
        let rest ← takeColon s
        let (a, rest) ← decoder.read limits rest
        return ((some a, slots), rest)
    else do
      let (slots, rest) ← others.readInto limits key s slots
      return ((slot, slots), rest)

def complete {αs : List Type} : Fields αs → Slots αs → Except Reason (Values αs)
  | .nil, _ => .ok ()
  | .cons key _ absent others, (slot, slots) =>
    match slot.or absent with
    | none => .error (.missingField key)
    | some a => do
      let values ← others.complete slots
      return (a, values)

/-- Takes the values of the fields from a list in order; trailing ones may be absent. -/
def ofList {αs : List Type} (origin : Origin) (index : Nat) (tooShort : String) :
    Fields αs → List Value → Except Reason (Values αs × List Value)
  | .nil, items => .ok ((), items)
  | .cons _ _ absent others, [] =>
    match absent with
    | none => .error (.invalidLength index tooShort)
    | some a => do
      let (values, items) ← others.ofList origin (index + 1) tooShort []
      return ((a, values), items)
  | .cons _ decoder _ others, v :: items => do
    let a ← decoder.ofValue origin v
    let (values, items) ← others.ofList origin (index + 1) tooShort items
    return ((a, values), items)

def readList {αs : List Type} (limits : Limits) (index : Nat) (tooShort : String) :
    Fields αs → List Char → Except Failure (Values αs × List Char)
  | .nil, s => .ok ((), s)
  | .cons _ decoder absent others, s => do
    match ← nextItem (index == 0) s, absent with
    | (false, rest), none => .error (.floating (.invalidLength index tooShort) rest)
    | (false, rest), some a =>
      let (values, rest) ← others.readList limits (index + 1) tooShort rest
      return ((a, values), rest)
    | (true, rest), _ =>
      let (a, rest) ← decoder.read limits rest
      let (values, rest) ← others.readList limits (index + 1) tooShort rest
      return ((a, values), rest)

end Fields

def counted (count : Nat) : String :=
  toString count ++ (if count = 1 then " element" else " elements")

/-! Closed records: all keys are known, and an array of the values in order will do as well. -/

structure Record (ρ : Type) where
  name : String
  types : List Type
  fields : Fields types
  build : Values types → ρ

namespace Record

def expected {ρ : Type} (r : Record ρ) : String := "struct " ++ r.name

def tooShort {ρ : Type} (r : Record ρ) : String :=
  r.expected ++ " with " ++ counted r.fields.count

def ofMembers {ρ : Type} (r : Record ρ) (origin : Origin) (members : List (String × Value)) :
    Except Reason ρ := do
  let slots ← r.fields.putAll origin members r.fields.vacant
  let values ← r.fields.complete slots
  return r.build values

def tooLong (origin : Origin) (count total : Nat) : Reason :=
  .invalidLength total <| match origin with
    | .buffer => counted count ++ " in sequence"
    | .body => "fewer elements in array"

def ofItems {ρ : Type} (r : Record ρ) (origin : Origin) (items : List Value) :
    Except Reason ρ := do
  match ← r.fields.ofList origin 0 r.tooShort items with
  | (values, []) => return r.build values
  | (_, _ :: _) => .error (tooLong origin r.fields.count items.length)

def ofValue {ρ : Type} (r : Record ρ) (origin : Origin) : Value → Except Reason ρ
  | .object members => r.ofMembers origin members
  | .array items => r.ofItems origin items
  | v => .error (.invalidType v.found r.expected)

def readMember {ρ : Type} (r : Record ρ) (limits : Limits) (slots : Slots r.types) (key : String)
    (s : List Char) : Except Failure (Slots r.types × List Char) :=
  if r.fields.has key then r.fields.readInto limits key s slots
  else do
    let rest ← takeColon s
    let rest ← skipValue limits rest
    return (slots, rest)

def readObject {ρ : Type} (r : Record ρ) (limits : Limits) (s : List Char) :
    Except Failure (ρ × List Char) := do
  let (slots, rest) ← readMembers (r.readMember limits) limits.length true r.fields.vacant s
  match r.fields.complete slots with
  | .ok values => return (r.build values, rest)
  | .error reason => .error (.floating reason rest)

def read {ρ : Type} (r : Record ρ) (limits : Limits) (s : List Char) :
    Except Failure (ρ × List Char) :=
  match skipBlank s with
  | '[' :: rest =>
    match limits.depth with
    | 0 => stopPast .nestedTooDeep ('[' :: rest)
    | depth + 1 =>
      (insideList (r.fields.readList ⟨limits.length, depth⟩ 0 r.tooShort) rest).map
        fun (values, rest) => (r.build values, rest)
  | '\x7b' :: rest =>
    match limits.depth with
    | 0 => stopPast .nestedTooDeep ('\x7b' :: rest)
    | depth + 1 => insideObject (r.readObject ⟨limits.length, depth⟩) rest
  | s => refuse r.expected s

def decoder {ρ : Type} (r : Record ρ) : Decoder ρ where
  read := r.read
  ofValue := r.ofValue

end Record

/-! Open records: members with other keys are set aside in a buffer, and the rest of the record is
taken out of it when the object ends. Such a record is always an object. -/

structure OpenRecord (ρ : Type) where
  name : String
  types : List Type
  fields : Fields types
  Rest : Type
  rest : List (String × Value) → Except Reason Rest
  build : Values types → Rest → ρ

namespace OpenRecord

def expected {ρ : Type} (r : OpenRecord ρ) : String := "struct " ++ r.name

def complete {ρ : Type} (r : OpenRecord ρ) (slots : Slots r.types)
    (others : List (String × Value)) : Except Reason ρ := do
  let values ← r.fields.complete slots
  let rest ← r.rest others
  return r.build values rest

def ofValue {ρ : Type} (r : OpenRecord ρ) (origin : Origin) : Value → Except Reason ρ
  | .object members => do
    let slots ← r.fields.putAll origin members r.fields.vacant
    r.complete slots (members.filter fun (key, _) => !r.fields.has key)
  | v => .error (.invalidType v.found r.expected)

def readMember {ρ : Type} (r : OpenRecord ρ) (limits : Limits)
    (state : Slots r.types × List (String × Value)) (key : String) (s : List Char) :
    Except Failure ((Slots r.types × List (String × Value)) × List Char) :=
  let (slots, others) := state
  if r.fields.has key then
    (r.fields.readInto limits key s slots).map fun (slots, rest) => ((slots, others), rest)
  else
    (Json.readMember (readValue limits) others key s).map
      fun (others, rest) => ((slots, others), rest)

def readObject {ρ : Type} (r : OpenRecord ρ) (limits : Limits) (s : List Char) :
    Except Failure (ρ × List Char) := do
  let ((slots, others), rest) ← readMembers (r.readMember limits) limits.length true
    (r.fields.vacant, []) s
  match r.complete slots others.reverse with
  | .ok record => return (record, rest)
  | .error reason => .error (.floating reason rest)

def read {ρ : Type} (r : OpenRecord ρ) (limits : Limits) (s : List Char) :
    Except Failure (ρ × List Char) :=
  match skipBlank s with
  | '\x7b' :: rest =>
    match limits.depth with
    | 0 => stopPast .nestedTooDeep ('\x7b' :: rest)
    | depth + 1 => insideObject (r.readObject ⟨limits.length, depth⟩) rest
  | s => refuse r.expected s

def decoder {ρ : Type} (r : OpenRecord ρ) : Decoder ρ where
  read := r.read
  ofValue := r.ofValue

end OpenRecord

end LuaStubs.Json
