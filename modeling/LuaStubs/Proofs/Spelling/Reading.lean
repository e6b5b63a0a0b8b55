import LuaStubs.Stub.Lowering

/-! Annotations, as they are written for types without tables, and as they are read: brackets bind
to what stands directly before them, more tightly than the bars between alternatives. -/

namespace LuaStubs

/-- One of several types; of a single one it is this type. -/
def oneOf : List Api.TypeExpr → Api.TypeExpr
  | [only] => only
  | options => .variant options

namespace Spelling

/-- The characters that give structure to an annotation. -/
def marks : List Char := ['<', '>', ',', '|', '(', ')', '[', ']']

/-- A character that can stand in a name. -/
def isPlain (c : Char) : Bool := c ∉ marks

/-! Reading. -/

def readSuffixes (type : Api.TypeExpr) : List Char → Api.TypeExpr × List Char
  | '[' :: ']' :: rest => readSuffixes (.array type) rest
  | rest => (type, rest)

def generic? (name : String) (first second : Api.TypeExpr) : Option Api.TypeExpr :=
  match name, second with
  | "table", second => some (.dictionary first second)
  | "LuaCustomTable", second => some (.customTable first second)
  | "LuaLazyLoadedValue", .named "nil" => some (.lazyLoaded first)
  | _, _ => none

def behind? (start s : List Char) : Option (List Char) :=
  if start.isPrefixOf s then some (s.drop start.length) else none

/-- The name of a parameter of a function, before its type. -/
def label (index : Nat) : List Char :=
  ("param" ++ toString (index + 1) ++ ":").toList

mutual

/-- Reads alternatives up to where no bar follows. -/
def readAlternatives : Nat → List Char → Option (List Api.TypeExpr × List Char)
  | 0, _ => none
  | fuel + 1, s => do
    let (first, rest) ← readPrimary fuel s
    resume fuel first rest

/-- Reads on behind the beginning of an alternative. -/
def resume : Nat → Api.TypeExpr → List Char → Option (List Api.TypeExpr × List Char)
  | 0, _, _ => none
  | fuel + 1, first, s =>
    match readSuffixes first s with
    | (first, '|' :: rest) => do
      let (others, rest) ← readAlternatives fuel rest
      return (first :: others, rest)
    | (first, rest) => some ([first], rest)

def readPrimary : Nat → List Char → Option (Api.TypeExpr × List Char)
  | 0, _ => none
  | fuel + 1, s =>
    let name := s.takeWhile isPlain
    match s.dropWhile isPlain with
    | '<' :: rest => do
      let (first, rest) ← readAlternatives fuel rest
      let rest ← behind? [','] rest
      let (second, rest) ← readAlternatives fuel rest
      let rest ← behind? ['>'] rest
      let type ← generic? (String.ofList name) (oneOf first) (oneOf second)
      return (type, rest)
    | '(' :: rest => do
      let (parameters, rest) ← readParameters fuel 0 rest
      if name = "fun".toList then some (.function parameters, rest) else none
    | rest => if name.isEmpty then none else some (.named (String.ofList name), rest)

/-- Reads the parameters of a function from an index on, with the parenthesis behind them. -/
def readParameters : Nat → Nat → List Char → Option (List Api.TypeExpr × List Char)
  | 0, _, _ => none
  | _ + 1, 0, ')' :: rest => some ([], rest)
  | fuel + 1, index, s => do
    let rest ← behind? (label index) s
    let (type, rest) ← readAlternatives fuel rest
    match rest with
    | ')' :: rest => return ([oneOf type], rest)
    | ',' :: rest => do
      let (others, rest) ← readParameters fuel (index + 1) rest
      return (oneOf type :: others, rest)
    | _ => none

end

def read (text : String) : Option Api.TypeExpr :=
  match readAlternatives (2 * text.toList.length + 2) text.toList with
  | some (alternatives, []) => some (oneOf alternatives)
  | _ => none

end Spelling

/-! Writing. -/

/-- What stands behind the name of a type with two others inside. -/
def Spelling.inside (first second : String) : String :=
  "<" ++ first ++ "," ++ second ++ ">"

def Spelling.generic (name first second : String) : String :=
  name ++ inside first second

mutual

/-- A type as it is written, if there are no tables in it. -/
def Api.TypeExpr.spelling : Api.TypeExpr → String
  | .named name => name
  | .array value => value.spelling ++ "[]"
  | .dictionary key value => Spelling.generic "table" key.spelling value.spelling
  | .variant options => "|".intercalate (spellingsOfTypes options)
  | .lazyLoaded value => Spelling.generic "LuaLazyLoadedValue" value.spelling "nil"
  | .customTable key value => Spelling.generic "LuaCustomTable" key.spelling value.spelling
  | .table _ => ""
  | .function parameters => "fun(" ++ ",".intercalate (spellingsOfParameters 0 parameters) ++ ")"

def spellingsOfTypes : List Api.TypeExpr → List String
  | [] => []
  | type :: rest => type.spelling :: spellingsOfTypes rest

def spellingsOfParameters (index : Nat) : List Api.TypeExpr → List String
  | [] => []
  | type :: rest =>
    ("param" ++ toString (index + 1) ++ ":" ++ type.spelling)
      :: spellingsOfParameters (index + 1) rest

end

/-! Meaning. -/

mutual

/-- The alternatives of a type, without variants inside variants and without variants of one option.
What an array of alternatives is, is given. -/
def Api.TypeExpr.alternatives (arrayOf : List Api.TypeExpr → List Api.TypeExpr) :
    Api.TypeExpr → List Api.TypeExpr
  | .named name => [.named name]
  | .array value => arrayOf (value.alternatives arrayOf)
  | .dictionary key value =>
    [.dictionary (oneOf (key.alternatives arrayOf)) (oneOf (value.alternatives arrayOf))]
  | .variant options => alternativesOfTypes arrayOf options
  | .lazyLoaded value => [.lazyLoaded (oneOf (value.alternatives arrayOf))]
  | .customTable key value =>
    [.customTable (oneOf (key.alternatives arrayOf)) (oneOf (value.alternatives arrayOf))]
  | .table shape => [.table shape]
  | .function parameters => [.function (eachOfTypes arrayOf parameters)]

def alternativesOfTypes (arrayOf : List Api.TypeExpr → List Api.TypeExpr) :
    List Api.TypeExpr → List Api.TypeExpr
  | [] => []
  | type :: rest => type.alternatives arrayOf ++ alternativesOfTypes arrayOf rest

def eachOfTypes (arrayOf : List Api.TypeExpr → List Api.TypeExpr) :
    List Api.TypeExpr → List Api.TypeExpr
  | [] => []
  | type :: rest => oneOf (type.alternatives arrayOf) :: eachOfTypes arrayOf rest

end

/-- An array whose values may each be any of the alternatives. -/
def arrayOfAny (alternatives : List Api.TypeExpr) : List Api.TypeExpr :=
  [.array (oneOf alternatives)]

/-- Brackets behind alternatives: only the last one is an array. -/
def arrayOfLast : List Api.TypeExpr → List Api.TypeExpr
  | [] => []
  | [last] => [.array last]
  | first :: rest => first :: arrayOfLast rest

/-- A type without variants inside variants and without variants of one option. -/
def Api.TypeExpr.meaning (type : Api.TypeExpr) : Api.TypeExpr :=
  oneOf (type.alternatives arrayOfAny)

/-- The type that the annotation of a type says. -/
def Api.TypeExpr.asRead (type : Api.TypeExpr) : Api.TypeExpr :=
  oneOf (type.alternatives arrayOfLast)

mutual

/-- The values of all arrays have a single alternative. -/
def Api.TypeExpr.ArraysOfOne : Api.TypeExpr → Prop
  | .named _ => True
  | .array value => (value.alternatives arrayOfAny).length = 1 ∧ value.ArraysOfOne
  | .dictionary key value => key.ArraysOfOne ∧ value.ArraysOfOne
  | .variant options => arraysOfOneInTypes options
  | .lazyLoaded value => value.ArraysOfOne
  | .customTable key value => key.ArraysOfOne ∧ value.ArraysOfOne
  | .table _ => True
  | .function parameters => arraysOfOneInTypes parameters

def arraysOfOneInTypes : List Api.TypeExpr → Prop
  | [] => True
  | type :: rest => type.ArraysOfOne ∧ arraysOfOneInTypes rest

end

mutual

/-- A type without tables. Its names are not empty, stand for themselves and cannot be taken for
something else, and its variants have options. -/
def Api.TypeExpr.Simple (elements : NameMap Api.TypeExpr) : Api.TypeExpr → Prop
  | .named name =>
    name ≠ "" ∧ (∀ c ∈ name.toList, c ∉ Spelling.marks) ∧ elements.get? name = none
  | .array value => value.Simple elements
  | .dictionary key value => key.Simple elements ∧ value.Simple elements
  | .variant options => options ≠ [] ∧ simpleTypes elements options
  | .lazyLoaded value => value.Simple elements
  | .customTable key value => key.Simple elements ∧ value.Simple elements
  | .table _ => False
  | .function parameters => simpleTypes elements parameters

def simpleTypes (elements : NameMap Api.TypeExpr) : List Api.TypeExpr → Prop
  | [] => True
  | type :: rest => type.Simple elements ∧ simpleTypes elements rest

end

end LuaStubs
