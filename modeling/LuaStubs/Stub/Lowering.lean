import LuaStubs.Stub.Table

/-! Types in the syntax of annotations. A table without a name is called after its place and
declared into the backlog, once for each name; a table-or-array concept is written with the type of
its elements. -/

namespace LuaStubs

namespace Manual

def typeName (manual : Manual) (linked : Bool) (name : String) : Except StubError String :=
  if linked then manual.link name name else .ok name

/-- Declares a table under the name of its place, unless that name has been claimed before. -/
def lowerTable (manual : Manual) (fieldType : FieldType) (shape : Api.Shape) (place : Place) :
    Emission String := do
  if ← Emission.claim place.name then
    let fields := TableField.all appliesTo shape.parameters shape.groups
    let lines ← declareTable manual fieldType place place.link fields
    Emission.defer (lines ++ [.blank])
  return place.name

/-- Writes a type with at most the given depth. Links are for the outermost name only, and the types
inside stay plain. -/
def lowerWithin (manual : Manual) : Nat → Bool → Api.TypeExpr → Place → Emission String
  | 0, _, _, _ => throw .endlessType
  | depth + 1, linked, type, place =>
    let inner : FieldType := manual.lowerWithin depth false
    match type with
    | .named name =>
      match manual.catalog.elements.get? name with
      | none => manual.typeName linked name
      | some element => do
        let link ← manual.view name
        let element ← inner element (.element name link)
        let name ← manual.typeName linked name
        let index ← manual.typeName linked "int"
        return name ++ "<" ++ index ++ "," ++ element ++ ">"
    | .array value => do
      let value ← inner value place
      return value ++ "[]"
    | .dictionary key value => do
      let name ← manual.typeName linked "table"
      let key ← inner key place.key
      let value ← inner value place.value
      return name ++ "<" ++ key ++ "," ++ value ++ ">"
    | .variant options => do
      let options ← Emission.eachFrom (fun index option => inner option (place.option index)) 0
        options
      return "|".intercalate options
    | .lazyLoaded value => do
      let name ← manual.typeName linked "LuaLazyLoadedValue"
      let value ← inner value place
      return name ++ "<" ++ value ++ ",nil>"
    | .customTable key value => do
      let name ← manual.typeName linked "LuaCustomTable"
      let key ← inner key place.key
      let value ← inner value place.value
      return name ++ "<" ++ key ++ "," ++ value ++ ">"
    | .table shape => manual.lowerTable inner shape place
    | .function parameters => do
      let parameters ← Emission.eachFrom (fun index parameter => do
        let type ← inner parameter (place.parameter (index + 1))
        return "param" ++ toString (index + 1) ++ ":" ++ type) 0 parameters
      return "fun(" ++ ",".intercalate parameters ++ ")"

end Manual

/-! How deep the writing of a type can go. -/

mutual

/-- The tables without a name inside a type, itself included. -/
def Api.TypeExpr.tables : Api.TypeExpr → Nat
  | .named _ => 0
  | .array value => value.tables
  | .dictionary key value => key.tables + value.tables
  | .variant options => tablesOfTypes options
  | .lazyLoaded value => value.tables
  | .customTable key value => key.tables + value.tables
  | .table shape => shape.tables + 1
  | .function parameters => tablesOfTypes parameters

def tablesOfTypes : List Api.TypeExpr → Nat
  | [] => 0
  | type :: rest => type.tables + tablesOfTypes rest

def Api.Shape.tables : Api.Shape → Nat
  | ⟨parameters, groups, _⟩ => tablesOfParameters parameters + tablesOfGroups groups

def tablesOfParameters : List Api.Parameter → Nat
  | [] => 0
  | p :: rest => p.tables + tablesOfParameters rest

def Api.Parameter.tables : Api.Parameter → Nat
  | ⟨_, _, _, type, _⟩ => type.tables

def tablesOfGroups : List Api.Group → Nat
  | [] => 0
  | g :: rest => g.tables + tablesOfGroups rest

def Api.Group.tables : Api.Group → Nat
  | ⟨_, _, _, parameters⟩ => tablesOfParameters parameters

end

mutual

/-- The levels of a type, a name being one level. -/
def Api.TypeExpr.height : Api.TypeExpr → Nat
  | .named _ => 1
  | .array value => value.height + 1
  | .dictionary key value => max key.height value.height + 1
  | .variant options => heightOfTypes options + 1
  | .lazyLoaded value => value.height + 1
  | .customTable key value => max key.height value.height + 1
  | .table shape => shape.height + 1
  | .function parameters => heightOfTypes parameters + 1

def heightOfTypes : List Api.TypeExpr → Nat
  | [] => 0
  | type :: rest => max type.height (heightOfTypes rest)

def Api.Shape.height : Api.Shape → Nat
  | ⟨parameters, groups, _⟩ => max (heightOfParameters parameters) (heightOfGroups groups)

def heightOfParameters : List Api.Parameter → Nat
  | [] => 0
  | p :: rest => max p.height (heightOfParameters rest)

def Api.Parameter.height : Api.Parameter → Nat
  | ⟨_, _, _, type, _⟩ => type.height

def heightOfGroups : List Api.Group → Nat
  | [] => 0
  | g :: rest => max g.height (heightOfGroups rest)

def Api.Group.height : Api.Group → Nat
  | ⟨_, _, _, parameters⟩ => heightOfParameters parameters

end

namespace Catalog

def elementTypes (catalog : Catalog) : List Api.TypeExpr :=
  catalog.elements.map (·.2)

/-- A depth that the writing of a type keeps to. Each table on the way down claims a name of its
own, of which there are no more than tables; between two of them each concept is entered at most
once; and inside a concept the way goes down through its element type. -/
def depthFor (catalog : Catalog) (type : Api.TypeExpr) : Nat :=
  (type.tables + tablesOfTypes catalog.elementTypes + 1) * (catalog.elements.length + 1)
    * (max type.height (heightOfTypes catalog.elementTypes) + 1)

end Catalog

def Manual.lower (manual : Manual) (linked : Bool) (type : Api.TypeExpr) (place : Place) :
    Emission String :=
  manual.lowerWithin (manual.catalog.depthFor type) linked type place

end LuaStubs
