import LuaStubs.Api.Basic
import LuaStubs.NameMap

/-! The catalog of a description: its entries by name, the globals by the class that they expose,
the element types of concepts that double as arrays, and the paths of all constants. -/

namespace LuaStubs

inductive CatalogError where
  | complexGlobal (name : String)

namespace CatalogError

def message : CatalogError → String
  | complexGlobal name => "Global object `" ++ name ++ "` does not have a plain type name"

def code : CatalogError → String
  | complexGlobal _ => "schema::complex_global"

def help? : CatalogError → Option String
  | complexGlobal _ => some "Global objects must refer to a class by name."

end CatalogError

structure Catalog where
  classes : NameMap Api.Class
  events : NameMap Api.Event
  concepts : NameMap Api.Concept
  builtins : NameMap Api.Builtin
  globals : NameMap Api.Global
  elements : NameMap Api.TypeExpr
  paths : List String

def constantRoot : String := "defines"

mutual

/-- The paths of a node, of its values and of the nodes below it, in the order of the document. -/
def Api.Constant.paths (parent : String) : Api.Constant → List String
  | ⟨name, _, _, values, subkeys⟩ =>
    (parent ++ "." ++ name) :: values.map (fun v => parent ++ "." ++ name ++ "." ++ v.name)
      ++ constantPaths (parent ++ "." ++ name) subkeys

def constantPaths (parent : String) : List Api.Constant → List String
  | [] => []
  | node :: rest => node.paths parent ++ constantPaths parent rest

end

def Api.Shape.firstType? (shape : Api.Shape) : Option Api.TypeExpr :=
  (sortOn (·.order) shape.parameters).head?.map (·.type)

def Api.Concept.elementType? (concept : Api.Concept) : Option Api.TypeExpr :=
  match concept.kind with
  | .tableOrArray shape => shape.firstType?
  | _ => none

namespace Catalog

/-- The globals with the names of the types they expose, which have to be plain names. -/
def exposed : List Api.Global → Except CatalogError (List (String × Api.Global))
  | [] => .ok []
  | global :: rest =>
    match global.type with
    | .named type => do
      let others ← exposed rest
      return (type, global) :: others
    | _ => .error (.complexGlobal global.name)

def ofEntries (document : Api.Document) (globals : List (String × Api.Global)) : Catalog where
  classes := .ofList (document.classes.map fun c => (c.name, c))
  events := .ofList (document.events.map fun e => (e.name, e))
  concepts := .ofList (document.concepts.map fun c => (c.name, c))
  builtins := .ofList (document.builtins.map fun b => (b.name, b))
  globals := .ofList globals
  elements := .ofList (document.concepts.filterMap fun c =>
    c.elementType?.map fun type => (c.name, type))
  paths := distinct (constantRoot :: constantPaths constantRoot document.constants)

def ofDocument (document : Api.Document) : Except CatalogError Catalog := do
  let globals ← exposed document.globals
  return ofEntries document globals

end Catalog

end LuaStubs
