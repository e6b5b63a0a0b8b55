import LuaStubs.Catalog
import LuaStubs.Stub.Line
import LuaStubs.Settings.Basic

/-! What stands in a stub file besides comments, read off a description: the lines of code, and the
heads of the classes that its sections declare, each with the types that the class extends. -/

namespace LuaStubs

/-- Blocks of entries put in order by the keys before them. -/
def inOrder {α : Type} (blocks : List (Nat × List α)) : List α :=
  (sortOn (·.1) blocks).flatMap (·.2)

def functionCode (name : String) (arguments : List String) : String :=
  name ++ "=function(" ++ ",".intercalate arguments ++ ")end,"

namespace Api

/-- The parameters in order, and after them a mark for further ones. -/
def Signature.arguments (s : Signature) : List String :=
  (sortOn (·.order) s.parameters).map (Identifier.escapeKeyword ·.name)
    ++ if s.variadicType.isSome then ["..."] else []

def Method.code (m : Method) : String :=
  functionCode m.name (if m.signature.takesTable then ["param"] else m.signature.arguments)

def Method.heads (owner : String) (m : Method) : List (String × List String) :=
  if m.signature.takesTable then [(owner ++ "." ++ m.name ++ "_param", [])] else []

def Operator.callCode (o : Operator) : String :=
  functionCode "__call" o.signature.arguments

/-- Whether a global object is of a type with the given name. -/
def Global.exposes (name : String) (g : Global) : Bool :=
  match g.type with
  | .named type => type == name
  | _ => false

def Class.variable (globals : List Global) (c : Class) : String :=
  match globals.reverse.find? (Global.exposes c.name) with
  | some g => g.name
  | none => "local " ++ Identifier.ofName c.name

def Class.code (globals : List Global) (c : Class) : List String :=
  (c.variable globals ++ "=\x7b") :: (sortOn (·.order) c.methods).map Method.code
    ++ (c.operators.find? (·.name = "call")).toList.map Operator.callCode ++ ["\x7d"]

def Class.heads (c : Class) : List (String × List String) :=
  (c.name, c.baseClasses) :: (sortOn (·.order) c.methods).flatMap (Method.heads c.name)

/-- An alternation of types is no class. -/
def Concept.heads (c : Concept) : List (String × List String) :=
  match c.kind with
  | .identification _ => []
  | _ => [(c.name, [])]

mutual

/-- A node and the nodes below it, depth first, by their paths and with their values in order. -/
def Constant.nodes (parent : String) : Constant → List (String × List ConstantValue)
  | ⟨name, _, _, values, subkeys⟩ =>
    (parent ++ "." ++ name, sortOn (·.order) values)
      :: inOrder (nodesOfConstants (parent ++ "." ++ name) subkeys)

def nodesOfConstants (parent : String) :
    List Constant → List (Nat × List (String × List ConstantValue))
  | [] => []
  | node :: rest => (node.order, node.nodes parent) :: nodesOfConstants parent rest

end

def ConstantValue.code (value : ConstantValue) : String :=
  Identifier.ofName value.name ++ "=0,"

def nodeCode (path : String) (values : List ConstantValue) : List String :=
  (path ++ "=\x7b") :: values.map ConstantValue.code ++ ["\x7d"]

/-- All nodes of the trees of constants, by their paths. -/
def Document.nodes (document : Document) : List (String × List ConstantValue) :=
  inOrder (nodesOfConstants constantRoot document.constants)

def Document.code (document : Document) : List String :=
  (constantRoot ++ "=\x7b\x7d") :: document.nodes.flatMap (fun (path, values) => nodeCode path values)
    ++ (sortOn (·.order) document.classes).flatMap (Class.code document.globals)

/-- The builtins that the settings do not know, as classes. -/
def Document.builtinHeads (document : Document) (settings : Settings) :
    List (String × List String) :=
  ((sortOn (·.order) document.builtins).filter fun b => !settings.knows b.name).map
    fun b => (b.name, ["number"])

def Document.constantHeads (document : Document) : List (String × List String) :=
  (constantRoot, []) :: document.nodes.map fun (path, _) => (path, [])

/-- The classes that the sections of the file declare. -/
def Document.heads (document : Document) (settings : Settings) : List (String × List String) :=
  document.builtinHeads settings ++ document.constantHeads
    ++ (sortOn (·.order) document.events).map (fun e => (e.name, []))
    ++ (sortOn (·.order) document.classes).flatMap Class.heads
    ++ (sortOn (·.order) document.concepts).flatMap Concept.heads

end Api

end LuaStubs
