import LuaStubs.Stub.Members

/-! Classes, and concepts that have the shape of a class: an overview, the fields, and for a class
the Lua table that holds its methods. -/

namespace LuaStubs

namespace Manual

/-- The description of a class, after that of the global object that exposes it. -/
def classDescription (manual : Manual) (name : String) (doc : Api.Documentation) : String :=
  match manual.catalog.globals.get? name with
  | none => doc.description
  | some global =>
    if global.description.isEmpty then doc.description
    else
      "**Global Description:**\n" ++ global.description
        ++ (if doc.description.isEmpty && doc.notes.isEmpty then "\n\n"
          else "\n\n**Class Description:**\n")
        ++ doc.description

def classComment (manual : Manual) (name : String) (doc : Api.Documentation) :
    Except StubError (List Line) := do
  let link ← manual.view name
  manual.describe doc link (manual.classDescription name doc)

def attributesLines (manual : Manual) (owner : String) (attributes : List Api.Attribute) :
    Emission (List Line) :=
  Emission.linesOf (fun a => manual.attributeLines owner a (.plain a.name))
    (sortOn (·.order) attributes)

def structLines (manual : Manual) (name : String) (doc : Api.Documentation)
    (attributes : List Api.Attribute) : Emission (List Line) := do
  let comment ← manual.classComment name doc
  let fields ← manual.attributesLines name attributes
  return comment ++ .declaration name [] :: fields

def expressible : List String := ["index", "length", "call"]

def checkOperators (owner : String) (operators : List Api.Operator) : Except StubError Unit :=
  match operators.find? fun o => !expressible.contains o.name with
  | some o => .error (.unknownOperator owner o.name)
  | none => .ok ()

/-- Indexing and length are fields. -/
def operatorLines (manual : Manual) (owner : String) (o : Api.Operator) : Emission (List Line) :=
  if o.name = "index" then manual.attributeLines owner o.asAttribute .index
  else if o.name = "length" then manual.attributeLines owner o.asAttribute .length
  else return []

def memberFunctionLines (manual : Manual) (owner : String) (m : Api.Method) :
    Emission (List Line) :=
  if m.signature.takesTable then manual.tableMethodLines owner m
  else manual.methodLines owner m (.plain m.name)

/-- Calling is a method, the first one if there are several. -/
def callLines (manual : Manual) (owner : String) (operators : List Api.Operator) :
    Emission (List Line) :=
  match operators.find? (·.name = "call") with
  | some o => manual.methodLines owner o.asMethod .call
  | none => return []

/-- The variable that holds the methods of a class: a global, or one of the file's own. -/
def classVariable (manual : Manual) (name : String) : String :=
  match manual.catalog.globals.get? name with
  | some global => global.name
  | none => "local " ++ Identifier.ofName name

def classLines (manual : Manual) (c : Api.Class) : Emission (List Line) := do
  let comment ← manual.classComment c.name c.doc
  checkOperators c.name c.operators
  let fields ← manual.attributesLines c.name c.attributes
  let operators ← Emission.linesOf (manual.operatorLines c.name) (sortOn (·.order) c.operators)
  let methods ← Emission.linesOf (manual.memberFunctionLines c.name) (sortOn (·.order) c.methods)
  let call ← manual.callLines c.name c.operators
  return comment ++ .declaration c.name c.baseClasses :: fields ++ operators
    ++ .openTable (manual.classVariable c.name) :: methods ++ call ++ [.closeTable]

def classesLines (manual : Manual) (classes : List Api.Class) : Emission (List Line) :=
  Emission.linesOf manual.classLines (sortOn (·.order) classes)

end Manual

end LuaStubs
