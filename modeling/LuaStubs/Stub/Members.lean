import LuaStubs.Stub.Line
import LuaStubs.Stub.Lowering

/-! Members of classes: attributes as fields, and methods as functions below the annotations of
their parameters and results. -/

namespace LuaStubs

/-- The name of a member in Lua, and its name in the manual. -/
structure MemberName where
  lua : String
  anchor : String

namespace MemberName

def plain (name : String) : MemberName := ⟨name, name⟩

def index : MemberName := ⟨"__index", "operator%20[]"⟩

def length : MemberName := ⟨"__len", "operator%20#"⟩

def call : MemberName := ⟨"__call", "operator%20()"⟩

end MemberName

namespace Manual

def memberView (manual : Manual) (owner anchor : String) : Except StubError String :=
  manual.view (owner ++ "::" ++ anchor)

def access (a : Api.Attribute) : String :=
  "[" ++ (if a.readable then "R" else "") ++ (if a.writable then "W" else "") ++ "]"
    ++ Text.framed "\n" a.doc.description ""

def attributeLines (manual : Manual) (owner : String) (a : Api.Attribute) (name : MemberName) :
    Emission (List Line) := do
  let link ← manual.memberView owner name.anchor
  let comment ← manual.describe a.doc link (access a)
  let type ← manual.lower false a.type (.member owner name.lua link)
  return comment ++ [.field name.lua type false]

/-- The remark behind a type: on the line if it is one line, and in a comment below otherwise. -/
def remark (manual : Manual) (description : String) : Except StubError (Remark × List Line) :=
  if description.isEmpty then .ok (.none, [])
  else if description.toList.contains '\n' then
    (manual.comment description).map fun lines => (.below, lines)
  else
    (manual.prepare description.toList).map fun text => (.inline (String.ofList text), [])

def parameterLines (manual : Manual) (owner method link : String) (p : Api.Parameter) :
    Emission (List Line) := do
  let type ← manual.lower false p.type (.methodParameter owner method p.name link)
  let (remark, lines) ← manual.remark p.description
  return .parameter (Identifier.escapeKeyword p.name) p.optional type remark :: lines

def varargNote (description : String) : String :=
  "\n**vararg**: " ++ (if description.toList.contains '\n' then "\n\n" else "") ++ description

def varargComment (manual : Manual) (description : String) : Except StubError (List Line) :=
  if description.isEmpty then .ok [] else manual.comment (varargNote description)

def varargLines (manual : Manual) (owner link : String) (m : Api.Method) :
    Emission (List Line) := do
  match m.signature.variadicType with
  | none => return []
  | some variadic =>
    let type ← manual.lower false variadic (.methodVararg owner m.name link)
    let lines ← manual.varargComment (m.signature.variadicDescription.getD "")
    return .vararg type :: lines

def resultLines (manual : Manual) (owner link : String) (m : Api.Method) :
    Emission (List Line) := do
  match m.signature.returnType with
  | none => return []
  | some result =>
    let type ← manual.lower false result (.methodReturn owner m.name link)
    let (remark, lines) ← manual.remark (m.signature.returnDescription.getD "")
    return .result type remark :: lines

def arguments (signature : Api.Signature) : List String :=
  (sortOn (·.order) signature.parameters).map (Identifier.escapeKeyword ·.name)
    ++ if signature.variadicType.isSome then ["..."] else []

def methodLines (manual : Manual) (owner : String) (m : Api.Method) (name : MemberName) :
    Emission (List Line) := do
  let link ← manual.memberView owner name.anchor
  let comment ← manual.describe m.doc link m.doc.description
  let parameters ← Emission.linesOf (manual.parameterLines owner m.name link)
    (sortOn (·.order) m.signature.parameters)
  let vararg ← manual.varargLines owner link m
  let result ← manual.resultLines owner link m
  return comment ++ parameters ++ vararg ++ result ++ [.function name.lua (arguments m.signature)]

/-- A method that takes a table: the table is declared first, and is the one parameter. -/
def tableMethodLines (manual : Manual) (owner : String) (m : Api.Method) :
    Emission (List Line) := do
  let link ← manual.memberView owner m.name
  let table : Place := .methodTable owner m.name link
  let declaration ← declareTable manual (manual.lower false) table link
    (TableField.all appliesTo m.signature.parameters m.signature.groups)
  let comment ← manual.describe m.doc link m.doc.description
  let result ← manual.resultLines owner link m
  return declaration ++ .blank :: comment
    ++ .parameter "param" m.signature.tableIsOptional table.name .none :: result
    ++ [.function m.name ["param"]]

end Manual

end LuaStubs
