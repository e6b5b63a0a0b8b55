import LuaStubs.Stub.Classes
import LuaStubs.Text.Chars

/-! Events as classes whose fields are what the event carries, and concepts, each written as its
category asks: an alternation of types, a table, a class with fields, or a name with a comment. -/

namespace LuaStubs

namespace Manual

/-! Events. -/

def eventField (manual : Manual) (event link : String) (p : Api.Parameter) :
    Emission (List Line) := do
  let comment ← manual.brief p.description link
  let type ← manual.lower false p.type (.member event p.name link)
  return comment ++ [.field p.name type p.optional]

def eventLines (manual : Manual) (e : Api.Event) : Emission (List Line) := do
  let link ← manual.view e.name
  let comment ← manual.describe e.doc link e.doc.description
  let fields ← Emission.linesOf (manual.eventField e.name link) (sortOn (·.order) e.data)
  return comment ++ .declaration e.name [] :: fields

def eventsLines (manual : Manual) (events : List Api.Event) : Emission (List Line) :=
  Emission.linesOf manual.eventLines (sortOn (·.order) events)

/-! Concepts. -/

/-- One way of naming a thing: its type, as it is listed in the comment and as it is declared. -/
def identificationOption (manual : Manual) (owner link : String) (o : Api.Identification) :
    Emission (String × String) := do
  let place : Place := .member owner (toString o.order) link
  let linked ← manual.lower true o.type place
  let plain ← manual.lower false o.type place
  return ("\n- " ++ linked ++ Text.framed ": " o.description "", plain)

def identificationLines (manual : Manual) (c : Api.Concept) (options : List Api.Identification) :
    Emission (List Line) := do
  let link ← manual.view c.name
  let options ← Emission.eachFrom (fun _ => manual.identificationOption c.name link) 0
    (sortOn (·.order) options)
  let description := Text.framed "" c.doc.description "\n\n"
    ++ "May be specified in one of the following ways:" ++ String.join (options.map (·.1))
  let comment ← manual.describe c.doc link description
  return comment ++ [.alternation c.name ("|".intercalate (options.map (·.2)))]

def plainLines (manual : Manual) (c : Api.Concept) : Except StubError (List Line) := do
  let link ← manual.view c.name
  let comment ← manual.describe c.doc link c.doc.description
  return comment ++ [.declaration c.name []]

def flagLines (manual : Manual) (link : String) : List Api.Choice → Except StubError (List Line)
  | [] => .ok []
  | choice :: rest => do
    let comment ← manual.brief choice.description link
    let others ← flagLines manual link rest
    return comment ++ .field choice.name "boolean" true :: others

def flagsLines (manual : Manual) (c : Api.Concept) (options : List Api.Choice) :
    Except StubError (List Line) := do
  let link ← manual.view c.name
  let comment ← manual.describe c.doc link c.doc.description
  let flags ← manual.flagLines link (sortOn (·.order) options)
  return comment ++ .declaration c.name [] :: flags

def unionEntry (choice : Api.Choice) : String :=
  "\n- \"" ++ choice.name ++ "\"" ++ Text.framed " - " choice.description ""

def unionLines (manual : Manual) (c : Api.Concept) (options : List Api.Choice) :
    Except StubError (List Line) := do
  let link ← manual.view c.name
  let description := Text.framed "" c.doc.description "\n\n" ++ "Possible values are:"
    ++ String.join ((sortOn (·.order) options).map unionEntry)
  let comment ← manual.describe c.doc link description
  return comment ++ [.declaration c.name []]

def tableDescription (c : Api.Concept) (shape : Api.Shape) : String :=
  Text.trimEnd (Text.framed "" c.doc.description "\n\n" ++ shape.groupsDescription.getD "")

def tableLines (manual : Manual) (c : Api.Concept) (shape : Api.Shape) (appliesTo : String) :
    Emission (List Line) := do
  let link ← manual.view c.name
  let header ← manual.overview c.doc link (tableDescription c shape)
  declareTable manual (manual.lower false) ⟨c.name, link⟩ header
    (TableField.all appliesTo shape.parameters shape.groups)

def conceptLines (manual : Manual) (c : Api.Concept) : Emission (List Line) :=
  match c.kind with
  | .identification options => manual.identificationLines c options
  | .plain => manual.plainLines c
  | .struct attributes => manual.structLines c.name c.doc attributes
  | .flag options => manual.flagsLines c options
  | .table shape => manual.tableLines c shape appliesTo
  | .tableOrArray shape => manual.tableLines c shape appliesTo
  | .union options => manual.unionLines c options
  | .filter shape => manual.tableLines c shape appliesToFilter

def conceptsLines (manual : Manual) (concepts : List Api.Concept) : Emission (List Line) :=
  Emission.linesOf manual.conceptLines (sortOn (·.order) concepts)

end Manual

end LuaStubs
