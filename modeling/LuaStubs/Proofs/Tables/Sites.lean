import LuaStubs.Stub.Document

/-! The sites of a description: each type that is written into the file, at its place, in the order
in which the file is written. -/

namespace LuaStubs

structure Site where
  type : Api.TypeExpr
  place : Place

/-- A table that is called after its place. -/
structure NamelessTable where
  shape : Api.Shape
  place : Place

namespace NamelessTable

def name (table : NamelessTable) : String := table.place.name

def site (table : NamelessTable) : Site := ⟨.table table.shape, table.place⟩

def fields (table : NamelessTable) : NameMap TableField :=
  TableField.all appliesTo table.shape.parameters table.shape.groups

end NamelessTable

/-- The fields of a declared table. -/
def fieldSites (table : Place) (fields : NameMap TableField) : List Site :=
  fields.map fun (name, field) => ⟨field.type, .member table.name name table.link⟩

namespace Manual

/-- The link that a reference has, if it names anything. -/
def linkTo (manual : Manual) (reference : String) : String :=
  (manual.view reference).toOption.getD ""

theorem linkTo_eq {manual : Manual} {reference link : String}
    (h : manual.view reference = .ok link) : manual.linkTo reference = link := by
  rw [linkTo, h]
  rfl

/-- What the type of a site is made of. The fields of a table are not part of it. -/
def parts (manual : Manual) : Site → List Site
  | ⟨.named name, _⟩ =>
    match manual.catalog.elements.get? name with
    | none => []
    | some element => [⟨element, .element name (manual.linkTo name)⟩]
  | ⟨.array value, place⟩ => [⟨value, place⟩]
  | ⟨.dictionary key value, place⟩ => [⟨key, place.key⟩, ⟨value, place.value⟩]
  | ⟨.variant options, place⟩ =>
    options.zipIdx.map fun (option, index) => ⟨option, place.option index⟩
  | ⟨.lazyLoaded value, place⟩ => [⟨value, place⟩]
  | ⟨.customTable key value, place⟩ => [⟨key, place.key⟩, ⟨value, place.value⟩]
  | ⟨.table _, _⟩ => []
  | ⟨.function parameters, place⟩ =>
    parameters.zipIdx.map fun (type, index) => ⟨type, place.parameter (index + 1)⟩

/-! The sites of members. -/

def memberLink (manual : Manual) (owner anchor : String) : String :=
  manual.linkTo (owner ++ "::" ++ anchor)

def attributeSite (manual : Manual) (owner : String) (a : Api.Attribute) (name : MemberName) :
    Site :=
  ⟨a.type, .member owner name.lua (manual.memberLink owner name.anchor)⟩

def parameterSite (owner method link : String) (p : Api.Parameter) : Site :=
  ⟨p.type, .methodParameter owner method p.name link⟩

def varargSites (owner link : String) (m : Api.Method) : List Site :=
  match m.signature.variadicType with
  | none => []
  | some variadic => [⟨variadic, .methodVararg owner m.name link⟩]

def resultSites (owner link : String) (m : Api.Method) : List Site :=
  match m.signature.returnType with
  | none => []
  | some result => [⟨result, .methodReturn owner m.name link⟩]

def methodSites (manual : Manual) (owner : String) (m : Api.Method) (name : MemberName) :
    List Site :=
  let link := manual.memberLink owner name.anchor
  (sortOn (·.order) m.signature.parameters).map (parameterSite owner m.name link)
    ++ (varargSites owner link m ++ resultSites owner link m)

def tableMethodSites (manual : Manual) (owner : String) (m : Api.Method) : List Site :=
  let link := manual.memberLink owner m.name
  fieldSites (.methodTable owner m.name link)
    (TableField.all appliesTo m.signature.parameters m.signature.groups)
    ++ resultSites owner link m

def memberFunctionSites (manual : Manual) (owner : String) (m : Api.Method) : List Site :=
  if m.signature.takesTable then manual.tableMethodSites owner m
  else manual.methodSites owner m (.plain m.name)

def operatorSites (manual : Manual) (owner : String) (o : Api.Operator) : List Site :=
  if o.name = "index" then [manual.attributeSite owner o.asAttribute .index]
  else if o.name = "length" then [manual.attributeSite owner o.asAttribute .length]
  else []

def callSites (manual : Manual) (owner : String) (operators : List Api.Operator) : List Site :=
  match operators.find? (·.name = "call") with
  | some o => manual.methodSites owner o.asMethod .call
  | none => []

def attributesSites (manual : Manual) (owner : String) (attributes : List Api.Attribute) :
    List Site :=
  (sortOn (·.order) attributes).map fun a => manual.attributeSite owner a (.plain a.name)

/-! The sites of the entries of a description. -/

def classSites (manual : Manual) (c : Api.Class) : List Site :=
  manual.attributesSites c.name c.attributes
    ++ ((sortOn (·.order) c.operators).flatMap (manual.operatorSites c.name)
    ++ ((sortOn (·.order) c.methods).flatMap (manual.memberFunctionSites c.name)
    ++ manual.callSites c.name c.operators))

def eventSites (manual : Manual) (e : Api.Event) : List Site :=
  (sortOn (·.order) e.data).map fun p => ⟨p.type, .member e.name p.name (manual.linkTo e.name)⟩

/-- Each option is written twice: with a link in the comment, and without one in the declaration. -/
def identificationSites (manual : Manual) (owner : String) (o : Api.Identification) : List Site :=
  let site : Site := ⟨o.type, .member owner (toString o.order) (manual.linkTo owner)⟩
  [site, site]

def tableSites (manual : Manual) (c : Api.Concept) (shape : Api.Shape) (appliesTo : String) :
    List Site :=
  fieldSites ⟨c.name, manual.linkTo c.name⟩
    (TableField.all appliesTo shape.parameters shape.groups)

def conceptSites (manual : Manual) (c : Api.Concept) : List Site :=
  match c.kind with
  | .identification options =>
    (sortOn (·.order) options).flatMap (manual.identificationSites c.name)
  | .plain => []
  | .struct attributes => manual.attributesSites c.name attributes
  | .flag _ => []
  | .table shape => manual.tableSites c shape appliesTo
  | .tableOrArray shape => manual.tableSites c shape appliesTo
  | .union _ => []
  | .filter shape => manual.tableSites c shape appliesToFilter

end Manual

def Job.sites (job : Job) : List Site :=
  (sortOn (·.order) job.document.events).flatMap job.manual.eventSites
    ++ ((sortOn (·.order) job.document.classes).flatMap job.manual.classSites
    ++ (sortOn (·.order) job.document.concepts).flatMap job.manual.conceptSites)

end LuaStubs
