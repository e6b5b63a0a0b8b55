import LuaStubs.Api.Basic
import LuaStubs.Proofs.Json.Entries

/-! How a description is encoded in JSON. Names, types and the key that tells types or concepts
apart must be there; what else has its usual value may be left out, and a value that may be missing
may be null. Other keys are free. -/

namespace LuaStubs

namespace Json.Entry

open Value

def name (name : String) : Entry :=
  .required "name" (Text name)

def order (order : Nat) : Entry :=
  ⟨"order", Natural 32 order, order = 0⟩

def description (description : String) : Entry :=
  ⟨"description", Text description, description = ""⟩

def tag (tag : String) : Entry :=
  .required "complex_type" (Text tag)

end Json.Entry

namespace Api

open Json Value

def Documentation.entries (doc : Documentation) : List Entry := [
  .description doc.description,
  ⟨"notes", ListOf Text doc.notes, doc.notes = []⟩,
  ⟨"examples", ListOf Text doc.examples, doc.examples = []⟩,
  ⟨"see_also", ListOf Text doc.seeAlso, doc.seeAlso = []⟩,
  ⟨"subclasses", ListOf Text doc.subclasses, doc.subclasses = []⟩]

/-! Types and tables. -/

mutual

def TypeExpr.Encoded : TypeExpr → Value → Prop
  | .named name => Text name
  | .array value => Object [.tag "array", .required "value" value.Encoded]
  | .dictionary key value =>
    Object [.tag "dictionary", .required "key" key.Encoded, .required "value" value.Encoded]
  | .variant options => Object [.tag "variant", .required "options" (Array (EncodedTypes options))]
  | .lazyLoaded value => Object [.tag "LuaLazyLoadedValue", .required "value" value.Encoded]
  | .customTable key value =>
    Object [.tag "LuaCustomTable", .required "key" key.Encoded, .required "value" value.Encoded]
  | .table shape => Object (.tag "table" :: shape.entries)
  | .function parameters =>
    Object [.tag "function", .required "parameters" (Array (EncodedTypes parameters))]

def EncodedTypes : List TypeExpr → List Value → Prop
  | [], values => values = []
  | type :: rest, values => ∃ v others, type.Encoded v ∧ EncodedTypes rest others ∧ values = v :: others

def Shape.entries : Shape → List Entry
  | ⟨parameters, groups, groupsDescription⟩ => [
    ⟨"parameters", Array (EncodedParameters parameters), parameters = []⟩,
    ⟨"variant_parameter_groups", Array (EncodedGroups groups), groups = []⟩,
    ⟨"variant_parameter_description", Nullable Text groupsDescription, groupsDescription = none⟩]

def Parameter.Encoded : Parameter → Value → Prop
  | ⟨name, order, description, type, optional⟩ => Object [.name name, .order order,
    .description description, .required "type" type.Encoded,
    ⟨"optional", Flag optional, optional = false⟩]

def EncodedParameters : List Parameter → List Value → Prop
  | [], values => values = []
  | p :: rest, values => ∃ v others, p.Encoded v ∧ EncodedParameters rest others ∧ values = v :: others

def Group.Encoded : Group → Value → Prop
  | ⟨name, order, description, parameters⟩ => Object [.name name, .order order,
    .description description, ⟨"parameters", Array (EncodedParameters parameters), parameters = []⟩]

def EncodedGroups : List Group → List Value → Prop
  | [], values => values = []
  | g :: rest, values => ∃ v others, g.Encoded v ∧ EncodedGroups rest others ∧ values = v :: others

end

/-! The lists inside types are encoded item by item, as lists elsewhere are. -/

theorem array_eq_listOf {α : Type} {encoded : α → Value → Prop} {items : List α → List Value → Prop}
    (hnil : ∀ values, items [] values ↔ values = [])
    (hcons : ∀ x rest values, items (x :: rest) values ↔
      ∃ v others, encoded x v ∧ items rest others ∧ values = v :: others) (xs : List α) :
    Array (items xs) = ListOf encoded xs := by
  have same : items xs = List.Forall₂ encoded xs := by
    funext values
    induction xs generalizing values with
    | nil => exact propext ((hnil values).trans List.forall₂_nil_left_iff.symm)
    | cons x rest ih =>
      rw [eq_iff_iff, hcons, List.forall₂_cons_left_iff]
      simp only [ih]
  rw [same, ListOf]

theorem array_types (types : List TypeExpr) :
    Array (EncodedTypes types) = ListOf TypeExpr.Encoded types :=
  array_eq_listOf (fun _ => .rfl) (fun _ _ _ => .rfl) types

theorem array_parameters (parameters : List Parameter) :
    Array (EncodedParameters parameters) = ListOf Parameter.Encoded parameters :=
  array_eq_listOf (fun _ => .rfl) (fun _ _ _ => .rfl) parameters

theorem array_groups (groups : List Group) :
    Array (EncodedGroups groups) = ListOf Group.Encoded groups :=
  array_eq_listOf (fun _ => .rfl) (fun _ _ _ => .rfl) groups

theorem Shape.keys_entries (shape : Shape) : shape.entries.map (·.key) =
    ["parameters", "variant_parameter_groups", "variant_parameter_description"] := by
  cases shape
  rfl

/-! Members of classes. -/

def Signature.entries (s : Signature) : List Entry := [
  ⟨"parameters", ListOf Parameter.Encoded s.parameters, s.parameters = []⟩,
  ⟨"variant_parameter_groups", ListOf Group.Encoded s.groups, s.groups = []⟩,
  ⟨"variant_parameter_description", Nullable Text s.groupsDescription, s.groupsDescription = none⟩,
  ⟨"variadic_type", Nullable TypeExpr.Encoded s.variadicType, s.variadicType = none⟩,
  ⟨"variadic_description", Nullable Text s.variadicDescription, s.variadicDescription = none⟩,
  ⟨"takes_table", Flag s.takesTable, s.takesTable = false⟩,
  ⟨"table_is_optional", Flag s.tableIsOptional, s.tableIsOptional = false⟩,
  ⟨"return_type", Nullable TypeExpr.Encoded s.returnType, s.returnType = none⟩,
  ⟨"return_description", Nullable Text s.returnDescription, s.returnDescription = none⟩]

def Method.Encoded (m : Method) : Value → Prop :=
  Object ([.name m.name, .order m.order] ++ (m.doc.entries ++ m.signature.entries))

def Attribute.Encoded (a : Attribute) : Value → Prop :=
  Object ([.name a.name, .order a.order, .required "type" a.type.Encoded,
    ⟨"read", Flag a.readable, a.readable = false⟩,
    ⟨"write", Flag a.writable, a.writable = false⟩] ++ a.doc.entries)

def Operator.Encoded (o : Operator) : Value → Prop :=
  Object ([.name o.name, .order o.order,
    ⟨"type", Nullable TypeExpr.Encoded o.type, o.type = none⟩,
    ⟨"read", Flag o.readable, o.readable = false⟩,
    ⟨"write", Flag o.writable, o.writable = false⟩] ++ (o.doc.entries ++ o.signature.entries))

/-! Entries of the description. -/

def Class.Encoded (c : Class) : Value → Prop :=
  Object ([.name c.name, .order c.order,
    ⟨"methods", ListOf Method.Encoded c.methods, c.methods = []⟩,
    ⟨"attributes", ListOf Attribute.Encoded c.attributes, c.attributes = []⟩,
    ⟨"operators", ListOf Operator.Encoded c.operators, c.operators = []⟩,
    ⟨"base_classes", ListOf Text c.baseClasses, c.baseClasses = []⟩] ++ c.doc.entries)

def Event.Encoded (e : Event) : Value → Prop :=
  Object ([.name e.name, .order e.order,
    ⟨"data", ListOf Parameter.Encoded e.data, e.data = []⟩] ++ e.doc.entries)

def Identification.Encoded (i : Identification) : Value → Prop :=
  Object [.order i.order, .description i.description, .required "type" i.type.Encoded]

def Choice.Encoded (c : Choice) : Value → Prop :=
  Object [.name c.name, .order c.order, .description c.description]

/-- What a concept holds for its category. -/
def ConceptKind.entries : ConceptKind → List Entry
  | .identification options => [⟨"options", ListOf Identification.Encoded options, options = []⟩]
  | .plain => []
  | .struct attributes => [⟨"attributes", ListOf Attribute.Encoded attributes, attributes = []⟩]
  | .flag options => [⟨"options", ListOf Choice.Encoded options, options = []⟩]
  | .table shape => shape.entries
  | .tableOrArray shape => shape.entries
  | .union options => [⟨"options", ListOf Choice.Encoded options, options = []⟩]
  | .filter shape => shape.entries

def Concept.Encoded (c : Concept) : Value → Prop :=
  Object ([.name c.name, .order c.order, .required "category" (Text c.kind.category)] ++
    (c.doc.entries ++ c.kind.entries))

def Builtin.Encoded (b : Builtin) : Value → Prop :=
  Object [.name b.name, .order b.order, .description b.description]

def Global.Encoded (g : Global) : Value → Prop :=
  Object [.name g.name, .order g.order, .description g.description,
    .required "type" g.type.Encoded]

def ConstantValue.Encoded (c : ConstantValue) : Value → Prop :=
  Object [.name c.name, .order c.order, .description c.description]

mutual

def Constant.Encoded : Constant → Value → Prop
  | ⟨name, order, description, values, subkeys⟩ => Object [.name name, .order order,
    .description description,
    ⟨"values", ListOf ConstantValue.Encoded values, values = []⟩,
    ⟨"subkeys", Array (EncodedConstants subkeys), subkeys = []⟩]

def EncodedConstants : List Constant → List Value → Prop
  | [], values => values = []
  | c :: rest, values => ∃ v others, c.Encoded v ∧ EncodedConstants rest others ∧ values = v :: others

end

theorem array_constants (constants : List Constant) :
    Array (EncodedConstants constants) = ListOf Constant.Encoded constants :=
  array_eq_listOf (fun _ => .rfl) (fun _ _ _ => .rfl) constants

def Document.Encoded (document : Document) : Value → Prop :=
  Object [
    .required "application" (Text "factorio"),
    .required "stage" (Text "runtime"),
    .required "api_version" (Natural 64 1),
    ⟨"classes", ListOf Class.Encoded document.classes, document.classes = []⟩,
    ⟨"events", ListOf Event.Encoded document.events, document.events = []⟩,
    ⟨"concepts", ListOf Concept.Encoded document.concepts, document.concepts = []⟩,
    ⟨"builtin_types", ListOf Builtin.Encoded document.builtins, document.builtins = []⟩,
    ⟨"global_objects", ListOf Global.Encoded document.globals, document.globals = []⟩,
    ⟨"defines", ListOf Constant.Encoded document.constants, document.constants = []⟩]

end Api

end LuaStubs
