import LuaStubs.Api.Basic
import LuaStubs.Json.Record

/-! How the entries of a description are written in JSON. Names and types are required; order keys
default to zero, texts and lists to empty ones, flags to false. -/

namespace LuaStubs.Api

open Json

def Documentation.record : Record Documentation where
  name := "Documentation"
  types := [String, List String, List String, List String, List String]
  fields :=
    .default "description" .text "" <|
    .default "notes" (.list .text) [] <|
    .default "examples" (.list .text) [] <|
    .default "see_also" (.list .text) [] <|
    .default "subclasses" (.list .text) [] .nil
  build := fun (description, notes, examples, seeAlso, subclasses, ()) =>
    ⟨description, notes, examples, seeAlso, subclasses⟩

/-! Tables, over a decoder for the types of their fields. -/

def Parameter.record (type : Decoder TypeExpr) : Record Parameter where
  name := "ApiParameter"
  types := [String, Nat, String, TypeExpr, Bool]
  fields :=
    .required "name" .text <|
    .default "order" .orderKey 0 <|
    .default "description" .text "" <|
    .required "type" type <|
    .default "optional" .flag false .nil
  build := fun (name, order, description, type, optional, ()) =>
    ⟨name, order, description, type, optional⟩

def Group.record (type : Decoder TypeExpr) : Record Group where
  name := "ParameterGroup"
  types := [String, Nat, String, List Parameter]
  fields :=
    .required "name" .text <|
    .default "order" .orderKey 0 <|
    .default "description" .text "" <|
    .default "parameters" (.list (Parameter.record type).decoder) [] .nil
  build := fun (name, order, description, parameters, ()) =>
    ⟨name, order, description, parameters⟩

def Shape.record (type : Decoder TypeExpr) : Record Shape where
  name := "TableShape"
  types := [List Parameter, List Group, Option String]
  fields :=
    .default "parameters" (.list (Parameter.record type).decoder) [] <|
    .default "variant_parameter_groups" (.list (Group.record type).decoder) [] <|
    .default "variant_parameter_description" (.optional .text) none .nil
  build := fun (parameters, groups, groupsDescription, ()) =>
    ⟨parameters, groups, groupsDescription⟩

/-! Types. -/

namespace TypeExpr

def tagKey : String := "complex_type"

def arrayRecord (type : Decoder TypeExpr) : Record TypeExpr where
  name := "ComplexType"
  types := [TypeExpr]
  fields := .required "value" type .nil
  build := fun (value, ()) => .array value

def dictionaryRecord (type : Decoder TypeExpr) : Record TypeExpr where
  name := "ComplexType"
  types := [TypeExpr, TypeExpr]
  fields := .required "key" type <| .required "value" type .nil
  build := fun (key, value, ()) => .dictionary key value

def variantRecord (type : Decoder TypeExpr) : Record TypeExpr where
  name := "ComplexType"
  types := [List TypeExpr]
  fields := .required "options" (.list type) .nil
  build := fun (options, ()) => .variant options

def lazyLoadedRecord (type : Decoder TypeExpr) : Record TypeExpr where
  name := "ComplexType"
  types := [TypeExpr]
  fields := .required "value" type .nil
  build := fun (value, ()) => .lazyLoaded value

def customTableRecord (type : Decoder TypeExpr) : Record TypeExpr where
  name := "ComplexType"
  types := [TypeExpr, TypeExpr]
  fields := .required "key" type <| .required "value" type .nil
  build := fun (key, value, ()) => .customTable key value

def functionRecord (type : Decoder TypeExpr) : Record TypeExpr where
  name := "ComplexType"
  types := [List TypeExpr]
  fields := .required "parameters" (.list type) .nil
  build := fun (parameters, ()) => .function parameters

/-- The constructors under their tags; a tag may also be given by its place in this list. -/
def constructors (type : Decoder TypeExpr) :
    List (String × (Value → Except Reason TypeExpr)) := [
  ("array", (arrayRecord type).ofValue .buffer),
  ("dictionary", (dictionaryRecord type).ofValue .buffer),
  ("variant", (variantRecord type).ofValue .buffer),
  ("LuaLazyLoadedValue", (lazyLoadedRecord type).ofValue .buffer),
  ("LuaCustomTable", (customTableRecord type).ofValue .buffer),
  ("table", fun v => ((Shape.record type).ofValue .buffer v).map .table),
  ("function", (functionRecord type).ofValue .buffer)]

def constructor? (type : Decoder TypeExpr) : Value → Option (Value → Except Reason TypeExpr)
  | .string tag => (constructors type).lookup tag
  | .number (.integer index) =>
    if 0 ≤ index then (constructors type)[index.toNat]?.map (·.2) else none
  | _ => none

def splitTag? (members : List (String × Value)) : Option (Value × List (String × Value)) :=
  match members.filter (·.1 = tagKey) with
  | [(_, tag)] => some (tag, members.filter (·.1 ≠ tagKey))
  | _ => none

/-- Whatever is wrong with a type, it fits neither of its two forms. -/
def misfit : Reason := .noVariant "ApiType"

/-- The type that a tree stands for, the tree having at most the given height. -/
def ofTree : Nat → Value → Except Reason TypeExpr
  | 0, _ => .error misfit
  | height + 1, v =>
    let type : Decoder TypeExpr := .ofTree (ofTree height)
    match v with
    | .string name => .ok (.named name)
    | .object members =>
      match splitTag? members with
      | none => .error misfit
      | some (tag, others) =>
        match constructor? type tag with
        | none => .error misfit
        | some construct => (construct (.object others)).mapError fun _ => misfit
    | .array (tag :: items) =>
      match constructor? type tag with
      | none => .error misfit
      | some construct => (construct (.array items)).mapError fun _ => misfit
    | _ => .error misfit

def ofValue (v : Value) : Except Reason TypeExpr :=
  ofTree v.height v

def decoder : Decoder TypeExpr := .ofTree ofValue

end TypeExpr

/-! Members of classes. -/

def Documentation.ofMembers (members : List (String × Value)) : Except Reason Documentation :=
  Documentation.record.ofMembers .buffer members

def Signature.record : Record Signature where
  name := "Signature"
  types := [List Parameter, List Group, Option String, Option TypeExpr, Option String, Bool, Bool,
    Option TypeExpr, Option String]
  fields :=
    .default "parameters" (.list (Parameter.record TypeExpr.decoder).decoder) [] <|
    .default "variant_parameter_groups" (.list (Group.record TypeExpr.decoder).decoder) [] <|
    .default "variant_parameter_description" (.optional .text) none <|
    .default "variadic_type" (.optional TypeExpr.decoder) none <|
    .default "variadic_description" (.optional .text) none <|
    .default "takes_table" .flag false <|
    .default "table_is_optional" .flag false <|
    .default "return_type" (.optional TypeExpr.decoder) none <|
    .default "return_description" (.optional .text) none .nil
  build := fun (parameters, groups, groupsDescription, variadicType, variadicDescription,
      takesTable, tableIsOptional, returnType, returnDescription, ()) =>
    ⟨parameters, groups, groupsDescription, variadicType, variadicDescription, takesTable,
      tableIsOptional, returnType, returnDescription⟩

def documentedSignature (members : List (String × Value)) :
    Except Reason (Documentation × Signature) := do
  let doc ← Documentation.ofMembers members
  let signature ← Signature.record.ofMembers .buffer members
  return (doc, signature)

def Method.record : OpenRecord Method where
  name := "ApiMethod"
  types := [String, Nat]
  fields := .required "name" .text <| .default "order" .orderKey 0 .nil
  Rest := Documentation × Signature
  rest := documentedSignature
  build := fun (name, order, ()) (doc, signature) => ⟨name, order, doc, signature⟩

def Attribute.record : OpenRecord Attribute where
  name := "ApiAttribute"
  types := [String, Nat, TypeExpr, Bool, Bool]
  fields :=
    .required "name" .text <|
    .default "order" .orderKey 0 <|
    .required "type" TypeExpr.decoder <|
    .default "read" .flag false <|
    .default "write" .flag false .nil
  Rest := Documentation
  rest := Documentation.ofMembers
  build := fun (name, order, type, readable, writable, ()) doc =>
    ⟨name, order, doc, type, readable, writable⟩

def Operator.record : OpenRecord Operator where
  name := "ApiOperator"
  types := [String, Nat, Option TypeExpr, Bool, Bool]
  fields :=
    .required "name" .text <|
    .default "order" .orderKey 0 <|
    .default "type" (.optional TypeExpr.decoder) none <|
    .default "read" .flag false <|
    .default "write" .flag false .nil
  Rest := Documentation × Signature
  rest := documentedSignature
  build := fun (name, order, type, readable, writable, ()) (doc, signature) =>
    ⟨name, order, doc, type, readable, writable, signature⟩

/-! Entries of the description. -/

def Class.record : OpenRecord Class where
  name := "ApiClass"
  types := [String, Nat, List Method, List Attribute, List Operator, List String]
  fields :=
    .required "name" .text <|
    .default "order" .orderKey 0 <|
    .default "methods" (.list Method.record.decoder) [] <|
    .default "attributes" (.list Attribute.record.decoder) [] <|
    .default "operators" (.list Operator.record.decoder) [] <|
    .default "base_classes" (.list .text) [] .nil
  Rest := Documentation
  rest := Documentation.ofMembers
  build := fun (name, order, methods, attributes, operators, baseClasses, ()) doc =>
    ⟨name, order, doc, methods, attributes, operators, baseClasses⟩

def Event.record : OpenRecord Event where
  name := "ApiEvent"
  types := [String, Nat, List Parameter]
  fields :=
    .required "name" .text <|
    .default "order" .orderKey 0 <|
    .default "data" (.list (Parameter.record TypeExpr.decoder).decoder) [] .nil
  Rest := Documentation
  rest := Documentation.ofMembers
  build := fun (name, order, data, ()) doc => ⟨name, order, doc, data⟩

def Identification.record : Record Identification where
  name := "IdentificationOption"
  types := [Nat, String, TypeExpr]
  fields :=
    .default "order" .orderKey 0 <|
    .default "description" .text "" <|
    .required "type" TypeExpr.decoder .nil
  build := fun (order, description, type, ()) => ⟨order, description, type⟩

def Choice.record : Record Choice where
  name := "NamedOption"
  types := [String, Nat, String]
  fields :=
    .required "name" .text <|
    .default "order" .orderKey 0 <|
    .default "description" .text "" .nil
  build := fun (name, order, description, ()) => ⟨name, order, description⟩

def Builtin.record : Record Builtin where
  name := "ApiBuiltin"
  types := [String, Nat, String]
  fields :=
    .required "name" .text <|
    .default "order" .orderKey 0 <|
    .default "description" .text "" .nil
  build := fun (name, order, description, ()) => ⟨name, order, description⟩

def Global.record : Record Global where
  name := "ApiGlobalObject"
  types := [String, Nat, String, TypeExpr]
  fields :=
    .required "name" .text <|
    .default "order" .orderKey 0 <|
    .default "description" .text "" <|
    .required "type" TypeExpr.decoder .nil
  build := fun (name, order, description, type, ()) => ⟨name, order, description, type⟩

def ConstantValue.record : Record ConstantValue where
  name := "DefineValue"
  types := [String, Nat, String]
  fields :=
    .required "name" .text <|
    .default "order" .orderKey 0 <|
    .default "description" .text "" .nil
  build := fun (name, order, description, ()) => ⟨name, order, description⟩

namespace Constant

def record (subkey : Decoder Constant) : Record Constant where
  name := "ApiDefine"
  types := [String, Nat, String, List ConstantValue, List Constant]
  fields :=
    .required "name" .text <|
    .default "order" .orderKey 0 <|
    .default "description" .text "" <|
    .default "values" (.list ConstantValue.record.decoder) [] <|
    .default "subkeys" (.list subkey) [] .nil
  build := fun (name, order, description, values, subkeys, ()) =>
    ⟨name, order, description, values, subkeys⟩

/-- Nodes with at most the given number of nodes above one another. -/
def decoderTo : Nat → Decoder Constant
  | 0 => ⟨fun _ s => stopPast .nestedTooDeep s, fun _ _ => .error .nestedTooDeep⟩
  | height + 1 => (record (decoderTo height)).decoder

/-- A node takes up a level of nesting, so that there are no more of them than of levels. -/
def decoder : Decoder Constant := decoderTo (deepest + 1)

end Constant

end LuaStubs.Api
