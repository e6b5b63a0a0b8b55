/-! The description of a scripting interface: classes with their members, events, concepts, builtin
types, global objects and trees of constants, each entry with its documentation and order key. -/

namespace LuaStubs.Api

mutual

inductive TypeExpr where
  | named (name : String)
  | array (value : TypeExpr)
  | dictionary (key value : TypeExpr)
  | variant (options : List TypeExpr)
  | lazyLoaded (value : TypeExpr)
  | customTable (key value : TypeExpr)
  | table (shape : Shape)
  | function (parameters : List TypeExpr)

/-- The fields of a table: fixed ones, and groups of which one applies. -/
structure Shape where
  parameters : List Parameter
  groups : List Group
  groupsDescription : Option String

structure Parameter where
  name : String
  order : Nat
  description : String
  type : TypeExpr
  optional : Bool

structure Group where
  name : String
  order : Nat
  description : String
  parameters : List Parameter

end

structure Documentation where
  description : String
  notes : List String
  examples : List String
  seeAlso : List String
  subclasses : List String

structure Signature where
  parameters : List Parameter
  groups : List Group
  groupsDescription : Option String
  variadicType : Option TypeExpr
  variadicDescription : Option String
  takesTable : Bool
  tableIsOptional : Bool
  returnType : Option TypeExpr
  returnDescription : Option String

structure Method where
  name : String
  order : Nat
  doc : Documentation
  signature : Signature

structure Attribute where
  name : String
  order : Nat
  doc : Documentation
  type : TypeExpr
  readable : Bool
  writable : Bool

/-- An operator is like an attribute or like a method, depending on its name. -/
structure Operator where
  name : String
  order : Nat
  doc : Documentation
  type : Option TypeExpr
  readable : Bool
  writable : Bool
  signature : Signature

def Operator.asAttribute (o : Operator) : Attribute :=
  ⟨o.name, o.order, o.doc, o.type.getD (.named "any"), o.readable, o.writable⟩

def Operator.asMethod (o : Operator) : Method :=
  ⟨o.name, o.order, o.doc, o.signature⟩

structure Class where
  name : String
  order : Nat
  doc : Documentation
  methods : List Method
  attributes : List Attribute
  operators : List Operator
  baseClasses : List String

structure Event where
  name : String
  order : Nat
  doc : Documentation
  data : List Parameter

structure Identification where
  order : Nat
  description : String
  type : TypeExpr

structure Choice where
  name : String
  order : Nat
  description : String

inductive ConceptKind where
  | identification (options : List Identification)
  | plain
  | struct (attributes : List Attribute)
  | flag (options : List Choice)
  | table (shape : Shape)
  | tableOrArray (shape : Shape)
  | union (options : List Choice)
  | filter (shape : Shape)

def ConceptKind.category : ConceptKind → String
  | .identification _ => "identification"
  | .plain => "concept"
  | .struct _ => "struct"
  | .flag _ => "flag"
  | .table _ => "table"
  | .tableOrArray _ => "table_or_array"
  | .union _ => "union"
  | .filter _ => "filter"

structure Concept where
  name : String
  order : Nat
  doc : Documentation
  kind : ConceptKind

structure Builtin where
  name : String
  order : Nat
  description : String

structure Global where
  name : String
  order : Nat
  description : String
  type : TypeExpr

structure ConstantValue where
  name : String
  order : Nat
  description : String

/-- A node in the tree of constants. -/
structure Constant where
  name : String
  order : Nat
  description : String
  values : List ConstantValue
  subkeys : List Constant

structure Document where
  classes : List Class
  events : List Event
  concepts : List Concept
  builtins : List Builtin
  globals : List Global
  constants : List Constant

end LuaStubs.Api
