import LuaStubs.Proofs.Lowering.Form

/-! Descriptions without their documentation. Descriptions that are the same without it differ only
in documentation texts. -/

namespace LuaStubs

namespace Api

mutual

def TypeExpr.bare : TypeExpr → TypeExpr
  | .named name => .named name
  | .array value => .array value.bare
  | .dictionary key value => .dictionary key.bare value.bare
  | .variant options => .variant (bareTypes options)
  | .lazyLoaded value => .lazyLoaded value.bare
  | .customTable key value => .customTable key.bare value.bare
  | .table shape => .table shape.bare
  | .function parameters => .function (bareTypes parameters)

def bareTypes : List TypeExpr → List TypeExpr
  | [] => []
  | type :: rest => type.bare :: bareTypes rest

def Shape.bare : Shape → Shape
  | ⟨parameters, groups, _⟩ => ⟨bareParameters parameters, bareGroups groups, none⟩

def bareParameters : List Parameter → List Parameter
  | [] => []
  | p :: rest => p.bare :: bareParameters rest

def Parameter.bare : Parameter → Parameter
  | ⟨name, order, _, type, optional⟩ => ⟨name, order, "", type.bare, optional⟩

def bareGroups : List Group → List Group
  | [] => []
  | g :: rest => g.bare :: bareGroups rest

def Group.bare : Group → Group
  | ⟨name, order, _, parameters⟩ => ⟨name, order, "", bareParameters parameters⟩

end

def Documentation.empty : Documentation := ⟨"", [], [], [], []⟩

def Signature.bare (s : Signature) : Signature :=
  { s with
    parameters := s.parameters.map Parameter.bare
    groups := s.groups.map Group.bare
    groupsDescription := none
    variadicType := s.variadicType.map TypeExpr.bare
    variadicDescription := none
    returnType := s.returnType.map TypeExpr.bare
    returnDescription := none }

def Method.bare (m : Method) : Method :=
  { m with doc := .empty, signature := m.signature.bare }

def Attribute.bare (a : Attribute) : Attribute :=
  { a with doc := .empty, type := a.type.bare }

def Operator.bare (o : Operator) : Operator :=
  { o with doc := .empty, type := o.type.map TypeExpr.bare, signature := o.signature.bare }

def Class.bare (c : Class) : Class :=
  { c with
    doc := .empty
    methods := c.methods.map Method.bare
    attributes := c.attributes.map Attribute.bare
    operators := c.operators.map Operator.bare }

def Event.bare (e : Event) : Event :=
  { e with doc := .empty, data := e.data.map Parameter.bare }

def Identification.bare (o : Identification) : Identification :=
  { o with description := "", type := o.type.bare }

def Choice.bare (choice : Choice) : Choice :=
  { choice with description := "" }

def ConceptKind.bare : ConceptKind → ConceptKind
  | .identification options => .identification (options.map Identification.bare)
  | .plain => .plain
  | .struct attributes => .struct (attributes.map Attribute.bare)
  | .flag options => .flag (options.map Choice.bare)
  | .table shape => .table shape.bare
  | .tableOrArray shape => .tableOrArray shape.bare
  | .union options => .union (options.map Choice.bare)
  | .filter shape => .filter shape.bare

def Concept.bare (c : Concept) : Concept :=
  { c with doc := .empty, kind := c.kind.bare }

def Builtin.bare (b : Builtin) : Builtin :=
  { b with description := "" }

def Global.bare (g : Global) : Global :=
  { g with description := "", type := g.type.bare }

def ConstantValue.bare (value : ConstantValue) : ConstantValue :=
  { value with description := "" }

mutual

def Constant.bare : Constant → Constant
  | ⟨name, order, _, values, subkeys⟩ =>
    ⟨name, order, "", values.map ConstantValue.bare, bareConstants subkeys⟩

def bareConstants : List Constant → List Constant
  | [] => []
  | node :: rest => node.bare :: bareConstants rest

end

/-- A description without its documentation. -/
def Document.bare (document : Document) : Document where
  classes := document.classes.map Class.bare
  events := document.events.map Event.bare
  concepts := document.concepts.map Concept.bare
  builtins := document.builtins.map Builtin.bare
  globals := document.globals.map Global.bare
  constants := bareConstants document.constants

theorem bareTypes_eq (types : List TypeExpr) : bareTypes types = types.map TypeExpr.bare := by
  induction types with
  | nil => rfl
  | cons type rest ih => rw [bareTypes, ih, List.map_cons]

theorem reshapes_bare : TypeExpr.Reshapes TypeExpr.bare Shape.bare where
  named _ := rfl
  array _ := rfl
  dictionary _ _ := rfl
  variant options := congrArg _ (bareTypes_eq options)
  lazyLoaded _ := rfl
  customTable _ _ := rfl
  table _ := rfl
  function parameters := congrArg _ (bareTypes_eq parameters)

theorem bareParameters_eq (parameters : List Parameter) :
    bareParameters parameters = parameters.map Parameter.bare := by
  induction parameters with
  | nil => rfl
  | cons p rest ih => rw [bareParameters, ih, List.map_cons]

theorem bareGroups_eq (groups : List Group) : bareGroups groups = groups.map Group.bare := by
  induction groups with
  | nil => rfl
  | cons g rest ih => rw [bareGroups, ih, List.map_cons]

theorem bareConstants_eq (constants : List Constant) :
    bareConstants constants = constants.map Constant.bare := by
  induction constants with
  | nil => rfl
  | cons node rest ih => rw [bareConstants, ih, List.map_cons]

theorem Parameter.bare_eq (p : Parameter) :
    p.bare = { p with description := "", type := p.type.bare } := by
  cases p
  rfl

theorem Group.bare_eq (g : Group) :
    g.bare = { g with description := "", parameters := g.parameters.map Parameter.bare } := by
  cases g
  rw [Group.bare, bareParameters_eq]

theorem Shape.bare_eq (shape : Shape) :
    shape.bare = ⟨shape.parameters.map Parameter.bare, shape.groups.map Group.bare, none⟩ := by
  cases shape
  rw [Shape.bare, bareParameters_eq, bareGroups_eq]

theorem Constant.bare_eq (node : Constant) :
    node.bare = { node with
      description := ""
      values := node.values.map ConstantValue.bare
      subkeys := node.subkeys.map Constant.bare } := by
  cases node
  rw [Constant.bare, bareConstants_eq]

end Api

/-! Documentation counts neither for the height of a type nor for the number of its tables. -/

mutual

theorem Api.TypeExpr.tables_bare : ∀ type : Api.TypeExpr, type.bare.tables = type.tables
  | .named _ => rfl
  | .array value => value.tables_bare
  | .dictionary key value => by
    rw [Api.TypeExpr.bare, Api.TypeExpr.tables, Api.TypeExpr.tables, key.tables_bare,
      value.tables_bare]
  | .variant options => tablesOfTypes_bare options
  | .lazyLoaded value => value.tables_bare
  | .customTable key value => by
    rw [Api.TypeExpr.bare, Api.TypeExpr.tables, Api.TypeExpr.tables, key.tables_bare,
      value.tables_bare]
  | .table shape => congrArg (· + 1) shape.tables_bare
  | .function parameters => tablesOfTypes_bare parameters

theorem tablesOfTypes_bare :
    ∀ types : List Api.TypeExpr, tablesOfTypes (Api.bareTypes types) = tablesOfTypes types
  | [] => rfl
  | type :: rest => by
    rw [Api.bareTypes, tablesOfTypes, tablesOfTypes, type.tables_bare, tablesOfTypes_bare rest]

theorem Api.Shape.tables_bare : ∀ shape : Api.Shape, shape.bare.tables = shape.tables
  | ⟨parameters, groups, _⟩ => by
    rw [Api.Shape.bare, Api.Shape.tables, Api.Shape.tables, tablesOfParameters_bare,
      tablesOfGroups_bare]

theorem tablesOfParameters_bare :
    ∀ parameters : List Api.Parameter,
      tablesOfParameters (Api.bareParameters parameters) = tablesOfParameters parameters
  | [] => rfl
  | p :: rest => by
    rw [Api.bareParameters, tablesOfParameters, tablesOfParameters, p.tables_bare,
      tablesOfParameters_bare rest]

theorem Api.Parameter.tables_bare : ∀ p : Api.Parameter, p.bare.tables = p.tables
  | ⟨_, _, _, type, _⟩ => type.tables_bare

theorem tablesOfGroups_bare :
    ∀ groups : List Api.Group, tablesOfGroups (Api.bareGroups groups) = tablesOfGroups groups
  | [] => rfl
  | g :: rest => by
    rw [Api.bareGroups, tablesOfGroups, tablesOfGroups, g.tables_bare, tablesOfGroups_bare rest]

theorem Api.Group.tables_bare : ∀ g : Api.Group, g.bare.tables = g.tables
  | ⟨_, _, _, parameters⟩ => tablesOfParameters_bare parameters

end

mutual

theorem Api.TypeExpr.height_bare : ∀ type : Api.TypeExpr, type.bare.height = type.height
  | .named _ => rfl
  | .array value => congrArg (· + 1) value.height_bare
  | .dictionary key value => by
    rw [Api.TypeExpr.bare, Api.TypeExpr.height, Api.TypeExpr.height, key.height_bare,
      value.height_bare]
  | .variant options => congrArg (· + 1) (heightOfTypes_bare options)
  | .lazyLoaded value => congrArg (· + 1) value.height_bare
  | .customTable key value => by
    rw [Api.TypeExpr.bare, Api.TypeExpr.height, Api.TypeExpr.height, key.height_bare,
      value.height_bare]
  | .table shape => congrArg (· + 1) shape.height_bare
  | .function parameters => congrArg (· + 1) (heightOfTypes_bare parameters)

theorem heightOfTypes_bare :
    ∀ types : List Api.TypeExpr, heightOfTypes (Api.bareTypes types) = heightOfTypes types
  | [] => rfl
  | type :: rest => by
    rw [Api.bareTypes, heightOfTypes, heightOfTypes, type.height_bare, heightOfTypes_bare rest]

theorem Api.Shape.height_bare : ∀ shape : Api.Shape, shape.bare.height = shape.height
  | ⟨parameters, groups, _⟩ => by
    rw [Api.Shape.bare, Api.Shape.height, Api.Shape.height, heightOfParameters_bare,
      heightOfGroups_bare]

theorem heightOfParameters_bare :
    ∀ parameters : List Api.Parameter,
      heightOfParameters (Api.bareParameters parameters) = heightOfParameters parameters
  | [] => rfl
  | p :: rest => by
    rw [Api.bareParameters, heightOfParameters, heightOfParameters, p.height_bare,
      heightOfParameters_bare rest]

theorem Api.Parameter.height_bare : ∀ p : Api.Parameter, p.bare.height = p.height
  | ⟨_, _, _, type, _⟩ => type.height_bare

theorem heightOfGroups_bare :
    ∀ groups : List Api.Group, heightOfGroups (Api.bareGroups groups) = heightOfGroups groups
  | [] => rfl
  | g :: rest => by
    rw [Api.bareGroups, heightOfGroups, heightOfGroups, g.height_bare, heightOfGroups_bare rest]

theorem Api.Group.height_bare : ∀ g : Api.Group, g.bare.height = g.height
  | ⟨_, _, _, parameters⟩ => heightOfParameters_bare parameters

end

end LuaStubs
