import LuaStubs.Proofs.Arrangement.Sorting
import LuaStubs.Proofs.Lowering.Form

/-! Descriptions in order: the form that a description takes when all its lists with order keys are
put in order, those inside types included. Descriptions of one form differ only in the order of
lists. -/

namespace LuaStubs

namespace Api

mutual

def TypeExpr.arranged : TypeExpr → TypeExpr
  | .named name => .named name
  | .array value => .array value.arranged
  | .dictionary key value => .dictionary key.arranged value.arranged
  | .variant options => .variant (arrangedTypes options)
  | .lazyLoaded value => .lazyLoaded value.arranged
  | .customTable key value => .customTable key.arranged value.arranged
  | .table shape => .table shape.arranged
  | .function parameters => .function (arrangedTypes parameters)

def arrangedTypes : List TypeExpr → List TypeExpr
  | [] => []
  | type :: rest => type.arranged :: arrangedTypes rest

def Shape.arranged : Shape → Shape
  | ⟨parameters, groups, description⟩ =>
    ⟨sortOn (·.order) (arrangedParameters parameters), sortOn (·.order) (arrangedGroups groups),
      description⟩

def arrangedParameters : List Parameter → List Parameter
  | [] => []
  | p :: rest => p.arranged :: arrangedParameters rest

def Parameter.arranged : Parameter → Parameter
  | ⟨name, order, description, type, optional⟩ =>
    ⟨name, order, description, type.arranged, optional⟩

def arrangedGroups : List Group → List Group
  | [] => []
  | g :: rest => g.arranged :: arrangedGroups rest

def Group.arranged : Group → Group
  | ⟨name, order, description, parameters⟩ =>
    ⟨name, order, description, sortOn (·.order) (arrangedParameters parameters)⟩

end

def Signature.arranged (s : Signature) : Signature :=
  { s with
    parameters := sortOn (·.order) (s.parameters.map Parameter.arranged)
    groups := sortOn (·.order) (s.groups.map Group.arranged)
    variadicType := s.variadicType.map TypeExpr.arranged
    returnType := s.returnType.map TypeExpr.arranged }

def Method.arranged (m : Method) : Method :=
  { m with signature := m.signature.arranged }

def Attribute.arranged (a : Attribute) : Attribute :=
  { a with type := a.type.arranged }

def Operator.arranged (o : Operator) : Operator :=
  { o with type := o.type.map TypeExpr.arranged, signature := o.signature.arranged }

def Class.arranged (c : Class) : Class :=
  { c with
    methods := sortOn (·.order) (c.methods.map Method.arranged)
    attributes := sortOn (·.order) (c.attributes.map Attribute.arranged)
    operators := sortOn (·.order) (c.operators.map Operator.arranged) }

def Event.arranged (e : Event) : Event :=
  { e with data := sortOn (·.order) (e.data.map Parameter.arranged) }

def Identification.arranged (o : Identification) : Identification :=
  { o with type := o.type.arranged }

def ConceptKind.arranged : ConceptKind → ConceptKind
  | .identification options =>
    .identification (sortOn (·.order) (options.map Identification.arranged))
  | .plain => .plain
  | .struct attributes => .struct (sortOn (·.order) (attributes.map Attribute.arranged))
  | .flag options => .flag (sortOn (·.order) options)
  | .table shape => .table shape.arranged
  | .tableOrArray shape => .tableOrArray shape.arranged
  | .union options => .union (sortOn (·.order) options)
  | .filter shape => .filter shape.arranged

def Concept.arranged (c : Concept) : Concept :=
  { c with kind := c.kind.arranged }

def Global.arranged (g : Global) : Global :=
  { g with type := g.type.arranged }

def Document.arranged (document : Document) : Document where
  classes := sortOn (·.order) (document.classes.map Class.arranged)
  events := sortOn (·.order) (document.events.map Event.arranged)
  concepts := sortOn (·.order) (document.concepts.map Concept.arranged)
  builtins := sortOn (·.order) document.builtins
  globals := document.globals.map Global.arranged
  constants := sortOn (·.order) (sortedConstants document.constants)

/-- Two descriptions that differ only in the order of their lists with order keys, where entries
with equal keys come in the same order, and in the order of their globals. -/
structure Document.Rearranges (first second : Document) : Prop where
  classes : first.arranged.classes = second.arranged.classes
  events : first.arranged.events = second.arranged.events
  concepts : first.arranged.concepts = second.arranged.concepts
  builtins : first.arranged.builtins = second.arranged.builtins
  constants : first.arranged.constants = second.arranged.constants
  globals : first.arranged.globals.Perm second.arranged.globals

/-- What it means for entries to come in the same order: for each key there are the same ones. -/
theorem Document.rearranges_iff {first second : Document} :
    first.Rearranges second ↔
      (∀ k, (first.classes.map Class.arranged).filter (·.order = k) =
        (second.classes.map Class.arranged).filter (·.order = k)) ∧
      (∀ k, (first.events.map Event.arranged).filter (·.order = k) =
        (second.events.map Event.arranged).filter (·.order = k)) ∧
      (∀ k, (first.concepts.map Concept.arranged).filter (·.order = k) =
        (second.concepts.map Concept.arranged).filter (·.order = k)) ∧
      (∀ k, first.builtins.filter (·.order = k) = second.builtins.filter (·.order = k)) ∧
      (∀ k, (sortedConstants first.constants).filter (·.order = k) =
        (sortedConstants second.constants).filter (·.order = k)) ∧
      (first.globals.map Global.arranged).Perm (second.globals.map Global.arranged) := by
  constructor
  · intro h
    exact ⟨sortOn_eq_iff.mp h.classes, sortOn_eq_iff.mp h.events, sortOn_eq_iff.mp h.concepts,
      sortOn_eq_iff.mp h.builtins, sortOn_eq_iff.mp h.constants, h.globals⟩
  · rintro ⟨classes, events, concepts, builtins, constants, globals⟩
    exact ⟨sortOn_eq_iff.mpr classes, sortOn_eq_iff.mpr events, sortOn_eq_iff.mpr concepts,
      sortOn_eq_iff.mpr builtins, sortOn_eq_iff.mpr constants, globals⟩

/-! Lists of parts in order are the parts in order. -/

theorem arrangedTypes_eq (types : List TypeExpr) : arrangedTypes types = types.map TypeExpr.arranged := by
  induction types with
  | nil => rfl
  | cons type rest ih => rw [arrangedTypes, ih, List.map_cons]

theorem arrangedParameters_eq (parameters : List Parameter) :
    arrangedParameters parameters = parameters.map Parameter.arranged := by
  induction parameters with
  | nil => rfl
  | cons p rest ih => rw [arrangedParameters, ih, List.map_cons]

theorem arrangedGroups_eq (groups : List Group) : arrangedGroups groups = groups.map Group.arranged := by
  induction groups with
  | nil => rfl
  | cons g rest ih => rw [arrangedGroups, ih, List.map_cons]

theorem reshapes_arranged : TypeExpr.Reshapes TypeExpr.arranged Shape.arranged where
  named _ := rfl
  array _ := rfl
  dictionary _ _ := rfl
  variant options := congrArg _ (arrangedTypes_eq options)
  lazyLoaded _ := rfl
  customTable _ _ := rfl
  table _ := rfl
  function parameters := congrArg _ (arrangedTypes_eq parameters)

theorem Parameter.arranged_eq (p : Parameter) : p.arranged = { p with type := p.type.arranged } := by
  cases p
  rfl

theorem Group.arranged_eq (g : Group) :
    g.arranged = { g with parameters := sortOn (·.order) (g.parameters.map Parameter.arranged) } := by
  cases g
  rw [Group.arranged, arrangedParameters_eq]

theorem Shape.arranged_eq (shape : Shape) :
    shape.arranged = { shape with
      parameters := sortOn (·.order) (shape.parameters.map Parameter.arranged)
      groups := sortOn (·.order) (shape.groups.map Group.arranged) } := by
  cases shape
  rw [Shape.arranged, arrangedParameters_eq, arrangedGroups_eq]

end Api

/-! Putting a type in order changes neither its height nor the number of its tables. -/

/-- What is gathered from a list by steps that commute does not depend on its order. -/
theorem eq_of_perm {α : Type} {gather : List α → Nat} {step : α → Nat → Nat}
    (cons : ∀ a rest, gather (a :: rest) = step a (gather rest))
    (comm : ∀ a b n, step a (step b n) = step b (step a n)) {xs ys : List α} (h : xs.Perm ys) :
    gather xs = gather ys := by
  induction h with
  | nil => rfl
  | cons a _ ih => rw [cons, cons, ih]
  | swap a b xs => rw [cons, cons, cons, cons, comm]
  | trans _ _ ih₁ ih₂ => rw [ih₁, ih₂]

theorem tablesOfTypes_perm {xs ys : List Api.TypeExpr} (h : xs.Perm ys) :
    tablesOfTypes xs = tablesOfTypes ys :=
  @eq_of_perm _ _ (fun type n => type.tables + n) (fun _ _ => rfl) (fun _ _ _ => by omega) _ _ h

theorem tablesOfParameters_perm {xs ys : List Api.Parameter} (h : xs.Perm ys) :
    tablesOfParameters xs = tablesOfParameters ys :=
  @eq_of_perm _ _ (fun p n => p.tables + n) (fun _ _ => rfl) (fun _ _ _ => by omega) _ _ h

theorem tablesOfGroups_perm {xs ys : List Api.Group} (h : xs.Perm ys) :
    tablesOfGroups xs = tablesOfGroups ys :=
  @eq_of_perm _ _ (fun g n => g.tables + n) (fun _ _ => rfl) (fun _ _ _ => by omega) _ _ h

theorem heightOfTypes_perm {xs ys : List Api.TypeExpr} (h : xs.Perm ys) :
    heightOfTypes xs = heightOfTypes ys :=
  @eq_of_perm _ _ (fun type n => max type.height n) (fun _ _ => rfl) (fun _ _ _ => by omega) _ _ h

theorem heightOfParameters_perm {xs ys : List Api.Parameter} (h : xs.Perm ys) :
    heightOfParameters xs = heightOfParameters ys :=
  @eq_of_perm _ _ (fun p n => max p.height n) (fun _ _ => rfl) (fun _ _ _ => by omega) _ _ h

theorem heightOfGroups_perm {xs ys : List Api.Group} (h : xs.Perm ys) :
    heightOfGroups xs = heightOfGroups ys :=
  @eq_of_perm _ _ (fun g n => max g.height n) (fun _ _ => rfl) (fun _ _ _ => by omega) _ _ h

mutual

theorem Api.TypeExpr.tables_arranged : ∀ type : Api.TypeExpr, type.arranged.tables = type.tables
  | .named _ => rfl
  | .array value => value.tables_arranged
  | .dictionary key value => by
    rw [Api.TypeExpr.arranged, Api.TypeExpr.tables, Api.TypeExpr.tables, key.tables_arranged,
      value.tables_arranged]
  | .variant options => tablesOfTypes_arranged options
  | .lazyLoaded value => value.tables_arranged
  | .customTable key value => by
    rw [Api.TypeExpr.arranged, Api.TypeExpr.tables, Api.TypeExpr.tables, key.tables_arranged,
      value.tables_arranged]
  | .table shape => congrArg (· + 1) shape.tables_arranged
  | .function parameters => tablesOfTypes_arranged parameters

theorem tablesOfTypes_arranged :
    ∀ types : List Api.TypeExpr, tablesOfTypes (Api.arrangedTypes types) = tablesOfTypes types
  | [] => rfl
  | type :: rest => by
    rw [Api.arrangedTypes, tablesOfTypes, tablesOfTypes, type.tables_arranged,
      tablesOfTypes_arranged rest]

theorem Api.Shape.tables_arranged : ∀ shape : Api.Shape, shape.arranged.tables = shape.tables
  | ⟨parameters, groups, _⟩ => by
    rw [Api.Shape.arranged, Api.Shape.tables, Api.Shape.tables,
      tablesOfParameters_perm (sortOn_perm _ _), tablesOfGroups_perm (sortOn_perm _ _),
      tablesOfParameters_arranged, tablesOfGroups_arranged]

theorem tablesOfParameters_arranged :
    ∀ parameters : List Api.Parameter,
      tablesOfParameters (Api.arrangedParameters parameters) = tablesOfParameters parameters
  | [] => rfl
  | p :: rest => by
    rw [Api.arrangedParameters, tablesOfParameters, tablesOfParameters, p.tables_arranged,
      tablesOfParameters_arranged rest]

theorem Api.Parameter.tables_arranged : ∀ p : Api.Parameter, p.arranged.tables = p.tables
  | ⟨_, _, _, type, _⟩ => type.tables_arranged

theorem tablesOfGroups_arranged :
    ∀ groups : List Api.Group, tablesOfGroups (Api.arrangedGroups groups) = tablesOfGroups groups
  | [] => rfl
  | g :: rest => by
    rw [Api.arrangedGroups, tablesOfGroups, tablesOfGroups, g.tables_arranged,
      tablesOfGroups_arranged rest]

theorem Api.Group.tables_arranged : ∀ g : Api.Group, g.arranged.tables = g.tables
  | ⟨_, _, _, parameters⟩ => by
    rw [Api.Group.arranged, Api.Group.tables, Api.Group.tables,
      tablesOfParameters_perm (sortOn_perm _ _), tablesOfParameters_arranged]

end

mutual

theorem Api.TypeExpr.height_arranged : ∀ type : Api.TypeExpr, type.arranged.height = type.height
  | .named _ => rfl
  | .array value => congrArg (· + 1) value.height_arranged
  | .dictionary key value => by
    rw [Api.TypeExpr.arranged, Api.TypeExpr.height, Api.TypeExpr.height, key.height_arranged,
      value.height_arranged]
  | .variant options => congrArg (· + 1) (heightOfTypes_arranged options)
  | .lazyLoaded value => congrArg (· + 1) value.height_arranged
  | .customTable key value => by
    rw [Api.TypeExpr.arranged, Api.TypeExpr.height, Api.TypeExpr.height, key.height_arranged,
      value.height_arranged]
  | .table shape => congrArg (· + 1) shape.height_arranged
  | .function parameters => congrArg (· + 1) (heightOfTypes_arranged parameters)

theorem heightOfTypes_arranged :
    ∀ types : List Api.TypeExpr, heightOfTypes (Api.arrangedTypes types) = heightOfTypes types
  | [] => rfl
  | type :: rest => by
    rw [Api.arrangedTypes, heightOfTypes, heightOfTypes, type.height_arranged,
      heightOfTypes_arranged rest]

theorem Api.Shape.height_arranged : ∀ shape : Api.Shape, shape.arranged.height = shape.height
  | ⟨parameters, groups, _⟩ => by
    rw [Api.Shape.arranged, Api.Shape.height, Api.Shape.height,
      heightOfParameters_perm (sortOn_perm _ _), heightOfGroups_perm (sortOn_perm _ _),
      heightOfParameters_arranged, heightOfGroups_arranged]

theorem heightOfParameters_arranged :
    ∀ parameters : List Api.Parameter,
      heightOfParameters (Api.arrangedParameters parameters) = heightOfParameters parameters
  | [] => rfl
  | p :: rest => by
    rw [Api.arrangedParameters, heightOfParameters, heightOfParameters, p.height_arranged,
      heightOfParameters_arranged rest]

theorem Api.Parameter.height_arranged : ∀ p : Api.Parameter, p.arranged.height = p.height
  | ⟨_, _, _, type, _⟩ => type.height_arranged

theorem heightOfGroups_arranged :
    ∀ groups : List Api.Group, heightOfGroups (Api.arrangedGroups groups) = heightOfGroups groups
  | [] => rfl
  | g :: rest => by
    rw [Api.arrangedGroups, heightOfGroups, heightOfGroups, g.height_arranged,
      heightOfGroups_arranged rest]

theorem Api.Group.height_arranged : ∀ g : Api.Group, g.arranged.height = g.height
  | ⟨_, _, _, parameters⟩ => by
    rw [Api.Group.arranged, Api.Group.height, Api.Group.height,
      heightOfParameters_perm (sortOn_perm _ _), heightOfParameters_arranged]

end

end LuaStubs
