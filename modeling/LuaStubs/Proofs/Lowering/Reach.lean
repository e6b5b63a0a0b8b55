import LuaStubs.Proofs.Fields
import LuaStubs.Proofs.Lowering.Form

/-! What the writing of a type can reach: the names that it refers to outside of its tables, and the
names that its tables are given. -/

namespace LuaStubs

mutual

/-- The names in a type outside of its tables. -/
def Api.TypeExpr.outerNames : Api.TypeExpr → List String
  | .named name => [name]
  | .array value => value.outerNames
  | .dictionary key value => key.outerNames ++ value.outerNames
  | .variant options => outerNamesOfTypes options
  | .lazyLoaded value => value.outerNames
  | .customTable key value => key.outerNames ++ value.outerNames
  | .table _ => []
  | .function parameters => outerNamesOfTypes parameters

def outerNamesOfTypes : List Api.TypeExpr → List String
  | [] => []
  | type :: rest => type.outerNames ++ outerNamesOfTypes rest

end

mutual

/-- The names of the tables in a type that stands at a place. -/
def Api.TypeExpr.tableNames (place : Place) : Api.TypeExpr → List String
  | .named _ => []
  | .array value => value.tableNames place
  | .dictionary key value => key.tableNames place.key ++ value.tableNames place.value
  | .variant options => tableNamesOfTypes place.option 0 options
  | .lazyLoaded value => value.tableNames place
  | .customTable key value => key.tableNames place.key ++ value.tableNames place.value
  | .table shape => place.name :: shape.tableNames place
  | .function parameters => tableNamesOfTypes (fun index => place.parameter (index + 1)) 0 parameters

def tableNamesOfTypes (places : Nat → Place) (index : Nat) : List Api.TypeExpr → List String
  | [] => []
  | type :: rest => type.tableNames (places index) ++ tableNamesOfTypes places (index + 1) rest

def Api.Shape.tableNames (place : Place) : Api.Shape → List String
  | ⟨parameters, groups, _⟩ =>
    tableNamesOfParameters place parameters ++ tableNamesOfGroups place groups

def tableNamesOfParameters (place : Place) : List Api.Parameter → List String
  | [] => []
  | p :: rest => p.tableNames place ++ tableNamesOfParameters place rest

def Api.Parameter.tableNames (place : Place) : Api.Parameter → List String
  | ⟨name, _, _, type, _⟩ => type.tableNames (.member place.name name place.link)

def tableNamesOfGroups (place : Place) : List Api.Group → List String
  | [] => []
  | g :: rest => g.tableNames place ++ tableNamesOfGroups place rest

def Api.Group.tableNames (place : Place) : Api.Group → List String
  | ⟨_, _, _, parameters⟩ => tableNamesOfParameters place parameters

end

/-! There are as many names as tables. -/

mutual

theorem Api.TypeExpr.length_tableNames (place : Place) :
    ∀ type : Api.TypeExpr, (type.tableNames place).length = type.tables
  | .named _ => rfl
  | .array value => value.length_tableNames place
  | .dictionary key value => by
    rw [Api.TypeExpr.tableNames, Api.TypeExpr.tables, List.length_append, key.length_tableNames,
      value.length_tableNames]
  | .variant options => length_tableNamesOfTypes place.option 0 options
  | .lazyLoaded value => value.length_tableNames place
  | .customTable key value => by
    rw [Api.TypeExpr.tableNames, Api.TypeExpr.tables, List.length_append, key.length_tableNames,
      value.length_tableNames]
  | .table shape => by
    rw [Api.TypeExpr.tableNames, Api.TypeExpr.tables, List.length_cons, shape.length_tableNames]
  | .function parameters => length_tableNamesOfTypes _ 0 parameters

theorem length_tableNamesOfTypes (places : Nat → Place) (index : Nat) :
    ∀ types : List Api.TypeExpr,
      (tableNamesOfTypes places index types).length = tablesOfTypes types
  | [] => rfl
  | type :: rest => by
    rw [tableNamesOfTypes, tablesOfTypes, List.length_append, type.length_tableNames,
      length_tableNamesOfTypes]

theorem Api.Shape.length_tableNames (place : Place) :
    ∀ shape : Api.Shape, (shape.tableNames place).length = shape.tables
  | ⟨parameters, groups, _⟩ => by
    rw [Api.Shape.tableNames, Api.Shape.tables, List.length_append, length_tableNamesOfParameters,
      length_tableNamesOfGroups]

theorem length_tableNamesOfParameters (place : Place) :
    ∀ parameters : List Api.Parameter,
      (tableNamesOfParameters place parameters).length = tablesOfParameters parameters
  | [] => rfl
  | p :: rest => by
    rw [tableNamesOfParameters, tablesOfParameters, List.length_append, p.length_tableNames,
      length_tableNamesOfParameters]

theorem Api.Parameter.length_tableNames (place : Place) :
    ∀ p : Api.Parameter, (p.tableNames place).length = p.tables
  | ⟨_, _, _, type, _⟩ => type.length_tableNames _

theorem length_tableNamesOfGroups (place : Place) :
    ∀ groups : List Api.Group,
      (tableNamesOfGroups place groups).length = tablesOfGroups groups
  | [] => rfl
  | g :: rest => by
    rw [tableNamesOfGroups, tablesOfGroups, List.length_append, g.length_tableNames,
      length_tableNamesOfGroups]

theorem Api.Group.length_tableNames (place : Place) :
    ∀ g : Api.Group, (g.tableNames place).length = g.tables
  | ⟨_, _, _, parameters⟩ => length_tableNamesOfParameters place parameters

end

/-! What a part reaches, the whole reaches. -/

theorem Api.Parameter.height_eq (p : Api.Parameter) : p.height = p.type.height := by
  cases p
  rfl

theorem Api.Parameter.tableNames_eq (place : Place) (p : Api.Parameter) :
    p.tableNames place = p.type.tableNames (.member place.name p.name place.link) := by
  cases p
  rfl

theorem Api.Group.height_eq (g : Api.Group) : g.height = heightOfParameters g.parameters := by
  cases g
  rfl

theorem Api.Group.tableNames_eq (place : Place) (g : Api.Group) :
    g.tableNames place = tableNamesOfParameters place g.parameters := by
  cases g
  rfl

theorem height_le_of_mem {type : Api.TypeExpr} {types : List Api.TypeExpr} (h : type ∈ types) :
    type.height ≤ heightOfTypes types := by
  induction types with
  | nil => cases h
  | cons first rest ih =>
    rw [heightOfTypes]
    rcases List.mem_cons.mp h with rfl | h
    · exact Nat.le_max_left _ _
    · exact Nat.le_trans (ih h) (Nat.le_max_right _ _)

theorem outerNames_subset_of_mem {type : Api.TypeExpr} {types : List Api.TypeExpr}
    (h : type ∈ types) : type.outerNames ⊆ outerNamesOfTypes types := by
  induction types with
  | nil => cases h
  | cons first rest ih =>
    rw [outerNamesOfTypes]
    rcases List.mem_cons.mp h with rfl | h
    · exact List.subset_append_left _ _
    · exact List.Subset.trans (ih h) (List.subset_append_right _ _)

theorem tableNames_subset_of_mem_zipIdx {places : Nat → Place} {index : Nat}
    {types : List Api.TypeExpr} {entry : Api.TypeExpr × Nat} (h : entry ∈ types.zipIdx index) :
    entry.1.tableNames (places entry.2) ⊆ tableNamesOfTypes places index types := by
  induction types generalizing index with
  | nil => cases h
  | cons first rest ih =>
    rw [tableNamesOfTypes]
    rw [List.zipIdx_cons] at h
    rcases List.mem_cons.mp h with rfl | h
    · exact List.subset_append_left _ _
    · exact List.Subset.trans (ih h) (List.subset_append_right _ _)

/-- A type inside another one reaches less. -/
theorem inside_less (place : Place) {type : Api.TypeExpr} {entry : Api.TypeExpr × String}
    (h : entry ∈ type.inside) :
    entry.1.outerNames ⊆ type.outerNames ∧
      entry.1.tableNames (place.extend entry.2) ⊆ type.tableNames place ∧
      entry.1.height < type.height := by
  cases type with
  | named | table => cases h
  | array | lazyLoaded =>
    rw [List.mem_singleton.mp h, Place.extend_empty]
    exact ⟨List.Subset.refl _, List.Subset.refl _, Nat.lt_succ_self _⟩
  | dictionary | customTable =>
    rcases List.mem_pair.mp h with rfl | rfl
    · exact ⟨List.subset_append_left _ _, List.subset_append_left _ _,
        Nat.lt_succ_of_le (Nat.le_max_left _ _)⟩
    · exact ⟨List.subset_append_right _ _, List.subset_append_right _ _,
        Nat.lt_succ_of_le (Nat.le_max_right _ _)⟩
  | variant =>
    obtain ⟨⟨option, index⟩, hentry, rfl⟩ := List.mem_map.mp h
    have hmem := List.fst_mem_of_mem_zipIdx hentry
    rw [Place.extend_option]
    exact ⟨outerNames_subset_of_mem hmem, tableNames_subset_of_mem_zipIdx hentry,
      Nat.lt_succ_of_le (height_le_of_mem hmem)⟩
  | function =>
    obtain ⟨⟨parameter, index⟩, hentry, rfl⟩ := List.mem_map.mp h
    have hmem := List.fst_mem_of_mem_zipIdx hentry
    let places (index : Nat) : Place := place.parameter (index + 1)
    have names : parameter.tableNames (places index) ⊆ tableNamesOfTypes places 0 _ :=
      tableNames_subset_of_mem_zipIdx hentry
    rw [Place.extend_parameter]
    exact ⟨outerNames_subset_of_mem hmem, names, Nat.lt_succ_of_le (height_le_of_mem hmem)⟩

theorem height_le_of_mem_parameters {p : Api.Parameter} {parameters : List Api.Parameter}
    (h : p ∈ parameters) : p.type.height ≤ heightOfParameters parameters := by
  induction parameters with
  | nil => cases h
  | cons first rest ih =>
    rw [heightOfParameters, first.height_eq]
    rcases List.mem_cons.mp h with rfl | h
    · exact Nat.le_max_left _ _
    · exact Nat.le_trans (ih h) (Nat.le_max_right _ _)

theorem tableNames_subset_of_mem_parameters (place : Place) {p : Api.Parameter}
    {parameters : List Api.Parameter} (h : p ∈ parameters) :
    p.type.tableNames (.member place.name p.name place.link) ⊆
      tableNamesOfParameters place parameters := by
  induction parameters with
  | nil => cases h
  | cons first rest ih =>
    rw [tableNamesOfParameters, first.tableNames_eq]
    rcases List.mem_cons.mp h with rfl | h
    · exact List.subset_append_left _ _
    · exact List.Subset.trans (ih h) (List.subset_append_right _ _)

theorem height_le_of_mem_groups {p : Api.Parameter} {group : Api.Group} {groups : List Api.Group}
    (hgroup : group ∈ groups) (hp : p ∈ group.parameters) :
    p.type.height ≤ heightOfGroups groups := by
  induction groups with
  | nil => cases hgroup
  | cons first rest ih =>
    rw [heightOfGroups, first.height_eq]
    rcases List.mem_cons.mp hgroup with rfl | hgroup
    · exact Nat.le_trans (height_le_of_mem_parameters hp) (Nat.le_max_left _ _)
    · exact Nat.le_trans (ih hgroup) (Nat.le_max_right _ _)

theorem tableNames_subset_of_mem_groups (place : Place) {p : Api.Parameter} {group : Api.Group}
    {groups : List Api.Group} (hgroup : group ∈ groups) (hp : p ∈ group.parameters) :
    p.type.tableNames (.member place.name p.name place.link) ⊆ tableNamesOfGroups place groups := by
  induction groups with
  | nil => cases hgroup
  | cons first rest ih =>
    rw [tableNamesOfGroups, first.tableNames_eq]
    rcases List.mem_cons.mp hgroup with rfl | hgroup
    · exact List.Subset.trans (tableNames_subset_of_mem_parameters place hp) (List.subset_append_left _ _)
    · exact List.Subset.trans (ih hgroup) (List.subset_append_right _ _)

theorem height_le_of_offers {shape : Api.Shape} {p : Api.Parameter}
    (h : TableField.Offers shape.parameters shape.groups p) : p.type.height ≤ shape.height := by
  cases shape
  rcases h with h | ⟨group, hgroup, hp⟩
  · exact Nat.le_trans (height_le_of_mem_parameters h) (Nat.le_max_left _ _)
  · exact Nat.le_trans (height_le_of_mem_groups hgroup hp) (Nat.le_max_right _ _)

theorem tableNames_subset_of_offers (place : Place) {shape : Api.Shape} {p : Api.Parameter}
    (h : TableField.Offers shape.parameters shape.groups p) :
    p.type.tableNames (.member place.name p.name place.link) ⊆ shape.tableNames place := by
  cases shape
  rcases h with h | ⟨group, hgroup, hp⟩
  · exact List.Subset.trans (tableNames_subset_of_mem_parameters place h) (List.subset_append_left _ _)
  · exact List.Subset.trans (tableNames_subset_of_mem_groups place hgroup hp)
      (List.subset_append_right _ _)

theorem Api.TypeExpr.height_pos (type : Api.TypeExpr) : 0 < type.height := by
  cases type <;> simp [height]

end LuaStubs
