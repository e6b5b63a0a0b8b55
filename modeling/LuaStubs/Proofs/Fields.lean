import LuaStubs.Proofs.Arrangement.Sorting
import LuaStubs.Proofs.NameMaps
import LuaStubs.Stub.Table

/-! What the fields of a table are made of: each is a fixed field or a field of a group, and groups
that name it later only add to its description. -/

namespace LuaStubs

namespace TableField

/-- Adds to the description of a field what a group says about it. -/
def noted (note : String) (field : TableField) : TableField :=
  { field with description := Text.framed "" field.description "\n\n" ++ note }

/-- What fixed fields have, what fields of groups have, and what further notes keep. -/
structure Kept (words : String) (parameters : List Api.Parameter) (groups : List Api.Group)
    (P : String → TableField → Prop) : Prop where
  fixed : ∀ p ∈ parameters, P p.name (fixed p)
  grouped : ∀ group ∈ groups, ∀ p ∈ group.parameters,
    P p.name ⟨p.type, groupNote words group.name p, p.optional⟩
  noted : ∀ group ∈ groups, ∀ p ∈ group.parameters, ∀ field,
    P p.name field → P p.name (noted (groupNote words group.name p) field)

variable {words : String} {parameters : List Api.Parameter} {groups : List Api.Group}
  {P : String → TableField → Prop}

theorem Kept.merge (kept : Kept words parameters groups P) {group : Api.Group} {p : Api.Parameter}
    (hgroup : group ∈ groups) (hp : p ∈ group.parameters) {fields : NameMap TableField}
    (hfields : ∀ entry ∈ fields, P entry.1 entry.2) :
    ∀ entry ∈ merge words group.name fields p, P entry.1 entry.2 := by
  intro entry h
  cases hfield : fields.get? p.name with
  | none =>
    simp only [TableField.merge, hfield] at h
    rcases NameMap.mem_of_mem_put h with rfl | h
    · exact kept.grouped group hgroup p hp
    · exact hfields entry h
  | some field =>
    simp only [TableField.merge, hfield] at h
    rcases NameMap.mem_of_mem_put h with rfl | h
    · exact kept.noted group hgroup p hp field (hfields _ (NameMap.mem_of_get? hfield))
    · exact hfields entry h

theorem Kept.mergeGroup (kept : Kept words parameters groups P) {group : Api.Group}
    (hgroup : group ∈ groups) {fields : NameMap TableField}
    (hfields : ∀ entry ∈ fields, P entry.1 entry.2) :
    ∀ entry ∈ mergeGroup words fields group, P entry.1 entry.2 := by
  have along (ps : List Api.Parameter) (hps : ∀ p ∈ ps, p ∈ group.parameters)
      {fields : NameMap TableField} (hfields : ∀ entry ∈ fields, P entry.1 entry.2) :
      ∀ entry ∈ ps.foldl (TableField.merge words group.name) fields, P entry.1 entry.2 := by
    induction ps generalizing fields with
    | nil => exact hfields
    | cons p rest ih =>
      apply ih (fun q hq => hps q (List.mem_cons_of_mem _ hq))
      exact kept.merge hgroup (hps p List.mem_cons_self) hfields
  exact along _ (fun p hp => (mem_sortOn _ p _).mp hp) hfields

theorem Kept.forall_mem_all (kept : Kept words parameters groups P) :
    ∀ entry ∈ all words parameters groups, P entry.1 entry.2 := by
  have along (gs : List Api.Group) (hgs : ∀ group ∈ gs, group ∈ groups)
      {fields : NameMap TableField} (hfields : ∀ entry ∈ fields, P entry.1 entry.2) :
      ∀ entry ∈ gs.foldl (TableField.mergeGroup words) fields, P entry.1 entry.2 := by
    induction gs generalizing fields with
    | nil => exact hfields
    | cons group rest ih =>
      apply ih (fun g hg => hgs g (List.mem_cons_of_mem _ hg))
      exact kept.mergeGroup (hgs group List.mem_cons_self) hfields
  apply along _ (fun group hg => (mem_sortOn _ group _).mp hg)
  intro entry h
  obtain ⟨p, hp, rfl⟩ := List.mem_map.mp (NameMap.mem_of_mem_ofList h)
  exact kept.fixed p ((mem_sortOn _ p _).mp hp)

/-- A parameter of a table: a fixed one, or one of a group. -/
def Offers (parameters : List Api.Parameter) (groups : List Api.Group) (p : Api.Parameter) : Prop :=
  p ∈ parameters ∨ ∃ group ∈ groups, p ∈ group.parameters

theorem exists_parameter_of_mem_all {entry : String × TableField}
    (h : entry ∈ all words parameters groups) :
    ∃ p, Offers parameters groups p ∧ p.name = entry.1 ∧ p.type = entry.2.type := by
  have kept : Kept words parameters groups fun name field =>
      ∃ p, Offers parameters groups p ∧ p.name = name ∧ p.type = field.type :=
    ⟨fun p hp => ⟨p, .inl hp, rfl, rfl⟩, fun group hg p hp => ⟨p, .inr ⟨group, hg, hp⟩, rfl, rfl⟩,
      fun _ _ _ _ _ h => h⟩
  exact kept.forall_mem_all entry h

end TableField

end LuaStubs
