import LuaStubs.Proofs.Arrangement.Forms
import LuaStubs.Proofs.Arrangement.Texts
import LuaStubs.Proofs.NameMaps

/-! A type in order is written as the type is: its tables have the same fields, in the same
order. -/

namespace LuaStubs

namespace TableField

def arranged (field : TableField) : TableField :=
  { field with type := field.type.arranged }

theorem fixed_arranged (p : Api.Parameter) : fixed p.arranged = (fixed p).arranged := by
  rw [p.arranged_eq]
  rfl

theorem merge_arranged (words group : String) (fields : NameMap TableField) (p : Api.Parameter) :
    merge words group (fields.mapValues arranged) p.arranged =
      (merge words group fields p).mapValues arranged := by
  have hnote : groupNote words group p.arranged = groupNote words group p := by
    rw [p.arranged_eq]
    rfl
  have hname : p.arranged.name = p.name := by rw [p.arranged_eq]
  have htype : p.arranged.type = p.type.arranged := by rw [p.arranged_eq]
  have hoptional : p.arranged.optional = p.optional := by rw [p.arranged_eq]
  unfold merge
  rw [hnote, hname, htype, hoptional, NameMap.get?_mapValues]
  cases fields.get? p.name with
  | none =>
    simp only [Option.map_none]
    rw [NameMap.put_mapValues]
    rfl
  | some field =>
    simp only [Option.map_some]
    rw [NameMap.put_mapValues]
    rfl

theorem foldl_merge_arranged (words group : String) (parameters : List Api.Parameter)
    (fields : NameMap TableField) :
    (parameters.map Api.Parameter.arranged).foldl (merge words group) (fields.mapValues arranged) =
      (parameters.foldl (merge words group) fields).mapValues arranged := by
  induction parameters generalizing fields with
  | nil => rfl
  | cons p rest ih => rw [List.map_cons, List.foldl_cons, merge_arranged, ih, List.foldl_cons]

theorem order_arranged (p : Api.Parameter) : p.arranged.order = p.order := by
  rw [p.arranged_eq]

theorem group_order_arranged (g : Api.Group) : g.arranged.order = g.order := by
  rw [g.arranged_eq]

theorem mergeGroup_arranged (words : String) (fields : NameMap TableField) (g : Api.Group) :
    mergeGroup words (fields.mapValues arranged) g.arranged =
      (mergeGroup words fields g).mapValues arranged := by
  unfold mergeGroup
  rw [g.arranged_eq]
  change (sortOn _ (sortOn _ (g.parameters.map _))).foldl _ _ = _
  rw [sortOn_sortOn_map order_arranged, foldl_merge_arranged]

theorem all_arranged (words : String) (parameters : List Api.Parameter) (groups : List Api.Group) :
    all words (sortOn (·.order) (parameters.map Api.Parameter.arranged))
        (sortOn (·.order) (groups.map Api.Group.arranged)) =
      (all words parameters groups).mapValues arranged := by
  have along (gs : List Api.Group) (fields : NameMap TableField) :
      (gs.map Api.Group.arranged).foldl (mergeGroup words) (fields.mapValues arranged) =
        (gs.foldl (mergeGroup words) fields).mapValues arranged := by
    induction gs generalizing fields with
    | nil => rfl
    | cons g rest ih => rw [List.map_cons, List.foldl_cons, mergeGroup_arranged, ih, List.foldl_cons]
  have hfixed (ps : List Api.Parameter) :
      (ps.map Api.Parameter.arranged).map (fun p => (p.name, fixed p)) =
        NameMap.mapValues arranged (ps.map fun p => (p.name, fixed p)) := by
    induction ps with
    | nil => rfl
    | cons p rest ih =>
      have hname : p.arranged.name = p.name := by rw [p.arranged_eq]
      rw [List.map_cons, List.map_cons, ih, hname, fixed_arranged]
      rfl
  unfold all
  rw [sortOn_sortOn_map order_arranged, sortOn_sortOn_map group_order_arranged, hfixed,
    ← NameMap.ofList_mapValues, along]

end TableField

namespace Emission

variable {α β : Type}

theorem linesOf_map {f : α → β} {step : α → Emission (List Line)} {step' : β → Emission (List Line)}
    (h : ∀ a, step' (f a) = step a) (xs : List α) : linesOf step' (xs.map f) = linesOf step xs := by
  induction xs with
  | nil => rfl
  | cons a rest ih => rw [List.map_cons, linesOf, linesOf, h, ih]

end Emission

namespace Manual

/-- A manual, and one whose elements are the same in order. -/
structure Arranges (first second : Manual) : Prop extends first.SamePages second where
  elements : ∀ name, second.catalog.elements.get? name =
    (first.catalog.elements.get? name).map Api.TypeExpr.arranged
  depth : ∀ type : Api.TypeExpr,
    second.catalog.depthFor type.arranged = first.catalog.depthFor type
  globals : ∀ type, second.catalog.globals.get? type = first.catalog.globals.get? type

variable {first second : Manual} {fieldType fieldType' : FieldType}

theorem declareTable_arranged (same : first.SamePages second)
    (hType : ∀ type place, fieldType' (Api.TypeExpr.arranged type) place = fieldType type place)
    (table : Place) (header : String) (fields : NameMap TableField) :
    declareTable second fieldType' table header (fields.mapValues TableField.arranged) =
      declareTable first fieldType table header fields := by
  have hfield (entry : String × TableField) :
      declareField second fieldType' table (entry.1, entry.2.arranged) =
        declareField first fieldType table entry := by
    obtain ⟨name, field⟩ := entry
    unfold declareField
    simp only [TableField.arranged, same.brief_eq, hType]
  unfold declareTable
  rw [same.comment_eq]
  have hfields := Emission.linesOf_map hfield fields
  unfold NameMap.mapValues
  rw [hfields]

theorem lowerTable_arranged (same : first.SamePages second)
    (hType : ∀ type place, fieldType' (Api.TypeExpr.arranged type) place = fieldType type place)
    (shape : Api.Shape) (place : Place) :
    second.lowerTable fieldType' shape.arranged place = first.lowerTable fieldType shape place := by
  unfold lowerTable
  rw [shape.arranged_eq]
  simp only [TableField.all_arranged, declareTable_arranged same hType]

theorem lowerWithin_arranged (arranges : first.Arranges second) (depth : Nat) (linked : Bool)
    (type : Api.TypeExpr) (place : Place) :
    second.lowerWithin depth linked type.arranged place =
      first.lowerWithin depth linked type place := by
  induction depth generalizing linked type place with
  | zero => rfl
  | succ depth ih =>
    have same := arranges.toSamePages
    have inner (type : Api.TypeExpr) (place : Place) := ih false type place
    cases type.kind first.catalog.elements with
    | table shape => exact lowerTable_arranged same inner shape place
    | @concept name element found =>
      have found' : second.catalog.elements.get? name = some element.arranged := by
        rw [arranges.elements, found, Option.map_some]
      rw [Api.TypeExpr.arranged, lowerWithin_concept found, lowerWithin_concept found']
      simp only [same.view_eq, inner, same.typeNames_eq]
    | composed composed =>
      have composed' : type.arranged.Composed second.catalog.elements :=
        Api.reshapes_arranged.composed composed fun name none => by rw [arranges.elements, none]; rfl
      rw [lowerWithin_composed composed, lowerWithin_composed composed', Api.reshapes_arranged.front,
        Api.reshapes_arranged.frame, Api.reshapes_arranged.inside, eachInside_map inner,
        same.typeNames_eq]

theorem lower_arranged (arranges : first.Arranges second) (linked : Bool) (type : Api.TypeExpr)
    (place : Place) : second.lower linked type.arranged place = first.lower linked type place := by
  unfold lower
  rw [arranges.depth, lowerWithin_arranged arranges]

end Manual

end LuaStubs
