import LuaStubs.Proofs.Arrangement.Sorting
import LuaStubs.Proofs.Arrangement.Texts
import LuaStubs.Proofs.NameMaps
import LuaStubs.Proofs.Prose.Bare
import LuaStubs.Proofs.Prose.Skeleton

/-! Types that differ only in documentation are written alike: the same text, with tables that have
the same fields and that are declared in the same order. -/

namespace LuaStubs

theorem map_sortOn_eq {α β : Type} {f : α → β} {key : α → Nat} {k : β → Nat}
    (hkey : ∀ a, k (f a) = key a) {xs ys : List α} (same : xs.map f = ys.map f) :
    (sortOn key xs).map f = (sortOn key ys).map f := by
  rw [← sortOn_map hkey, ← sortOn_map hkey, same]

theorem foldl_view {α σ κ τ : Type} {f : α → κ} {view : σ → τ} {step : σ → α → σ}
    (h : ∀ s s' a a', view s = view s' → f a = f a' → view (step s a) = view (step s' a'))
    {xs ys : List α} (same : xs.map f = ys.map f) {s s' : σ} (hs : view s = view s') :
    view (xs.foldl step s) = view (ys.foldl step s') := by
  induction same using map_eq_induction generalizing s s' with
  | nil => exact hs
  | cons _ first rest ih => exact ih (h s s' _ _ hs first)

namespace TableField

def bare (field : TableField) : TableField :=
  ⟨field.type.bare, "", field.optional⟩

theorem merge_bare {words group : String} {fields fields' : NameMap TableField}
    {p p' : Api.Parameter} (hfields : fields.mapValues bare = fields'.mapValues bare)
    (hp : p.bare = p'.bare) :
    (merge words group fields p).mapValues bare = (merge words group fields' p').mapValues bare := by
  rw [p.bare_eq, p'.bare_eq] at hp
  obtain ⟨hname, -, -, htype, hoptional⟩ := Api.Parameter.mk.inj hp
  have hfound : (fields.get? p.name).map bare = (fields'.get? p.name).map bare := by
    rw [← NameMap.get?_mapValues, ← NameMap.get?_mapValues, hfields]
  unfold merge
  rw [← hname]
  cases hget : fields.get? p.name with
  | none =>
    rw [hget] at hfound
    rw [Option.map_eq_none_iff.mp hfound.symm]
    simp only [NameMap.put_mapValues, hfields, bare, htype, hoptional]
  | some field =>
    rw [hget] at hfound
    obtain ⟨field', hget', hfield⟩ := Option.map_eq_some_iff.mp hfound.symm
    unfold bare at hfield
    obtain ⟨htype', -, hoptional'⟩ := TableField.mk.inj hfield
    rw [hget']
    simp only [NameMap.put_mapValues, hfields, bare, htype', hoptional']

theorem parameter_order_bare (p : Api.Parameter) : p.bare.order = p.order := by
  rw [p.bare_eq]

theorem group_order_bare (g : Api.Group) : g.bare.order = g.order := by
  rw [g.bare_eq]

theorem mergeGroup_bare {words : String} {fields fields' : NameMap TableField} {g g' : Api.Group}
    (hfields : fields.mapValues bare = fields'.mapValues bare) (hg : g.bare = g'.bare) :
    (mergeGroup words fields g).mapValues bare = (mergeGroup words fields' g').mapValues bare := by
  rw [g.bare_eq, g'.bare_eq] at hg
  obtain ⟨hname, -, -, hparameters⟩ := Api.Group.mk.inj hg
  unfold mergeGroup
  rw [hname]
  refine foldl_view (fun _ _ _ _ => merge_bare) ?_ hfields
  exact map_sortOn_eq parameter_order_bare hparameters

/-- The fields of a table, but for their descriptions, come from its lists without documentation. -/
theorem all_bare {words : String} {parameters parameters' : List Api.Parameter}
    {groups groups' : List Api.Group}
    (hparameters : parameters.map Api.Parameter.bare = parameters'.map Api.Parameter.bare)
    (hgroups : groups.map Api.Group.bare = groups'.map Api.Group.bare) :
    (all words parameters groups).mapValues bare = (all words parameters' groups').mapValues bare := by
  have hfixed (ps : List Api.Parameter) :
      NameMap.mapValues bare (ps.map fun p => (p.name, fixed p)) =
        (ps.map Api.Parameter.bare).map fun p => (p.name, fixed p) := by
    induction ps with
    | nil => rfl
    | cons p rest ih =>
      rw [List.map_cons, List.map_cons, List.map_cons, ← ih, p.bare_eq]
      rfl
  unfold all
  apply foldl_view (fun _ _ _ _ => mergeGroup_bare) (map_sortOn_eq group_order_bare hgroups)
  rw [NameMap.ofList_mapValues, NameMap.ofList_mapValues, hfixed, hfixed,
    map_sortOn_eq parameter_order_bare hparameters]

end TableField

namespace Manual

/-- Two manuals that lead to the same pages, with elements that differ only in documentation. -/
structure Alike (first second : Manual) : Prop extends first.SamePages second where
  elements : ∀ name, (first.catalog.elements.get? name).map Api.TypeExpr.bare =
    (second.catalog.elements.get? name).map Api.TypeExpr.bare
  depth : ∀ type type' : Api.TypeExpr, type.bare = type'.bare →
    first.catalog.depthFor type = second.catalog.depthFor type'
  globals : ∀ type, (first.catalog.globals.get? type).map (·.name) =
    (second.catalog.globals.get? type).map (·.name)

variable {first second : Manual}

theorem paired_comment (text text' : String) :
    Emission.Paired Line.Alike (liftM (first.comment text)) (liftM (second.comment text')) := by
  apply Emission.Paired.lift
  intro lines lines' h h'
  exact (skeleton_of_comment h).trans (skeleton_of_comment h').symm

theorem paired_brief (description description' link link' : String) :
    Emission.Paired Line.Alike (liftM (first.brief description link))
      (liftM (second.brief description' link')) :=
  paired_comment _ _

theorem paired_describe (doc doc' : Api.Documentation) (link link' description description' : String) :
    Emission.Paired Line.Alike (liftM (first.describe doc link description))
      (liftM (second.describe doc' link' description')) := by
  apply Emission.Paired.lift
  intro lines lines' h h'
  exact (skeleton_of_describe h).trans (skeleton_of_describe h').symm

/-! Tables. -/

variable {fieldType fieldType' : FieldType}

theorem paired_declareTable
    (hType : ∀ type type' place, type.bare = type'.bare →
      Emission.Paired (· = ·) (fieldType type place) (fieldType' type' place))
    (table : Place) (header header' : String) {fields fields' : NameMap TableField}
    (same : fields.mapValues TableField.bare = fields'.mapValues TableField.bare) :
    Emission.Paired Line.Alike (declareTable first fieldType table header fields)
      (declareTable second fieldType' table header' fields') := by
  have hfield (entry entry' : String × TableField)
      (h : (entry.1, entry.2.bare) = (entry'.1, entry'.2.bare)) :
      Emission.Paired Line.Alike (declareField first fieldType table entry)
        (declareField second fieldType' table entry') := by
    obtain ⟨name, field⟩ := entry
    obtain ⟨name', field'⟩ := entry'
    obtain ⟨rfl, hbare⟩ := Prod.mk.inj h
    obtain ⟨htype, -, hoptional⟩ := TableField.mk.inj hbare
    apply (paired_brief _ _ _ _).bind
    intro comment comment' hcomment
    apply (hType _ _ _ htype).bind_pure
    rintro type type' rfl
    rw [hoptional]
    exact hcomment.append (.refl _)
  apply (paired_comment header header').bind
  intro comment comment' hcomment
  apply (Emission.paired_linesOf hfield same).bind_pure
  intro lines lines' hlines
  exact hcomment.append (hlines.cons rfl)

theorem paired_lowerTable
    (hType : ∀ type type' place, type.bare = type'.bare →
      Emission.Paired (· = ·) (fieldType type place) (fieldType' type' place))
    {shape shape' : Api.Shape} (same : shape.bare = shape'.bare) (place : Place) :
    Emission.Paired (· = ·) (first.lowerTable fieldType shape place)
      (second.lowerTable fieldType' shape' place) := by
  rw [shape.bare_eq, shape'.bare_eq] at same
  obtain ⟨hparameters, hgroups, -⟩ := Api.Shape.mk.inj same
  apply (Emission.paired_claim place.name).bind
  rintro claimed _ rfl
  cases claimed with
  | false => exact .pure rfl
  | true =>
    have hfields := @TableField.all_bare appliesTo _ _ _ _ hparameters hgroups
    apply (paired_declareTable hType place place.link place.link hfields).bind
    intro lines lines' hlines
    apply (Emission.paired_defer (hlines.append (.refl [.blank]))).bind_pure
    intro _ _ _
    rfl

/-! Types. -/

theorem paired_eachInside
    (hType : ∀ type type' place, type.bare = type'.bare →
      Emission.Paired (· = ·) (fieldType type place) (fieldType' type' place))
    (place : Place) {inside inside' : List (Api.TypeExpr × String)}
    (same : inside.map (fun (inner, mark) => (inner.bare, mark)) =
      inside'.map fun (inner, mark) => (inner.bare, mark)) :
    Emission.Paired (· = ·) (eachInside fieldType place inside)
      (eachInside fieldType' place inside') := by
  have hstep (index : Nat) (entry entry' : Api.TypeExpr × String)
      (h : (entry.1.bare, entry.2) = (entry'.1.bare, entry'.2)) :
      Emission.Paired (· = ·) (fieldType entry.1 (place.extend entry.2))
        (fieldType' entry'.1 (place.extend entry'.2)) := by
    obtain ⟨hbare, hmark⟩ := Prod.mk.inj h
    rw [hmark]
    exact hType _ _ _ hbare
  apply (Emission.paired_eachFrom (u := id) (v := id) 0 hstep same).imp
  intro texts texts' h
  rwa [List.map_id, List.map_id] at h

theorem paired_lowerWithin (alike : first.Alike second) (depth : Nat) (linked : Bool)
    (type type' : Api.TypeExpr) (place : Place) (same : type.bare = type'.bare) :
    Emission.Paired (· = ·) (first.lowerWithin depth linked type place)
      (second.lowerWithin depth linked type' place) := by
  induction depth generalizing linked type type' place with
  | zero =>
    intro b b' _ r r' hr
    cases hr
  | succ depth ih =>
    have samePages := alike.toSamePages
    have reshapes := Api.reshapes_bare
    have inner := ih false
    cases type.kind first.catalog.elements with
    | table shape =>
      obtain ⟨shape', rfl, hshape⟩ := reshapes.eq_table (same.symm.trans (reshapes.table shape))
      exact paired_lowerTable inner hshape.symm place
    | @concept name element found =>
      cases reshapes.eq_named (same.symm.trans (reshapes.named name))
      have helement := alike.elements name
      rw [found] at helement
      obtain ⟨element', found', hbare⟩ := Option.map_eq_some_iff.mp helement.symm
      rw [lowerWithin_concept found, lowerWithin_concept found']
      apply (Emission.Paired.lift_same (samePages.view_eq name)).bind
      rintro link _ rfl
      apply (inner element element' (.element name link) hbare.symm).bind
      rintro text _ rfl
      apply (Emission.Paired.lift_same (samePages.typeNames_eq linked _)).bind_pure
      rintro names _ rfl
      rfl
    | composed composed =>
      -- Both types have the same names in front, and inside them types that are the same without
      -- documentation.
      have composed' : type'.Composed second.catalog.elements := by
        refine reshapes.of_composed (same ▸ reshapes.composed composed fun name none => ?_)
        have helement := alike.elements name
        rw [none] at helement
        exact Option.map_eq_none_iff.mp helement.symm
      have hfront : type.front = type'.front := by
        rw [← reshapes.front type, same, reshapes.front]
      have hframe : type.frame = type'.frame := by
        rw [← reshapes.frame type, same, reshapes.frame]
      have hinside := congrArg Api.TypeExpr.inside same
      rw [reshapes.inside, reshapes.inside] at hinside
      rw [lowerWithin_composed composed, lowerWithin_composed composed', hfront, hframe]
      apply (Emission.Paired.lift_same (samePages.typeNames_eq linked _)).bind
      rintro names _ rfl
      apply (paired_eachInside inner place hinside).bind_pure
      rintro texts _ rfl
      rfl

theorem paired_lower (alike : first.Alike second) (linked : Bool) (type type' : Api.TypeExpr)
    (place : Place) (same : type.bare = type'.bare) :
    Emission.Paired (· = ·) (first.lower linked type place) (second.lower linked type' place) := by
  unfold lower
  rw [alike.depth type type' same]
  exact paired_lowerWithin alike _ linked type type' place same

end Manual

end LuaStubs
