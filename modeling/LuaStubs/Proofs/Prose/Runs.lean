import LuaStubs.Proofs.Catalogs
import LuaStubs.Proofs.Prose.Entries
import LuaStubs.Proofs.Run

/-! Runs on descriptions that differ only in documentation: they claim the same names and write the
same lines, but for comments and remarks. -/

namespace LuaStubs

/-! Constants. -/

mutual

theorem Api.Constant.paths_bare (parent : String) :
    ∀ node : Api.Constant, node.bare.paths parent = node.paths parent
  | ⟨_, _, _, values, subkeys⟩ => by
    rw [Api.Constant.bare, Api.Constant.paths, Api.Constant.paths, constantPaths_bare _ subkeys,
      List.map_map]
    rfl

theorem constantPaths_bare (parent : String) :
    ∀ nodes : List Api.Constant,
      constantPaths parent (Api.bareConstants nodes) = constantPaths parent nodes
  | [] => rfl
  | node :: rest => by
    rw [Api.bareConstants, constantPaths, constantPaths, node.paths_bare parent,
      constantPaths_bare parent rest]

end

mutual

theorem Api.Constant.sorted_bare : ∀ node : Api.Constant, node.bare.sorted = node.sorted.bare
  | ⟨name, order, _, values, subkeys⟩ => by
    have horder (node : Api.Constant) : node.bare.order = node.order := by rw [node.bare_eq]
    have hvalues : sortOn (·.order) (values.map Api.ConstantValue.bare) =
        (sortOn (·.order) values).map Api.ConstantValue.bare := sortOn_map (fun _ => rfl) values
    have hsubkeys : sortOn (·.order) ((sortedConstants subkeys).map Api.Constant.bare) =
        (sortOn (·.order) (sortedConstants subkeys)).map Api.Constant.bare := sortOn_map horder _
    rw [Api.Constant.bare, Api.Constant.sorted, Api.Constant.sorted, Api.Constant.bare,
      sortedConstants_bare subkeys, Api.bareConstants_eq, Api.bareConstants_eq, hvalues, hsubkeys]

theorem sortedConstants_bare :
    ∀ nodes : List Api.Constant,
      sortedConstants (Api.bareConstants nodes) = Api.bareConstants (sortedConstants nodes)
  | [] => rfl
  | node :: rest => by
    rw [Api.bareConstants, sortedConstants, sortedConstants, Api.bareConstants, node.sorted_bare,
      sortedConstants_bare rest]

end

/-! Catalogs. -/

namespace Api

variable {document document' : Document}

theorem Shape.firstType?_bare (shape : Shape) :
    shape.bare.firstType? = shape.firstType?.map TypeExpr.bare := by
  unfold firstType?
  rw [shape.bare_eq]
  change ((sortOn _ (shape.parameters.map _)).head?).map _ = _
  rw [sortOn_map TableField.parameter_order_bare, List.head?_map, Option.map_map, Option.map_map]
  congr 1
  funext p
  change p.bare.type = p.type.bare
  rw [p.bare_eq]

theorem Concept.elementType?_bare (c : Concept) :
    c.bare.elementType? = c.elementType?.map TypeExpr.bare := by
  have hkind : c.bare.kind = c.kind.bare := rfl
  unfold elementType?
  rw [hkind]
  cases c.kind with
  | tableOrArray shape => exact shape.firstType?_bare
  | _ => rfl

end Api

theorem map_name_perm {α : Type} {bare : α → α} {name : α → String} {xs ys : List α}
    (same : xs.map bare = ys.map bare) (hname : ∀ a, name (bare a) = name a) :
    (ys.map name).Perm (xs.map name) := by
  have hnames (zs : List α) : (zs.map bare).map name = zs.map name := by
    rw [List.map_map]
    exact List.map_congr_left fun a _ => hname a
  rw [← hnames xs, ← hnames ys, same]

namespace Catalog

variable {document document' : Api.Document} {entries entries' : List (String × Api.Global)}

theorem elements_bare (same : document.bare = document'.bare) :
    (ofEntries document entries).elements.mapValues Api.TypeExpr.bare =
      (ofEntries document' entries').elements.mapValues Api.TypeExpr.bare := by
  have hconcepts : document.concepts.map Api.Concept.bare = document'.concepts.map Api.Concept.bare :=
    congrArg Api.Document.concepts same
  have hentries (concepts : List Api.Concept) :
      NameMap.mapValues Api.TypeExpr.bare (elementEntries concepts) =
        elementEntries (concepts.map Api.Concept.bare) :=
    (@elementEntries_map Api.Concept.bare _ (fun _ => rfl) Api.Concept.elementType?_bare
      concepts).symm
  change (NameMap.ofList (elementEntries _)).mapValues _ =
    (NameMap.ofList (elementEntries _)).mapValues _
  rw [NameMap.ofList_mapValues, NameMap.ofList_mapValues, hentries, hentries, hconcepts]

theorem exposed_bare {gs gs' : List Api.Global} (same : gs.map Api.Global.bare = gs'.map Api.Global.bare)
    (hentries : exposed gs = .ok entries) (hentries' : exposed gs' = .ok entries') :
    NameMap.mapValues Api.Global.bare entries = NameMap.mapValues Api.Global.bare entries' := by
  induction same using map_eq_induction generalizing entries entries' with
  | nil =>
    cases hentries
    cases hentries'
    rfl
  | @cons g g' _ _ _ hfirst _ ih =>
    obtain ⟨type, others, htype, hothers, rfl⟩ := exposed_cons.mp hentries
    obtain ⟨type', others', htype', hothers', rfl⟩ := exposed_cons.mp hentries'
    have hbare : g.type.bare = g'.type.bare := congrArg Api.Global.type hfirst
    rw [htype, htype'] at hbare
    cases hbare
    rw [NameMap.mapValues_cons, NameMap.mapValues_cons, hfirst, ih hothers hothers']

theorem alike_of_bare (same : document.bare = document'.bare)
    (hentries : exposed document.globals = .ok entries)
    (hentries' : exposed document'.globals = .ok entries') (baseUrl : String) :
    Manual.Alike ⟨ofEntries document entries, baseUrl⟩ ⟨ofEntries document' entries', baseUrl⟩ := by
  obtain ⟨hclasses, hevents, hconcepts, hbuiltins, hglobals, hconstants⟩ :=
    Api.Document.mk.inj same
  have helements := @elements_bare document document' entries entries' same
  have hviews (catalog : Catalog) : catalog.elementTypes.map Api.TypeExpr.bare =
      (catalog.elements.mapValues Api.TypeExpr.bare).map (·.2) := by
    unfold elementTypes NameMap.mapValues
    rw [List.map_map, List.map_map]
    rfl
  have htypes := (hviews _).trans ((congrArg (·.map (·.2)) helements).trans (hviews _).symm)
  refine ⟨⟨rfl, ?_⟩, fun name => ?_, fun type type' h => ?_, fun type => ?_⟩
  · apply page?_congr
    · exact map_name_perm hclasses fun _ => rfl
    · exact map_name_perm hevents fun _ => rfl
    · exact map_name_perm hconcepts fun _ => rfl
    · exact map_name_perm hbuiltins fun _ => rfl
    · intro path
      rw [← constantPaths_bare _ document'.constants, ← hconstants, constantPaths_bare]
  · rw [← NameMap.get?_mapValues, ← NameMap.get?_mapValues]
    exact congrArg (NameMap.get? name) helements
  · have hlength := congrArg List.length helements
    have htables := congrArg tablesOfTypes htypes
    have hheight := congrArg heightOfTypes htypes
    unfold NameMap.mapValues at hlength
    rw [List.length_map, List.length_map] at hlength
    rw [← Api.bareTypes_eq, ← Api.bareTypes_eq, tablesOfTypes_bare, tablesOfTypes_bare] at htables
    rw [← Api.bareTypes_eq, ← Api.bareTypes_eq, heightOfTypes_bare, heightOfTypes_bare] at hheight
    change depthFor _ _ = depthFor _ _
    unfold depthFor
    rw [hlength, htables, hheight, ← type.tables_bare, ← type.height_bare, h, type'.tables_bare,
      type'.height_bare]
  · have hfound : ((NameMap.ofList entries).get? type).map Api.Global.bare =
        ((NameMap.ofList entries').get? type).map Api.Global.bare := by
      rw [← NameMap.get?_mapValues, ← NameMap.get?_mapValues, NameMap.ofList_mapValues,
        NameMap.ofList_mapValues, exposed_bare hglobals hentries hentries']
    have hnames := congrArg (Option.map Api.Global.name) hfound
    rwa [Option.map_map, Option.map_map] at hnames

end Catalog

/-! Whole runs. -/

theorem paired_constantLines {first second : Manual} (alike : first.Alike second)
    {trees trees' : List Api.Constant} (same : Api.bareConstants trees = Api.bareConstants trees') :
    Emission.Paired Line.Alike (liftM (first.constantLines trees))
      (liftM (second.constantLines trees')) := by
  have horder (node : Api.Constant) : node.bare.order = node.order := by rw [node.bare_eq]
  have hsorted : Api.bareConstants (sortOn (·.order) (sortedConstants trees)) =
      Api.bareConstants (sortOn (·.order) (sortedConstants trees')) := by
    rw [Api.bareConstants_eq, Api.bareConstants_eq, map_sortOn_eq horder]
    rw [← Api.bareConstants_eq, ← Api.bareConstants_eq, ← sortedConstants_bare,
      ← sortedConstants_bare, same]
  unfold Manual.constantLines
  simp only [Emission.lift_bind]
  apply (Manual.paired_view alike constantRoot).bind
  rintro link _ rfl
  apply (Manual.paired_comment link link).bind
  intro comment comment' hcomment
  apply (Manual.paired_treesLines alike constantRoot _ _ hsorted).bind
  intro nodes nodes' hnodes
  exact .pure (hcomment.append ((hnodes.cons rfl).cons rfl))

theorem Job.paired_mainLines {job job' : Job} (alike : job.manual.Alike job'.manual)
    (settings : job.settings = job'.settings) (same : job.document.bare = job'.document.bare) :
    Emission.Paired Line.Alike job.mainLines job'.mainLines := by
  obtain ⟨hclasses, hevents, hconcepts, hbuiltins, -, hconstants⟩ := Api.Document.mk.inj same
  unfold mainLines
  rw [settings]
  apply (Manual.paired_builtinsLines alike job'.settings
    (map_sortOn_eq (k := (·.order)) (fun _ => rfl) hbuiltins)).bind
  intro builtins builtins' hbuiltinLines
  apply (paired_constantLines alike hconstants).bind
  intro constants constants' hconstantLines
  apply (Manual.paired_eventsLines alike hevents).bind
  intro events events' heventLines
  apply (Manual.paired_classesLines alike hclasses).bind
  intro classes classes' hclassLines
  apply (Manual.paired_conceptsLines alike hconcepts).bind_pure
  intro concepts concepts' hconceptLines
  exact ((((((Line.Alike.refl header).append hbuiltinLines).append (hconstantLines.cons rfl)).append
    (heventLines.cons rfl)).append (hclassLines.cons rfl)).append (hconceptLines.cons rfl)).append
    (.refl _)

end LuaStubs
