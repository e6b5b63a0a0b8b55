import LuaStubs.Proofs.Arrangement.Entries
import LuaStubs.Proofs.Catalogs

/-! The catalog of a description in order knows what the catalog of the description knows, where
names are not used twice. -/

namespace LuaStubs

theorem map_sortOn_perm {α β : Type} {key : α → Nat} {f : α → α} {name : α → β}
    (same : ∀ a, name (f a) = name a) (xs : List α) :
    ((sortOn key (xs.map f)).map name).Perm (xs.map name) := by
  have hnames : (xs.map f).map name = xs.map name := by
    rw [List.map_map]
    exact List.map_congr_left fun a _ => same a
  rw [← hnames]
  exact (sortOn_perm key (xs.map f)).map name

namespace Catalog

variable {document : Api.Document} {globals globals' : List (String × Api.Global)}

theorem page?_arranged (reference : String) :
    (ofEntries document globals).page? reference =
      (ofEntries document.arranged globals').page? reference := by
  apply page?_congr
  · exact map_sortOn_perm Api.Class.name_arranged document.classes
  · exact map_sortOn_perm Api.Event.name_arranged document.events
  · exact map_sortOn_perm Api.Concept.name_arranged document.concepts
  · exact (sortOn_perm _ document.builtins).map _
  · intro path
    change path ∈ constantPaths _ (sortOn _ _) ↔ _
    rw [constantPaths_eq _ (sortOn _ _), mem_flatMap_sortOn, ← constantPaths_eq,
      mem_constantPaths_sorted]

theorem elements_arranged_perm (distinct : (document.concepts.map (·.name)).Nodup) :
    (ofEntries document globals).elements = elementEntries document.concepts ∧
      (NameMap.mapValues Api.TypeExpr.arranged (elementEntries document.concepts)).Perm
        (ofEntries document.arranged globals').elements := by
  have nodup : ((elementEntries document.concepts).map (·.1)).Nodup :=
    distinct.sublist (keys_elementEntries_sublist _)
  have hperm : (NameMap.mapValues Api.TypeExpr.arranged (elementEntries document.concepts)).Perm
      (elementEntries document.arranged.concepts) := by
    rw [← elementEntries_map Api.Concept.name_arranged Api.Concept.elementType?_arranged]
    exact ((sortOn_perm _ _).filterMap _).symm
  have nodup' : ((elementEntries document.arranged.concepts).map (·.1)).Nodup := by
    apply ((hperm.map (·.1)).nodup_iff).mp
    unfold NameMap.mapValues
    rw [List.map_map]
    exact nodup
  constructor
  · exact NameMap.ofList_of_nodup nodup
  · have hsame : (ofEntries document.arranged globals').elements =
        elementEntries document.arranged.concepts := NameMap.ofList_of_nodup nodup'
    rw [hsame]
    exact hperm

theorem arranges_arranged (distinct : (document.concepts.map (·.name)).Nodup)
    (same : ∀ type, (NameMap.ofList globals').get? type = (NameMap.ofList globals).get? type)
    (baseUrl : String) :
    Manual.Arranges ⟨ofEntries document globals, baseUrl⟩
      ⟨ofEntries document.arranged globals', baseUrl⟩ := by
  obtain ⟨helements, hperm⟩ :=
    @elements_arranged_perm document globals globals' distinct
  have htypes : ((elementEntries document.concepts).map (·.2)).map Api.TypeExpr.arranged
      |>.Perm (ofEntries document.arranged globals').elementTypes := by
    have h := hperm.map (·.2)
    unfold NameMap.mapValues at h
    rwa [List.map_map] at h ⊢
  refine ⟨⟨rfl, page?_arranged⟩, fun name => ?_, fun type => ?_, same⟩
  · have nodup : ((elementEntries document.concepts).map (·.1)).Nodup :=
      distinct.sublist (keys_elementEntries_sublist _)
    have nodup' : ((NameMap.mapValues Api.TypeExpr.arranged
        (elementEntries document.concepts)).map (·.1)).Nodup := by
      unfold NameMap.mapValues
      rw [List.map_map]
      exact nodup
    change NameMap.get? name (ofEntries document.arranged globals').elements = _
    rw [NameMap.get?_perm hperm nodup', NameMap.get?_mapValues, ← helements]
  · have hlength : (ofEntries document.arranged globals').elements.length =
        (ofEntries document globals).elements.length := by
      rw [← hperm.length_eq, helements]
      exact List.length_map _
    have htables : tablesOfTypes (ofEntries document.arranged globals').elementTypes =
        tablesOfTypes (ofEntries document globals).elementTypes := by
      rw [← tablesOfTypes_perm htypes, ← Api.arrangedTypes_eq, tablesOfTypes_arranged, elementTypes,
        helements]
    have hheight : heightOfTypes (ofEntries document.arranged globals').elementTypes =
        heightOfTypes (ofEntries document globals).elementTypes := by
      rw [← heightOfTypes_perm htypes, ← Api.arrangedTypes_eq, heightOfTypes_arranged, elementTypes,
        helements]
    change depthFor _ _ = depthFor _ _
    unfold depthFor
    rw [hlength, htables, hheight, type.tables_arranged, type.height_arranged]

/-! Globals. -/

theorem exposed_perm {gs gs' : List Api.Global} (h : gs.Perm gs')
    {entries : List (String × Api.Global)} (hentries : exposed gs = .ok entries) :
    ∃ entries', exposed gs' = .ok entries' ∧ entries.Perm entries' := by
  induction h generalizing entries with
  | nil => exact ⟨entries, hentries, .refl _⟩
  | cons g _ ih =>
    obtain ⟨type, others, htype, hothers, rfl⟩ := exposed_cons.mp hentries
    obtain ⟨others', hothers', hperm⟩ := ih hothers
    exact ⟨_, exposed_cons.mpr ⟨type, others', htype, hothers', rfl⟩, hperm.cons _⟩
  | swap g g' gs =>
    obtain ⟨type, others, htype, hothers, rfl⟩ := exposed_cons.mp hentries
    obtain ⟨type', others', htype', hothers', rfl⟩ := exposed_cons.mp hothers
    exact ⟨_, exposed_cons.mpr ⟨_, _, htype', exposed_cons.mpr ⟨_, _, htype, hothers', rfl⟩, rfl⟩,
      .swap _ _ _⟩
  | trans _ _ ih₁ ih₂ =>
    obtain ⟨middle, hmiddle, hperm₁⟩ := ih₁ hentries
    obtain ⟨last, hlast, hperm₂⟩ := ih₂ hmiddle
    exact ⟨last, hlast, hperm₁.trans hperm₂⟩

theorem types_of_exposed {gs : List Api.Global} {entries : List (String × Api.Global)}
    (h : exposed gs = .ok entries) :
    gs.map (·.type) = (entries.map (·.1)).map Api.TypeExpr.named := by
  induction gs generalizing entries with
  | nil =>
    cases h
    rfl
  | cons g rest ih =>
    obtain ⟨type, others, htype, hothers, rfl⟩ := exposed_cons.mp h
    rw [List.map_cons, List.map_cons, List.map_cons, ih hothers, htype]

end Catalog

end LuaStubs
