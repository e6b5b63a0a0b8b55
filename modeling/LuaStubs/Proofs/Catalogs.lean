import LuaStubs.Proofs.NameMaps
import LuaStubs.Proofs.Outcomes
import LuaStubs.Proofs.Vocabulary
import LuaStubs.Stub.Constants

/-! What is in the catalog of a description: its entries under their names, and all paths of
constants, also of those below a node that has been put in order. -/

namespace LuaStubs

/-! Constants in order. -/

theorem constantPaths_eq (parent : String) (nodes : List Api.Constant) :
    constantPaths parent nodes = nodes.flatMap (Api.Constant.paths parent) := by
  induction nodes with
  | nil => rfl
  | cons node rest ih => rw [constantPaths, ih, List.flatMap_cons]

theorem mem_flatMap_sortOn {α β : Type} {key : α → Nat} {f : α → List β} {xs : List α} {b : β} :
    b ∈ (sortOn key xs).flatMap f ↔ b ∈ xs.flatMap f := by
  simp only [List.mem_flatMap, mem_sortOn]

mutual

theorem Api.Constant.mem_paths_sorted (parent path : String) :
    ∀ node : Api.Constant, path ∈ node.sorted.paths parent ↔ path ∈ node.paths parent
  | ⟨name, order, description, values, subkeys⟩ => by
    have hsubkeys : path ∈ constantPaths (parent ++ "." ++ name)
          (sortOn (·.order) (sortedConstants subkeys)) ↔
        path ∈ constantPaths (parent ++ "." ++ name) subkeys := by
      rw [constantPaths_eq, mem_flatMap_sortOn, ← constantPaths_eq]
      exact mem_constantPaths_sorted _ path subkeys
    simp only [Api.Constant.sorted, Api.Constant.paths, List.mem_append, List.mem_cons,
      List.mem_map, mem_sortOn, hsubkeys]

theorem mem_constantPaths_sorted (parent path : String) :
    ∀ nodes : List Api.Constant,
      path ∈ constantPaths parent (sortedConstants nodes) ↔ path ∈ constantPaths parent nodes
  | [] => Iff.rfl
  | node :: rest => by
    rw [sortedConstants, constantPaths, constantPaths, List.mem_append, List.mem_append,
      node.mem_paths_sorted parent path, mem_constantPaths_sorted parent path rest]

end

mutual

theorem Api.Constant.words_sorted : ∀ node : Api.Constant, node.sorted.words ⊆ node.words
  | ⟨name, order, description, values, subkeys⟩ => by
    intro word h
    rw [Api.Constant.sorted, Api.Constant.words, Api.wordsOfConstants_eq] at h
    rw [Api.Constant.words]
    rcases List.mem_append.mp h with h | h
    · apply List.mem_append_left _
      simpa only [List.mem_cons, mem_flatMap_sortOn] using h
    · rw [mem_flatMap_sortOn, ← Api.wordsOfConstants_eq] at h
      exact List.mem_append_right _ (words_sortedConstants subkeys h)

theorem words_sortedConstants :
    ∀ nodes : List Api.Constant,
      Api.wordsOfConstants (sortedConstants nodes) ⊆ Api.wordsOfConstants nodes
  | [] => fun _ h => h
  | node :: rest => by
    intro word h
    rcases List.mem_append.mp h with h | h
    · exact List.mem_append_left _ (node.words_sorted h)
    · exact List.mem_append_right _ (words_sortedConstants rest h)

end

theorem words_sortOn_constants (nodes : List Api.Constant) :
    Api.wordsOfConstants (sortOn (·.order) (sortedConstants nodes)) ⊆ Api.wordsOfConstants nodes := by
  intro word h
  rw [Api.wordsOfConstants_eq, mem_flatMap_sortOn, ← Api.wordsOfConstants_eq] at h
  exact words_sortedConstants nodes h

theorem mem_paths_sortOn_constants {parent path : String} {nodes : List Api.Constant} :
    path ∈ constantPaths parent (sortOn (·.order) (sortedConstants nodes)) ↔
      path ∈ constantPaths parent nodes := by
  rw [constantPaths_eq, mem_flatMap_sortOn, ← constantPaths_eq]
  exact mem_constantPaths_sorted parent path nodes

/-! Catalogs. -/

namespace Catalog

theorem exposed_cons {g : Api.Global} {rest : List Api.Global} {entries : List (String × Api.Global)} :
    exposed (g :: rest) = .ok entries ↔
      ∃ type others, g.type = .named type ∧ exposed rest = .ok others ∧
        entries = (type, g) :: others := by
  rw [exposed]
  cases htype : g.type with
  | named type =>
    simp only [Outcome.bind_eq_ok, Outcome.pure_eq_ok]
    constructor
    · rintro ⟨others, hothers, rfl⟩
      exact ⟨type, others, rfl, hothers, rfl⟩
    · rintro ⟨_, others, h, hothers, rfl⟩
      cases h
      exact ⟨others, hothers, rfl⟩
  | _ =>
    constructor
    · intro h
      cases h
    · rintro ⟨_, _, h, _⟩
      cases h

/-- Globals go into a catalog exactly if their types are plain names. -/
theorem exists_exposed {globals : List Api.Global} :
    (∃ entries, exposed globals = .ok entries) ↔ ∀ g ∈ globals, ∃ type, g.type = .named type := by
  induction globals with
  | nil => exact iff_of_true ⟨[], rfl⟩ (by simp)
  | cons g rest ih =>
    rw [List.forall_mem_cons, ← ih]
    constructor
    · rintro ⟨entries, h⟩
      obtain ⟨type, others, htype, hothers, -⟩ := exposed_cons.mp h
      exact ⟨⟨type, htype⟩, others, hothers⟩
    · rintro ⟨⟨type, htype⟩, others, hothers⟩
      exact ⟨_, exposed_cons.mpr ⟨type, others, htype, hothers, rfl⟩⟩

theorem mem_of_mem_exposed {globals : List Api.Global} {entries : List (String × Api.Global)}
    (h : exposed globals = .ok entries) {type : String} {g : Api.Global}
    (hmem : (type, g) ∈ entries) : g ∈ globals ∧ g.type = .named type := by
  induction globals generalizing entries with
  | nil =>
    cases h
    cases hmem
  | cons first rest ih =>
    obtain ⟨own, others, htype, hothers, rfl⟩ := exposed_cons.mp h
    rcases List.mem_cons.mp hmem with hmem | hmem
    · cases hmem
      exact ⟨List.mem_cons_self, htype⟩
    · obtain ⟨hg, hnamed⟩ := ih hothers hmem
      exact ⟨List.mem_cons_of_mem _ hg, hnamed⟩

theorem ofDocument_eq_ok {document : Api.Document} {catalog : Catalog} :
    ofDocument document = .ok catalog ↔
      ∃ entries, exposed document.globals = .ok entries ∧ catalog = ofEntries document entries := by
  unfold ofDocument
  simp only [Outcome.bind_eq_ok, Outcome.pure_eq_ok]

variable {document : Api.Document} {globals : List (String × Api.Global)}

theorem has_class {c : Api.Class} (h : c ∈ document.classes) :
    (ofEntries document globals).classes.has c.name = true :=
  NameMap.has_ofList (List.mem_map.mpr ⟨c, h, rfl⟩)

theorem has_event {e : Api.Event} (h : e ∈ document.events) :
    (ofEntries document globals).events.has e.name = true :=
  NameMap.has_ofList (List.mem_map.mpr ⟨e, h, rfl⟩)

theorem has_concept {c : Api.Concept} (h : c ∈ document.concepts) :
    (ofEntries document globals).concepts.has c.name = true :=
  NameMap.has_ofList (List.mem_map.mpr ⟨c, h, rfl⟩)

theorem has_builtin {b : Api.Builtin} (h : b ∈ document.builtins) :
    (ofEntries document globals).builtins.has b.name = true :=
  NameMap.has_ofList (List.mem_map.mpr ⟨b, h, rfl⟩)

theorem exists_class_of_has {name : String}
    (h : (ofEntries document globals).classes.has name = true) :
    ∃ c ∈ document.classes, c.name = name := by
  obtain ⟨c, hc⟩ := NameMap.mem_of_has_ofList h
  obtain ⟨c, hmem, hname⟩ := List.mem_map.mp hc
  cases hname
  exact ⟨c, hmem, rfl⟩

/-- The types that concepts may be written as arrays of, before they are put in. -/
def elementEntries (concepts : List Api.Concept) : List (String × Api.TypeExpr) :=
  concepts.filterMap fun c => c.elementType?.map fun type => (c.name, type)

theorem keys_elementEntries_sublist (concepts : List Api.Concept) :
    ((elementEntries concepts).map (·.1)).Sublist (concepts.map (·.name)) := by
  induction concepts with
  | nil => exact .slnil
  | cons c rest ih =>
    unfold elementEntries
    rw [List.filterMap_cons]
    cases c.elementType? with
    | none => exact ih.cons _
    | some type => exact ih.cons_cons _

theorem elementEntries_map {f : Api.Concept → Api.Concept} {g : Api.TypeExpr → Api.TypeExpr}
    (name : ∀ c, (f c).name = c.name) (element : ∀ c, (f c).elementType? = c.elementType?.map g)
    (concepts : List Api.Concept) :
    elementEntries (concepts.map f) = NameMap.mapValues g (elementEntries concepts) := by
  induction concepts with
  | nil => rfl
  | cons c rest ih =>
    unfold elementEntries at ih ⊢
    rw [List.map_cons, List.filterMap_cons, List.filterMap_cons, element, name, ih]
    cases c.elementType? with
    | none => rfl
    | some type => rfl

theorem exists_element_of_get? {name : String} {element : Api.TypeExpr}
    (h : (ofEntries document globals).elements.get? name = some element) :
    ∃ c ∈ document.concepts, c.name = name ∧ ∃ shape, c.kind = .tableOrArray shape ∧
      ∃ p ∈ shape.parameters, p.type = element := by
  obtain ⟨c, hmem, hentry⟩ := List.mem_filterMap.mp (NameMap.mem_of_get?_ofList h)
  obtain ⟨type, htype, hentry⟩ := Option.map_eq_some_iff.mp hentry
  cases hentry
  unfold Api.Concept.elementType? at htype
  split at htype
  · rename_i shape hkind
    obtain ⟨p, hp, rfl⟩ := Option.map_eq_some_iff.mp htype
    exact ⟨c, hmem, rfl, shape, hkind, p, (mem_sortOn _ p _).mp (List.mem_of_head? hp), rfl⟩
  · cases htype

theorem words_of_element {name : String} {element : Api.TypeExpr}
    (h : (ofEntries document globals).elements.get? name = some element) :
    element.words ⊆ document.words := by
  obtain ⟨c, hc, -, shape, hshape, p, hp, rfl⟩ := exists_element_of_get? h
  intro word hword
  have hfield : word ∈ p.words := by
    rw [p.words_eq]
    exact List.mem_cons_of_mem _ (List.mem_cons_of_mem _ hword)
  have hkind : word ∈ c.kind.words := by
    rw [hshape]
    exact Api.Shape.words_of_parameter hp hfield
  exact Api.Document.words_of_concept hc (c.words_of_kind hkind)

theorem words_of_global (hentries : exposed document.globals = .ok globals) {type : String}
    {global : Api.Global} (h : (ofEntries document globals).globals.get? type = some global) :
    global.words ⊆ document.words := by
  obtain ⟨hglobal, -⟩ := mem_of_mem_exposed hentries (NameMap.mem_of_get?_ofList h)
  exact Api.Document.words_of_global hglobal

theorem mem_paths {path : String} (h : path ∈ constantPaths constantRoot document.constants) :
    path ∈ (ofEntries document globals).paths :=
  mem_distinct_iff.mpr (List.mem_cons_of_mem _ h)

theorem root_mem_paths : constantRoot ∈ (ofEntries document globals).paths :=
  mem_distinct_iff.mpr List.mem_cons_self

theorem page?_congr {document' : Api.Document} {globals' : List (String × Api.Global)}
    (classes : (document'.classes.map (·.name)).Perm (document.classes.map (·.name)))
    (events : (document'.events.map (·.name)).Perm (document.events.map (·.name)))
    (concepts : (document'.concepts.map (·.name)).Perm (document.concepts.map (·.name)))
    (builtins : (document'.builtins.map (·.name)).Perm (document.builtins.map (·.name)))
    (constants : ∀ path, path ∈ constantPaths constantRoot document'.constants ↔
      path ∈ constantPaths constantRoot document.constants) (reference : String) :
    (ofEntries document globals).page? reference =
      (ofEntries document' globals').page? reference := by
  have hclasses (n : String) : (ofEntries document globals).classes.has n =
      (ofEntries document' globals').classes.has n := NameMap.has_ofList_perm classes n
  have hevents (n : String) : (ofEntries document globals).events.has n =
      (ofEntries document' globals').events.has n := NameMap.has_ofList_perm events n
  have hconcepts (n : String) : (ofEntries document globals).concepts.has n =
      (ofEntries document' globals').concepts.has n := NameMap.has_ofList_perm concepts n
  have hbuiltins (n : String) : (ofEntries document globals).builtins.has n =
      (ofEntries document' globals').builtins.has n := NameMap.has_ofList_perm builtins n
  have hpaths (n : String) : (ofEntries document globals).paths.contains n =
      (ofEntries document' globals').paths.contains n := by
    rw [Bool.eq_iff_iff, List.contains_iff_mem, List.contains_iff_mem]
    change n ∈ distinct (_ :: _) ↔ n ∈ distinct (_ :: _)
    rw [mem_distinct_iff, mem_distinct_iff, List.mem_cons, List.mem_cons, constants]
  unfold page? ownerPage?
  simp only [hbuiltins, hclasses, hevents, hconcepts, hpaths]

end Catalog

end LuaStubs
