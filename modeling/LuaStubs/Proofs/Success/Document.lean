import LuaStubs.Proofs.Catalogs
import LuaStubs.Proofs.Run
import LuaStubs.Proofs.Success.Entries

/-! Exactly when a stub file is written. A description whose words leave links alone and whose types
have an end is written exactly if it is complete: what it refers to is there, and what it contains
can be expressed. -/

namespace LuaStubs

namespace Api.Document

/-- A reference that names something in the description. -/
def Knows (document : Document) (reference : String) : Prop :=
  ((Catalog.ofEntries document []).page? reference).isSome = true

/-- The element types of table-or-array concepts by their names. -/
def elements (document : Document) : NameMap TypeExpr :=
  (Catalog.ofEntries document []).elements

/-- All documentation of entries and members. -/
def docs (document : Document) : List Documentation :=
  document.classes.flatMap Class.docs ++ document.events.map (·.doc)
    ++ document.concepts.flatMap Concept.docs

/-- A description whose words leave links alone and whose types have an end. -/
structure Tame (document : Document) (baseUrl : String) : Prop where
  words : ∀ word ∈ document.words, word.Linkable
  base : Unmarked baseUrl.toList
  classes : ∀ c ∈ document.classes, ':' ∉ c.name.toList
  concepts : ∀ c ∈ document.concepts, ':' ∉ c.name.toList
  calls : ∀ c ∈ document.classes, c.CalledOnce
  acyclic : Acyclic document.elements

/-- A description that leaves nothing open. -/
structure Complete (document : Document) : Prop where
  globals : ∀ global ∈ document.globals, ∃ type, global.type = .named type
  operators : ∀ c ∈ document.classes, ∀ o ∈ c.operators,
    o.name = "index" ∨ o.name = "length" ∨ o.name = "call"
  seeAlso : ∀ doc ∈ document.docs, ∀ reference ∈ doc.seeAlso, document.Knows reference
  links : ∀ c ∈ document.concepts, ∀ o ∈ c.identifications,
    ∀ name ∈ o.type.linkedNames document.elements, document.Knows name

end Api.Document

variable {document : Api.Document} {settings : Settings}

theorem Manual.ready_of_tame (tame : document.Tame settings.baseUrl)
    {entries : List (String × Api.Global)} (hentries : Catalog.exposed document.globals = .ok entries) :
    (Manual.mk (Catalog.ofEntries document entries) settings.baseUrl).Ready where
  base := tame.base
  files := by
    intro name h
    obtain ⟨c, hc, rfl⟩ := Catalog.exists_class_of_has h
    exact tame.words _ (Api.Document.words_of_class hc List.mem_cons_self)
  elements := by
    intro name element h word hword
    exact tame.words word (Catalog.words_of_element h hword)
  known := by
    intro name element h
    obtain ⟨c, hc, rfl, -⟩ := Catalog.exists_element_of_get? h
    exact knows_concept (Catalog.has_concept hc) (tame.concepts c hc)
  acyclic := tame.acyclic
  globals := by
    intro type global h
    exact (tame.words _ (Catalog.words_of_global hentries h
      (List.mem_cons_of_mem _ List.mem_cons_self))).2

theorem answers_constantLines {manual : Manual} (linkable : manual.Linkable)
    {trees : List Api.Constant} (root : constantRoot ∈ manual.catalog.paths)
    (listed : ∀ path ∈ constantPaths constantRoot trees, path ∈ manual.catalog.paths)
    (words : ∀ word ∈ Api.wordsOfConstants trees, word.Linkable) :
    Answers True (fun _ => True) (manual.constantLines trees) := by
  have hroot : ']' ∉ constantRoot.toList := by decide
  refine (Manual.answers_view linkable hroot (Manual.knows_path root)).free_bind fun link hlink =>
    (Manual.answers_comment hlink).free_bind fun comment _ => ?_
  have hnodes := Manual.answers_treesLines linkable constantRoot hroot _
    (fun path h => listed path (mem_paths_sortOn_constants.mp h))
    (fun word h => words word (words_sortOn_constants trees h))
  exact hnodes.bind_pure fun _ _ => trivial

structure Job.Needs (job : Job) : Prop where
  events : ∀ e ∈ job.document.events, job.manual.Resolves e.doc
  classes : ∀ c ∈ job.document.classes, job.manual.ClassNeeds c
  concepts : ∀ c ∈ job.document.concepts, job.manual.ConceptNeeds c

theorem succeeds_mainLines (tame : document.Tame settings.baseUrl)
    {entries : List (String × Api.Global)} (hentries : Catalog.exposed document.globals = .ok entries)
    {appendix : String} {job : Job}
    (hjob : job = ⟨document, Catalog.ofEntries document entries, settings, appendix⟩) :
    job.mainLines.SucceedsIff job.Needs := by
  have ready := Manual.ready_of_tame tame hentries
  have part {own : List Word} (h : own ⊆ document.words) : ∀ word ∈ own, word.Linkable :=
    fun word hword => tame.words word (h hword)
  subst hjob
  have hbuiltins := @Manual.answers_builtinsLines _ ready.toLinkable settings
    (sortOn (·.order) document.builtins)
    (fun b h => Catalog.has_builtin ((mem_sortOn _ b _).mp h)) fun word h => by
      obtain ⟨b, hb, hword⟩ := List.mem_flatMap.mp h
      exact part (Api.Document.words_of_builtin ((mem_sortOn _ b _).mp hb)) word hword
  have hconstants := @answers_constantLines _ ready.toLinkable document.constants
    Catalog.root_mem_paths (fun path h => Catalog.mem_paths h) (part Api.Document.words_of_constant)
  have hevent (e : Api.Event) (he : e ∈ sortOn (·.order) document.events) := by
    have hmem := (mem_sortOn _ e _).mp he
    exact @Manual.succeeds_eventLines _ ready e (Catalog.has_event hmem)
      (part (Api.Document.words_of_event hmem))
  have hclass (c : Api.Class) (hc : c ∈ sortOn (·.order) document.classes) := by
    have hmem := (mem_sortOn _ c _).mp hc
    exact @Manual.succeeds_classLines _ ready c (tame.calls c hmem) (Catalog.has_class hmem)
      (tame.classes c hmem) (part (Api.Document.words_of_class hmem))
  have hconcept (c : Api.Concept) (hc : c ∈ sortOn (·.order) document.concepts) := by
    have hmem := (mem_sortOn _ c _).mp hc
    exact @Manual.succeeds_conceptLines _ ready c (Catalog.has_concept hmem)
      (tame.concepts c hmem) (part (Api.Document.words_of_concept hmem))
  apply ((Succeeds.lift hbuiltins).free_bind fun builtins _ =>
    (Succeeds.lift hconstants).free_bind fun constants _ =>
      (Succeeds.linesOf hevent).bind fun events _ => (Succeeds.linesOf hclass).bind fun classes _ =>
        (Succeeds.linesOf hconcept).bind_pure fun _ _ => trivial).congr
  simp only [mem_sortOn]
  constructor
  · rintro ⟨events, classes, concepts⟩
    exact ⟨events, classes, concepts⟩
  · exact fun needs => ⟨needs.events, needs.classes, needs.concepts⟩

theorem Job.needs_iff {entries : List (String × Api.Global)}
    (hentries : Catalog.exposed document.globals = .ok entries) {appendix : String} {job : Job}
    (hjob : job = ⟨document, Catalog.ofEntries document entries, settings, appendix⟩) :
    job.Needs ↔ document.Complete := by
  subst hjob
  constructor
  · intro needs
    refine ⟨Catalog.exists_exposed.mp ⟨entries, hentries⟩, fun c hc o ho => ?_, fun doc hdoc => ?_,
      fun c hc => (needs.concepts c hc).links⟩
    · simpa [Manual.expressible] using (needs.classes c hc).operators o ho
    · simp only [Api.Document.docs, List.mem_append, List.mem_flatMap, List.mem_map] at hdoc
      rcases hdoc with (⟨c, hc, hdoc⟩ | ⟨e, he, rfl⟩) | ⟨c, hc, hdoc⟩
      · exact (needs.classes c hc).docs doc hdoc
      · exact needs.events e he
      · exact (needs.concepts c hc).docs doc hdoc
  · intro complete
    have resolves {doc : Api.Documentation} (h : doc ∈ document.docs) := complete.seeAlso doc h
    simp only [Api.Document.docs, List.mem_append, List.mem_flatMap, List.mem_map] at resolves
    refine ⟨fun e he => resolves (.inl (.inr ⟨e, he, rfl⟩)), fun c hc => ⟨fun o ho => ?_, ?_⟩,
      fun c hc => ⟨?_, complete.links c hc⟩⟩
    · simpa [Manual.expressible] using complete.operators c hc o ho
    · exact fun doc hdoc => resolves (.inl (.inl ⟨c, hc, hdoc⟩))
    · exact fun doc hdoc => resolves (.inr ⟨c, hc, hdoc⟩)

/-- A tame description is written exactly if it is complete. -/
theorem stubsOf_succeeds_iff (document : Api.Document) (settings : Settings) (appendix : String)
    (tame : document.Tame settings.baseUrl) :
    (∃ stubs, stubsOf document settings appendix = .ok stubs) ↔ document.Complete := by
  constructor
  · rintro ⟨stubs, h⟩
    obtain ⟨entries, _, main, backlog, hentries, rfl, hmain, -⟩ := stubsOf_eq_finish.mp h
    have needs := ((succeeds_mainLines tame hentries rfl).result _ _ _ hmain).1
    exact (Job.needs_iff hentries rfl).mp needs
  · intro complete
    obtain ⟨entries, hentries⟩ := Catalog.exists_exposed.mpr complete.globals
    have needs := (@Job.needs_iff document settings _ hentries appendix _ rfl).mpr complete
    rcases (succeeds_mainLines tame hentries rfl).runs needs .empty with
      ⟨⟨main, backlog⟩, hmain⟩ | ⟨e, none, -⟩
    · exact ⟨_, stubsOf_eq_finish.mpr ⟨entries, _, main, backlog, hentries, rfl, hmain, rfl⟩⟩
    · exact none.elim

/-- A class with an operator, and a concept that is named by positions, which may be arrays. -/
def positions : Api.Document where
  classes := [⟨"A", 0, ⟨"(all)", [], [], ["A::x", "defines"], []⟩, [], [],
    [⟨"index", 0, ⟨"", [], [], [], []⟩, some (.named "P"), true, false,
      ⟨[], [], none, none, none, false, false, none, none⟩⟩], []⟩]
  events := []
  concepts := [
    ⟨"P", 0, ⟨"", [], [], [], []⟩, .tableOrArray ⟨[⟨"x", 0, "", .named "int", false⟩], [], none⟩⟩,
    ⟨"S", 1, ⟨"", [], [], [], []⟩, .identification [⟨0, "(b)", .named "P"⟩]⟩]
  builtins := [⟨"int", 0, ""⟩]
  globals := [⟨"a", 0, "", .named "A"⟩]
  constants := []

theorem positions_acyclic : Acyclic positions.elements := by
  apply acyclic_of_rank (fun name => if name = "P" then 1 else 0)
  rintro concept name ⟨element, helement, hname⟩
  have entry : (concept, element) = ("P", .named "int") :=
    List.mem_singleton.mp (NameMap.mem_of_get? helement)
  cases entry
  have only : name = "int" := List.mem_singleton.mp hname
  rw [only]
  decide

theorem positions_tame : positions.Tame "/" := by
  refine ⟨?_, ?_, ?_, ?_, ?_, positions_acyclic⟩
  · decide +kernel
  · decide +kernel
  · decide +kernel
  · decide +kernel
  · change ∀ c ∈ positions.classes, (c.operators.filter (·.name = "call")).length ≤ 1
    decide +kernel

theorem positions_complete : positions.Complete := by
  refine ⟨?_, ?_, ?_, ?_⟩
  · simp [positions]
  · decide +kernel
  · change ∀ doc ∈ positions.docs, ∀ reference ∈ doc.seeAlso,
      ((Catalog.ofEntries positions []).page? reference).isSome = true
    decide +kernel
  · change ∀ c ∈ positions.concepts, ∀ o ∈ c.identifications,
      ∀ name ∈ o.type.linkedNames positions.elements,
        ((Catalog.ofEntries positions []).page? name).isSome = true
    decide +kernel

theorem stubsOf_positions_succeeds :
    positions.Tame "/" ∧ positions.Complete ∧
      ∃ stubs, stubsOf positions ⟨"/", []⟩ "" = .ok stubs :=
  ⟨positions_tame, positions_complete,
    (stubsOf_succeeds_iff positions ⟨"/", []⟩ "" positions_tame).mpr positions_complete⟩

end LuaStubs
