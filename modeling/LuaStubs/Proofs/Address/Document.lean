import LuaStubs.Proofs.Address.Entries

/-! A description is written in the same way at each address of the manual: the file is one
template, filled with the address. -/

namespace LuaStubs

open Template

abbrev Job.ofAddress (document : Api.Document) (catalog : Catalog) (known : List String)
    (appendix : String) (a : Address) : Job :=
  ⟨document, catalog, ⟨a.url, known⟩, appendix⟩

section

variable {document : Api.Document} (words : ∀ word ∈ document.words, word.Unbracketed)
  (catalog : Catalog) (known : List String) (appendix : String)
include words

theorem Job.agree_mainLines :
    Emission.Agree FilledLines fun a =>
      (Job.ofAddress document catalog known appendix a).mainLines := by
  have part {own : List Word} (h : own ⊆ document.words) : ∀ word ∈ own, word.Unbracketed :=
    fun word hword => words word (h hword)
  have hevent (e : Api.Event) (he : e ∈ sortOn (·.order) document.events) :=
    catalog.agree_eventLines (part (Api.Document.words_of_event ((mem_sortOn _ e _).mp he)))
  have hclass (c : Api.Class) (hc : c ∈ sortOn (·.order) document.classes) :=
    catalog.agree_classLines (part (Api.Document.words_of_class ((mem_sortOn _ c _).mp hc)))
  have hconcept (c : Api.Concept) (hc : c ∈ sortOn (·.order) document.concepts) :=
    catalog.agree_conceptLines (part (Api.Document.words_of_concept ((mem_sortOn _ c _).mp hc)))
  simp only [mainLines, manual]
  apply (Emission.Agree.lift (catalog.agree_builtinsLines known _)).bind
  intro builtins hbuiltins
  apply (Emission.Agree.lift (catalog.agree_constantLines _)).bind
  intro constants hconstants
  apply (Emission.agree_linesOf hevent).bind
  intro events hevents
  apply (Emission.agree_linesOf hclass).bind
  intro classes hclasses
  apply (Emission.agree_linesOf hconcept).bind_pure
  intro concepts hconcepts
  have hfront := ((filledLines_const header).append hbuiltins).append (hconstants.below .blank)
  have hentries := (hfront.append (hevents.below .blank)).append (hclasses.below .blank)
  exact (hentries.append (hconcepts.below .blank)).above [.blank]

theorem Job.agree_run :
    Agree (fun stubs => Filled (fun a => (stubs a).text) ∧ Fixed fun a => (stubs a).names)
      fun a => (Job.ofAddress document catalog known appendix a).run := by
  have empty : Backlog.Filled fun _ => .empty := ⟨fixed_const [], filled_const ""⟩
  rcases Job.agree_mainLines words catalog known appendix _ empty with
    ⟨e, herror⟩ | ⟨found, ⟨hlines, hbacklog⟩, hok⟩
  · refine .inl ⟨e, fun a => ?_⟩
    simp only [run, lines, herror]
    rfl
  · have hfinish (a : Address) := Job.run_eq_ok.mpr ⟨(found a).1, (found a).2, hok a, rfl⟩
    refine .inr ⟨_, ⟨?_, hbacklog.names⟩, hfinish⟩
    have hfront := (Filled.append hlines (filled_const appendix)).append (filled_const "\n")
    exact (hfront.append hbacklog.text).append (filled_const "\n")

end

/-- Moving the manual to another address changes nothing but the address: either no address leads to
a file, for one reason, or all lead to the same template, filled with the address, and to the same
names of tables. -/
theorem stubsOf_moves {document : Api.Document} (words : ∀ word ∈ document.words, word.Unbracketed)
    (known : List String) (appendix : String) :
    (∃ e, ∀ a : Address, stubsOf document ⟨a.url, known⟩ appendix = .error e) ∨
      ∃ (template : Template) (names : List String), ∀ a : Address,
        stubsOf document ⟨a.url, known⟩ appendix
          = .ok ⟨String.ofList (fill a.url.toList template), names⟩ := by
  cases hcatalog : Catalog.ofDocument document with
  | error e =>
    refine .inl ⟨.catalog e, fun a => ?_⟩
    simp only [stubsOf, Job.ofDocument, hcatalog]
    rfl
  | ok catalog =>
    have hjob (a : Address) : stubsOf document ⟨a.url, known⟩ appendix
        = (Job.ofAddress document catalog known appendix a).run.mapError .stub := by
      simp only [stubsOf, Job.ofDocument, hcatalog]
      rfl
    simp only [hjob]
    rcases (Job.agree_run words catalog known appendix).mapError GenerationError.stub with
      ⟨e, herror⟩ | ⟨stubs, ⟨⟨template, htemplate⟩, names, hnames⟩, hok⟩
    · exact .inl ⟨e, herror⟩
    · refine .inr ⟨template, names, fun a => ?_⟩
      have htext : (stubs a).text = String.ofList (fill a.url.toList template) := by
        rw [← String.toList_inj, String.toList_ofList]
        exact htemplate a
      have hsame : (stubs a).names = names := congrFun hnames a
      have hstubs : stubs a = ⟨String.ofList (fill a.url.toList template), names⟩ := by
        rw [← htext, ← hsame]
      exact (hok a).trans (congrArg Except.ok hstubs)

/-- A description with links of all sorts: built ones, written ones, and one in code. -/
def atlas : Api.Document where
  classes := [⟨"Map", 0, ⟨"See [all](Map::find), not ```[x](y)```.", [], [], ["Map::find"], []⟩,
    [⟨"find", 0, ⟨"", [], [], [], []⟩,
      ⟨[⟨"spot", 0, "Any [place](Concepts.html).", .table ⟨[⟨"x", 0, "", .named "int", false⟩], [],
          none⟩, false⟩],
        [], none, none, none, false, false, none, none⟩⟩], [], [], []⟩]
  events := []
  concepts := [⟨"Key", 0, ⟨"", [], [], [], []⟩,
    .identification [⟨0, "A [map](Map).", .named "Map"⟩]⟩]
  builtins := [⟨"int", 0, ""⟩]
  globals := []
  constants := []

theorem stubsOf_moves_atlas :
    (∀ word ∈ atlas.words, word.Unbracketed) ∧
      ∃ template : Template, ∀ a : Address,
        stubsOf atlas ⟨a.url, ["int"]⟩ ""
          = .ok ⟨String.ofList (fill a.url.toList template), ["Map.find.spot"]⟩ := by
  have words : ∀ word ∈ atlas.words, word.Unbracketed := by decide
  have names : (stubsOf atlas ⟨"https://", ["int"]⟩ "").toOption.map (·.names)
      = some ["Map.find.spot"] := by decide +kernel
  obtain ⟨stubs, hstubs, hnames⟩ := exists_stubs_of_names names
  refine ⟨words, ?_⟩
  rcases stubsOf_moves words ["int"] "" with ⟨e, herror⟩ | ⟨template, claimed, hok⟩
  · cases hstubs.symm.trans (herror default)
  · cases hstubs.symm.trans (hok default)
    cases hnames
    exact ⟨template, hok⟩

end LuaStubs
