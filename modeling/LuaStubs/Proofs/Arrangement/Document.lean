import LuaStubs.Proofs.Arrangement.Catalogs
import LuaStubs.Proofs.Emission
import LuaStubs.Proofs.Run

/-! The order in which the lists of a description come does not matter where they have order
keys. -/

namespace LuaStubs

namespace Job

/-- A job with its description in order, and a catalog for it. -/
def inOrder (job : Job) (catalog : Catalog) : Job :=
  { job with document := job.document.arranged, catalog := catalog }

theorem mainLines_inOrder {job : Job} {catalog : Catalog}
    (arranges : job.manual.Arranges (job.inOrder catalog).manual)
    (once : ∀ c ∈ job.document.classes, c.CalledOnce) (b : Backlog) (r : List Line × Backlog) :
    (job.inOrder catalog).mainLines b = .ok r ↔ job.mainLines b = .ok r := by
  have same := arranges.toSamePages
  have hbuiltins : (job.inOrder catalog).manual.builtinsLines job.settings
        (sortOn (·.order) job.document.arranged.builtins) =
      job.manual.builtinsLines job.settings (sortOn (·.order) job.document.builtins) := by
    rw [Manual.builtinsLines_eq same, Api.Document.arranged, sortOn_sortOn]
  have hconstants : (job.inOrder catalog).manual.constantLines job.document.arranged.constants =
      job.manual.constantLines job.document.constants :=
    Manual.constantLines_arranged same job.document.constants
  have hevents : (job.inOrder catalog).manual.eventsLines job.document.arranged.events =
      job.manual.eventsLines job.document.events :=
    Manual.eventsLines_arranged arranges job.document.events
  have hclasses (b : Backlog) (r : List Line × Backlog) :
      (job.inOrder catalog).manual.classesLines job.document.arranged.classes b = .ok r ↔
        job.manual.classesLines job.document.classes b = .ok r :=
    Manual.classesLines_arranged arranges once b r
  have hconcepts : (job.inOrder catalog).manual.conceptsLines job.document.arranged.concepts =
      job.manual.conceptsLines job.document.concepts :=
    Manual.conceptsLines_arranged arranges job.document.concepts
  have hdocument : (job.inOrder catalog).document = job.document.arranged := rfl
  have hsettings : (job.inOrder catalog).settings = job.settings := rfl
  unfold mainLines
  simp only [hdocument, hsettings, hbuiltins, hconstants, hevents, hconcepts, Emission.bind_eq_ok,
    hclasses]

end Job

namespace Api.Document

variable {first second : Document}

theorem Rearranges.conceptNames (h : first.Rearranges second) :
    (first.concepts.map (·.name)).Perm (second.concepts.map (·.name)) := by
  have hfirst : (first.arranged.concepts.map (·.name)).Perm (first.concepts.map (·.name)) :=
    map_sortOn_perm Concept.name_arranged first.concepts
  have hsecond : (second.arranged.concepts.map (·.name)).Perm (second.concepts.map (·.name)) :=
    map_sortOn_perm Concept.name_arranged second.concepts
  rw [h.concepts] at hfirst
  exact hfirst.symm.trans hsecond

theorem Rearranges.calledOnce (h : first.Rearranges second)
    (once : ∀ c ∈ first.classes, c.CalledOnce) : ∀ c ∈ second.classes, c.CalledOnce := by
  intro c hc
  have hmem : c.arranged ∈ first.arranged.classes := by
    rw [h.classes]
    exact (mem_sortOn _ _ _).mpr (List.mem_map_of_mem hc)
  obtain ⟨c', hc', hsame⟩ := List.mem_map.mp ((mem_sortOn _ _ _).mp hmem)
  have once' := c'.calledOnce_arranged.mpr (once c' hc')
  rw [hsame] at once'
  exact c.calledOnce_arranged.mp once'

/-- The type of a global is a plain name, in which nothing can be put in order. -/
theorem arranged_globals (named : ∀ g ∈ first.globals, ∃ type, g.type = .named type) :
    first.arranged.globals = first.globals := by
  refine (List.map_congr_left fun g hg => ?_).trans (List.map_id _)
  obtain ⟨type, htype⟩ := named g hg
  unfold Global.arranged
  rw [htype, TypeExpr.arranged, ← htype]
  rfl

theorem Rearranges.globals_perm (h : first.Rearranges second)
    (named : ∀ g ∈ first.globals, ∃ type, g.type = .named type) :
    first.globals.Perm second.globals := by
  have hfirst := arranged_globals named
  have named' : ∀ g ∈ second.globals, ∃ type, g.type = .named type := by
    intro g hg
    have hmem : g.arranged ∈ first.globals := by
      rw [← hfirst]
      exact h.globals.mem_iff.mpr (List.mem_map_of_mem hg)
    obtain ⟨type, htype⟩ := named _ hmem
    change g.type.arranged = .named type at htype
    cases hg' : g.type with
    | named name => exact ⟨name, rfl⟩
    | _ =>
      rw [hg', TypeExpr.arranged] at htype
      cases htype
  have hperm := h.globals
  rwa [hfirst, arranged_globals named'] at hperm

end Api.Document

/-- The order of the lists of a description that have order keys, and that of its globals, do not
matter. -/
theorem stubsOf_rearranges {first second : Api.Document} (rearranges : first.Rearranges second)
    (concepts : (first.concepts.map (·.name)).Nodup)
    (globals : (first.globals.map (·.type)).Nodup)
    (calls : ∀ c ∈ first.classes, c.CalledOnce)
    (settings : Settings) (appendix : String) (stubs : Stubs)
    (h : stubsOf first settings appendix = .ok stubs) :
    stubsOf second settings appendix = .ok stubs := by
  obtain ⟨entries, _, main, backlog, hentries, rfl, hmain, hstubs⟩ := stubsOf_eq_finish.mp h
  have named := Catalog.exists_exposed.mp ⟨entries, hentries⟩
  obtain ⟨entries', hentries', hperm⟩ :=
    Catalog.exposed_perm (rearranges.globals_perm named) hentries
  have nodup : (entries.map (·.1)).Nodup := by
    rw [Catalog.types_of_exposed hentries] at globals
    exact (List.pairwise_map.mp globals).imp fun differ same => differ (congrArg _ same)
  have nodup' : (entries'.map (·.1)).Nodup := (hperm.map (·.1)).nodup_iff.mp nodup
  have same (type : String) :
      (NameMap.ofList entries).get? type = (NameMap.ofList entries').get? type := by
    rw [NameMap.ofList_of_nodup nodup, NameMap.ofList_of_nodup nodup']
    exact (NameMap.get?_perm hperm nodup type).symm
  -- Both descriptions are compared with the first one in order.
  let ordered := Catalog.ofEntries first.arranged entries
  let job₁ : Job := ⟨first, .ofEntries first entries, settings, appendix⟩
  let job₂ : Job := ⟨second, .ofEntries second entries', settings, appendix⟩
  have hordered : ordered = .ofEntries second.arranged entries := by
    unfold ordered Catalog.ofEntries
    rw [rearranges.classes, rearranges.events, rearranges.concepts, rearranges.builtins,
      rearranges.constants]
  have hsame : (job₁.inOrder ordered).mainLines = (job₂.inOrder ordered).mainLines := by
    unfold Job.mainLines
    simp only [Job.inOrder, Job.manual, job₁, job₂, rearranges.builtins, rearranges.constants,
      rearranges.events, rearranges.classes, rearranges.concepts]
  have arranges₁ : job₁.manual.Arranges (job₁.inOrder ordered).manual :=
    Catalog.arranges_arranged concepts (fun _ => rfl) settings.baseUrl
  have arranges₂ : job₂.manual.Arranges (job₂.inOrder ordered).manual := by
    have concepts' := rearranges.conceptNames.nodup_iff.mp concepts
    have harranges := Catalog.arranges_arranged concepts' same settings.baseUrl
    rw [← hordered] at harranges
    exact harranges
  have hmain₁ := (Job.mainLines_inOrder arranges₁ calls _ _).mpr hmain
  rw [hsame] at hmain₁
  have hmain₂ := (Job.mainLines_inOrder arranges₂ (rearranges.calledOnce calls) _ _).mp hmain₁
  exact stubsOf_eq_finish.mpr ⟨entries', job₂, main, backlog, hentries', rfl, hmain₂, hstubs⟩

/-- Two globals, a class that can be called, and a concept with tables, all out of order. -/
def scattered : Api.Document where
  classes := [
    ⟨"B", 1, ⟨"", [], [], [], []⟩, [], [], [
      ⟨"length", 1, ⟨"", [], [], [], []⟩, some (.named "P"), true, false,
        ⟨[], [], none, none, none, false, false, none, none⟩⟩,
      ⟨"call", 0, ⟨"", [], [], [], []⟩, none, true, false,
        ⟨[⟨"y", 1, "", .named "P", false⟩, ⟨"x", 0, "", .named "P", false⟩], [], none, none, none,
          false, false, none, none⟩⟩], []⟩,
    ⟨"A", 0, ⟨"", [], [], [], []⟩, [], [], [], []⟩]
  events := []
  concepts := [⟨"P", 0, ⟨"", [], [], [], []⟩, .tableOrArray ⟨[
    ⟨"u", 1, "", .named "A", false⟩,
    ⟨"t", 0, "", .table ⟨[
      ⟨"r", 1, "", .named "A", false⟩,
      ⟨"q", 0, "", .named "B", false⟩], [], none⟩, false⟩], [], none⟩⟩]
  builtins := []
  globals := [⟨"b", 0, "", .named "B"⟩, ⟨"a", 0, "", .named "A"⟩]
  constants := []

def gathered : Api.Document where
  classes := [
    ⟨"A", 0, ⟨"", [], [], [], []⟩, [], [], [], []⟩,
    ⟨"B", 1, ⟨"", [], [], [], []⟩, [], [], [
      ⟨"call", 0, ⟨"", [], [], [], []⟩, none, true, false,
        ⟨[⟨"x", 0, "", .named "P", false⟩, ⟨"y", 1, "", .named "P", false⟩], [], none, none, none,
          false, false, none, none⟩⟩,
      ⟨"length", 1, ⟨"", [], [], [], []⟩, some (.named "P"), true, false,
        ⟨[], [], none, none, none, false, false, none, none⟩⟩], []⟩]
  events := []
  concepts := [⟨"P", 0, ⟨"", [], [], [], []⟩, .tableOrArray ⟨[
    ⟨"t", 0, "", .table ⟨[
      ⟨"q", 0, "", .named "B", false⟩,
      ⟨"r", 1, "", .named "A", false⟩], [], none⟩, false⟩,
    ⟨"u", 1, "", .named "A", false⟩], [], none⟩⟩]
  builtins := []
  globals := [⟨"a", 0, "", .named "A"⟩, ⟨"b", 0, "", .named "B"⟩]
  constants := []

theorem scattered_rearranges_gathered : scattered.Rearranges gathered :=
  ⟨rfl, rfl, rfl, rfl, rfl, .swap _ _ []⟩

theorem stubsOf_scattered_gathered :
    ∃ stubs, stubsOf scattered ⟨"/", []⟩ "" = .ok stubs ∧
      stubs.names = ["P_elem", "P.t"] ∧ stubsOf gathered ⟨"/", []⟩ "" = .ok stubs := by
  have names : (stubsOf scattered ⟨"/", []⟩ "").toOption.map (·.names) = some ["P_elem", "P.t"] := by
    decide +kernel
  obtain ⟨stubs, h, hnames⟩ := exists_stubs_of_names names
  have concepts : (scattered.concepts.map (·.name)).Nodup := by decide
  have globals : (scattered.globals.map (·.type)).Nodup := by simp [scattered]
  have calls : ∀ c ∈ scattered.classes, c.CalledOnce := by
    change ∀ c ∈ scattered.classes, (c.operators.filter (·.name = "call")).length ≤ 1
    decide
  exact ⟨stubs, h, hnames, stubsOf_rearranges scattered_rearranges_gathered concepts globals calls
    ⟨"/", []⟩ "" stubs h⟩

end LuaStubs
