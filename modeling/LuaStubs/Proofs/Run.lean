import LuaStubs.Proofs.Catalogs
import LuaStubs.Stub.Document

/-! How a whole run succeeds, and the text that it leaves. -/

namespace LuaStubs

theorem Line.renderAll_append (first second : List Line) :
    renderAll (first ++ second) = renderAll first ++ renderAll second := by
  induction first with
  | nil => simp [renderAll]
  | cons line rest ih => simp [renderAll, ih, String.append_assoc]

/-- The file of a job, from the lines of its main part and the backlog that they leave. -/
def Job.finish (job : Job) (main : List Line) (backlog : Backlog) : Stubs :=
  ⟨Line.renderAll main ++ job.appendix ++ "\n" ++ backlog.text ++ "\n", backlog.names⟩

theorem Job.run_eq_ok {job : Job} {stubs : Stubs} :
    job.run = .ok stubs ↔
      ∃ main backlog, job.mainLines .empty = .ok (main, backlog) ∧
        stubs = job.finish main backlog := by
  have text (main : List Line) (backlog : Backlog) :
      Line.renderAll (main ++ .verbatim job.appendix :: .blank :: backlog.blocks.flatten ++ [.blank])
        = (job.finish main backlog).text := by
    simp only [Line.renderAll_append, Line.renderAll]
    simp [Job.finish, Backlog.text, Line.render, Line.text, String.append_assoc]
  unfold Job.run Job.lines
  simp only [Outcome.bind_eq_ok, Outcome.pure_eq_ok]
  constructor
  · rintro ⟨_, ⟨⟨main, backlog⟩, hmain, rfl⟩, rfl⟩
    refine ⟨main, backlog, hmain, ?_⟩
    rw [text]
    rfl
  · rintro ⟨main, backlog, hmain, rfl⟩
    refine ⟨_, ⟨(main, backlog), hmain, rfl⟩, ?_⟩
    rw [text]
    rfl

theorem stubsOf_eq_ok {document : Api.Document} {settings : Settings} {appendix : String}
    {stubs : Stubs} :
    stubsOf document settings appendix = .ok stubs ↔
      ∃ job, Job.ofDocument document settings appendix = .ok job ∧ job.run = .ok stubs := by
  unfold stubsOf
  simp only [Outcome.bind_eq_ok, Outcome.mapError_eq_ok]

theorem exists_stubs_of_names {document : Api.Document} {settings : Settings} {appendix : String}
    {names : List String}
    (h : (stubsOf document settings appendix).toOption.map (·.names) = some names) :
    ∃ stubs, stubsOf document settings appendix = .ok stubs ∧ stubs.names = names :=
  Outcome.exists_of_toOption h

theorem Job.ofDocument_eq_ok {document : Api.Document} {settings : Settings} {appendix : String}
    {job : Job} :
    Job.ofDocument document settings appendix = .ok job ↔
      ∃ catalog, Catalog.ofDocument document = .ok catalog ∧
        job = ⟨document, catalog, settings, appendix⟩ := by
  unfold Job.ofDocument
  simp only [Outcome.bind_eq_ok, Outcome.pure_eq_ok]

/-- A file is written from the lines of a job whose globals could be put into the catalog. -/
theorem stubsOf_eq_finish {document : Api.Document} {settings : Settings} {appendix : String}
    {stubs : Stubs} :
    stubsOf document settings appendix = .ok stubs ↔
      ∃ entries, ∃ job : Job, ∃ main backlog, Catalog.exposed document.globals = .ok entries ∧
        job = ⟨document, Catalog.ofEntries document entries, settings, appendix⟩ ∧
        job.mainLines .empty = .ok (main, backlog) ∧ stubs = job.finish main backlog := by
  rw [stubsOf_eq_ok]
  constructor
  · rintro ⟨job, hjob, hrun⟩
    obtain ⟨catalog, hcatalog, rfl⟩ := Job.ofDocument_eq_ok.mp hjob
    obtain ⟨entries, hentries, rfl⟩ := Catalog.ofDocument_eq_ok.mp hcatalog
    obtain ⟨main, backlog, hmain, rfl⟩ := Job.run_eq_ok.mp hrun
    exact ⟨entries, _, main, backlog, hentries, rfl, hmain, rfl⟩
  · rintro ⟨entries, job, main, backlog, hentries, rfl, hmain, rfl⟩
    have hcatalog := Catalog.ofDocument_eq_ok.mpr ⟨entries, hentries, rfl⟩
    exact ⟨_, Job.ofDocument_eq_ok.mpr ⟨_, hcatalog, rfl⟩, Job.run_eq_ok.mpr ⟨main, backlog, hmain, rfl⟩⟩

end LuaStubs
