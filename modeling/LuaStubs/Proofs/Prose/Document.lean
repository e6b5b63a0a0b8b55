import LuaStubs.Proofs.Outline.Runs
import LuaStubs.Proofs.Prose.Declarations
import LuaStubs.Proofs.Prose.Runs
import LuaStubs.Proofs.Run

/-! Documentation is written into comments and remarks only. Descriptions that differ in nothing
else have the same declarations, and their tables get the same names. -/

namespace LuaStubs

open Emission

theorem Backlog.skeleton_eq {b b' : Backlog} (alike : b.Alike b') :
    Line.skeleton b.blocks.flatten = Line.skeleton b'.blocks.flatten := by
  have hflat (blocks : List (List Line)) :
      Line.skeleton blocks.flatten = (blocks.map Line.skeleton).flatten :=
    List.filterMap_flatten
  rw [hflat, hflat, alike.blocks]

theorem Backlog.fitting_flatten {quiet : Prop} {b : Backlog}
    (h : ∀ block ∈ b.blocks, Declaring quiet block) : Fitting quiet b.blocks.flatten := by
  intro line hline
  obtain ⟨block, hblock, hline⟩ := List.mem_flatten.mp hline
  obtain ⟨name, marked⟩ := h block hblock
  exact marked.fits line hline

/-- The declarations of a file are those of its skeleton and of the appendix. -/
theorem Job.declaredLines_finish {job : Job} {main : List Line} {backlog : Backlog}
    (hmain : Fitting True main) (hbacklog : ∀ block ∈ backlog.blocks, Declaring True block) :
    declaredLines (job.finish main backlog).text.toList =
      ((Line.skeleton main).flatMap fun bare => declaredLines bare.text.toList) ++
        (declaredLines job.appendix.toList ++
          (((Line.skeleton backlog.blocks.flatten).flatMap fun bare =>
            declaredLines bare.text.toList) ++ declaredLines ['\n'])) := by
  have htext : (job.finish main backlog).text.toList = (Line.renderAll main).toList ++
      (job.appendix.toList ++ '\n' :: ((Line.renderAll backlog.blocks.flatten).toList ++ ['\n'])) := by
    simp [finish, Backlog.text]
  rw [htext, Line.declaredLines_renderAll hmain, declaredLines_append_newline,
    Line.declaredLines_renderAll (Backlog.fitting_flatten hbacklog)]

/-- Documentation changes neither a declaration nor a line of code, nor the name of a table. -/
theorem stubsOf_declarations {document document' : Api.Document}
    (same : document.bare = document'.bare) {settings : Settings}
    (tidy : document.Tidy settings.baseUrl) (tidy' : document'.Tidy settings.baseUrl)
    (appendix : String) (stubs stubs' : Stubs)
    (h : stubsOf document settings appendix = .ok stubs)
    (h' : stubsOf document' settings appendix = .ok stubs') :
    declarations stubs.text = declarations stubs'.text ∧ stubs.names = stubs'.names := by
  obtain ⟨entries, _, main, backlog, hentries, rfl, hmain, rfl⟩ := stubsOf_eq_finish.mp h
  obtain ⟨entries', _, main', backlog', hentries', rfl, hmain', rfl⟩ := stubsOf_eq_finish.mp h'
  let first : Job := ⟨document, .ofEntries document entries, settings, appendix⟩
  let second : Job := ⟨document', .ofEntries document' entries', settings, appendix⟩
  -- The two runs go side by side, and each of them writes lines that fit.
  have alike : first.manual.Alike second.manual :=
    Catalog.alike_of_bare same hentries hentries' settings.baseUrl
  obtain ⟨hlines, hbacklog⟩ :=
    Job.paired_mainLines alike rfl same .empty .empty (.refl _) _ _ hmain hmain'
  have none : ∀ block ∈ Backlog.empty.blocks, Declaring True block := List.forall_mem_nil _
  obtain ⟨outlined, hblocks⟩ := Job.gives_mainLines (fun word hword =>
    (tidy.words word hword).fits True) tidy.base hentries .empty none _ hmain
  obtain ⟨outlined', hblocks'⟩ := Job.gives_mainLines (fun word hword =>
    (tidy'.words word hword).fits True) tidy'.base hentries' .empty none _ hmain'
  refine ⟨?_, hbacklog.names⟩
  unfold declarations
  rw [Job.declaredLines_finish outlined.fits hblocks, Job.declaredLines_finish outlined'.fits hblocks', hlines,
    Backlog.skeleton_eq hbacklog]

def terse : Api.Document where
  classes := [⟨"A", 0, ⟨"", [], [], [], []⟩, [⟨"find", 0, ⟨"", [], [], [], []⟩,
    ⟨[⟨"where", 0, "", .table ⟨[⟨"x", 0, "", .named "int", false⟩], [], none⟩, true⟩,
        ⟨"limit", 1, "", .named "int", false⟩],
      [], none, some (.named "int"), none, false, false, some (.named "A"), none⟩⟩], [], [], []⟩]
  events := []
  concepts := []
  builtins := [⟨"int", 0, ""⟩]
  globals := [⟨"a", 0, "", .named "A"⟩]
  constants := []

/-- The same with documentation in all places, of one line and of several lines. -/
def wordy : Api.Document where
  classes := [⟨"A", 0, ⟨"Entries.", ["Slow."], ["a.find()"], ["A"], ["B"]⟩,
    [⟨"find", 0, ⟨"Finds an entry.", [], [], ["A::find"], []⟩,
      ⟨[⟨"where", 0, "The place,\nor nothing.", .table ⟨[⟨"x", 0, "Across.", .named "int", false⟩],
          [], some "Anywhere."⟩, true⟩,
        ⟨"limit", 1, "At most, see @a.", .named "int", false⟩],
        [], none, some (.named "int"), some "More.", false, false, some (.named "A"),
        some "What was found,\n---@class or not."⟩⟩], [], [], []⟩]
  events := []
  concepts := []
  builtins := [⟨"int", 0, "A number."⟩]
  globals := [⟨"a", 0, "All there is.", .named "A"⟩]
  constants := []

theorem terse_bare : terse.bare = wordy.bare := rfl

theorem stubsOf_terse_wordy :
    ∃ stubs stubs', stubsOf terse ⟨"/", []⟩ "" = .ok stubs ∧ stubsOf wordy ⟨"/", []⟩ "" = .ok stubs' ∧
      stubs'.names = ["A.find.where"] ∧ declarations stubs.text = declarations stubs'.text ∧
      stubs.names = stubs'.names := by
  have names : (stubsOf terse ⟨"/", []⟩ "").toOption.map (·.names) = some ["A.find.where"] := by
    decide +kernel
  have names' : (stubsOf wordy ⟨"/", []⟩ "").toOption.map (·.names) = some ["A.find.where"] := by
    decide +kernel
  obtain ⟨stubs, h, -⟩ := exists_stubs_of_names names
  obtain ⟨stubs', h', hnames⟩ := exists_stubs_of_names names'
  have tidy : terse.Tidy "/" := ⟨by decide +kernel, by decide⟩
  have tidy' : wordy.Tidy "/" := ⟨by decide +kernel, by decide⟩
  exact ⟨stubs, stubs', h, h', hnames, stubsOf_declarations terse_bare tidy tidy' "" stubs stubs' h h'⟩

end LuaStubs
