import LuaStubs.Api.Draft
import LuaStubs.Stub.Concepts
import LuaStubs.Stub.Constants

/-! The whole stub file: a header, then builtins, constants, events, classes and concepts, then an
appendix that stands as it is, then the tables without a name. A blank line ends each part. -/

namespace LuaStubs

/-- A finished stub file, and the names given to tables in the order in which they were claimed. -/
structure Stubs where
  text : String
  names : List String
  deriving Repr, DecidableEq

structure Job where
  document : Api.Document
  catalog : Catalog
  settings : Settings
  appendix : String

namespace Job

def ofDocument (document : Api.Document) (settings : Settings) (appendix : String) :
    Except CatalogError Job := do
  let catalog ← Catalog.ofDocument document
  return ⟨document, catalog, settings, appendix⟩

def manual (job : Job) : Manual :=
  ⟨job.catalog, job.settings.baseUrl⟩

def header : List Line :=
  [.directive "meta", .directive "diagnostic disable", .blank]

def mainLines (job : Job) : Emission (List Line) := do
  let manual := job.manual
  let builtins ← manual.builtinsLines job.settings (sortOn (·.order) job.document.builtins)
  let constants ← manual.constantLines job.document.constants
  let events ← manual.eventsLines job.document.events
  let classes ← manual.classesLines job.document.classes
  let concepts ← manual.conceptsLines job.document.concepts
  return header ++ builtins ++ .blank :: constants ++ .blank :: events ++ .blank :: classes
    ++ .blank :: concepts ++ [.blank]

def lines (job : Job) : Except StubError (List Line × Backlog) := do
  let (main, backlog) ← job.mainLines .empty
  return (main ++ .verbatim job.appendix :: .blank :: backlog.blocks.flatten ++ [.blank], backlog)

def run (job : Job) : Except StubError Stubs := do
  let (lines, backlog) ← job.lines
  return ⟨Line.renderAll lines, backlog.names⟩

end Job

inductive GenerationError where
  | load (e : Api.LoadError)
  | catalog (e : CatalogError)
  | stub (e : StubError)

/-- Writes the stub file of a description, with an appendix. -/
def stubsOf (document : Api.Document) (settings : Settings) (appendix : String) :
    Except GenerationError Stubs := do
  let job ← (Job.ofDocument document settings appendix).mapError .catalog
  job.run.mapError .stub

def generate (source fileName : String) (settings : Settings) (appendix : String) :
    Except GenerationError Stubs := do
  let document ← (Api.load source fileName).mapError .load
  stubsOf document settings appendix

end LuaStubs
