import LuaStubs.Catalog
import LuaStubs.Text.Lines

/-! The online manual. A reference names an entry of the catalog, a member of one, or a constant by
its path; each has one page and anchor in the manual. -/

namespace LuaStubs

inductive StubError where
  | unknownOperator (owner operator : String)
  | unresolvedReference (reference : String)
  /-- A type that contains itself without a table in between. -/
  | endlessType

namespace StubError

def message : StubError → String
  | unknownOperator owner operator =>
    "Unknown operator `" ++ operator ++ "` on class `" ++ owner ++ "`"
  | unresolvedReference reference => "Unresolved reference `" ++ reference ++ "`"
  | endlessType => "Type without end"

def code : StubError → String
  | unknownOperator .. => "emit::unknown_operator"
  | unresolvedReference _ => "emit::unresolved_reference"
  | endlessType => "emit::endless_type"

def help? : StubError → Option String
  | unknownOperator .. =>
    some "Only the `index`, `length` and `call` operators can be expressed."
  | unresolvedReference _ =>
    some "References must name a builtin, class, event, define, concept or `Class::member`."
  | endlessType => none

end StubError

namespace Catalog

def ownerPage? (catalog : Catalog) (owner : String) : Option String :=
  if catalog.classes.has owner then some owner
  else if catalog.concepts.has owner then some "Concepts"
  else none

/-- The page and anchor of a reference. A name that several kinds of entries have goes by kind. -/
def page? (catalog : Catalog) (reference : String) : Option String :=
  if catalog.builtins.has reference then some ("Builtin-Types.html#" ++ reference)
  else if catalog.classes.has reference then some (reference ++ ".html")
  else if catalog.events.has reference then some ("events.html#" ++ reference)
  else if catalog.paths.contains reference then some ("defines.html#" ++ reference)
  else match Text.splitAtMark [':', ':'] reference.toList with
    | some (owner, member) =>
      (catalog.ownerPage? (String.ofList owner)).map fun page =>
        page ++ ".html#" ++ String.ofList owner ++ "." ++ String.ofList member
    | none =>
      if "Filters".toList.isSuffixOf reference.toList && "Lua".toList.isPrefixOf reference.toList
      then some ("Event-Filters.html#" ++ reference)
      else if catalog.concepts.has reference then some ("Concepts.html#" ++ reference)
      else none

end Catalog

/-- A catalog and the address at which its manual is found. -/
structure Manual where
  catalog : Catalog
  baseUrl : String

namespace Manual

def page (manual : Manual) (reference : String) : Except StubError String :=
  match manual.catalog.page? reference with
  | some page => .ok page
  | none => .error (.unresolvedReference reference)

def url (manual : Manual) (reference : String) : Except StubError String := do
  let page ← manual.page reference
  return manual.baseUrl ++ page

def link (manual : Manual) (reference shown : String) : Except StubError String := do
  let url ← manual.url reference
  return "[" ++ shown ++ "](" ++ url ++ ")"

def view (manual : Manual) (reference : String) : Except StubError String :=
  manual.link reference "View documentation"

end Manual

end LuaStubs
