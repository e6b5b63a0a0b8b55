import LuaStubs.NameMap
import LuaStubs.Place
import LuaStubs.Prose
import LuaStubs.Stub.Backlog

/-! Declarations of tables. The fields of the variant groups are merged into the fixed ones: a field
of several groups is declared once, and its comment says for each group what holds there. -/

namespace LuaStubs

/-- A step of a run, which may fail and may add to the backlog. -/
abbrev Emission (α : Type) : Type := StateT Backlog (Except StubError) α

namespace Emission

def claim (name : String) : Emission Bool := fun backlog => .ok (backlog.claim name)

def defer (block : List Line) : Emission Unit := fun backlog => .ok ((), backlog.defer block)

def eachFrom {α β : Type} (step : Nat → α → Emission β) : Nat → List α → Emission (List β)
  | _, [] => return []
  | index, a :: rest => do
    let b ← step index a
    let others ← eachFrom step (index + 1) rest
    return b :: others

def linesOf {α : Type} (step : α → Emission (List Line)) : List α → Emission (List Line)
  | [] => return []
  | a :: rest => do
    let lines ← step a
    let others ← linesOf step rest
    return lines ++ others

end Emission

structure TableField where
  type : Api.TypeExpr
  description : String
  optional : Bool

namespace TableField

def fixed (p : Api.Parameter) : TableField :=
  ⟨p.type, p.description, p.optional⟩

def groupNote (appliesTo group : String) (p : Api.Parameter) : String :=
  appliesTo ++ " **\"" ++ group ++ "\"**: " ++ (if p.optional then "(optional)" else "(required)")
    ++ Text.framed "\n" p.description ""

/-- Adds a field of a group: a note to a field that is there, or a new field. -/
def merge (appliesTo group : String) (fields : NameMap TableField) (p : Api.Parameter) :
    NameMap TableField :=
  let note := groupNote appliesTo group p
  match fields.get? p.name with
  | some field =>
    fields.put p.name { field with description := Text.framed "" field.description "\n\n" ++ note }
  | none => fields.put p.name ⟨p.type, note, p.optional⟩

def mergeGroup (appliesTo : String) (fields : NameMap TableField) (group : Api.Group) :
    NameMap TableField :=
  (sortOn (·.order) group.parameters).foldl (merge appliesTo group.name) fields

def all (appliesTo : String) (parameters : List Api.Parameter) (groups : List Api.Group) :
    NameMap TableField :=
  (sortOn (·.order) groups).foldl (mergeGroup appliesTo)
    (.ofList ((sortOn (·.order) parameters).map fun p => (p.name, fixed p)))

end TableField

def appliesTo : String := "Applies to"

def appliesToFilter : String := "Applies to filter"

/-- How the type of a field is written, given its place. -/
abbrev FieldType : Type := Api.TypeExpr → Place → Emission String

def declareField (manual : Manual) (fieldType : FieldType) (table : Place)
    (entry : String × TableField) : Emission (List Line) := do
  let (name, field) := entry
  let comment ← manual.brief field.description table.link
  let type ← fieldType field.type (.member table.name name table.link)
  return comment ++ [.field name type field.optional]

def declareTable (manual : Manual) (fieldType : FieldType) (table : Place) (header : String)
    (fields : NameMap TableField) : Emission (List Line) := do
  let comment ← manual.comment header
  let fields ← Emission.linesOf (declareField manual fieldType table) fields
  return comment ++ .declaration table.name [] :: fields

end LuaStubs
