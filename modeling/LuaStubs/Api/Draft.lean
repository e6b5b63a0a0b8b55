import LuaStubs.Api.Decoders

/-! Loading a description. The text is read as a draft, whose concepts are still loose members; a
draft of the right kind and version becomes a document when every concept fits its category. -/

namespace LuaStubs.Api

open Json

inductive LoadError where
  | malformed (fileName : String) (offset : Nat) (fault : Fault)
  | unknownFormat (application stage : String)
  | unsupportedVersion (found : Nat)
  | unknownCategory (concept category : String)
  | invalidConcept (concept category : String) (reason : Reason)

structure ConceptDraft where
  name : String
  order : Nat
  category : String
  /-- The other members, each key once and in the order of the keys, at every depth. -/
  body : List (String × Value)

def ConceptDraft.record : OpenRecord ConceptDraft where
  name := "RawConcept"
  types := [String, Nat, String]
  fields :=
    .required "name" .text <|
    .default "order" .orderKey 0 <|
    .required "category" .text .nil
  Rest := List (String × Value)
  rest := fun members => .ok (assignAll (normalMembers members))
  build := fun (name, order, category, ()) body => ⟨name, order, category, body⟩

structure Draft where
  application : String
  stage : String
  version : Nat
  classes : List Class
  events : List Event
  concepts : List ConceptDraft
  builtins : List Builtin
  globals : List Global
  constants : List Constant

def Draft.record : Record Draft where
  name := "RawDocument"
  types := [String, String, Nat, List Class, List Event, List ConceptDraft, List Builtin,
    List Global, List Constant]
  fields :=
    .required "application" .text <|
    .required "stage" .text <|
    .required "api_version" .version <|
    .default "classes" (.list Class.record.decoder) [] <|
    .default "events" (.list Event.record.decoder) [] <|
    .default "concepts" (.list ConceptDraft.record.decoder) [] <|
    .default "builtin_types" (.list Builtin.record.decoder) [] <|
    .default "global_objects" (.list Global.record.decoder) [] <|
    .default "defines" (.list Constant.decoder) [] .nil
  build := fun (application, stage, version, classes, events, concepts, builtins, globals,
      constants, ()) =>
    ⟨application, stage, version, classes, events, concepts, builtins, globals, constants⟩

namespace ConceptDraft

def optionsRecord {α : Type} (choice : Record α) : Record (List α) where
  name := "Options"
  types := [List α]
  fields := .default "options" (.list choice.decoder) [] .nil
  build := fun (choices, ()) => choices

def attributesRecord : Record (List Attribute) where
  name := "Attributes"
  types := [List Attribute]
  fields := .default "attributes" (.list Attribute.record.decoder) [] .nil
  build := fun (attributes, ()) => attributes

def payload {ρ : Type} (draft : ConceptDraft) (record : Record ρ) : Except LoadError ρ :=
  (record.ofMembers .body draft.body).mapError (.invalidConcept draft.name draft.category)

def shape (draft : ConceptDraft) : Except LoadError Shape :=
  draft.payload (Shape.record TypeExpr.decoder)

def kind (draft : ConceptDraft) : Except LoadError ConceptKind :=
  match draft.category with
  | "identification" => (draft.payload (optionsRecord Identification.record)).map .identification
  | "concept" => .ok .plain
  | "struct" => (draft.payload attributesRecord).map .struct
  | "flag" => (draft.payload (optionsRecord Choice.record)).map .flag
  | "table" => draft.shape.map .table
  | "table_or_array" => draft.shape.map .tableOrArray
  | "union" => (draft.payload (optionsRecord Choice.record)).map .union
  | "filter" => draft.shape.map .filter
  | category => .error (.unknownCategory draft.name category)

def check (draft : ConceptDraft) : Except LoadError Concept := do
  let kind ← draft.kind
  let doc ← draft.payload Documentation.record
  return ⟨draft.name, draft.order, doc, kind⟩

def checkAll : List ConceptDraft → Except LoadError (List Concept)
  | [] => .ok []
  | draft :: rest => do
    let concept ← draft.check
    let others ← checkAll rest
    return concept :: others

end ConceptDraft

def expectedApplication : String := "factorio"

def expectedStage : String := "runtime"

def supportedVersion : Nat := 1

/-- Checks what a draft describes, then its version, then its concepts in their order. -/
def Draft.check (draft : Draft) : Except LoadError Document :=
  if draft.application ≠ expectedApplication ∨ draft.stage ≠ expectedStage then
    .error (.unknownFormat draft.application draft.stage)
  else if draft.version ≠ supportedVersion then .error (.unsupportedVersion draft.version)
  else do
    let concepts ← ConceptDraft.checkAll draft.concepts
    return ⟨draft.classes, draft.events, concepts, draft.builtins, draft.globals, draft.constants⟩

/-- Loads a description; the file name is for messages only. -/
def load (source fileName : String) : Except LoadError Document := do
  let draft ← (Draft.record.decoder.parse source).mapError fun fault =>
    .malformed fileName (fault.position.offset source.toList) fault
  draft.check

namespace LoadError

def message : LoadError → String
  | malformed _ _ fault => "Malformed API description: " ++ fault.message
  | unknownFormat application stage =>
    "Unknown JSON format: application `" ++ application ++ "`, stage `" ++ stage ++ "`"
  | unsupportedVersion found => "Unsupported JSON version " ++ toString found
  | unknownCategory concept category =>
    "Unknown concept category `" ++ category ++ "` on concept `" ++ concept ++ "`"
  | invalidConcept concept category reason =>
    "Invalid payload for " ++ category ++ " concept `" ++ concept ++ "`: " ++ reason.message

def code : LoadError → String
  | malformed .. => "schema::malformed"
  | unknownFormat .. => "schema::unknown_format"
  | unsupportedVersion _ => "schema::unsupported_version"
  | unknownCategory .. => "schema::unknown_concept_category"
  | invalidConcept .. => "schema::invalid_concept"

def help? : LoadError → Option String
  | malformed .. =>
    some "The document is not valid JSON or does not follow the runtime API format."
  | unknownFormat .. =>
    some "Only the `factorio` application at the `runtime` stage is supported."
  | unsupportedVersion _ =>
    some ("Only api_version " ++ toString supportedVersion ++ " is supported.")
  | unknownCategory .. => none
  | invalidConcept .. => none

end LoadError

end LuaStubs.Api
