import LuaStubs.Api.Draft
import LuaStubs.Proofs.Json.Refusals
import LuaStubs.Proofs.Json.Results
import Mathlib.Data.String.Basic

/-! What becomes of a draft: what is wrong with it first, or the description that it holds. Each
category of concepts asks for certain keys in the body of a concept, and documentation for others;
whatever stands under the rest makes no difference. -/

namespace LuaStubs

/-! Tables in the order of their keys. -/

namespace Json

theorem keys_assign {α : Type} (key : String) (a : α) (members : List (String × α)) :
    ∀ other ∈ (assign key a members).map (·.1), other = key ∨ other ∈ members.map (·.1) := by
  induction members with
  | nil => simp [assign]
  | cons m members ih =>
    obtain ⟨own, b⟩ := m
    intro other hother
    rw [assign] at hother
    split at hother
    · rename_i same
      exact .inr (same ▸ hother)
    · split at hother
      · exact List.mem_cons.mp hother
      · rcases List.mem_cons.mp hother with rfl | hother
        · exact .inr List.mem_cons_self
        · exact (ih other hother).imp_right (List.mem_cons_of_mem _)

theorem pairwise_assign {α : Type} {members : List (String × α)}
    (h : (members.map (·.1)).Pairwise (· < ·)) (key : String) (a : α) :
    ((assign key a members).map (·.1)).Pairwise (· < ·) := by
  induction members with
  | nil => exact List.pairwise_singleton _ _
  | cons m members ih =>
    obtain ⟨own, b⟩ := m
    obtain ⟨above, rest⟩ := List.pairwise_cons.mp h
    rw [assign]
    split
    · rename_i same
      exact same ▸ h
    · rename_i differs
      split
      · rename_i below
        refine List.pairwise_cons.mpr ⟨List.forall_mem_cons.mpr ⟨below, ?_⟩, h⟩
        exact fun other hother => lt_trans below (above other hother)
      · rename_i notBelow
        refine List.pairwise_cons.mpr ⟨fun other hother => ?_, ih rest⟩
        rcases keys_assign key a members other hother with rfl | hother
        · exact lt_of_le_of_ne (not_lt.mp notBelow) (Ne.symm differs)
        · exact above other hother

theorem nodup_keys_assignAll {α : Type} (members : List (String × α)) :
    ((assignAll members).map (·.1)).Nodup := by
  have run : ∀ done : List (String × α), (done.map (·.1)).Pairwise (· < ·) →
      ((members.foldl (fun done m => assign m.1 m.2 done) done).map (·.1)).Pairwise (· < ·) := by
    induction members with
    | nil => exact fun _ h => h
    | cons m members ih => exact fun done h => ih _ (pairwise_assign h m.1 m.2)
  exact (run [] .nil).imp ne_of_lt

end Json

namespace Api

open Json Outcome

/-! Which keys a concept is read from, and what may stand under them. -/

def categories : List String :=
  ["identification", "concept", "struct", "flag", "table", "table_or_array", "union", "filter"]

def shapeChecks : List Check := [
  .of .body "parameters" (.list (Parameter.record TypeExpr.decoder).decoder),
  .of .body "variant_parameter_groups" (.list (Group.record TypeExpr.decoder).decoder),
  .of .body "variant_parameter_description" (.optional .text)]

def payloadChecks : String → List Check
  | "identification" => [.of .body "options" (.list Identification.record.decoder)]
  | "struct" => [.of .body "attributes" (.list Attribute.record.decoder)]
  | "flag" => [.of .body "options" (.list Choice.record.decoder)]
  | "table" => shapeChecks
  | "table_or_array" => shapeChecks
  | "union" => [.of .body "options" (.list Choice.record.decoder)]
  | "filter" => shapeChecks
  | _ => []

def documentationChecks : List Check := [
  .of .body "description" .text,
  .of .body "notes" (.list .text),
  .of .body "examples" (.list .text),
  .of .body "see_also" (.list .text),
  .of .body "subclasses" (.list .text)]

section

variable (body : List (String × Value))

def Shape.HeldBy (shape : Shape) : Prop :=
  Finds .body body "parameters" (.list (Parameter.record TypeExpr.decoder).decoder) (some [])
    shape.parameters ∧
  Finds .body body "variant_parameter_groups" (.list (Group.record TypeExpr.decoder).decoder)
    (some []) shape.groups ∧
  Finds .body body "variant_parameter_description" (.optional .text) (some none)
    shape.groupsDescription

/-- What a concept consists of stands in a body, under the keys of its category. -/
def ConceptKind.HeldBy : ConceptKind → Prop
  | .identification options =>
    Finds .body body "options" (.list Identification.record.decoder) (some []) options
  | .plain => True
  | .struct attributes =>
    Finds .body body "attributes" (.list Attribute.record.decoder) (some []) attributes
  | .flag options | .union options =>
    Finds .body body "options" (.list Choice.record.decoder) (some []) options
  | .table shape | .tableOrArray shape | .filter shape => shape.HeldBy body

def Documentation.HeldBy (doc : Documentation) : Prop :=
  Finds .body body "description" .text (some "") doc.description ∧
  Finds .body body "notes" (.list .text) (some []) doc.notes ∧
  Finds .body body "examples" (.list .text) (some []) doc.examples ∧
  Finds .body body "see_also" (.list .text) (some []) doc.seeAlso ∧
  Finds .body body "subclasses" (.list .text) (some []) doc.subclasses

end

namespace ConceptDraft

/-- A concept has the name, order and category of its draft, and what the body holds for it. -/
structure Typed (draft : ConceptDraft) (concept : Concept) : Prop where
  name : concept.name = draft.name
  order : concept.order = draft.order
  category : concept.kind.category = draft.category
  payload : concept.kind.HeldBy draft.body
  documentation : concept.doc.HeldBy draft.body

/-- What is wrong with a draft: its category, or else the first bad member of the payload in the order
of the body, or else the first bad member of the documentation. -/
inductive Refused (draft : ConceptDraft) : LoadError → Prop where
  | category (unknown : draft.category ∉ categories) :
    Refused draft (.unknownCategory draft.name draft.category)
  | payload (known : draft.category ∈ categories) {reason : Reason}
    (bad : draft.body.findSome? (refusal? (payloadChecks draft.category)) = some reason) :
    Refused draft (.invalidConcept draft.name draft.category reason)
  | documentation (known : draft.category ∈ categories) {reason : Reason}
    (good : draft.body.findSome? (refusal? (payloadChecks draft.category)) = none)
    (bad : draft.body.findSome? (refusal? documentationChecks) = some reason) :
    Refused draft (.invalidConcept draft.name draft.category reason)

def asksFor (draft : ConceptDraft) (key : String) : Bool :=
  ((payloadChecks draft.category ++ documentationChecks).map (·.1)).contains key

/-- Drafts that differ only in what nobody asks for. -/
structure Agrees (draft other : ConceptDraft) : Prop where
  name : other.name = draft.name
  order : other.order = draft.order
  category : other.category = draft.category
  body : (other.body.filter fun m => draft.asksFor m.1) = draft.body.filter fun m => draft.asksFor m.1

end ConceptDraft

namespace Draft

/-- What is wrong with a draft first. -/
inductive Refused (draft : Draft) : LoadError → Prop where
  | format (other : draft.application ≠ "factorio" ∨ draft.stage ≠ "runtime") :
    Refused draft (.unknownFormat draft.application draft.stage)
  | version (application : draft.application = "factorio") (stage : draft.stage = "runtime")
    (other : draft.version ≠ 1) : Refused draft (.unsupportedVersion draft.version)
  | concept (application : draft.application = "factorio") (stage : draft.stage = "runtime")
    (version : draft.version = 1) {before after : List ConceptDraft} {bad : ConceptDraft}
    (concepts : draft.concepts = before ++ bad :: after)
    (good : ∀ c ∈ before, ∃ concept, c.Typed concept) {e : LoadError} (refused : bad.Refused e) :
    Refused draft e

/-- A description has the entries of its draft, with concepts made of the drafts of concepts. -/
structure Typed (draft : Draft) (document : Document) : Prop where
  application : draft.application = "factorio"
  stage : draft.stage = "runtime"
  version : draft.version = 1
  classes : document.classes = draft.classes
  events : document.events = draft.events
  concepts : List.Forall₂ ConceptDraft.Typed draft.concepts document.concepts
  builtins : document.builtins = draft.builtins
  globals : document.globals = draft.globals
  constants : document.constants = draft.constants

def Outcome (draft : Draft) : Except LoadError Document → Prop
  | .ok document => draft.Typed document
  | .error e => draft.Refused e

end Draft

/-! Concepts. -/

namespace ConceptDraft

variable {draft : ConceptDraft}

/-- In the body of a draft that has been read no key comes twice. -/
theorem nodup_of_complete {slots : Slots record.types} {others : List (String × Value)}
    (h : record.complete slots others = .ok draft) : (draft.body.map (·.1)).Nodup := by
  obtain ⟨values, -, h⟩ := bind_eq_ok.mp h
  obtain ⟨body, hbody, h⟩ := bind_eq_ok.mp h
  cases hbody
  cases h
  exact nodup_keys_assignAll _

theorem kind_of_unknown (unknown : draft.category ∉ categories) :
    draft.kind = .error (.unknownCategory draft.name draft.category) := by
  unfold ConceptDraft.kind
  split
  all_goals first | rfl | exact absurd (by simp [categories, *]) unknown

def plainRecord : Record Unit where
  name := "Plain"
  types := []
  fields := .nil
  build := id

theorem payload_plain (draft : ConceptDraft) : draft.payload plainRecord = .ok () := by
  have passed : ∀ members : List (String × Value),
      Fields.putAll .body .nil members () = .ok () := by
    intro members
    induction members with
    | nil => rfl
    | cons m members ih => exact ih
  rw [payload, Record.ofMembers]
  exact mapError_eq_ok.mpr (bind_eq_ok.mpr ⟨(), passed _, rfl⟩)

/-- Each category asks for one record, whose fields are the keys of the category. -/
theorem exists_record {category : String} (known : category ∈ categories) :
    ∃ (ρ : Type) (record : Record ρ) (make : ρ → ConceptKind),
      record.fields.checks .body = payloadChecks category ∧
      record.fields.distinct = true ∧ record.fields.optional = true ∧
      ∀ draft : ConceptDraft, draft.category = category →
        draft.kind = (draft.payload record).map make := by
  simp only [categories, List.mem_cons, List.not_mem_nil, or_false] at known
  rcases known with rfl | rfl | rfl | rfl | rfl | rfl | rfl | rfl
  · exact ⟨_, optionsRecord Identification.record, .identification, rfl, rfl, rfl,
      fun draft h => by rw [ConceptDraft.kind, h]; rfl⟩
  · exact ⟨_, plainRecord, fun _ => .plain, rfl, rfl, rfl,
      fun draft h => by rw [ConceptDraft.kind, h, payload_plain]; rfl⟩
  · exact ⟨_, attributesRecord, .struct, rfl, rfl, rfl,
      fun draft h => by rw [ConceptDraft.kind, h]; rfl⟩
  · exact ⟨_, optionsRecord Choice.record, .flag, rfl, rfl, rfl,
      fun draft h => by rw [ConceptDraft.kind, h]; rfl⟩
  · exact ⟨_, Shape.record TypeExpr.decoder, .table, rfl, rfl, rfl,
      fun draft h => by rw [ConceptDraft.kind, h]; rfl⟩
  · exact ⟨_, Shape.record TypeExpr.decoder, .tableOrArray, rfl, rfl, rfl,
      fun draft h => by rw [ConceptDraft.kind, h]; rfl⟩
  · exact ⟨_, optionsRecord Choice.record, .union, rfl, rfl, rfl,
      fun draft h => by rw [ConceptDraft.kind, h]; rfl⟩
  · exact ⟨_, Shape.record TypeExpr.decoder, .filter, rfl, rfl, rfl,
      fun draft h => by rw [ConceptDraft.kind, h]; rfl⟩

section

variable (nodup : (draft.body.map (·.1)).Nodup) {ρ : Type} (record : Record ρ)
  (distinct : record.fields.distinct = true) (optional : record.fields.optional = true)

include nodup distinct optional

theorem payload_eq_ok {a : ρ} :
    draft.payload record = .ok a ↔
      ∃ values, record.fields.Fits .body draft.body values ∧ record.build values = a :=
  mapError_eq_ok.trans (record.ofMembers_eq_ok nodup distinct optional)

theorem payload_eq_error {e : LoadError} :
    draft.payload record = .error e ↔
      ∃ reason, draft.body.findSome? (refusal? (record.fields.checks .body)) = some reason ∧
        .invalidConcept draft.name draft.category reason = e := by
  simp only [payload, mapError_eq_error, record.ofMembers_eq_error nodup distinct optional]

end

section

variable (nodup : (draft.body.map (·.1)).Nodup)

include nodup

theorem payload_options_eq_ok {α : Type} {choice : Record α} {options : List α} :
    draft.payload (optionsRecord choice) = .ok options ↔
      Finds .body draft.body "options" (.list choice.decoder) (some []) options := by
  rw [payload_eq_ok nodup _ rfl rfl]
  constructor
  · rintro ⟨⟨options, _⟩, ⟨found, -⟩, rfl⟩
    exact found
  · intro found
    exact ⟨(options, ()), ⟨found, trivial⟩, rfl⟩

theorem payload_attributes_eq_ok {attributes : List Attribute} :
    draft.payload attributesRecord = .ok attributes ↔
      Finds .body draft.body "attributes" (.list Attribute.record.decoder) (some []) attributes := by
  rw [payload_eq_ok nodup _ rfl rfl]
  constructor
  · rintro ⟨⟨attributes, _⟩, ⟨found, -⟩, rfl⟩
    exact found
  · intro found
    exact ⟨(attributes, ()), ⟨found, trivial⟩, rfl⟩

theorem shape_eq_ok {shape : Shape} : draft.shape = .ok shape ↔ shape.HeldBy draft.body := by
  rw [ConceptDraft.shape, payload_eq_ok nodup _ rfl rfl]
  constructor
  · rintro ⟨⟨parameters, groups, groupsDescription, _⟩, ⟨hparameters, hgroups, hdescription, -⟩, rfl⟩
    exact ⟨hparameters, hgroups, hdescription⟩
  · cases shape
    rintro ⟨hparameters, hgroups, hdescription⟩
    exact ⟨(_, _, _, ()), ⟨hparameters, hgroups, hdescription, trivial⟩, rfl⟩

theorem documentation_eq_ok {doc : Documentation} :
    draft.payload Documentation.record = .ok doc ↔ doc.HeldBy draft.body := by
  rw [payload_eq_ok nodup _ rfl rfl]
  constructor
  · rintro ⟨⟨description, notes, examples, seeAlso, subclasses, _⟩,
      ⟨hdescription, hnotes, hexamples, hseeAlso, hsubclasses, -⟩, rfl⟩
    exact ⟨hdescription, hnotes, hexamples, hseeAlso, hsubclasses⟩
  · rintro ⟨hdescription, hnotes, hexamples, hseeAlso, hsubclasses⟩
    exact ⟨(_, _, _, _, _, ()), ⟨hdescription, hnotes, hexamples, hseeAlso, hsubclasses, trivial⟩, rfl⟩

/-- What a concept consists of has the category of the draft and is what the body holds for it. -/
theorem kind_eq_ok {kind : ConceptKind} :
    draft.kind = .ok kind ↔ kind.category = draft.category ∧ kind.HeldBy draft.body := by
  constructor
  · intro h
    unfold ConceptDraft.kind at h
    split at h
    · rename_i hcategory
      obtain ⟨options, hoptions, rfl⟩ := map_eq_ok.mp h
      exact ⟨hcategory.symm, (payload_options_eq_ok nodup).mp hoptions⟩
    · rename_i hcategory
      cases h
      exact ⟨hcategory.symm, trivial⟩
    · rename_i hcategory
      obtain ⟨attributes, hattributes, rfl⟩ := map_eq_ok.mp h
      exact ⟨hcategory.symm, (payload_attributes_eq_ok nodup).mp hattributes⟩
    · rename_i hcategory
      obtain ⟨options, hoptions, rfl⟩ := map_eq_ok.mp h
      exact ⟨hcategory.symm, (payload_options_eq_ok nodup).mp hoptions⟩
    · rename_i hcategory
      obtain ⟨shape, hshape, rfl⟩ := map_eq_ok.mp h
      exact ⟨hcategory.symm, (shape_eq_ok nodup).mp hshape⟩
    · rename_i hcategory
      obtain ⟨shape, hshape, rfl⟩ := map_eq_ok.mp h
      exact ⟨hcategory.symm, (shape_eq_ok nodup).mp hshape⟩
    · rename_i hcategory
      obtain ⟨options, hoptions, rfl⟩ := map_eq_ok.mp h
      exact ⟨hcategory.symm, (payload_options_eq_ok nodup).mp hoptions⟩
    · rename_i hcategory
      obtain ⟨shape, hshape, rfl⟩ := map_eq_ok.mp h
      exact ⟨hcategory.symm, (shape_eq_ok nodup).mp hshape⟩
    · cases h
  · rintro ⟨hcategory, held⟩
    rw [ConceptDraft.kind, ← hcategory]
    cases kind with
    | plain => rfl
    | identification options | flag options | union options =>
      exact map_eq_ok.mpr ⟨options, (payload_options_eq_ok nodup).mpr held, rfl⟩
    | struct attributes =>
      exact map_eq_ok.mpr ⟨attributes, (payload_attributes_eq_ok nodup).mpr held, rfl⟩
    | table shape | tableOrArray shape | filter shape =>
      exact map_eq_ok.mpr ⟨shape, (shape_eq_ok nodup).mpr held, rfl⟩

theorem kind_eq_error {e : LoadError} :
    draft.kind = .error e ↔
      (draft.category ∉ categories ∧ .unknownCategory draft.name draft.category = e) ∨
      (draft.category ∈ categories ∧
        ∃ reason, draft.body.findSome? (refusal? (payloadChecks draft.category)) = some reason ∧
          .invalidConcept draft.name draft.category reason = e) := by
  by_cases known : draft.category ∈ categories
  · obtain ⟨ρ, record, make, checks, distinct, optional, hkind⟩ := exists_record known
    rw [hkind draft rfl, map_eq_error, payload_eq_error nodup record distinct optional, checks]
    simp only [known, not_true_eq_false, false_and, false_or, true_and]
  · rw [kind_of_unknown known]
    simp [known]

theorem check_eq_ok {concept : Concept} : draft.check = .ok concept ↔ draft.Typed concept := by
  unfold ConceptDraft.check
  simp only [bind_eq_ok, pure_eq_ok, kind_eq_ok nodup, documentation_eq_ok nodup]
  constructor
  · rintro ⟨kind, ⟨hcategory, hkind⟩, doc, hdoc, rfl⟩
    exact ⟨rfl, rfl, hcategory, hkind, hdoc⟩
  · rintro ⟨hname, horder, hcategory, hkind, hdoc⟩
    exact ⟨concept.kind, ⟨hcategory, hkind⟩, concept.doc, hdoc, by rw [← hname, ← horder]⟩

theorem check_eq_error {e : LoadError} : draft.check = .error e ↔ draft.Refused e := by
  have hdoc : draft.payload Documentation.record = .error e ↔
      ∃ reason, draft.body.findSome? (refusal? documentationChecks) = some reason ∧
        .invalidConcept draft.name draft.category reason = e :=
    payload_eq_error nodup Documentation.record rfl rfl
  have steps : draft.check = .error e ↔
      draft.kind = .error e ∨
      ∃ kind, draft.kind = .ok kind ∧ draft.payload Documentation.record = .error e := by
    unfold ConceptDraft.check
    simp [bind_eq_error, Pure.pure, Except.pure]
  rw [steps, kind_eq_error nodup, hdoc]
  constructor
  · rintro ((⟨unknown, rfl⟩ | ⟨known, reason, bad, rfl⟩) | ⟨kind, hkind, reason, bad, rfl⟩)
    · exact .category unknown
    · exact .payload known bad
    · have known : draft.category ∈ categories := by
        rw [← ((kind_eq_ok nodup).mp hkind).1]
        cases kind <;> simp [ConceptKind.category, categories]
      have good : draft.body.findSome? (refusal? (payloadChecks draft.category)) = none := by
        cases hfirst : draft.body.findSome? (refusal? (payloadChecks draft.category)) with
        | none => rfl
        | some reason => cases hkind.symm.trans ((kind_eq_error nodup).mpr (.inr ⟨known, reason, hfirst, rfl⟩))
      exact .documentation known good bad
  · rintro (⟨unknown⟩ | ⟨known, bad⟩ | ⟨known, good, bad⟩)
    · exact .inl (.inl ⟨unknown, rfl⟩)
    · exact .inl (.inr ⟨known, _, bad, rfl⟩)
    · refine .inr ?_
      cases hkind : draft.kind with
      | ok kind => exact ⟨kind, rfl, _, bad, rfl⟩
      | error e' =>
        rcases (kind_eq_error nodup).mp hkind with ⟨unknown, -⟩ | ⟨-, reason, h, -⟩
        · exact absurd known unknown
        · cases good.symm.trans h

end

/-! Lists of concepts. -/

section

variable {drafts : List ConceptDraft} (once : ∀ draft ∈ drafts, (draft.body.map (·.1)).Nodup)

include once

theorem checkAll_eq_ok {concepts : List Concept} :
    checkAll drafts = .ok concepts ↔ List.Forall₂ Typed drafts concepts := by
  induction drafts generalizing concepts with
  | nil =>
    rw [List.forall₂_nil_left_iff, checkAll]
    constructor
    · intro h
      cases h
      rfl
    · rintro rfl
      rfl
  | cons draft rest ih =>
    obtain ⟨nodup, once⟩ := List.forall_mem_cons.mp once
    rw [List.forall₂_cons_left_iff, checkAll]
    simp only [bind_eq_ok, pure_eq_ok, check_eq_ok nodup, ih once]
    constructor
    · rintro ⟨concept, hconcept, others, hothers, rfl⟩
      exact ⟨concept, others, hconcept, hothers, rfl⟩
    · rintro ⟨concept, others, hconcept, hothers, rfl⟩
      exact ⟨concept, hconcept, others, hothers, rfl⟩

theorem checkAll_eq_error {e : LoadError} :
    checkAll drafts = .error e ↔
      ∃ before bad after, drafts = before ++ bad :: after ∧
        (∀ draft ∈ before, ∃ concept, draft.Typed concept) ∧ bad.Refused e := by
  induction drafts with
  | nil =>
    constructor
    · intro h
      cases h
    · rintro ⟨before, bad, after, h, -⟩
      simp at h
  | cons draft rest ih =>
    obtain ⟨nodup, once⟩ := List.forall_mem_cons.mp once
    have steps : checkAll (draft :: rest) = .error e ↔
        draft.check = .error e ∨ ∃ concept, draft.check = .ok concept ∧ checkAll rest = .error e := by
      rw [checkAll]
      simp [bind_eq_error, Pure.pure, Except.pure]
    simp only [steps, ih once, check_eq_error nodup, check_eq_ok nodup]
    constructor
    · rintro (h | ⟨concept, hconcept, before, bad, after, rfl, good, hbad⟩)
      · exact ⟨[], draft, rest, rfl, List.forall_mem_nil _, h⟩
      · exact ⟨draft :: before, bad, after, rfl, List.forall_mem_cons.mpr ⟨⟨concept, hconcept⟩, good⟩, hbad⟩
    · rintro ⟨before, bad, after, heq, good, hbad⟩
      cases before with
      | nil =>
        cases heq
        exact .inl hbad
      | cons first before =>
        cases heq
        obtain ⟨⟨concept, hconcept⟩, good⟩ := List.forall_mem_cons.mp good
        exact .inr ⟨concept, hconcept, before, bad, after, rfl, good, hbad⟩

end

/-! Members that nobody asks for. -/

theorem payload_congr {other : ConceptDraft} (agrees : draft.Agrees other) {ρ : Type} (record : Record ρ)
    (asked : ∀ key, record.fields.has key = true → draft.asksFor key = true) :
    other.payload record = draft.payload record := by
  have narrowed (members : List (String × Value)) :
      (members.filter fun m => record.fields.has m.1)
        = (members.filter fun m => draft.asksFor m.1).filter fun m => record.fields.has m.1 := by
    rw [List.filter_filter]
    apply List.filter_congr
    intro m _
    cases h : record.fields.has m.1 with
    | true => rw [asked _ h]; rfl
    | false => rfl
  have same : record.ofMembers .body other.body = record.ofMembers .body draft.body := by
    apply record.ofMembers_congr
    rw [narrowed other.body, agrees.body, ← narrowed]
  rw [payload, payload, agrees.name, agrees.category, same]

theorem kind_congr {other : ConceptDraft} (agrees : draft.Agrees other) : other.kind = draft.kind := by
  by_cases known : draft.category ∈ categories
  · obtain ⟨ρ, record, make, checks, -, -, hkind⟩ := exists_record known
    rw [hkind draft rfl, hkind other agrees.category]
    congr 1
    apply payload_congr agrees
    intro key hkey
    rw [asksFor, List.contains_iff_mem, List.map_append, ← checks]
    exact List.mem_append_left _ (Fields.has_iff.mp hkey)
  · rw [kind_of_unknown known, kind_of_unknown (by rwa [agrees.category]), agrees.name, agrees.category]

theorem check_congr {other : ConceptDraft} (agrees : draft.Agrees other) : other.check = draft.check := by
  have hdoc : other.payload Documentation.record = draft.payload Documentation.record := by
    apply payload_congr agrees
    intro key hkey
    rw [asksFor, List.contains_iff_mem, List.map_append]
    exact List.mem_append_right _ ((@Fields.has_iff _ .body _ Documentation.record.fields).mp hkey)
  rw [check, check, kind_congr agrees, hdoc, agrees.name, agrees.order]

theorem checkAll_congr {drafts others : List ConceptDraft} (agree : List.Forall₂ Agrees drafts others) :
    checkAll others = checkAll drafts := by
  induction agree with
  | nil => rfl
  | cons agrees _ ih => rw [checkAll, checkAll, check_congr agrees, ih]

end ConceptDraft

/-! Whole drafts. -/

namespace Draft

variable {draft : Draft}

/-- The body of each concept is a table, in which no key comes twice. -/
def KeysOnce (draft : Draft) : Prop :=
  ∀ c ∈ draft.concepts, (c.body.map (·.1)).Nodup

/-- Nothing is asked of a field. -/
def anything {α : Type} : α → Prop := fun _ => True

/-- The concepts among the fields of a draft have bodies of that kind. -/
def onceFields : Properties record.types :=
  (anything, anything, anything, anything, anything,
    fun concepts => ∀ c ∈ concepts, (c.body.map (·.1)).Nodup, anything, anything, anything, ())

theorem onceFields_of_record : onceFields.OfFields record.fields := by
  have concept : ConceptDraft.record.decoder.Gives fun c => (c.body.map (·.1)).Nodup :=
    OpenRecord.gives_decoder fun _ _ _ complete => ConceptDraft.nodup_of_complete complete
  have given {α : Type} (decoder : Decoder α) : decoder.Gives anything := decoder.gives_true
  have default {α : Type} (absent : Option α) : ∀ a ∈ absent, anything a := fun _ _ => trivial
  refine ⟨given _, default _, given _, default _, given _, default _, given _, default _, given _,
    default _, Decoder.gives_list concept, ?_, given _, default _, given _, default _, given _,
    default _, trivial⟩
  rintro _ ⟨⟩
  exact List.forall_mem_nil _

theorem keysOnce_of_parse {source : String} (h : record.decoder.parse source = .ok draft) :
    draft.KeysOnce := by
  have decoder : record.decoder.Gives KeysOnce :=
    Record.gives_decoder onceFields_of_record fun values h => h.2.2.2.2.2.1
  exact decoder.parse h

theorem check_of_format (other : draft.application ≠ "factorio" ∨ draft.stage ≠ "runtime") :
    draft.check = .error (.unknownFormat draft.application draft.stage) :=
  if_pos other

theorem check_of_version (application : draft.application = "factorio")
    (stage : draft.stage = "runtime") (other : draft.version ≠ 1) :
    draft.check = .error (.unsupportedVersion draft.version) := by
  rw [check, if_neg (by simp [application, stage, expectedApplication, expectedStage])]
  exact if_pos other

theorem check_of_supported (application : draft.application = "factorio")
    (stage : draft.stage = "runtime") (version : draft.version = 1) :
    draft.check = (ConceptDraft.checkAll draft.concepts).map fun concepts =>
      ⟨draft.classes, draft.events, concepts, draft.builtins, draft.globals, draft.constants⟩ := by
  rw [check, if_neg (by simp [application, stage, expectedApplication, expectedStage]),
    if_neg (by simp [version, supportedVersion])]
  rfl

theorem check_eq_ok (once : draft.KeysOnce) {document : Document} :
    draft.check = .ok document ↔ draft.Typed document := by
  constructor
  · intro h
    by_cases format : draft.application ≠ "factorio" ∨ draft.stage ≠ "runtime"
    · cases (check_of_format format).symm.trans h
    · obtain ⟨application, stage⟩ := not_or.mp format
      rw [not_not] at application stage
      by_cases version : draft.version = 1
      · rw [check_of_supported application stage version] at h
        obtain ⟨concepts, hconcepts, rfl⟩ := map_eq_ok.mp h
        exact ⟨application, stage, version, rfl, rfl, (ConceptDraft.checkAll_eq_ok once).mp hconcepts,
          rfl, rfl, rfl⟩
      · cases (check_of_version application stage version).symm.trans h
  · rintro ⟨application, stage, version, classes, events, concepts, builtins, globals, constants⟩
    rw [check_of_supported application stage version]
    refine map_eq_ok.mpr ⟨document.concepts, (ConceptDraft.checkAll_eq_ok once).mpr concepts, ?_⟩
    rw [← classes, ← events, ← builtins, ← globals, ← constants]

theorem check_eq_error (once : draft.KeysOnce) {e : LoadError} :
    draft.check = .error e ↔ draft.Refused e := by
  constructor
  · intro h
    by_cases format : draft.application ≠ "factorio" ∨ draft.stage ≠ "runtime"
    · cases (check_of_format format).symm.trans h
      exact .format format
    · obtain ⟨application, stage⟩ := not_or.mp format
      rw [not_not] at application stage
      by_cases version : draft.version = 1
      · rw [check_of_supported application stage version, map_eq_error,
          ConceptDraft.checkAll_eq_error once] at h
        obtain ⟨before, bad, after, concepts, good, refused⟩ := h
        exact .concept application stage version concepts good refused
      · cases (check_of_version application stage version).symm.trans h
        exact .version application stage version
  · rintro (⟨format⟩ | ⟨application, stage, version⟩ |
      ⟨application, stage, version, concepts, good, refused⟩)
    · exact check_of_format format
    · exact check_of_version application stage version
    · rw [check_of_supported application stage version, map_eq_error,
        ConceptDraft.checkAll_eq_error once]
      exact ⟨_, _, _, concepts, good, refused⟩

theorem outcome_check (once : draft.KeysOnce) : draft.Outcome draft.check := by
  cases h : draft.check with
  | ok document => exact (check_eq_ok once).mp h
  | error e => exact (check_eq_error once).mp h

/-- A text is no draft, or it is loaded as its draft comes out. -/
theorem load_cases (source fileName : String) :
    (∃ fault, record.decoder.parse source = .error fault ∧ load source fileName =
      .error (.malformed fileName (fault.position.offset source.toList) fault)) ∨
    ∃ draft, record.decoder.parse source = .ok draft ∧ draft.Outcome (load source fileName) := by
  unfold load
  cases h : record.decoder.parse source with
  | error fault => exact .inl ⟨fault, rfl, rfl⟩
  | ok draft => exact .inr ⟨draft, rfl, outcome_check (keysOnce_of_parse h)⟩

/-- A draft is refused for its format, whatever else is wrong, then for its version, then for the first
concept that fits no category or not its own; otherwise it becomes the description that it holds. What
nobody asks for in the bodies of concepts changes nothing. -/
theorem check_outcome (once : draft.KeysOnce) :
    (∀ outcome, draft.check = outcome ↔ draft.Outcome outcome) ∧
    ∀ concepts, List.Forall₂ ConceptDraft.Agrees draft.concepts concepts →
      { draft with concepts := concepts }.check = draft.check := by
  constructor
  · intro outcome
    cases outcome with
    | ok document => exact check_eq_ok once
    | error e => exact check_eq_error once
  · intro concepts agree
    simp only [check, ConceptDraft.checkAll_congr agree]

end Draft

/-! A draft with a good concept, one with bad attributes and a bad description, and one without category. -/

def structDraft (options : Value) : ConceptDraft :=
  ⟨"S", 0, "struct", [("attributes", .bool true), ("description", .null), ("options", options)]⟩

def mixedDraft (options : Value) : Draft :=
  ⟨"factorio", "runtime", 1, [], [], [
    ⟨"F", 0, "flag", [("options", .array [.object [("name", .string "A")]])]⟩,
    structDraft options, ⟨"U", 0, "none", []⟩], [], [], []⟩

theorem check_outcome_mixed :
    (mixedDraft .null).KeysOnce ∧
    (mixedDraft .null).check
      = .error (.invalidConcept "S" "struct" (.invalidType (Value.bool true).found "a sequence")) ∧
    (mixedDraft (.bool false)).check = (mixedDraft .null).check := by
  have once : (mixedDraft .null).KeysOnce := by
    rw [Draft.KeysOnce, mixedDraft]
    simp [structDraft]
  obtain ⟨outcome, ignores⟩ := Draft.check_outcome once
  have good : (ConceptDraft.mk "F" 0 "flag" [("options", .array [.object [("name", .string "A")]])]).Typed
      ⟨"F", 0, ⟨"", [], [], [], []⟩, .flag [⟨"A", 0, ""⟩]⟩ :=
    ⟨rfl, rfl, rfl, .inl ⟨_, List.mem_cons_self, rfl⟩, .inr ⟨rfl, by simp⟩, .inr ⟨rfl, by simp⟩,
      .inr ⟨rfl, by simp⟩, .inr ⟨rfl, by simp⟩, .inr ⟨rfl, by simp⟩⟩
  have bad : (structDraft .null).Refused
      (.invalidConcept "S" "struct" (.invalidType (Value.bool true).found "a sequence")) :=
    .payload (by simp [structDraft, categories]) rfl
  refine ⟨once, (outcome _).mpr ?_, ignores _ ?_⟩
  · exact .concept rfl rfl rfl rfl (List.forall_mem_singleton.mpr ⟨_, good⟩) bad
  · exact .cons ⟨rfl, rfl, rfl, rfl⟩ (.cons ⟨rfl, rfl, rfl, rfl⟩ (.cons ⟨rfl, rfl, rfl, rfl⟩ .nil))

end Api

end LuaStubs
