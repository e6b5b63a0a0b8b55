import LuaStubs.Api.Draft
import LuaStubs.Proofs.Json.Faithful
import LuaStubs.Proofs.Loading.Records
import LuaStubs.Proofs.Loading.Normal

/-! Loading gives the description back from any text that a JSON writer may have made of it. -/

namespace LuaStubs.Api

open Json Decoder Outcome

/-! A description is read off its text as it is taken out of the tree of the text. -/

theorem TypeExpr.faithful : TypeExpr.decoder.Faithful :=
  faithful_ofTree

theorem Parameter.faithful : (Parameter.record TypeExpr.decoder).decoder.Faithful :=
  Record.faithful_decoder ⟨faithful_text, faithful_natural, faithful_text, TypeExpr.faithful,
    faithful_flag, trivial⟩

theorem Method.faithful : Method.record.decoder.Faithful :=
  OpenRecord.faithful_decoder ⟨faithful_text, faithful_natural, trivial⟩

theorem Attribute.faithful : Attribute.record.decoder.Faithful :=
  OpenRecord.faithful_decoder ⟨faithful_text, faithful_natural, TypeExpr.faithful, faithful_flag,
    faithful_flag, trivial⟩

theorem Operator.faithful : Operator.record.decoder.Faithful :=
  OpenRecord.faithful_decoder ⟨faithful_text, faithful_natural, TypeExpr.faithful.optional,
    faithful_flag, faithful_flag, trivial⟩

theorem Class.faithful : Class.record.decoder.Faithful :=
  OpenRecord.faithful_decoder ⟨faithful_text, faithful_natural, Method.faithful.list,
    Attribute.faithful.list, Operator.faithful.list, faithful_text.list, trivial⟩

theorem Event.faithful : Event.record.decoder.Faithful :=
  OpenRecord.faithful_decoder ⟨faithful_text, faithful_natural, Parameter.faithful.list, trivial⟩

theorem ConceptDraft.faithful : ConceptDraft.record.decoder.Faithful :=
  OpenRecord.faithful_decoder ⟨faithful_text, faithful_natural, faithful_text, trivial⟩

theorem Builtin.faithful : Builtin.record.decoder.Faithful :=
  Record.faithful_decoder ⟨faithful_text, faithful_natural, faithful_text, trivial⟩

theorem Global.faithful : Global.record.decoder.Faithful :=
  Record.faithful_decoder ⟨faithful_text, faithful_natural, faithful_text, TypeExpr.faithful, trivial⟩

theorem ConstantValue.faithful : ConstantValue.record.decoder.Faithful :=
  Record.faithful_decoder ⟨faithful_text, faithful_natural, faithful_text, trivial⟩

theorem Constant.faithful_decoderTo : ∀ height, (Constant.decoderTo height).Faithful
  | 0 => nofun
  | height + 1 => Record.faithful_decoder ⟨faithful_text, faithful_natural, faithful_text,
    ConstantValue.faithful.list, (faithful_decoderTo height).list, trivial⟩

theorem Draft.faithful : Draft.record.decoder.Faithful :=
  Record.faithful_decoder ⟨faithful_text, faithful_text, faithful_natural, Class.faithful.list,
    Event.faithful.list, ConceptDraft.faithful.list, Builtin.faithful.list, Global.faithful.list,
    (Constant.faithful_decoderTo _).list, trivial⟩

/-! Concepts. -/

theorem ConceptKind.keys_entries (kind : ConceptKind) :
    (kind.entries.map (·.key)).all (!ConceptDraft.record.fields.has ·) = true := by
  cases kind with
  | table shape | tableOrArray shape | filter shape =>
    rw [entries, shape.keys_entries]
    rfl
  | _ => rfl

namespace ConceptDraft

variable {draft : ConceptDraft} (nodup : (draft.body.map (·.1)).Nodup)

include nodup

theorem payload_options {α : Type} {record : Record α} {encoded : α → Value → Prop} {options : List α}
    (accepts : record.decoder.Accepts .body (heightOfMembers draft.body) encoded)
    (entries : ∀ e ∈ [Entry.mk "options" (Value.ListOf encoded options) (options = [])],
      e.In draft.body) :
    draft.payload (optionsRecord record) = .ok options := by
  have found := List.forall_mem_singleton.mp entries
  exact mapError_eq_ok.mpr ((optionsRecord record).ofMembers_of_fits nodup rfl (options, ())
    ⟨found.found_default (Nat.le_refl _) accepts.list, trivial⟩)

theorem payload_attributes {attributes : List Attribute}
    (entries : ∀ e ∈ [Entry.mk "attributes" (Value.ListOf Attribute.Encoded attributes)
      (attributes = [])], e.In draft.body) :
    draft.payload attributesRecord = .ok attributes := by
  have found := List.forall_mem_singleton.mp entries
  exact mapError_eq_ok.mpr (attributesRecord.ofMembers_of_fits nodup rfl (attributes, ())
    ⟨found.found_default (Nat.le_refl _) Attribute.accepts.list, trivial⟩)

theorem shape_encoded (shape : Shape) (entries : ∀ e ∈ shape.entries, e.In draft.body) :
    draft.shape = .ok shape :=
  mapError_eq_ok.mpr (shape.ofMembers_encoded TypeExpr.accepts nodup (Nat.le_refl _) entries)

theorem kind_encoded (kind : ConceptKind) (hcategory : draft.category = kind.category)
    (entries : ∀ e ∈ kind.entries, e.In draft.body) : draft.kind = .ok kind := by
  cases kind with
  | identification options =>
    rw [ConceptDraft.kind, hcategory]
    exact map_eq_ok.mpr ⟨_, payload_options nodup Identification.accepts entries, rfl⟩
  | plain =>
    rw [ConceptDraft.kind, hcategory]
    rfl
  | struct attributes =>
    rw [ConceptDraft.kind, hcategory]
    exact map_eq_ok.mpr ⟨_, payload_attributes nodup entries, rfl⟩
  | flag options =>
    rw [ConceptDraft.kind, hcategory]
    exact map_eq_ok.mpr ⟨_, payload_options nodup Choice.accepts entries, rfl⟩
  | table shape =>
    rw [ConceptDraft.kind, hcategory]
    exact map_eq_ok.mpr ⟨_, shape_encoded nodup shape entries, rfl⟩
  | tableOrArray shape =>
    rw [ConceptDraft.kind, hcategory]
    exact map_eq_ok.mpr ⟨_, shape_encoded nodup shape entries, rfl⟩
  | union options =>
    rw [ConceptDraft.kind, hcategory]
    exact map_eq_ok.mpr ⟨_, payload_options nodup Choice.accepts entries, rfl⟩
  | filter shape =>
    rw [ConceptDraft.kind, hcategory]
    exact map_eq_ok.mpr ⟨_, shape_encoded nodup shape entries, rfl⟩

end ConceptDraft

/-- A concept is set aside in a draft, from which it is made by its category. -/
theorem Concept.draft_encoded {c : Concept} {v : Value} (encoded : c.Encoded v) (origin : Origin) :
    ∃ draft, ConceptDraft.record.ofValue origin v = .ok draft ∧ draft.check = .ok c := by
  cases v with
  | object members =>
    obtain ⟨nodup, holds⟩ := encoded
    obtain ⟨own, outer⟩ := List.forall_mem_append.mp holds
    have outer : ∀ e ∈ c.doc.entries ++ c.kind.entries,
        e.In (members.filter fun m => !ConceptDraft.record.fields.has m.1) := by
      apply @Entry.in_filter _ members (!ConceptDraft.record.fields.has ·) outer
      rw [List.map_append, List.all_append, c.kind.keys_entries]
      rfl
    have hothers : ((members.filter fun m => !ConceptDraft.record.fields.has m.1).map (·.1)).Nodup :=
      nodup.sublist (List.filter_sublist.map _)
    have persists : ∀ e ∈ c.doc.entries ++ c.kind.entries, Persists e.value :=
      List.forall_mem_append.mpr ⟨c.doc.persists_entries, c.kind.persists_entries⟩
    -- The body is the normal form of what is left, and says the same.
    have body := fun e he => (outer e he).normalForm (persists e he) hothers
    obtain ⟨hdoc, hkind⟩ := List.forall_mem_append.mp body
    have unique := normalForm_nodup hothers
    simp only [List.forall_mem_cons] at own
    obtain ⟨name, order, category, -⟩ := own
    have below := Nat.le_refl (heightOfMembers members)
    refine ⟨_, ConceptDraft.record.ofValue_of_fits nodup rfl (c.name, c.order, c.kind.category, ())
      ⟨name.found below accepts_text, order.found_default below accepts_natural,
        category.found below accepts_text, trivial⟩ rfl, ?_⟩
    refine bind_eq_ok.mpr ⟨_, ConceptDraft.kind_encoded unique c.kind rfl hkind, ?_⟩
    exact bind_eq_ok.mpr ⟨_, mapError_eq_ok.mpr (c.doc.ofMembers_encoded unique hdoc), rfl⟩
  | _ => cases encoded

theorem concepts_encoded {concepts : List Concept} {items : List Value}
    (encoded : List.Forall₂ Concept.Encoded concepts items) (origin : Origin) :
    ∃ drafts, allOf (ConceptDraft.record.ofValue origin) items = .ok drafts ∧
      ConceptDraft.checkAll drafts = .ok concepts := by
  induction encoded with
  | nil => exact ⟨[], rfl, rfl⟩
  | cons own _ ih =>
    obtain ⟨draft, hdraft, hcheck⟩ := Concept.draft_encoded own origin
    obtain ⟨drafts, hdrafts, hchecks⟩ := ih
    exact ⟨draft :: drafts, bind_eq_ok.mpr ⟨_, hdraft, bind_eq_ok.mpr ⟨_, hdrafts, rfl⟩⟩,
      bind_eq_ok.mpr ⟨_, hcheck, bind_eq_ok.mpr ⟨_, hchecks, rfl⟩⟩⟩

theorem concepts_found {concepts : List Concept} {members : List (String × Value)}
    (h : (Entry.mk "concepts" (Value.ListOf Concept.Encoded concepts) (concepts = [])).In members) :
    ∃ drafts, Finds .buffer members "concepts" ConceptDraft.record.decoder.list (some []) drafts ∧
      ConceptDraft.checkAll drafts = .ok concepts := by
  rcases h with ⟨v, hv, list⟩ | ⟨rfl, missing⟩
  · cases v with
    | array items =>
      obtain ⟨drafts, hdrafts, hchecks⟩ := concepts_encoded list .buffer
      exact ⟨drafts, .inl ⟨_, hv, hdrafts⟩, hchecks⟩
    | _ => cases list
  · exact ⟨[], .inr ⟨rfl, missing⟩, rfl⟩

/-! Whole descriptions. -/

theorem Document.draft_encoded {document : Document} {v : Value} (encoded : document.Encoded v)
    (hheight : v.height ≤ deepest + 1) :
    ∃ draft, Draft.record.ofValue .buffer v = .ok draft ∧ draft.check = .ok document := by
  cases v with
  | object members =>
    obtain ⟨nodup, entries⟩ := encoded
    simp only [List.forall_mem_cons] at entries
    obtain ⟨application, stage, version, classes, events, concepts, builtins, globals, constants, -⟩ :=
      entries
    obtain ⟨drafts, hdrafts, hchecks⟩ := concepts_found concepts
    have below : heightOfMembers members ≤ deepest + 1 := Nat.le_of_succ_le hheight
    refine ⟨_, Draft.record.ofMembers_of_fits nodup rfl
      ("factorio", "runtime", 1, document.classes, document.events, drafts, document.builtins,
        document.globals, document.constants, ())
      ⟨application.found below accepts_text, stage.found below accepts_text,
        version.found below accepts_natural, classes.found_default below Class.accepts.list,
        events.found_default below Event.accepts.list, hdrafts,
        builtins.found_default below Builtin.accepts.list,
        globals.found_default below Global.accepts.list,
        constants.found_default below Constant.accepts.list, trivial⟩, ?_⟩
    exact bind_eq_ok.mpr ⟨_, hchecks, rfl⟩
  | _ => cases encoded

/-- The texts of a description, with whitespace around them and at most 127 levels of arrays and objects. -/
def Document.Written (document : Document) (source : String) : Prop :=
  ∃ v before text after, document.Encoded v ∧ v.nesting ≤ 127 ∧ v.Written text ∧
    Blank before ∧ Blank after ∧ source.toList = before ++ (text ++ after)

theorem load_written {document : Document} {source : String} (written : document.Written source)
    (fileName : String) : load source fileName = .ok document := by
  obtain ⟨v, before, text, after, encoded, shallow, written, hbefore, hafter, hsource⟩ := written
  have hheight : v.height ≤ deepest + 1 := Nat.le_trans v.height_le (Nat.succ_le_succ shallow)
  obtain ⟨draft, hdraft, hcheck⟩ := document.draft_encoded encoded hheight
  have read := Draft.faithful v draft hdraft text written ⟨source.toList.length, deepest⟩ shallow
    before after hbefore hafter.ends_alone (Nat.le_of_eq (congrArg _ hsource.symm))
  rw [← hsource] at read
  have parsed : Draft.record.decoder.parse source = .ok draft := by
    refine mapError_eq_ok.mpr (bind_eq_ok.mpr ⟨_, read, ?_⟩)
    have rest : skipBlank after = [] := by
      rw [← List.append_nil after, skipBlank_append hafter]
      rfl
    simp only [rest]
    rfl
  exact bind_eq_ok.mpr ⟨_, mapError_eq_ok.mpr parsed, hcheck⟩

/-! A flag with one choice: a name is spelled with an escape, and a key is nobody's. -/

def choiceTree : Value :=
  .object [("name", .string "A")]

def flagTree : Value :=
  .object [("options", .array [choiceTree]), ("name", .string "F"), ("category", .string "flag")]

theorem choiceTree_encoded : Choice.Encoded ⟨"A", 0, ""⟩ choiceTree := by
  refine ⟨by decide, ?_⟩
  simp only [List.forall_mem_cons]
  exact ⟨.inl ⟨_, .head _, rfl⟩, .inr ⟨rfl, by simp [Entry.order]⟩,
    .inr ⟨rfl, by simp [Entry.description]⟩, List.forall_mem_nil _⟩

theorem flagTree_encoded :
    Concept.Encoded ⟨"F", 0, ⟨"", [], [], [], []⟩, .flag [⟨"A", 0, ""⟩]⟩ flagTree := by
  refine ⟨by decide, List.forall_mem_append.mpr ⟨?_, List.forall_mem_append.mpr ⟨?_, ?_⟩⟩⟩
  · simp only [List.forall_mem_cons]
    exact ⟨.inl ⟨_, .tail _ (.head _), rfl⟩, .inr ⟨rfl, by simp [Entry.order]⟩,
      .inl ⟨_, .tail _ (.tail _ (.head _)), rfl⟩, List.forall_mem_nil _⟩
  · simp only [Documentation.entries, List.forall_mem_cons]
    exact ⟨.inr ⟨rfl, by simp [Entry.description]⟩, .inr ⟨trivial, by simp⟩,
      .inr ⟨trivial, by simp⟩, .inr ⟨trivial, by simp⟩, .inr ⟨trivial, by simp⟩,
      List.forall_mem_nil _⟩
  · exact List.forall_mem_singleton.mpr (.inl ⟨_, .head _, .cons choiceTree_encoded .nil⟩)

theorem choiceTree_written : choiceTree.Written "\x7b\"name\":\"A\"\x7d".toList :=
  ⟨_, _, ⟨_, _, _, _, quoted_plain "name" (by decide), colon_plain, quoted_plain "A" (by decide),
    rfl, rfl⟩, joined_plain _ _, by decide⟩

theorem flagTree_written : flagTree.Written
    ("\x7b\"options\":[\x7b\"name\":\"A\"\x7d],\"name\":\"\\u0046\"," ++
      "\"category\":\"flag\"\x7d").toList := by
  have hex : Hex 'F'.toNat ['0', '0', '4', '6'] :=
    ⟨_, _, _, _, 0, 0, 4, 6, rfl, by simp [hexDigits], by simp [hexDigits], by simp [hexDigits],
      by simp [hexDigits], rfl⟩
  have spelled : Quoted "F" "\"\\u0046\"".toList := ⟨_, .unit hex .nil, by decide⟩
  exact ⟨_, _, ⟨_, _, _, _, quoted_plain "options" (by decide), colon_plain,
      ⟨_, _, ⟨_, _, choiceTree_written, rfl, rfl⟩, joined_plain _ _, rfl⟩,
    ⟨_, _, _, _, quoted_plain "name" (by decide), colon_plain, spelled,
    ⟨_, _, _, _, quoted_plain "category" (by decide), colon_plain,
      quoted_plain "flag" (by decide), rfl, rfl⟩, rfl⟩, rfl⟩, joined_plain _ _, by decide⟩

theorem written_flag : Document.Written
    ⟨[], [], [⟨"F", 0, ⟨"", [], [], [], []⟩, .flag [⟨"A", 0, ""⟩]⟩], [], [], []⟩
    ("\x7b\"concepts\":[\x7b\"options\":[\x7b\"name\":\"A\"\x7d],\"name\":\"\\u0046\",\"category\":\"flag\"" ++
      "\x7d],\"application\":\"factorio\",\"stage\":\"runtime\",\"more\":[null],\"api_version\":1\x7d\n") := by
  have version := @written_natural 1 (by decide)
  refine ⟨.object [("concepts", .array [flagTree]), ("application", .string "factorio"),
    ("stage", .string "runtime"), ("more", .array [.null]), ("api_version", .number (.integer 1))],
    [], _, ['\n'], ⟨by decide, ?_⟩, by decide,
    ⟨_, _, ⟨_, _, _, _, quoted_plain "concepts" (by decide), colon_plain,
        ⟨_, _, ⟨_, _, flagTree_written, rfl, rfl⟩, joined_plain _ _, rfl⟩,
      ⟨_, _, _, _, quoted_plain "application" (by decide), colon_plain,
        quoted_plain "factorio" (by decide),
      ⟨_, _, _, _, quoted_plain "stage" (by decide), colon_plain,
        quoted_plain "runtime" (by decide),
      ⟨_, _, _, _, quoted_plain "more" (by decide), colon_plain,
        ⟨_, _, ⟨_, _, rfl, rfl, rfl⟩, joined_plain _ _, rfl⟩,
      ⟨_, _, _, _, quoted_plain "api_version" (by decide), colon_plain, version, rfl, rfl⟩,
      rfl⟩, rfl⟩, rfl⟩, rfl⟩, joined_plain _ _, rfl⟩, blank_nil,
    List.forall_mem_singleton.mpr rfl, by decide +kernel⟩
  simp only [List.forall_mem_cons]
  exact ⟨.inl ⟨_, .tail _ (.head _), rfl⟩, .inl ⟨_, .tail _ (.tail _ (.head _)), rfl⟩,
    .inl ⟨_, .tail _ (.tail _ (.tail _ (.tail _ (.head _)))), rfl, by decide⟩,
    .inr ⟨trivial, by simp⟩, .inr ⟨trivial, by simp⟩,
    .inl ⟨_, .head _, .cons flagTree_encoded .nil⟩, .inr ⟨trivial, by simp⟩,
    .inr ⟨trivial, by simp⟩, .inr ⟨trivial, by simp⟩, List.forall_mem_nil _⟩

theorem load_written_flag : load
    ("\x7b\"concepts\":[\x7b\"options\":[\x7b\"name\":\"A\"\x7d],\"name\":\"\\u0046\",\"category\":\"flag\"" ++
      "\x7d],\"application\":\"factorio\",\"stage\":\"runtime\",\"more\":[null],\"api_version\":1\x7d\n")
    "runtime-api.json" =
      .ok ⟨[], [], [⟨"F", 0, ⟨"", [], [], [], []⟩, .flag [⟨"A", 0, ""⟩]⟩], [], [], []⟩ :=
  load_written written_flag _

end LuaStubs.Api
