import LuaStubs.Proofs.Emission
import LuaStubs.Proofs.Fields
import LuaStubs.Proofs.Run
import LuaStubs.Proofs.Texts
import Mathlib.Data.List.Induction

/-! The fields of a table and of its groups, merged. Which fields a table has, in which order, and
what is said about each of them is read off the two lists; and the declaration of the table has
these fields and no others. -/

namespace LuaStubs

open Emission

/-! Texts of several paragraphs. -/

theorem intercalate_concat (sep text : String) {texts : List String} (h : texts ≠ []) :
    sep.intercalate (texts ++ [text]) = sep.intercalate texts ++ sep ++ text := by
  induction texts with
  | nil => exact absurd rfl h
  | cons first rest ih =>
    by_cases hrest : rest = []
    · subst hrest
      simp
    · rw [← String.toList_inj, List.cons_append, toList_intercalate_cons _ _ (by simp), ih hrest]
      simp [toList_intercalate_cons _ _ hrest]

theorem framed_paragraphs {texts : List String} (h : ∀ text ∈ texts, text ≠ "") (text : String) :
    Text.framed "" ("\n\n".intercalate texts) "\n\n" ++ text = "\n\n".intercalate (texts ++ [text]) := by
  cases texts with
  | nil => simp [Text.framed]
  | cons first rest =>
    have first_ne : first ≠ "" := h first List.mem_cons_self
    have whole_ne : "\n\n".intercalate (first :: rest) ≠ "" := by
      by_cases hrest : rest = []
      · simpa [hrest] using first_ne
      · rw [← String.toList_inj.ne, toList_intercalate_cons _ _ hrest]
        simp
    rw [intercalate_concat _ _ (List.cons_ne_nil _ _), Text.framed, if_neg (by simpa using whole_ne)]
    simp

/-- A field of a table as its two lists determine it. -/
structure MergedField where
  type : Api.TypeExpr
  optional : Bool
  /-- The paragraphs of the comment, the link apart. -/
  paragraphs : List String

namespace TableField

/-- What the groups say about fields, in the order of the groups and of their fields. -/
def grouped (groups : List Api.Group) : List (String × Api.Parameter) :=
  (sortOn (·.order) groups).flatMap fun g => (sortOn (·.order) g.parameters).map fun p => (g.name, p)

/-- What the groups say about one field. -/
def notes (words : String) (said : List (String × Api.Parameter)) (name : String) : List String :=
  (said.filter (·.2.name == name)).map fun (group, p) => groupNote words group p

/-- The field of a name: the last fixed field, with what the groups say about it behind its
description, or if there is none, the first field of a group. -/
def merged? (words : String) (fixed : List Api.Parameter) (said : List (String × Api.Parameter))
    (name : String) : Option MergedField :=
  match fixed.reverse.find? (·.name == name) with
  | some p =>
    some ⟨p.type, p.optional, [p.description].filter (!·.isEmpty) ++ notes words said name⟩
  | none =>
    (said.find? (·.2.name == name)).map fun (_, p) => ⟨p.type, p.optional, notes words said name⟩

/-- The names of the fixed fields, then those that only groups have. -/
def mergedNames (fixed : List Api.Parameter) (said : List (String × Api.Parameter)) : List String :=
  distinct (fixed.map (·.name)) ++
    (distinct (said.map (·.2.name))).filter (· ∉ fixed.map (·.name))

variable {words : String} {fixed : List Api.Parameter} {said : List (String × Api.Parameter)}

theorem groupNote_ne_empty (words group : String) (p : Api.Parameter) :
    groupNote words group p ≠ "" := by
  unfold groupNote
  simp

theorem paragraphs_ne_empty {name : String} {m : MergedField}
    (h : merged? words fixed said name = some m) : ∀ text ∈ m.paragraphs, text ≠ "" := by
  have noted : ∀ text ∈ notes words said name, text ≠ "" := by
    intro text htext
    obtain ⟨⟨group, p⟩, -, rfl⟩ := List.mem_map.mp htext
    exact groupNote_ne_empty words group p
  unfold merged? at h
  split at h
  · rename_i p _
    cases h
    refine List.forall_mem_append.mpr ⟨fun text htext => ?_, noted⟩
    simpa using (List.mem_filter.mp htext).2
  · obtain ⟨entry, -, rfl⟩ := Option.map_eq_some_iff.mp h
    exact noted

/-! One more field of a group. -/

theorem notes_concat (group : String) (p : Api.Parameter) (name : String) :
    notes words (said ++ [(group, p)]) name =
      notes words said name ++ if p.name = name then [groupNote words group p] else [] := by
  by_cases same : p.name = name <;> simp [notes, List.filter_append, same]

theorem notes_eq_nil {name : String} (h : said.find? (·.2.name == name) = none) :
    notes words said name = [] := by
  simpa [notes, List.filter_eq_nil_iff] using h

theorem merged?_concat_of_ne {group name : String} {p : Api.Parameter} (other : p.name ≠ name) :
    merged? words fixed (said ++ [(group, p)]) name = merged? words fixed said name := by
  simp [merged?, notes_concat, other, List.find?_append]

/-- A field of a group is a note on a field that is there, and otherwise a new field. -/
theorem merged?_concat (group : String) (p : Api.Parameter) :
    merged? words fixed (said ++ [(group, p)]) p.name =
      match merged? words fixed said p.name with
      | some m => some { m with paragraphs := m.paragraphs ++ [groupNote words group p] }
      | none => some ⟨p.type, p.optional, [groupNote words group p]⟩ := by
  unfold merged?
  rw [notes_concat, if_pos rfl, List.find?_append]
  cases fixed.reverse.find? (·.name == p.name) with
  | some q => simp
  | none =>
    cases hsaid : said.find? (·.2.name == p.name) with
    | some entry => simp
    | none => simp [notes_eq_nil hsaid]

end TableField

/-- A merged field as it stands in the table of fields. -/
def MergedField.field (m : MergedField) : TableField :=
  ⟨m.type, "\n\n".intercalate m.paragraphs, m.optional⟩

namespace TableField

variable {words : String} {fixed : List Api.Parameter} {said : List (String × Api.Parameter)}

theorem get?_merge (group : String) (fields : NameMap TableField) (p : Api.Parameter)
    (name : String) : (merge words group fields p).get? name =
      if name = p.name then
        some (match fields.get? p.name with
          | some field => field.noted (groupNote words group p)
          | none => ⟨p.type, groupNote words group p, p.optional⟩)
      else fields.get? name := by
  unfold merge
  cases fields.get? p.name with
  | some field => exact NameMap.get?_put _ _ _ _
  | none => exact NameMap.get?_put _ _ _ _

theorem merge_eq_put (group : String) (fields : NameMap TableField) (p : Api.Parameter) :
    ∃ field, merge words group fields p = fields.put p.name field := by
  unfold merge
  cases fields.get? p.name with
  | some field => exact ⟨_, rfl⟩
  | none => exact ⟨_, rfl⟩

def mergeAll (words : String) (fixed : List Api.Parameter) (said : List (String × Api.Parameter)) :
    NameMap TableField :=
  said.foldl (fun fields entry => merge words entry.1 fields entry.2)
    (.ofList (fixed.map fun p => (p.name, .fixed p)))

theorem all_eq_mergeAll (words : String) (parameters : List Api.Parameter)
    (groups : List Api.Group) :
    all words parameters groups = mergeAll words (sortOn (·.order) parameters) (grouped groups) := by
  unfold all mergeAll grouped
  rw [List.foldl_flatMap]
  simp only [List.foldl_map]
  rfl

theorem keys_mergeAll : (mergeAll words fixed said).map (·.1) = mergedNames fixed said := by
  have keys := NameMap.keys_foldl (fun fields entry => @merge_eq_put words entry.1 fields entry.2) said
    (.ofList (fixed.map fun p => (p.name, TableField.fixed p)))
  have names : (fixed.map fun p => (p.name, TableField.fixed p)).map (·.1) = fixed.map (·.name) := by
    simp
  rw [NameMap.keys_ofList, names] at keys
  have seen : ∀ name, name ∈ distinct (fixed.map (·.name)) ↔ name ∈ fixed.map (·.name) ++ [] := by
    simp [mem_distinct_iff]
  rw [distinctAfter_congr seen, distinctAfter_append] at keys
  exact keys

theorem nodup_mergedNames (fixed : List Api.Parameter) (said : List (String × Api.Parameter)) :
    (mergedNames fixed said).Nodup := by
  refine List.nodup_append.mpr ⟨nodup_distinctAfter _ _, (nodup_distinctAfter _ _).filter _, ?_⟩
  rintro name hname _ hother rfl
  exact of_decide_eq_true (List.mem_filter.mp hother).2 (mem_distinct_iff.mp hname)

theorem field_noted {name : String} {m : MergedField}
    (h : merged? words fixed said name = some m) (note : String) :
    m.field.noted note = MergedField.field { m with paragraphs := m.paragraphs ++ [note] } := by
  unfold noted MergedField.field
  rw [framed_paragraphs (paragraphs_ne_empty h)]

theorem get?_mergeAll (name : String) :
    (mergeAll words fixed said).get? name = (merged? words fixed said name).map (·.field) := by
  induction said using List.reverseRecOn generalizing name with
  | nil =>
    have found : (fixed.map fun p => (p.name, TableField.fixed p)).reverse.find? (·.1 == name) =
        (fixed.reverse.find? (·.name == name)).map fun p => (p.name, TableField.fixed p) := by
      rw [← List.map_reverse, List.find?_map]
      rfl
    change (NameMap.putAll _ []).get? name = _
    rw [NameMap.get?_putAll, found]
    unfold merged?
    cases fixed.reverse.find? (·.name == name) with
    | none => rfl
    | some p =>
      have description : "\n\n".intercalate ([p.description].filter (!·.isEmpty)) = p.description := by
        by_cases hempty : p.description = "" <;> simp [hempty]
      simp [notes, MergedField.field, TableField.fixed, description, NameMap.get?]
  | append_singleton said entry ih =>
    obtain ⟨group, p⟩ := entry
    have step : mergeAll words fixed (said ++ [(group, p)]) =
        merge words group (mergeAll words fixed said) p := by
      unfold mergeAll
      rw [List.foldl_append]
      rfl
    rw [step, get?_merge]
    by_cases same : name = p.name
    · subst same
      rw [if_pos rfl, ih, merged?_concat]
      cases h : merged? words fixed said p.name with
      | some m => exact congrArg some (field_noted h _)
      | none => simp [MergedField.field]
    · rw [if_neg same, ih, merged?_concat_of_ne (Ne.symm same)]

end TableField

/-! Declarations. -/

/-- A field of a declaration: what it is, and its comment and its type as they are written. -/
structure WrittenField where
  name : String
  merged : MergedField
  comment : List Line
  type : String

def WrittenField.text (f : WrittenField) : String :=
  Line.renderAll f.comment ++ "---@field " ++ f.name ++ " " ++ f.type
    ++ (if f.merged.optional then "|nil" else "") ++ "\n"

/-- The types of fields are written in turn, each under the names of the table and of the field. -/
inductive WrittenInTurn (fieldType : FieldType) (table : Place) :
    List WrittenField → Backlog → Backlog → Prop
  | nil (b : Backlog) : WrittenInTurn fieldType table [] b b
  | cons {f : WrittenField} {rest : List WrittenField} {b b₁ b' : Backlog}
      (first : fieldType f.merged.type ⟨table.name ++ "." ++ f.name, table.link⟩ b = .ok (f.type, b₁))
      (others : WrittenInTurn fieldType table rest b₁ b') :
      WrittenInTurn fieldType table (f :: rest) b b'

/-- What is known of a field in a declaration, given its name and what it is. -/
structure WrittenField.Follows (manual : Manual) (link : String)
    (merged : String → Option MergedField) (f : WrittenField) : Prop where
  merged : merged f.name = some f.merged
  comment : manual.comment ("\n\n".intercalate (f.merged.paragraphs ++ [link])) = .ok f.comment

variable {manual : Manual} {fieldType : FieldType} {table : Place}

theorem writtenInTurn_of_declareField {merged : String → Option MergedField}
    {fields : NameMap TableField} {b b' : Backlog} {lines : List Line}
    (entries : ∀ entry ∈ fields, ∃ m : MergedField, merged entry.1 = some m ∧ entry.2 = m.field ∧
      ∀ text ∈ m.paragraphs, text ≠ "")
    (h : linesOf (declareField manual fieldType table) fields b = .ok (lines, b')) :
    ∃ written : List WrittenField, written.map (·.name) = fields.map (·.1) ∧
      Line.renderAll lines = String.join (written.map (·.text)) ∧
      (∀ f ∈ written, f.Follows manual table.link merged) ∧
      WrittenInTurn fieldType table written b b' := by
  induction fields generalizing b lines with
  | nil =>
    cases pure_eq_ok.mp h
    exact ⟨[], rfl, rfl, List.forall_mem_nil _, .nil _⟩
  | cons entry rest ih =>
    obtain ⟨name, field⟩ := entry
    obtain ⟨⟨m, hmerged, hfield, paragraphs⟩, others⟩ := List.forall_mem_cons.mp entries
    obtain ⟨own, b₁, hown, h⟩ := bind_eq_ok.mp h
    obtain ⟨later, b₂, hlater, h⟩ := bind_eq_ok.mp h
    cases pure_eq_ok.mp h
    obtain ⟨comment, hcomment, hown⟩ := lift_bind_eq_ok.mp hown
    obtain ⟨type, b₃, htype, hown⟩ := bind_eq_ok.mp hown
    cases pure_eq_ok.mp hown
    obtain ⟨written, names, text, follows, inTurn⟩ := ih others hlater
    subst hfield
    have hcomment : manual.comment ("\n\n".intercalate (m.paragraphs ++ [table.link])) = .ok comment := by
      rw [← framed_paragraphs paragraphs]
      exact hcomment
    refine ⟨⟨name, m, comment, type⟩ :: written, by simp [names], ?_,
      List.forall_mem_cons.mpr ⟨⟨hmerged, hcomment⟩, follows⟩, .cons htype inTurn⟩
    have mark : (if m.field.optional then "|nil" else "") = if m.optional then "|nil" else "" := rfl
    rw [Line.renderAll_append, Line.renderAll_append, text]
    simp [WrittenField.text, mark, Line.renderAll, Line.render, Line.text, String.append_assoc]

/-- The declaration of a table: its header, the line with its name, and its merged fields. A fixed
field comes from the last place of its name and stands where the name comes first; the groups add to
its comment, and the fields that only they have come behind. -/
theorem declareTable_merges (manual : Manual) (fieldType : FieldType) (table : Place)
    (header words : String) (parameters : List Api.Parameter) (groups : List Api.Group)
    (b : Backlog) (lines : List Line) (b' : Backlog)
    (h : declareTable manual fieldType table header (TableField.all words parameters groups) b
      = .ok (lines, b')) :
    ∃ (head : List Line) (fields : List WrittenField), manual.comment header = .ok head ∧
      Line.renderAll lines = Line.renderAll head ++ "---@class " ++ table.name ++ "\n"
        ++ String.join (fields.map (·.text)) ∧
      fields.map (·.name) = TableField.mergedNames (sortOn (·.order) parameters)
        (TableField.grouped groups) ∧
      (fields.map (·.name)).Nodup ∧
      (∀ f ∈ fields, f.Follows manual table.link
        (TableField.merged? words (sortOn (·.order) parameters) (TableField.grouped groups))) ∧
      WrittenInTurn fieldType table fields b b' := by
  obtain ⟨head, hhead, h⟩ := lift_bind_eq_ok.mp h
  obtain ⟨inside, b₁, hinside, h⟩ := bind_eq_ok.mp h
  cases pure_eq_ok.mp h
  rw [TableField.all_eq_mergeAll] at hinside
  generalize sortOn (·.order) parameters = fixed at hinside ⊢
  generalize TableField.grouped groups = said at hinside ⊢
  have keys := @TableField.keys_mergeAll words fixed said
  have nodup := TableField.nodup_mergedNames fixed said
  have entries : ∀ entry ∈ TableField.mergeAll words fixed said, ∃ m : MergedField,
      TableField.merged? words fixed said entry.1 = some m ∧ entry.2 = m.field ∧
        ∀ text ∈ m.paragraphs, text ≠ "" := by
    intro entry hentry
    have found := NameMap.get?_of_mem (keys ▸ nodup) hentry
    rw [TableField.get?_mergeAll] at found
    obtain ⟨m, hm, hfield⟩ := Option.map_eq_some_iff.mp found
    exact ⟨m, hm, hfield.symm, TableField.paragraphs_ne_empty hm⟩
  obtain ⟨fields, names, text, follows, inTurn⟩ := writtenInTurn_of_declareField entries hinside
  refine ⟨head, fields, hhead, ?_, names.trans keys, ?_, follows, inTurn⟩
  · rw [Line.renderAll_append, Line.renderAll, text]
    simp [Line.render, Line.text, String.append_assoc]
  · rw [names, keys]
    exact nodup

/-- Fixed fields of which one comes twice. -/
def commandFields : List Api.Parameter :=
  [⟨"speed", 1, "", .named "double", true⟩, ⟨"type", 0, "Type of command.", .named "string", true⟩,
    ⟨"type", 2, "Kind of command.", .named "CommandType", false⟩]

/-- Groups that share a field with each other and with the fixed fields. -/
def commandGroups : List Api.Group :=
  [⟨"go_to_location", 1, "", [⟨"distraction", 0, "What to do.", .named "string", true⟩,
      ⟨"speed", 1, "Walking speed.", .named "float", false⟩]⟩,
    ⟨"attack", 0, "", [⟨"target", 0, "", .named "string", false⟩,
      ⟨"speed", 1, "", .named "float", true⟩]⟩]

def commandManual : Manual :=
  ⟨.ofEntries ⟨[], [], [], [], [], []⟩ [], "https://lua-api.factorio.com/latest/"⟩

def commandText : String :=
  "---Manual\n---@class Command\n" ++
  "---Kind of command.\n---\n---Manual\n---@field type CommandType\n" ++
  "---Applies to **\"attack\"**: (optional)\n---\n" ++
  "---Applies to **\"go_to_location\"**: (required)  \n---Walking speed.\n---\n---Manual\n" ++
  "---@field speed double|nil\n" ++
  "---Applies to **\"attack\"**: (required)\n---\n---Manual\n---@field target string\n" ++
  "---Applies to **\"go_to_location\"**: (optional)  \n---What to do.\n---\n---Manual\n" ++
  "---@field distraction string|nil\n"

theorem declareTable_merges_command :
    ∃ (lines head : List Line) (b' : Backlog) (fields : List WrittenField),
      declareTable commandManual (commandManual.lower false) ⟨"Command", "Manual"⟩ "Manual"
        (TableField.all appliesTo commandFields commandGroups) .empty = .ok (lines, b') ∧
      Line.renderAll lines = commandText ∧
      commandText = Line.renderAll head ++ "---@class " ++ "Command" ++ "\n"
        ++ String.join (fields.map (·.text)) ∧
      fields.map (·.name) = ["type", "speed", "target", "distraction"] ∧
      WrittenInTurn (commandManual.lower false) ⟨"Command", "Manual"⟩ fields .empty b' := by
  have run : (declareTable commandManual (commandManual.lower false) ⟨"Command", "Manual"⟩ "Manual"
      (TableField.all appliesTo commandFields commandGroups) .empty).toOption.map
        (fun r => Line.renderAll r.1) = some commandText := by decide +kernel
  have names : TableField.mergedNames (sortOn (·.order) commandFields)
      (TableField.grouped commandGroups) = ["type", "speed", "target", "distraction"] := by
    decide +kernel
  obtain ⟨⟨lines, b'⟩, h, text⟩ := Outcome.exists_of_toOption run
  obtain ⟨head, fields, -, whole, merged, -, -, inTurn⟩ := declareTable_merges commandManual
    (commandManual.lower false) ⟨"Command", "Manual"⟩ "Manual" appliesTo commandFields
    commandGroups .empty lines b' h
  exact ⟨lines, head, b', fields, h, text, text.symm.trans whole, merged.trans names, inTurn⟩

end LuaStubs
