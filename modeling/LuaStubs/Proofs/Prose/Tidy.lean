import LuaStubs.Proofs.Prose.Prepared
import LuaStubs.Proofs.Vocabulary
import LuaStubs.Stub.Concepts

/-! Tidy words, and the texts that are made of them for comments: no line of these begins with the
mark of an annotation. -/

namespace LuaStubs

open Text

/-- Names are on one line, and no line of a documentation text begins with the mark of an annotation. -/
def Word.Tidy : Word → Prop
  | .name text => '\n' ∉ text.toList
  | .label text => '\n' ∉ text.toList
  | .prose text => ∀ line ∈ Text.lines text.toList, line.head? ≠ some '@'
  | .reference text => ∀ line ∈ Text.lines text.toList, line.head? ≠ some '@'

instance : DecidablePred Word.Tidy
  | .name text => inferInstanceAs (Decidable ('\n' ∉ text.toList))
  | .label text => inferInstanceAs (Decidable ('\n' ∉ text.toList))
  | .prose text =>
    inferInstanceAs (Decidable (∀ line ∈ Text.lines text.toList, line.head? ≠ some '@'))
  | .reference text =>
    inferInstanceAs (Decidable (∀ line ∈ Text.lines text.toList, line.head? ≠ some '@'))

theorem Word.Tidy.quiet {text : String} (h : (Word.prose text).Tidy) : Quiet true text.toList :=
  quiet_iff_lines.mpr h

/-- A description of tidy words, and the address of its manual on one line. -/
structure Api.Document.Tidy (document : Document) (baseUrl : String) : Prop where
  words : ∀ word ∈ document.words, word.Tidy
  base : '\n' ∉ baseUrl.toList

namespace Manual

variable {manual : Manual} (base : '\n' ∉ manual.baseUrl.toList)
include base

theorem quiet_references {names : List String} (hnames : ∀ name ∈ names, Quiet true name.toList)
    {entries : List String} (h : manual.references names = .ok entries) :
    ∀ entry ∈ entries, Quiet true entry.toList := by
  induction names generalizing entries with
  | nil =>
    cases h
    simp
  | cons name rest ih =>
    obtain ⟨hname, hrest⟩ := List.forall_mem_cons.mp hnames
    rw [references] at h
    obtain ⟨link, hlink, h⟩ := Outcome.bind_eq_ok.mp h
    obtain ⟨others, hothers, h⟩ := Outcome.bind_eq_ok.mp h
    cases h
    have hentry : Quiet true ("- " ++ link).toList :=
      joins_quiet.join (by decide) (quiet_link base hname.inside hname.inside hlink)
    exact List.forall_mem_cons.mpr ⟨hentry, ih hrest hothers⟩

theorem quiet_seeAlso {names : List String} (hnames : ∀ name ∈ names, Quiet true name.toList)
    {text : String} (h : manual.seeAlso names = .ok text) : Quiet true text.toList := by
  unfold seeAlso at h
  split at h
  · cases h
    trivial
  · obtain ⟨entries, hentries, rfl⟩ := Outcome.map_eq_ok.mp h
    apply joins_quiet.join (by decide)
    exact joins_quiet.intercalate (by decide) (quiet_references base hnames hentries)

theorem quiet_overview {doc : Api.Documentation} (words : ∀ word ∈ doc.words, word.Tidy)
    {link description text : String} (hlink : Quiet true link.toList)
    (hdescription : Quiet true description.toList)
    (h : manual.overview doc link description = .ok text) : Quiet true text.toList := by
  have prose {text : String} (h : text ∈ doc.notes ++ doc.examples ++ doc.subclasses) :
      Quiet true text.toList := by
    have hword : Word.prose text ∈ doc.words :=
      List.mem_cons_of_mem _ (List.mem_append_left _ (List.mem_map_of_mem h))
    exact quiet_iff_lines.mpr (words _ hword)
  have references (name : String) (h : name ∈ doc.seeAlso) : Quiet true name.toList := by
    have hword : Word.reference name ∈ doc.words :=
      List.mem_cons_of_mem _ (List.mem_append_right _ (List.mem_map_of_mem h))
    exact quiet_iff_lines.mpr (words _ hword)
  have labelled (label : String) (hlabel : Quiet true label.toList) (texts : List String)
      (htexts : ∀ text ∈ texts, Quiet true text.toList) :
      Quiet true ("\n\n".intercalate (texts.map (label ++ ·))).toList := by
    apply joins_quiet.intercalate (by decide)
    intro part hpart
    obtain ⟨text, htext, rfl⟩ := List.mem_map.mp hpart
    exact joins_quiet.join hlabel (htexts text htext)
  unfold overview at h
  obtain ⟨seeAlso, hseeAlso, h⟩ := Outcome.bind_eq_ok.mp h
  cases h
  apply joins_quiet.paragraphs (by decide)
  simp only [List.mem_cons, List.not_mem_nil, or_false, forall_eq_or_imp, forall_eq]
  refine ⟨hdescription, ?_, hlink, ?_, ?_, quiet_seeAlso base references hseeAlso⟩
  · exact labelled "**Note:** " (by decide) doc.notes fun note hnote => prose (by simp [hnote])
  · exact labelled "### Example\n" (by decide) doc.examples
      fun sample hsample => prose (by simp [hsample])
  · split
    · decide
    · have hnames : ∀ name ∈ doc.subclasses, Quiet true name.toList :=
        fun name hname => prose (by simp [hname])
      have hlist := joins_quiet.orList (by decide) (by decide) hnames
      exact joins_quiet.join (joins_quiet.join (by decide) hlist) (by decide)

end Manual

theorem quiet_below {description text : String} (hdescription : Quiet true description.toList)
    (htext : Quiet true text.toList) : Quiet true (Text.framed "" description "\n\n" ++ text).toList :=
  joins_quiet.join (joins_quiet.framed (by decide) hdescription (by decide)) htext

theorem quiet_groupNote {words group : String} (hwords : words = appliesTo ∨ words = appliesToFilter)
    (hgroup : '\n' ∉ group.toList) {p : Api.Parameter} (hp : Quiet true p.description.toList) :
    Quiet true (TableField.groupNote words group p).toList := by
  have hstart : Quiet true (words ++ " **\"").toList ∧
      atStartAfter true (words ++ " **\"").toList = false := by
    rcases hwords with rfl | rfl <;> decide
  have hfront : Quiet true (words ++ " **\"" ++ group).toList :=
    quiet_after hstart.1 hstart.2 (quiet_of_not_mem hgroup)
  have hmark : Quiet true (if p.optional then "(optional)" else "(required)").toList := by
    split <;> decide
  unfold TableField.groupNote
  apply joins_quiet.join
  · exact joins_quiet.join (joins_quiet.join hfront (by decide)) hmark
  · exact joins_quiet.framed (by decide) hp (by decide)

theorem quiet_access {a : Api.Attribute} (h : Quiet true a.doc.description.toList) :
    Quiet true (Manual.access a).toList := by
  have hfront : Quiet true
      ("[" ++ (if a.readable then "R" else "") ++ (if a.writable then "W" else "") ++ "]").toList := by
    cases a.readable <;> cases a.writable <;> decide
  exact joins_quiet.join hfront (joins_quiet.framed (by decide) h (by decide))

theorem quiet_varargNote {description : String} (hdescription : Quiet true description.toList) :
    Quiet true (Manual.varargNote description).toList := by
  have hbreak : Quiet true (if description.toList.contains '\n' then "\n\n" else "").toList := by
    split <;> decide
  exact joins_quiet.join (joins_quiet.join (by decide) hbreak) hdescription

theorem quiet_classDescription {manual : Manual} {name : String} {doc : Api.Documentation}
    (globals : ∀ global, manual.catalog.globals.get? name = some global →
      Quiet true global.description.toList)
    (hdescription : Quiet true doc.description.toList) :
    Quiet true (manual.classDescription name doc).toList := by
  unfold Manual.classDescription
  cases hglobal : manual.catalog.globals.get? name with
  | none => exact hdescription
  | some global =>
    have hbreak : Quiet true (if doc.description.isEmpty && doc.notes.isEmpty then "\n\n"
        else "\n\n**Class Description:**\n").toList := by
      split <;> decide
    change Quiet true (if global.description.isEmpty then doc.description
      else "**Global Description:**\n" ++ global.description ++ _ ++ doc.description).toList
    split
    · exact hdescription
    · have hglobals := globals global hglobal
      exact joins_quiet.join (joins_quiet.join (joins_quiet.join (by decide) hglobals) hbreak)
        hdescription

theorem quiet_unionEntry {choice : Api.Choice} (hname : '\n' ∉ choice.name.toList)
    (hdescription : Quiet true choice.description.toList) :
    Quiet true (Manual.unionEntry choice).toList := by
  have hfront : Quiet true ("\n- \"" ++ choice.name).toList :=
    quiet_after (by decide) (by decide) (quiet_of_not_mem hname)
  exact joins_quiet.join (joins_quiet.join hfront (by decide))
    (joins_quiet.framed (by decide) hdescription (by decide))

theorem quiet_trimEnd {text : String} (h : Quiet true text.toList) :
    Quiet true (Text.trimEnd text).toList := by
  obtain ⟨dropped, hdropped⟩ := List.dropWhile_suffix Text.isSpace (l := text.toList.reverse)
  have hwhole : text.toList = (Text.trimEnd text).toList ++ dropped.reverse := by
    rw [Text.trimEnd, String.toList_ofList, ← List.reverse_append, hdropped, List.reverse_reverse]
  rw [hwhole] at h
  exact (quiet_append.mp h).1

end LuaStubs
