import LuaStubs.Proofs.Links.Comments
import LuaStubs.Proofs.Outcomes
import LuaStubs.Proofs.Vocabulary

/-! Links to pages of the manual. A page is a file with the extension `.html`, perhaps with an
anchor behind it, so that a link to it is left as a link to a page when texts are relinked. -/

namespace LuaStubs

open Markdown

/-- The characters that delimit links. -/
def linkMarks : List Char := ['[', ']', '(', ')']

def Unmarked (s : List Char) : Prop :=
  ∀ c ∈ s, c ∉ linkMarks

instance (s : List Char) : Decidable (Unmarked s) :=
  List.decidableBAll _ s

/-- A word that leaves the links of a text alone: prose may have parentheses, a name may not. -/
def Word.Linkable : Word → Prop
  | .name text => Unmarked text.toList
  | .reference text => Unmarked text.toList
  | .label text => '[' ∉ text.toList ∧ ']' ∉ text.toList
  | .prose text => '[' ∉ text.toList ∧ ']' ∉ text.toList

instance : DecidablePred Word.Linkable
  | .name text => inferInstanceAs (Decidable (Unmarked text.toList))
  | .reference text => inferInstanceAs (Decidable (Unmarked text.toList))
  | .label text => inferInstanceAs (Decidable ('[' ∉ text.toList ∧ ']' ∉ text.toList))
  | .prose text => inferInstanceAs (Decidable ('[' ∉ text.toList ∧ ']' ∉ text.toList))

theorem not_mem_of_linkMarks {s : List Char} (h : Unmarked s) {mark : Char}
    (hmark : mark ∈ linkMarks) : mark ∉ s :=
  fun hmem => h mark hmem hmark

/-! Pages. -/

theorem isPage_anchor (file anchor : List Char) :
    Manual.isPage (file ++ ".html#".toList ++ anchor) = true := by
  induction file with
  | nil => simp [Manual.isPage, Manual.startsWith, List.isPrefixOf]
  | cons c file ih =>
    rw [List.cons_append, List.cons_append, Manual.isPage, ih, Bool.or_true]

theorem isPage_file (file : List Char) : Manual.isPage (file ++ ".html".toList) = true := by
  induction file with
  | nil => decide
  | cons c file ih => rw [List.cons_append, Manual.isPage, ih, Bool.or_true]

/-- A file of the manual, perhaps with an anchor. -/
structure PageForm (page : List Char) : Prop where
  form : ∃ file anchor, page = file ++ ".html".toList ++ anchor ∧ ')' ∉ file ∧
    (anchor = [] ∨ anchor.head? = some '#')
  /-- A bracket stands at the end, if at all. -/
  bracket : ']' ∉ page.dropLast

theorem not_mem_dropLast_append {s t : List Char} {mark : Char} (hs : mark ∉ s)
    (ht : mark ∉ t.dropLast) : mark ∉ (s ++ t).dropLast := by
  cases t with
  | nil =>
    rw [List.append_nil]
    exact fun h => hs (List.dropLast_subset _ h)
  | cons c t =>
    rw [List.dropLast_append_of_ne_nil (by simp)]
    exact fun h => (List.mem_append.mp h).elim hs ht

theorem not_mem_dropLast_of_append {s t : List Char} {mark : Char} (h : mark ∉ (s ++ t).dropLast) :
    mark ∉ t.dropLast := by
  cases t with
  | nil => simp
  | cons c t =>
    rw [List.dropLast_append_of_ne_nil (by simp)] at h
    exact fun hmem => h (List.mem_append_right _ hmem)

theorem not_mem_of_append_cons {s t : List Char} {mark c : Char}
    (h : mark ∉ (s ++ c :: t).dropLast) : mark ∉ s := by
  rw [List.dropLast_append_of_ne_nil (by simp)] at h
  exact fun hmem => h (List.mem_append_left _ hmem)

theorem pageForm_anchor {file anchor : List Char} (hparen : ')' ∉ file) (hbracket : ']' ∉ file)
    (hanchor : ']' ∉ anchor.dropLast) : PageForm (file ++ ".html#".toList ++ anchor) := by
  refine ⟨⟨file, '#' :: anchor, by simp, hparen, .inr rfl⟩, ?_⟩
  exact not_mem_dropLast_append (by simp [hbracket]) hanchor

theorem pageForm_file {file : List Char} (hparen : ')' ∉ file) (hbracket : ']' ∉ file) :
    PageForm (file ++ ".html".toList) := by
  refine ⟨⟨file, [], by simp, hparen, .inl rfl⟩, fun h => ?_⟩
  have hmem := List.dropLast_subset _ h
  simp [hbracket] at hmem

/-- The names of classes are linkable, since they name files. -/
def Catalog.FilesNamed (catalog : Catalog) : Prop :=
  ∀ name, catalog.classes.has name = true → Unmarked name.toList

namespace Catalog

variable {catalog : Catalog}

theorem ownerPage?_cases {owner file : String} (h : catalog.ownerPage? owner = some file) :
    catalog.classes.has owner = true ∧ file = owner ∨
      catalog.concepts.has owner = true ∧ file = "Concepts" := by
  unfold ownerPage? at h
  split at h
  · rename_i hclass
    cases h
    exact .inl ⟨hclass, rfl⟩
  · split at h
    · rename_i hconcept
      cases h
      exact .inr ⟨hconcept, rfl⟩
    · cases h

theorem ownerPage?_linkable (named : catalog.FilesNamed) {owner file : String}
    (h : catalog.ownerPage? owner = some file) : ')' ∉ file.toList ∧ ']' ∉ file.toList := by
  rcases ownerPage?_cases h with ⟨hclass, rfl⟩ | ⟨-, rfl⟩
  · have marks := named file hclass
    exact ⟨not_mem_of_linkMarks marks (by decide), not_mem_of_linkMarks marks (by decide)⟩
  · decide

/-- The pages that references have, by what is known of the reference. -/
inductive Found (catalog : Catalog) : String → String → Prop where
  | builtin {reference : String} : catalog.builtins.has reference = true →
    Found catalog reference ("Builtin-Types.html#" ++ reference)
  | file {reference : String} : catalog.classes.has reference = true →
    Found catalog reference (reference ++ ".html")
  | event {reference : String} : catalog.events.has reference = true →
    Found catalog reference ("events.html#" ++ reference)
  | constant {reference : String} : reference ∈ catalog.paths →
    Found catalog reference ("defines.html#" ++ reference)
  | member {owner member file : String} : catalog.ownerPage? owner = some file →
    Found catalog (owner ++ "::" ++ member) (file ++ ".html#" ++ owner ++ "." ++ member)
  | filters {reference : String} : "Lua".toList.isPrefixOf reference.toList = true →
    Found catalog reference ("Event-Filters.html#" ++ reference)
  | concept {reference : String} : catalog.concepts.has reference = true →
    Found catalog reference ("Concepts.html#" ++ reference)

theorem found_of_page? {reference page : String} (h : catalog.page? reference = some page) :
    catalog.Found reference page := by
  unfold page? at h
  split at h
  · rename_i hbuiltin
    cases h
    exact .builtin hbuiltin
  · split at h
    · rename_i hclass
      cases h
      exact .file hclass
    · split at h
      · rename_i hevent
        cases h
        exact .event hevent
      · split at h
        · rename_i hpath
          cases h
          exact .constant (List.contains_iff_mem.mp hpath)
        · split at h
          · rename_i owner member hsplit
            obtain ⟨file, hfile, rfl⟩ := Option.map_eq_some_iff.mp h
            have hreference : reference = String.ofList owner ++ "::" ++ String.ofList member := by
              rw [← String.toList_inj, eq_of_splitAtMark hsplit]
              simp
            rw [hreference]
            exact .member hfile
          · split at h
            · rename_i hfilters
              cases h
              exact .filters (Bool.and_eq_true_iff.mp hfilters).2
            · split at h
              · rename_i hconcept
                cases h
                exact .concept hconcept
              · cases h

/-- Each reference leads to a file of the manual. -/
theorem pageForm_of_page? (named : catalog.FilesNamed) {reference page : String}
    (hreference : ']' ∉ reference.toList.dropLast) (h : catalog.page? reference = some page) :
    PageForm page.toList := by
  have anchored (file : List Char) (hparen : ')' ∉ file) (hbracket : ']' ∉ file) :
      PageForm (file ++ ".html#".toList ++ reference.toList) :=
    pageForm_anchor hparen hbracket hreference
  cases found_of_page? h with
  | builtin _ => simpa using anchored "Builtin-Types".toList (by decide) (by decide)
  | file hclass =>
    have marks := named reference hclass
    simpa using pageForm_file (not_mem_of_linkMarks marks (by decide))
      (not_mem_of_linkMarks marks (by decide))
  | event _ => simpa using anchored "events".toList (by decide) (by decide)
  | constant _ => simpa using anchored "defines".toList (by decide) (by decide)
  | @member owner member file hfile =>
    rw [String.toList_append, String.toList_append, List.append_assoc] at hreference
    have howner : ']' ∉ owner.toList := not_mem_of_append_cons hreference
    have hmember : ']' ∉ member.toList.dropLast :=
      not_mem_dropLast_of_append (not_mem_dropLast_of_append hreference)
    obtain ⟨hparen, hbracket⟩ := ownerPage?_linkable named hfile
    have anchor : ']' ∉ (owner.toList ++ ('.' :: member.toList)).dropLast :=
      not_mem_dropLast_append howner (@not_mem_dropLast_append ['.'] _ _ (by simp) hmember)
    simpa using pageForm_anchor hparen hbracket anchor
  | filters _ => simpa using anchored "Event-Filters".toList (by decide) (by decide)
  | concept _ => simpa using anchored "Concepts".toList (by decide) (by decide)

end Catalog

theorem noJoint_of_not_mem_dropLast {s : List Char} (h : ']' ∉ s.dropLast) : NoJoint s := by
  rintro before after rfl
  rw [List.dropLast_append_of_ne_nil (by simp)] at h
  simp at h

/-- A link whose target leads somewhere, whatever follows the link. -/
theorem settled_link {shown url : List Char} (hshown : ']' ∉ shown) (hurl : ']' ∉ url.dropLast)
    (leads : ∀ more target rest, lineTo? [')'] (url ++ ')' :: more) = some (target, rest) →
      Leads target) :
    Settled (('[' :: shown) ++ (']' :: '(' :: (url ++ [')']))) := by
  have inside : NoJoint ('(' :: (url ++ [')'])) := by
    have hclose := noJoint_append (noJoint_of_not_mem_dropLast hurl) (@noJoint_of_not_mem [')'] (by simp))
      (.inr (by simp))
    exact noJoint_append (@noJoint_of_not_mem ['('] (by simp)) hclose (.inl (by simp))
  intro before after h more target rest hline
  rcases joint_of_append h with ⟨mid, hmid, _⟩ | ⟨mid, _, hmid⟩ | ⟨hlast, _⟩
  · have hmem : ']' ∈ '[' :: shown := by simp [hmid]
    simp [hshown] at hmem
  · cases mid with
    | nil =>
      have hafter : after = url ++ [')'] := (List.cons.inj (List.cons.inj hmid).2).2.symm
      rw [hafter, List.append_assoc] at hline
      exact leads more target rest hline
    | cons c mid => exact absurd (List.cons.inj hmid).2 (inside mid after)
  · have hmem : ']' ∈ '[' :: shown := List.mem_of_getLast? hlast
    simp [hshown] at hmem

theorem leads_of_pageForm {base page more target rest : List Char} (hbase : ')' ∉ base)
    (form : PageForm page)
    (hline : lineTo? [')'] (base ++ page ++ ')' :: more) = some (target, rest)) : Leads target := by
  obtain ⟨file, anchor, rfl, hfile, hanchor⟩ := form.form
  obtain ⟨hs, -, -, htail⟩ := lineTo?_char_eq_some.mp hline
  have hfront : ')' ∉ base ++ file ++ ".html".toList := by simp [hbase, hfile]
  have hs' : (base ++ file ++ ".html".toList) ++ (anchor ++ ')' :: more) = target ++ ')' :: rest := by
    rw [← hs]
    simp
  -- The link ends behind the file, where at most an anchor stands, or inside it, where no parenthesis is.
  rcases List.append_eq_append_iff.mp hs' with ⟨behind, htarget, hrest⟩ | ⟨front, htarget, hrest⟩
  · cases anchor with
    | nil =>
      cases behind with
      | nil =>
        rw [htarget, List.append_nil]
        exact .inr (isPage_file (base ++ file))
      | cons c behind =>
        have hc : ')' = c := (List.cons.inj hrest).1
        have hmem : ')' ∈ target.tail := by
          rw [htarget, ← hc, List.tail_append_of_ne_nil (by simp)]
          simp
        exact absurd hmem htail
    | cons d anchor =>
      have hd : d = '#' := by simpa using hanchor
      cases behind with
      | nil => exact absurd ((List.cons.inj hrest).1.symm.trans hd) (by decide)
      | cons c behind =>
        have hc : c = '#' := (List.cons.inj hrest).1.symm.trans hd
        have hpage := isPage_anchor (base ++ file) behind
        apply Or.inr
        rw [htarget, hc]
        simpa using hpage
  · cases front with
    | nil =>
      have htarget' : target = base ++ file ++ ".html".toList := by rw [htarget, List.append_nil]
      rw [htarget']
      exact .inr (isPage_file (base ++ file))
    | cons c front =>
      have hc : ')' = c := (List.cons.inj hrest).1
      rw [htarget, ← hc] at hfront
      simp at hfront

namespace Manual

/-- A manual whose links are not taken apart: no mark in its address or in the name of a file. -/
structure Linkable (manual : Manual) : Prop where
  base : Unmarked manual.baseUrl.toList
  files : manual.catalog.FilesNamed

variable {manual : Manual}

theorem page_eq_ok {reference page : String} :
    manual.page reference = .ok page ↔ manual.catalog.page? reference = some page := by
  unfold Manual.page
  cases manual.catalog.page? reference <;> simp

theorem url_eq_ok {reference url : String} :
    manual.url reference = .ok url ↔
      ∃ page, manual.catalog.page? reference = some page ∧ url = manual.baseUrl ++ page := by
  unfold Manual.url
  simp only [Outcome.bind_eq_ok, Outcome.pure_eq_ok, page_eq_ok]

theorem link_eq_ok {reference shown text : String} (h : manual.link reference shown = .ok text) :
    ∃ page, manual.catalog.page? reference = some page ∧
      text = "[" ++ shown ++ "](" ++ (manual.baseUrl ++ page) ++ ")" := by
  obtain ⟨url, hurl, htext⟩ := Outcome.bind_eq_ok.mp h
  obtain ⟨page, hpage, rfl⟩ := url_eq_ok.mp hurl
  exact ⟨page, hpage, Outcome.pure_eq_ok.mp htext⟩

theorem settled_of_link (linkable : manual.Linkable) {reference shown text : String}
    (hreference : ']' ∉ reference.toList.dropLast) (hshown : ']' ∉ shown.toList)
    (h : manual.link reference shown = .ok text) : Settled text.toList := by
  have hbase {mark : Char} (hmark : mark ∈ linkMarks) : mark ∉ manual.baseUrl.toList :=
    not_mem_of_linkMarks linkable.base hmark
  obtain ⟨page, hpage, rfl⟩ := link_eq_ok h
  have form := Catalog.pageForm_of_page? linkable.files hreference hpage
  have hurl : ']' ∉ (manual.baseUrl.toList ++ page.toList).dropLast :=
    not_mem_dropLast_append (hbase (by decide)) form.bracket
  have settled := settled_link hshown hurl fun more target rest hline =>
    leads_of_pageForm (hbase (by decide)) form hline
  simpa using settled

end Manual

end LuaStubs
