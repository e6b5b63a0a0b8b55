import LuaStubs.Proofs.Links.Relinked
import LuaStubs.Proofs.Links.Shown

/-! What a link to the manual has become when it reaches the output. A link is built with the
address of the manual, and preparing the comment it stands in takes any target that is not on the
web for a page of the manual. So the address stands before the page once if it is one on the web,
and otherwise twice. -/

namespace LuaStubs

open Markdown Text

/-- What cannot stand in a text that is on one line and has no part of a link or a fence. -/
def inlineMarks : List Char := ['(', ')', '[', ']', '\n', '`']

def Inert (s : List Char) : Prop :=
  ∀ c ∈ s, c ∉ inlineMarks

instance (s : List Char) : Decidable (Inert s) :=
  List.decidableBAll _ s

theorem Inert.not_mem {s : List Char} (h : Inert s) {mark : Char} (hmark : mark ∈ inlineMarks) :
    mark ∉ s :=
  fun hmem => h mark hmem hmark

theorem joins_inert : Joins Inert where
  nil := List.forall_mem_nil _
  append _ _ hs ht := List.forall_mem_append.mpr ⟨hs, ht⟩

namespace Catalog

variable {catalog : Catalog} {reference page : String}

theorem inert_page? (hreference : Inert reference.toList)
    (h : catalog.page? reference = some page) : Inert page.toList := by
  have hparts : ∀ part ∈ pageParts, Inert part.toList := by decide
  exact fun c hc hmark => not_mem_page? (fun part hpart => (hparts part hpart).not_mem hmark)
    (hreference.not_mem hmark) h hc

theorem isPage_page? (h : catalog.page? reference = some page) (base : List Char) :
    Manual.isPage (base ++ page.toList) = true := by
  have anchored (file anchor : List Char) (hpage : page.toList = file ++ ".html#".toList ++ anchor) :
      Manual.isPage (base ++ page.toList) = true := by
    have hform := isPage_anchor (base ++ file) anchor
    rw [hpage]
    simpa using hform
  rcases page?_cases h with ⟨front, hfront, rfl⟩ | ⟨-, rfl⟩ | ⟨owner, member, file, -, -, rfl⟩
  · have hform : ∀ front ∈ ["Builtin-Types.html#", "events.html#", "defines.html#",
        "Event-Filters.html#", "Concepts.html#"],
        front.toList = front.toList.take (front.toList.length - 6) ++ ".html#".toList := by decide
    refine anchored (front.toList.take (front.toList.length - 6)) reference.toList ?_
    rw [← hform front hfront, String.toList_append]
  · rw [String.toList_append, ← List.append_assoc]
    exact isPage_file _
  · exact anchored file.toList (owner ++ '.' :: member) (by simp)

end Catalog

namespace Manual

variable {manual : Manual}

theorem isAbsolute_append {s : List Char} (h : isAbsolute s = true) (t : List Char) :
    isAbsolute (s ++ t) = true := by
  have longer {start : String} (hstart : startsWith start s = true) :
      startsWith start (s ++ t) = true := by
    have begins := List.isPrefixOf_iff_prefix.mp hstart
    exact List.isPrefixOf_iff_prefix.mpr (begins.trans (List.prefix_append s t))
  rcases Bool.or_eq_true_iff.mp h with h | h
  · exact Bool.or_eq_true_iff.mpr (.inl (longer h))
  · exact Bool.or_eq_true_iff.mpr (.inr (longer h))

/-- The address that a link to a page leads to when it has been through a comment. -/
def reached (manual : Manual) (shown page : String) : String :=
  if shown = "" ∨ isAbsolute (manual.baseUrl ++ page).toList then manual.baseUrl ++ page
  else manual.baseUrl ++ (manual.baseUrl ++ page)

def reachedLink (manual : Manual) (shown page : String) : String :=
  "[" ++ shown ++ "](" ++ manual.reached shown page ++ ")"

theorem reached_eq_iff (shown page : String) :
    manual.reached shown page = manual.baseUrl ++ page ↔
      shown = "" ∨ manual.baseUrl = "" ∨ isAbsolute (manual.baseUrl ++ page).toList = true := by
  unfold reached
  by_cases h : shown = "" ∨ isAbsolute (manual.baseUrl ++ page).toList = true
  · rw [if_pos h]
    grind
  · rw [if_neg h]
    obtain ⟨hshown, habsolute⟩ := not_or.mp h
    constructor
    · intro same
      have hempty : manual.baseUrl.toList = [] := by simpa using congrArg String.toList same
      exact .inr (.inl (String.toList_eq_nil_iff.mp hempty))
    · rintro (h | h | h)
      · exact absurd h hshown
      · rw [h, String.empty_append]
      · exact absurd h habsolute

variable {reference shown page : String}

theorem reached_of_absolute (h : isAbsolute manual.baseUrl.toList = true) :
    manual.reached shown page = manual.baseUrl ++ page := by
  refine (reached_eq_iff shown page).mpr (.inr (.inr ?_))
  rw [String.toList_append]
  exact isAbsolute_append h _

theorem link_of_page (h : manual.catalog.page? reference = some page) (shown : String) :
    manual.link reference shown = .ok (manual.builtLink shown page) := by
  simp only [link, url, Manual.page, h]
  rfl

theorem relinked_page (h : manual.catalog.page? reference = some page) (hshown : shown ≠ "") :
    manual.relinked shown.toList (manual.baseUrl ++ page).toList
      = .ok (manual.reachedLink shown page).toList := by
  unfold relinked reachedLink reached
  by_cases habsolute : isAbsolute (manual.baseUrl ++ page).toList = true
  · rw [if_pos habsolute, if_pos (.inr habsolute)]
    simp [Piece.text]
  · have hpage := Catalog.isPage_page? h manual.baseUrl.toList
    rw [← String.toList_append] at hpage
    rw [if_neg habsolute, if_pos hpage, if_neg (not_or.mpr ⟨hshown, habsolute⟩)]
    simp [Piece.text]

/-! A link in front of a text. -/

section

variable (base : Inert manual.baseUrl.toList)
include base

theorem inert_url (hreference : Inert reference.toList)
    (h : manual.catalog.page? reference = some page) : Inert (manual.baseUrl ++ page).toList :=
  joins_inert.join base (Catalog.inert_page? hreference h)

theorem relink_page (hreference : Inert reference.toList) (hshown : Inert shown.toList)
    (h : manual.catalog.page? reference = some page) (hne : shown ≠ "") (rest : List Char) :
    manual.relink ((manual.builtLink shown page).toList ++ rest)
      = (manual.relink rest).map ((manual.reachedLink shown page).toList ++ ·) := by
  have hurl := inert_url base hreference h
  have hdisplay : shown.toList ≠ [] := by simpa using hne
  have htarget : (manual.baseUrl ++ page).toList ≠ [] := by
    intro hempty
    have hpage := Catalog.isPage_page? h manual.baseUrl.toList
    rw [← String.toList_append, hempty] at hpage
    cases hpage
  have hrelink := relink_link hdisplay htarget (hshown.not_mem (by decide)) (hurl.not_mem (by decide))
    (hshown.not_mem (by decide)) (hurl.not_mem (by decide)) rest (relinked_page h hne)
  simpa [Piece.text, builtLink] using hrelink

omit base in
/-- A link that shows nothing is none. -/
theorem relink_unnamed {url tail : List Char} (hurl : Inert url) (ends : LineEnd tail) :
    manual.relink ("[](".toList ++ (url ++ ')' :: tail))
      = (manual.relink tail).map (("[](".toList ++ (url ++ [')'])) ++ ·) := by
  have closed : ']' ∉ '(' :: (url ++ [')']) := by
    have hbracket : ']' ∉ url := hurl.not_mem (by decide)
    simp [hbracket]
  have hopen : '[' ∉ "](".toList ++ (url ++ [')']) := by
    have hbracket : '[' ∉ url := hurl.not_mem (by decide)
    simp [hbracket]
  obtain ⟨gap, rest, rfl, hgap, hrest⟩ :
      ∃ gap rest, tail = gap ++ rest ∧ ']' ∉ gap ∧ (rest = [] ∨ rest.head? = some '\n') := by
    rcases ends with rfl | ⟨more, rfl⟩
    · exact ⟨[], [], rfl, by simp, .inl rfl⟩
    · exact ⟨[' ', ' '], '\n' :: more, rfl, by decide, .inr rfl⟩
  have hline : ']' ∉ '(' :: (url ++ [')']) ++ gap := by
    simpa [List.mem_append, not_or] using ⟨by simpa using closed, hgap⟩
  have hnone : link? (']' :: ('(' :: (url ++ [')']) ++ gap ++ rest)) = none := by
    have hopening := lineTo?_eq_none (by decide) ['('] hline hrest ']'
    rw [link?, hopening]
    rfl
  calc manual.relink ("[](".toList ++ (url ++ ')' :: (gap ++ rest)))
      = manual.relink ('[' :: (']' :: ('(' :: (url ++ [')']) ++ gap ++ rest))) := by simp
    _ = (manual.relink (("](".toList ++ (url ++ [')'])) ++ (gap ++ rest))).map ('[' :: ·) := by
      rw [relink_bracket hnone]
      simp
    _ = (manual.relink (gap ++ rest)).map (("[](".toList ++ (url ++ [')'])) ++ ·) := by
      rw [relink_append hopen]
      cases manual.relink (gap ++ rest) <;> rfl

theorem relink_page_ends (hreference : Inert reference.toList) (hshown : Inert shown.toList)
    (h : manual.catalog.page? reference = some page) {tail : List Char} (ends : LineEnd tail) :
    manual.relink ((manual.builtLink shown page).toList ++ tail)
      = (manual.relink tail).map ((manual.reachedLink shown page).toList ++ ·) := by
  by_cases hne : shown = ""
  · subst hne
    have hrelink := manual.relink_unnamed (inert_url base hreference h) ends
    simpa [builtLink, reachedLink, reached] using hrelink
  · exact relink_page base hreference hshown h hne tail

theorem not_mem_builtLink (hreference : Inert reference.toList) (hshown : Inert shown.toList)
    (h : manual.catalog.page? reference = some page) {mark : Char} (hmark : mark = '\n' ∨ mark = '`') :
    mark ∉ (manual.builtLink shown page).toList ∧
      mark ∉ (manual.reachedLink shown page).toList := by
  have inline : mark ∈ inlineMarks := by
    rcases hmark with rfl | rfl
    · decide
    · decide
  have hbase := base.not_mem inline
  have hpage := (Catalog.inert_page? hreference h).not_mem inline
  have hclear := hshown.not_mem inline
  have hother : mark ≠ '[' ∧ mark ≠ ']' ∧ mark ≠ '(' ∧ mark ≠ ')' := by
    rcases hmark with rfl | rfl
    · decide
    · decide
  unfold builtLink reachedLink reached
  split
  · simp [hbase, hpage, hclear, hother]
  · simp [hbase, hpage, hclear, hother]

theorem relinks_page {before : String} (hbefore : Inert before.toList)
    (hreference : Inert reference.toList) (hshown : Inert shown.toList)
    (h : manual.catalog.page? reference = some page) :
    manual.Relinks (before ++ (manual.builtLink shown page))
      (before ++ manual.reachedLink shown page) where
  ne := by
    intro hempty
    simpa [builtLink] using congrArg String.toList hempty
  line := by
    have hline := not_mem_builtLink base hreference hshown h (.inl rfl)
    exact (joins_not_mem _).join (hbefore.not_mem (by decide)) hline.1
  tick := by
    have htick := not_mem_builtLink base hreference hshown h (.inr rfl)
    exact (joins_not_mem _).join (hbefore.not_mem (by decide)) htick.1
  outLine := by
    have hline := not_mem_builtLink base hreference hshown h (.inl rfl)
    exact (joins_not_mem _).join (hbefore.not_mem (by decide)) hline.2
  relink tail ends := by
    rw [String.toList_append, List.append_assoc, relink_append (hbefore.not_mem (by decide)),
      relink_page_ends base hreference hshown h ends]
    cases manual.relink tail with
    | error e => rfl
    | ok out => simp [Except.map]

theorem comment_page (hreference : Inert reference.toList) (hshown : Inert shown.toList)
    (h : manual.catalog.page? reference = some page) :
    manual.comment (manual.builtLink shown page)
      = .ok [.comment (manual.reachedLink shown page)] := by
  have hempty : Inert "".toList := List.forall_mem_nil _
  have relinks := relinks_page base hempty hreference hshown h
  rw [String.empty_append, String.empty_append] at relinks
  have texts : ∀ text ∈ [(manual.builtLink shown page, manual.reachedLink shown page)],
      manual.Relinks text.1 text.2 := List.forall_mem_singleton.mpr relinks
  simpa [brokenLines] using comment_intercalate (List.cons_ne_nil _ _) texts

omit base in
theorem references_pages {entries : List (String × String)}
    (h : ∀ entry ∈ entries, manual.catalog.page? entry.1 = some entry.2) :
    manual.references (entries.map (·.1)) = .ok (entries.map fun entry =>
      "- " ++ manual.builtLink entry.1 entry.2) := by
  induction entries with
  | nil => rfl
  | cons entry entries ih =>
    obtain ⟨hentry, hrest⟩ := List.forall_mem_cons.mp h
    rw [List.map_cons, references, link_of_page hentry, ih hrest]
    rfl

theorem comment_seeAlso {entries : List (String × String)} (hne : entries ≠ [])
    (h : ∀ entry ∈ entries, Inert entry.1.toList ∧ manual.catalog.page? entry.1 = some entry.2) :
    (manual.seeAlso (entries.map (·.1)) >>= manual.comment)
      = .ok (brokenLines ("### See also" :: entries.map fun entry =>
          "- " ++ manual.reachedLink entry.1 entry.2)) := by
  let texts := entries.map fun entry =>
    ("- " ++ manual.builtLink entry.1 entry.2, "- " ++ manual.reachedLink entry.1 entry.2)
  have header : manual.Relinks "### See also" "### See also" :=
    ⟨by decide, by decide, by decide, by decide, fun tail _ => relink_append (by decide) tail⟩
  have relinks : ∀ text ∈ ("### See also", "### See also") :: texts,
      manual.Relinks text.1 text.2 := by
    refine List.forall_mem_cons.mpr ⟨header, fun text hmem => ?_⟩
    obtain ⟨entry, hentry, rfl⟩ := List.mem_map.mp hmem
    obtain ⟨inert, hpage⟩ := h entry hentry
    exact relinks_page base (by decide) inert inert hpage
  have hcomment := comment_intercalate (List.cons_ne_nil _ _) relinks
  simp only [List.map_cons, texts, List.map_map, Function.comp_def] at hcomment
  have hreferences := references_pages fun entry hentry => (h entry hentry).2
  obtain ⟨first, more, rfl⟩ := List.exists_cons_of_ne_nil hne
  have hsome : ((first :: more).map (·.1)).isEmpty = false := rfl
  have joined : "### See also\n" ++ "\n".intercalate
        ((first :: more).map fun entry => "- " ++ manual.builtLink entry.1 entry.2)
      = "\n".intercalate ("### See also" ::
        (first :: more).map fun entry => "- " ++ manual.builtLink entry.1 entry.2) := by
    rw [← String.toList_inj, toList_intercalate_cons _ _ (by simp), String.toList_append]
    rfl
  rw [seeAlso, hsome, if_neg Bool.false_ne_true, hreferences, ← hcomment]
  exact congrArg manual.comment joined

/-! Links in front of a listed type. -/

/-- A text that begins with links to names, as they are built, and what follows them. -/
def Begins (manual : Manual) (names : List String) (text : String) : Prop :=
  ∃ (entries : List (String × String)) (rest : String), entries.map (·.1) = names ∧
    (∀ entry ∈ entries, manual.catalog.page? entry.1 = some entry.2) ∧
    text = "<".intercalate (entries.map fun entry => manual.builtLink entry.1 entry.2) ++ rest

omit base in
/-- A type that is written with links begins with them. -/
theorem begins_of_lower {type : Api.TypeExpr} {place : Place} {b b' : Backlog} {text : String}
    (h : manual.lower true type place b = .ok (text, b')) :
    manual.Begins (type.linkedNames manual.catalog.elements) text := by
  obtain ⟨plain, -, entries, rest, names, pages, htext, -⟩ := shows_of_lowerWithin h
  exact ⟨entries, rest, names, pages, htext⟩

/-- The links in front of a text are replaced one by one. -/
theorem relink_begins {entries : List (String × String)}
    (h : ∀ entry ∈ entries, entry.1 ≠ "" ∧ Inert entry.1.toList ∧
      manual.catalog.page? entry.1 = some entry.2) (rest : List Char) :
    manual.relink
        (("<".intercalate (entries.map fun entry => manual.builtLink entry.1 entry.2)).toList ++ rest)
      = (manual.relink rest).map
        (("<".intercalate (entries.map fun entry => manual.reachedLink entry.1 entry.2)).toList ++ ·) := by
  induction entries with
  | nil => simpa using manual.relink_append (List.not_mem_nil : '[' ∉ []) rest
  | cons entry entries ih =>
    obtain ⟨⟨hne, inert, hpage⟩, hrest⟩ := List.forall_mem_cons.mp h
    by_cases hlast : entries = []
    · subst hlast
      simpa using relink_page base inert inert hpage hne rest
    · have hmore : entries.map (fun entry => manual.builtLink entry.1 entry.2) ≠ [] := by
        simpa using hlast
      have hmore' : entries.map (fun entry => manual.reachedLink entry.1 entry.2) ≠ [] := by
        simpa using hlast
      rw [List.map_cons, List.map_cons, toList_intercalate_cons _ _ hmore,
        toList_intercalate_cons _ _ hmore', List.append_assoc, List.append_assoc,
        relink_page base inert inert hpage hne, relink_append (s := "<".toList) (by decide), ih hrest]
      cases manual.relink rest with
      | error e => rfl
      | ok out => simp [Except.map]

theorem not_mem_begins {entries : List (String × String)}
    (h : ∀ entry ∈ entries, entry.1 ≠ "" ∧ Inert entry.1.toList ∧
      manual.catalog.page? entry.1 = some entry.2) {mark : Char} (hmark : mark = '\n' ∨ mark = '`') :
    mark ∉ ("<".intercalate
        (entries.map fun entry => manual.builtLink entry.1 entry.2)).toList ∧
      mark ∉ ("<".intercalate
        (entries.map fun entry => manual.reachedLink entry.1 entry.2)).toList := by
  have hsep : mark ∉ "<".toList := by
    rcases hmark with rfl | rfl
    · decide
    · decide
  have each (entry : String × String) (hentry : entry ∈ entries) :
      mark ∉ (manual.builtLink entry.1 entry.2).toList ∧
        mark ∉ (manual.reachedLink entry.1 entry.2).toList :=
    have inert := (h entry hentry).2.1
    not_mem_builtLink base inert inert (h entry hentry).2.2 hmark
  constructor
  · refine (joins_not_mem _).intercalate hsep fun text hmem => ?_
    obtain ⟨entry, hentry, rfl⟩ := List.mem_map.mp hmem
    exact (each entry hentry).1
  · refine (joins_not_mem _).intercalate hsep fun text hmem => ?_
    obtain ⟨entry, hentry, rfl⟩ := List.mem_map.mp hmem
    exact (each entry hentry).2

theorem comment_begins {before : String} (hne : before ≠ "") (hbefore : Inert before.toList)
    {entries : List (String × String)}
    (h : ∀ entry ∈ entries, entry.1 ≠ "" ∧ Inert entry.1.toList ∧
      manual.catalog.page? entry.1 = some entry.2) {rest : String} {lines : List Line}
    (hlines : manual.comment (before ++ ("<".intercalate (entries.map fun entry =>
      manual.builtLink entry.1 entry.2) ++ rest)) = .ok lines) :
    ∃ line others, lines = .comment (before ++ ("<".intercalate (entries.map fun entry =>
      manual.reachedLink entry.1 entry.2) ++ line)) :: others := by
  obtain ⟨hbuilt, hreached⟩ := not_mem_begins base h (.inl rfl)
  obtain ⟨htick, -⟩ := not_mem_begins base h (.inr rfl)
  have hlinks := relink_begins base h
  generalize "<".intercalate (entries.map fun entry => manual.builtLink entry.1 entry.2) = built
    at hlines hbuilt htick hlinks
  generalize "<".intercalate (entries.map fun entry => manual.reachedLink entry.1 entry.2) = reached
    at hreached hlinks ⊢
  have hbeforeLine : '\n' ∉ before.toList := hbefore.not_mem (by decide)
  have hbeforeTick : '`' ∉ before.toList := hbefore.not_mem (by decide)
  have hfront : before.toList ++ built.toList ≠ [] := by simp [hne]
  have hline : '\n' ∉ before.toList ++ built.toList := by simp [hbuilt, hbeforeLine]
  have hprose : '`' ∉ before.toList ++ built.toList := by simp [htick, hbeforeTick]
  have hempty : (before ++ (built ++ rest)).isEmpty = false := by simp [hne]
  rw [comment, hempty, if_neg Bool.false_ne_true] at hlines
  obtain ⟨prepared, hprepared, rfl⟩ := Outcome.map_eq_ok.mp hlines
  -- The front has no fence and no newline: it is in the first stretch and on the first line.
  obtain ⟨front, more, hstretches⟩ := stretches_append hprose rest.toList
  rw [prepare, String.toList_append, String.toList_append, ← List.append_assoc, hstretches] at hprepared
  obtain ⟨start, later, -, rfl, hstart⟩ := prepareStretches_eq_ok hprepared
  have hrelink : manual.relink (hardBreaks (before.toList ++ built.toList ++ front)) = .ok start :=
    hstart
  rw [hardBreaks, hardBreaksAfter_append hline hfront, List.append_assoc,
    relink_append (hbefore.not_mem (by decide)), hlinks] at hrelink
  obtain ⟨_, hlinked, rfl⟩ := Outcome.map_eq_ok.mp hrelink
  obtain ⟨out, -, rfl⟩ := Outcome.map_eq_ok.mp hlinked
  obtain ⟨line, others, -, hcut⟩ := Text.lines_append
    (show '\n' ∉ before.toList ++ reached.toList by simp [hreached, hbeforeLine]) (out ++ later)
  refine ⟨String.ofList line, others.map fun line => .comment (String.ofList line), ?_⟩
  have hsame : before.toList ++ (reached.toList ++ out) ++ later
      = before.toList ++ reached.toList ++ (out ++ later) := by simp
  rw [hsame, hcut, List.map_cons]
  congr 2
  rw [← String.toList_inj]
  simp

end

/-- How links reach the output, if there is no part of a link or a fence in the address of the
manual and in what they refer to: in a comment of their own, in the list of what to see besides, and
in front of a listed type. The page stands behind the address of the manual, which stands there once
if the two are an address on the web, and otherwise twice. -/
theorem links_reach_comments (base : Inert manual.baseUrl.toList) :
    (∀ reference shown page, Inert reference.toList → Inert shown.toList →
      manual.catalog.page? reference = some page →
      (manual.link reference shown >>= manual.comment).map Line.renderAll
        = .ok ("---[" ++ shown ++ "](" ++ manual.reached shown page ++ ")\n") ∧
      (manual.reached shown page = manual.baseUrl ++ page ↔
        shown = "" ∨ manual.baseUrl = "" ∨ isAbsolute (manual.baseUrl ++ page).toList = true)) ∧
    (isAbsolute manual.baseUrl.toList = true →
      ∀ shown page, manual.reached shown page = manual.baseUrl ++ page) ∧
    (∀ entries : List (String × String), entries ≠ [] →
      (∀ entry ∈ entries, Inert entry.1.toList ∧ manual.catalog.page? entry.1 = some entry.2) →
      (manual.seeAlso (entries.map (·.1)) >>= manual.comment)
        = .ok (brokenLines ("### See also" :: entries.map fun entry =>
            "- " ++ manual.reachedLink entry.1 entry.2))) ∧
    ∀ type place b b' text, manual.lower true type place b = .ok (text, b') →
      (∀ name ∈ type.linkedNames manual.catalog.elements, name ≠ "" ∧ Inert name.toList) →
      ∀ description lines, manual.comment ("- " ++ (text ++ description)) = .ok lines →
        ∃ (entries : List (String × String)) (line : String) (others : List Line),
          entries.map (·.1) = type.linkedNames manual.catalog.elements ∧
          (∀ entry ∈ entries, manual.catalog.page? entry.1 = some entry.2) ∧
          lines = .comment ("- " ++ ("<".intercalate (entries.map fun entry =>
            manual.reachedLink entry.1 entry.2) ++ line)) :: others := by
  refine ⟨fun reference shown page hreference hshown hpage => ⟨?_, reached_eq_iff shown page⟩,
    fun habsolute shown page => reached_of_absolute habsolute,
    fun entries hne h => comment_seeAlso base hne h,
    fun type place b b' text hlower names description lines hlines => ?_⟩
  · have hcomment := comment_page base hreference hshown hpage
    rw [link_of_page hpage]
    change (manual.comment (manual.builtLink shown page)).map Line.renderAll = _
    rw [hcomment]
    refine congrArg Except.ok ?_
    rw [← String.toList_inj]
    simp [Line.renderAll, Line.render, Line.text, reachedLink]
  · obtain ⟨entries, rest, hnames, pages, rfl⟩ := begins_of_lower hlower
    have each (entry : String × String) (hentry : entry ∈ entries) :
        entry.1 ≠ "" ∧ Inert entry.1.toList ∧ manual.catalog.page? entry.1 = some entry.2 := by
      have hname : entry.1 ∈ type.linkedNames manual.catalog.elements := by
        rw [← hnames]
        exact List.mem_map_of_mem hentry
      exact ⟨(names _ hname).1, (names _ hname).2, pages entry hentry⟩
    rw [String.append_assoc] at hlines
    obtain ⟨line, others, hsame⟩ := comment_begins base (by decide) (by decide) each hlines
    exact ⟨entries, line, others, hnames, pages, hsame⟩

/-- A class and a concept that may be written as an array, in a manual at an address. -/
def manualAt (baseUrl : String) : Manual where
  catalog := .ofEntries ⟨[⟨"A", 0, ⟨"", [], [], [], []⟩, [], [], [], []⟩], [], [
    ⟨"P", 0, ⟨"", [], [], [], []⟩, .tableOrArray ⟨[⟨"x", 0, "", .named "A", false⟩], [], none⟩⟩],
    [⟨"int", 0, ""⟩], [], []⟩ []
  baseUrl := baseUrl

theorem links_reach_comments_web :
    Inert (manualAt "https://lua-api.factorio.com/latest/").baseUrl.toList ∧
      ((manualAt "https://lua-api.factorio.com/latest/").link "A" "View documentation"
          >>= (manualAt "https://lua-api.factorio.com/latest/").comment).map Line.renderAll
        = .ok "---[View documentation](https://lua-api.factorio.com/latest/A.html)\n" := by
  have base : Inert (manualAt "https://lua-api.factorio.com/latest/").baseUrl.toList := by decide
  obtain ⟨links, once, -, -⟩ := links_reach_comments base
  obtain ⟨hcomment, -⟩ := links "A" "View documentation" "A.html" (by decide) (by decide) (by decide)
  refine ⟨base, hcomment.trans (congrArg Except.ok ?_)⟩
  rw [once (by decide)]
  decide

/-- In a manual that is not on the web, the address is put before the page twice. -/
theorem view_reaches_twice :
    ((manualAt "docs/").view "A" >>= (manualAt "docs/").comment).map Line.renderAll
      = .ok "---[View documentation](docs/docs/A.html)\n" ∧
    (manualAt "docs/").url "A" = .ok "docs/A.html" := by
  have hview : (manualAt "docs/").view "A"
      = .ok ((manualAt "docs/").builtLink "View documentation" "A.html") :=
    link_of_page (by decide) _
  have hcomment : (manualAt "docs/").comment
        ((manualAt "docs/").builtLink "View documentation" "A.html")
      = .ok [.comment ((manualAt "docs/").reachedLink "View documentation" "A.html")] :=
    @comment_page _ "A" _ _ (by decide) (by decide) (by decide) (by decide)
  constructor
  · rw [hview]
    exact (congrArg (Except.map Line.renderAll) hcomment).trans (congrArg Except.ok (by decide))
  · rfl

end Manual

end LuaStubs
