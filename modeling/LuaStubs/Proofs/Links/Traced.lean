import LuaStubs.Proofs.Links.Pages
import LuaStubs.Proofs.NameMaps
import LuaStubs.Proofs.Texts

/-! Pages traced back to references. Where no class and no concept has a dot in its name, and none
is named like a file that lists entries of another kind, the page of a reference tells the
reference, so that different references have different addresses. -/

namespace LuaStubs

/-- The files that list the entries of a kind by their references. -/
def listFiles : List String := ["Builtin-Types", "events", "defines"]

/-- The reference whose anchor is in a file: itself, where the file lists references, and otherwise a
member below its owner, unless it has none. -/
def tracedAnchor (file anchor : List Char) : List Char :=
  if file ∈ listFiles.map String.toList then anchor
  else if file = "Event-Filters".toList ∧ "Lua".toList.isPrefixOf anchor = true then anchor
  else match Text.splitAtMark ['.'] anchor with
    | some (owner, member) => owner ++ ':' :: ':' :: member
    | none => anchor

/-- The reference whose page is given. -/
def traced (page : List Char) : List Char :=
  match Text.splitAtMark ".html".toList page with
  | some (file, []) => file
  | some (file, _ :: anchor) => tracedAnchor file anchor
  | none => page

theorem traced_file {file : List Char} (h : '.' ∉ file) : traced (file ++ ".html".toList) = file := by
  have found : Text.splitAtMark ".html".toList (file ++ ".html".toList) = some (file, []) := by
    simpa using Text.splitAtMark_found "html".toList h []
  rw [traced, found]

theorem traced_anchor {file : List Char} (h : '.' ∉ file) (anchor : List Char) :
    traced (file ++ ".html#".toList ++ anchor) = tracedAnchor file anchor := by
  have found : Text.splitAtMark ".html".toList (file ++ ".html#".toList ++ anchor)
      = some (file, '#' :: anchor) := by
    simpa using Text.splitAtMark_found "html".toList h ('#' :: anchor)
  rw [traced, found]

theorem tracedAnchor_member {file owner : List Char} (listed : file ∉ listFiles.map String.toList)
    (filters : file = "Event-Filters".toList → owner = file) (h : '.' ∉ owner) (member : List Char) :
    tracedAnchor file (owner ++ '.' :: member) = owner ++ ':' :: ':' :: member := by
  have found : Text.splitAtMark ['.'] (owner ++ '.' :: member) = some (owner, member) := by
    simpa using Text.splitAtMark_found [] h member
  have noFilter : ¬(file = "Event-Filters".toList ∧
      "Lua".toList.isPrefixOf (owner ++ '.' :: member) = true) := by
    rintro ⟨hfile, hlua⟩
    rw [filters hfile, hfile] at hlua
    simp at hlua
  rw [tracedAnchor, if_neg listed, if_neg noFilter, found]

namespace Catalog

/-- No class and no concept has a dot in its name, and no class is named like a file that lists
references. -/
structure Dotless (catalog : Catalog) : Prop where
  classes : ∀ name, catalog.classes.has name = true → '.' ∉ name.toList
  concepts : ∀ name, catalog.concepts.has name = true → '.' ∉ name.toList
  files : ∀ name ∈ listFiles, catalog.classes.has name = false

variable {catalog : Catalog} (dotless : catalog.Dotless)
include dotless

theorem traced_member {owner file : String} (hfile : catalog.ownerPage? owner = some file)
    (member : String) :
    traced (file ++ ".html#" ++ owner ++ "." ++ member).toList = (owner ++ "::" ++ member).toList := by
  have hpage : (file ++ ".html#" ++ owner ++ "." ++ member).toList
      = file.toList ++ ".html#".toList ++ (owner.toList ++ '.' :: member.toList) := by simp
  have hreference : (owner ++ "::" ++ member).toList
      = owner.toList ++ ':' :: ':' :: member.toList := by simp
  rw [hpage, hreference]
  rcases ownerPage?_cases hfile with ⟨hclass, rfl⟩ | ⟨hconcept, rfl⟩
  · have hdot := dotless.classes file hclass
    have listed : file.toList ∉ listFiles.map String.toList := by
      intro hmem
      obtain ⟨name, hname, same⟩ := List.mem_map.mp hmem
      rw [String.toList_inj.mp same] at hname
      cases (dotless.files file hname).symm.trans hclass
    rw [traced_anchor hdot, tracedAnchor_member listed (fun _ => rfl) hdot]
  · rw [traced_anchor (by decide), tracedAnchor_member (by decide) (by simp)
      (dotless.concepts owner hconcept)]

theorem traced_of_found {reference page : String} (h : catalog.Found reference page) :
    traced page.toList = reference.toList := by
  -- A file that lists references has them as they are.
  have listed (file : String) (hdot : '.' ∉ file.toList) (hfile : file ∈ listFiles) :
      traced (file.toList ++ ".html#".toList ++ reference.toList) = reference.toList := by
    rw [traced_anchor hdot, tracedAnchor, if_pos (List.mem_map_of_mem hfile)]
  cases h with
  | builtin _ => simpa using listed "Builtin-Types" (by decide) (by decide)
  | file hclass => simpa using traced_file (dotless.classes reference hclass)
  | event _ => simpa using listed "events" (by decide) (by decide)
  | constant _ => simpa using listed "defines" (by decide) (by decide)
  | @member owner member file hfile => exact traced_member dotless hfile member
  | filters hlua =>
    have hanchor : traced ("Event-Filters".toList ++ ".html#".toList ++ reference.toList)
        = reference.toList := by
      rw [traced_anchor (by decide), tracedAnchor, if_neg (by decide), if_pos ⟨rfl, hlua⟩]
    simpa using hanchor
  | concept hconcept =>
    have hanchor : traced ("Concepts".toList ++ ".html#".toList ++ reference.toList)
        = reference.toList := by
      rw [traced_anchor (by decide), tracedAnchor, if_neg (by decide), if_neg (by simp),
        Text.splitAtMark_eq_none [] (dotless.concepts reference hconcept)]
    simpa using hanchor

theorem eq_of_page?_eq {first second page : String} (hfirst : catalog.page? first = some page)
    (hsecond : catalog.page? second = some page) : first = second := by
  apply String.toList_inj.mp
  calc
    first.toList = traced page.toList := (traced_of_found dotless (found_of_page? hfirst)).symm
    _ = second.toList := traced_of_found dotless (found_of_page? hsecond)

end Catalog

namespace Manual

/-- Different references that have addresses have different ones, within the manual and with any
address before them. -/
theorem addresses_differ {catalog : Catalog} (dotless : catalog.Dotless) {first second : String}
    (different : first ≠ second) (baseUrl : String) :
    (∀ page page', (Manual.mk catalog baseUrl).page first = .ok page →
      (Manual.mk catalog baseUrl).page second = .ok page' → page ≠ page') ∧
    ∀ url url', (Manual.mk catalog baseUrl).url first = .ok url →
      (Manual.mk catalog baseUrl).url second = .ok url' → url ≠ url' := by
  constructor
  · rintro page _ hfirst hsecond rfl
    exact different (Catalog.eq_of_page?_eq dotless (page_eq_ok.mp hfirst) (page_eq_ok.mp hsecond))
  · rintro _ _ hfirst hsecond rfl
    obtain ⟨page, hpage, rfl⟩ := url_eq_ok.mp hfirst
    obtain ⟨page', hpage', same⟩ := url_eq_ok.mp hsecond
    obtain rfl : page = page' := by
      rw [← String.toList_inj, String.toList_append, String.toList_append] at same
      exact String.toList_inj.mp (List.append_cancel_left same)
    exact different (Catalog.eq_of_page?_eq dotless hpage hpage')

end Manual

/-! A class that is named like the file of all concepts, with a concept of the same name and another. -/

def crowdedCatalog : Catalog :=
  .ofEntries ⟨[⟨"Concepts", 0, ⟨"", [], [], [], []⟩, [], [], [], []⟩], [],
    [⟨"Concepts", 0, ⟨"", [], [], [], []⟩, .plain⟩, ⟨"Vector", 1, ⟨"", [], [], [], []⟩, .plain⟩],
    [], [], []⟩ []

theorem addresses_differ_crowded :
    crowdedCatalog.Dotless ∧
    (Manual.mk crowdedCatalog "docs/").url "Concepts::x" = .ok "docs/Concepts.html#Concepts.x" ∧
    (Manual.mk crowdedCatalog "docs/").url "Vector::x" = .ok "docs/Concepts.html#Vector.x" ∧
    "docs/Concepts.html#Concepts.x" ≠ "docs/Concepts.html#Vector.x" := by
  have dotless : crowdedCatalog.Dotless := by
    refine ⟨?_, ?_, by decide⟩
    · intro name h
      obtain rfl : name = "Concepts" := by simpa using NameMap.has_ofList_iff.mp h
      decide
    · intro name h
      obtain rfl | rfl : name = "Concepts" ∨ name = "Vector" := by
        simpa using NameMap.has_ofList_iff.mp h
      · decide
      · decide
  have hclass : (Manual.mk crowdedCatalog "docs/").url "Concepts::x"
      = .ok "docs/Concepts.html#Concepts.x" :=
    Manual.url_eq_ok.mpr ⟨"Concepts.html#Concepts.x", by decide +kernel, rfl⟩
  have hconcept : (Manual.mk crowdedCatalog "docs/").url "Vector::x"
      = .ok "docs/Concepts.html#Vector.x" :=
    Manual.url_eq_ok.mpr ⟨"Concepts.html#Vector.x", by decide +kernel, rfl⟩
  obtain ⟨-, differ⟩ := Manual.addresses_differ dotless
    (by decide : "Concepts::x" ≠ "Vector::x") "docs/"
  exact ⟨dotless, hclass, hconcept, differ _ _ hclass hconcept⟩

end LuaStubs
