import LuaStubs.Proofs.Links.Pages
import LuaStubs.Proofs.Prose.Prepared
import LuaStubs.Proofs.Success.Lowering

/-! A type that is written with links, beside the same type written without them. The links are
those of the outermost names, and taking them off again leaves the plain text where no name has a
mark of a link in it. -/

namespace LuaStubs

open Text Emission

/-! Taking off links. -/

/-- The name and the address of a link whose opening bracket has been taken. -/
def nameLink? (s : List Char) : Option (List Char × List Char) :=
  match s.dropWhile (· ∉ linkMarks) with
  | ']' :: '(' :: rest =>
    match rest.dropWhile (· ∉ linkMarks) with
    | ')' :: _ => some (s.takeWhile (· ∉ linkMarks), rest.takeWhile (· ∉ linkMarks))
    | _ => none
  | _ => none

/-- The rest of a text without its links, after some characters that belong to a link. -/
def withoutLinksAfter : Nat → List Char → List Char
  | _, [] => []
  | taken + 1, _ :: rest => withoutLinksAfter taken rest
  | 0, c :: rest =>
    match if c = '[' then nameLink? rest else none with
    | some (shown, url) => shown ++ withoutLinksAfter (shown.length + url.length + 3) rest
    | none => c :: withoutLinksAfter 0 rest

/-- A text with each `[name](url)` replaced by `name`, where neither has a mark of a link in it. -/
def withoutLinks (text : String) : String :=
  .ofList (withoutLinksAfter 0 text.toList)

theorem cut_unmarked {s rest : List Char} {mark : Char} (hs : Unmarked s) (hmark : mark ∈ linkMarks) :
    (s ++ mark :: rest).takeWhile (· ∉ linkMarks) = s ∧
      (s ++ mark :: rest).dropWhile (· ∉ linkMarks) = mark :: rest := by
  have all : ∀ c ∈ s, decide (c ∉ linkMarks) = true := fun c hc => decide_eq_true (hs c hc)
  constructor
  · rw [List.takeWhile_append_of_pos all, List.takeWhile_cons_of_neg (by simpa using hmark),
      List.append_nil]
  · rw [List.dropWhile_append_of_pos all, List.dropWhile_cons_of_neg (by simpa using hmark)]

theorem nameLink?_link {shown url rest : List Char} (hshown : Unmarked shown) (hurl : Unmarked url) :
    nameLink? (shown ++ ']' :: '(' :: (url ++ ')' :: rest)) = some (shown, url) := by
  obtain ⟨htake, hdrop⟩ :=
    @cut_unmarked shown ('(' :: (url ++ ')' :: rest)) ']' hshown (by decide)
  obtain ⟨htake', hdrop'⟩ := @cut_unmarked url rest ')' hurl (by decide)
  simp only [nameLink?, hdrop, hdrop', htake, htake']

theorem nameLink?_of_noJoint {s : List Char} (h : NoJoint s) : nameLink? s = none := by
  unfold nameLink?
  split
  · rename_i rest hdrop
    have whole := List.takeWhile_append_dropWhile (p := (· ∉ linkMarks)) (l := s)
    rw [hdrop] at whole
    exact absurd whole.symm (h _ rest)
  · rfl

theorem withoutLinksAfter_eq_drop (taken : Nat) (s : List Char) :
    withoutLinksAfter taken s = withoutLinksAfter 0 (s.drop taken) := by
  induction s generalizing taken with
  | nil => simp [withoutLinksAfter]
  | cons c rest ih =>
    cases taken with
    | zero => rfl
    | succ taken => exact ih taken

theorem withoutLinksAfter_link {shown url : List Char} (hshown : Unmarked shown)
    (hurl : Unmarked url) (rest : List Char) :
    withoutLinksAfter 0 ('[' :: (shown ++ ']' :: '(' :: (url ++ ')' :: rest))) =
      shown ++ withoutLinksAfter 0 rest := by
  have hlink : (if '[' = '[' then nameLink? (shown ++ ']' :: '(' :: (url ++ ')' :: rest)) else none)
      = some (shown, url) := by
    rw [if_pos rfl, nameLink?_link hshown hurl]
  have behind : (shown ++ ']' :: '(' :: (url ++ ')' :: rest)).drop (shown.length + url.length + 3)
      = rest := by
    have whole : shown ++ ']' :: '(' :: (url ++ ')' :: rest)
        = (shown ++ ']' :: '(' :: (url ++ [')'])) ++ rest := by simp
    rw [whole, List.drop_left']
    simp
    omega
  rw [withoutLinksAfter, hlink]
  dsimp only
  rw [withoutLinksAfter_eq_drop, behind]

/-- Nothing is taken off where no closing bracket meets an opening parenthesis. -/
theorem withoutLinksAfter_of_noJoint {s : List Char} (h : NoJoint s) : withoutLinksAfter 0 s = s := by
  induction s with
  | nil => rfl
  | cons c rest ih =>
    have behind : NoJoint rest := by
      rintro before after rfl
      exact h (c :: before) after rfl
    have none : (if c = '[' then nameLink? rest else none) = none := by
      rw [nameLink?_of_noJoint behind, ite_self]
    rw [withoutLinksAfter, none]
    dsimp only
    rw [ih behind]

namespace Manual

variable {manual : Manual}

/-! The links of a written type. -/

def builtLink (manual : Manual) (shown page : String) : String :=
  "[" ++ shown ++ "](" ++ (manual.baseUrl ++ page) ++ ")"

/-- A text that begins with links to names, and the same text with the names in their place. -/
def Shows (manual : Manual) (names : List String) (text plain : String) : Prop :=
  ∃ (entries : List (String × String)) (rest : String), entries.map (·.1) = names ∧
    (∀ entry ∈ entries, manual.catalog.page? entry.1 = some entry.2) ∧
    text = "<".intercalate (entries.map fun entry => manual.builtLink entry.1 entry.2) ++ rest ∧
    plain = "<".intercalate names ++ rest

theorem shows_none (text : String) : manual.Shows [] text text :=
  ⟨[], text, rfl, List.forall_mem_nil _, by simp, by simp⟩

theorem shows_names {names links : List String} (h : manual.typeNames true names = .ok links)
    (rest : String) : manual.Shows names ("<".intercalate links ++ rest) ("<".intercalate names ++ rest) := by
  obtain ⟨entries, hnames, hpages, hlinks⟩ : ∃ entries : List (String × String),
      entries.map (·.1) = names ∧
      (∀ entry ∈ entries, manual.catalog.page? entry.1 = some entry.2) ∧
      links = entries.map fun entry => manual.builtLink entry.1 entry.2 := by
    have each := forall₂_typeNames h
    clear h
    induction each with
    | nil => exact ⟨[], rfl, List.forall_mem_nil _, rfl⟩
    | @cons name _ _ _ hlink _ ih =>
      obtain ⟨entries, rfl, hpages, rfl⟩ := ih
      obtain ⟨page, hpage, rfl⟩ := link_eq_ok hlink
      exact ⟨(name, page) :: entries, rfl, List.forall_mem_cons.mpr ⟨hpage, hpages⟩, rfl⟩
  exact ⟨entries, rest, hnames, hpages, by rw [hlinks], rfl⟩

/-- A type that is written with links is written without them as well, and has the same effect. -/
theorem shows_of_lowerWithin {depth : Nat} {type : Api.TypeExpr} {place : Place} {b b' : Backlog}
    {text : String} (h : manual.lowerWithin depth true type place b = .ok (text, b')) :
    ∃ plain, manual.lowerWithin depth false type place b = .ok (plain, b') ∧
      manual.Shows (type.linkedNames manual.catalog.elements) text plain := by
  cases depth with
  | zero => exact absurd h throw_ne_ok
  | succ depth =>
    cases type.kind manual.catalog.elements with
    | table shape => exact ⟨text, h, shows_none text⟩
    | concept found =>
      rw [lowerWithin_concept found] at h
      obtain ⟨view, hview, h⟩ := lift_bind_eq_ok.mp h
      obtain ⟨element, _, helement, h⟩ := bind_eq_ok.mp h
      obtain ⟨links, hlinks, h⟩ := lift_bind_eq_ok.mp h
      cases pure_eq_ok.mp h
      rw [lowerWithin_concept found, Api.TypeExpr.linkedNames_concept found]
      refine ⟨_, ?_, shows_names hlinks _⟩
      refine lift_bind_eq_ok.mpr ⟨view, hview, (bind_of_ok helement).trans ?_⟩
      exact lift_bind_eq_ok.mpr ⟨_, typeNames_plain _, rfl⟩
    | composed composed =>
      rw [lowerWithin_composed composed] at h
      obtain ⟨links, hlinks, h⟩ := lift_bind_eq_ok.mp h
      obtain ⟨texts, _, htexts, h⟩ := bind_eq_ok.mp h
      cases pure_eq_ok.mp h
      rw [lowerWithin_composed composed, composed.linkedNames_eq]
      refine ⟨_, ?_, shows_names hlinks _⟩
      exact lift_bind_eq_ok.mpr ⟨_, typeNames_plain _, bind_of_ok htexts⟩

/-! Names without marks. -/

/-- No name has a mark of a link in it: neither in a type, its place or the elements of concepts. -/
structure Unmarks (manual : Manual) (type : Api.TypeExpr) (place : Place) : Prop where
  base : Unmarked manual.baseUrl.toList
  names : ∀ name ∈ type.outerNames, Unmarked name.toList
  place : Unmarked place.name.toList
  elements : ∀ concept element, manual.catalog.elements.get? concept = some element →
    ∀ name ∈ element.outerNames, Unmarked name.toList

theorem spells_lowerWithin {P : List Char → Prop} (spells : SpellsTypes P)
    (elements : ∀ concept element, manual.catalog.elements.get? concept = some element →
      ∀ name ∈ element.outerNames, P name.toList)
    (depth : Nat) {type : Api.TypeExpr} {place : Place}
    (hnames : ∀ name ∈ type.outerNames, P name.toList) (hplace : P place.name.toList) :
    Gives (fun _ => True) (P ·.toList) (manual.lowerWithin depth false type place) := by
  induction depth generalizing type place with
  | zero => exact fun b _ r h => absurd h throw_ne_ok
  | succ depth ih =>
    cases type.kind manual.catalog.elements with
    | table shape =>
      rintro b _ ⟨text, b'⟩ h
      obtain ⟨rfl, -⟩ := lowerTable_eq_ok h
      exact ⟨hplace, fun _ _ => trivial⟩
    | concept found =>
      have hname := hnames _ List.mem_cons_self
      rw [lowerWithin_concept found, typeNames_plain]
      refine .lift_bind fun link _ => ?_
      apply (ih (elements _ _ found) (spells.add hname (by decide))).bind
      intro text htext
      apply Gives.bind_pure (Gives.lift fun names h => Except.ok.inj h)
      rintro _ rfl
      exact spells.concept (by simpa using ⟨hname, spells.typeMarks "int" (by decide)⟩) htext
    | composed composed =>
      have hfront (name : String) (h : name ∈ type.front) : P name.toList := by
        rcases Api.TypeExpr.mem_front h with rfl | hgeneric
        · exact hnames _ List.mem_cons_self
        · exact spells.typeMarks name ((by decide : genericNames ⊆ typeMarks) hgeneric)
      rw [lowerWithin_composed composed, typeNames_plain]
      apply Gives.bind (Gives.lift fun names h => Except.ok.inj h)
      rintro _ rfl
      apply (gives_eachFrom 0 fun _ entry hentry => ih (fun name hname =>
        hnames name ((inside_less place hentry).1 hname)) (spells.extend hplace hentry)).bind_pure
      intro texts htexts
      exact spells.composed rfl hfront htexts

theorem noJoint_of_unmarked {s : List Char} (h : Unmarked s) : NoJoint s :=
  noJoint_of_not_mem (not_mem_of_linkMarks h (by decide))

theorem spellsTypes_noJoint : SpellsTypes NoJoint where
  nil := noJoint_of_not_mem (by simp)
  append _ _ := noJoint_append
  placeMarks mark hmark := by
    have all : ∀ mark ∈ placeMarks, ']' ∉ mark.toList := by decide
    exact noJoint_of_not_mem (all mark hmark)
  typeMarks mark hmark := by
    have all : ∀ mark ∈ typeMarks, ']' ∉ mark.toList.dropLast := by decide
    exact noJoint_of_not_mem_dropLast (all mark hmark)
  digits n := noJoint_of_not_mem (by simpa using not_mem_toDigits (by decide) n)

theorem unmarked_page? {catalog : Catalog} {reference page : String}
    (hreference : Unmarked reference.toList) (h : catalog.page? reference = some page) :
    Unmarked page.toList := by
  have hparts : ∀ part ∈ Catalog.pageParts, Unmarked part.toList := by decide
  exact fun c hc hmark => Catalog.not_mem_page?
    (fun part hpart => not_mem_of_linkMarks (hparts part hpart) hmark)
    (not_mem_of_linkMarks hreference hmark) h hc

theorem withoutLinksAfter_builtLink (base : Unmarked manual.baseUrl.toList) {name page : String}
    (hname : Unmarked name.toList) (h : manual.catalog.page? name = some page) (rest : List Char) :
    withoutLinksAfter 0 ((manual.builtLink name page).toList ++ rest) =
      name.toList ++ withoutLinksAfter 0 rest := by
  have hurl : Unmarked (manual.baseUrl.toList ++ page.toList) :=
    List.forall_mem_append.mpr ⟨base, unmarked_page? hname h⟩
  have cut := withoutLinksAfter_link hname hurl rest
  simpa [builtLink] using cut

theorem withoutLinksAfter_links (base : Unmarked manual.baseUrl.toList)
    {entries : List (String × String)}
    (h : ∀ entry ∈ entries, Unmarked entry.1.toList ∧ manual.catalog.page? entry.1 = some entry.2)
    (rest : List Char) :
    withoutLinksAfter 0
        (("<".intercalate (entries.map fun entry => manual.builtLink entry.1 entry.2)).toList ++ rest)
      = ("<".intercalate (entries.map (·.1))).toList ++ withoutLinksAfter 0 rest := by
  induction entries with
  | nil => simp
  | cons entry entries ih =>
    obtain ⟨⟨hname, hpage⟩, hrest⟩ := List.forall_mem_cons.mp h
    by_cases hlast : entries = []
    · subst hlast
      simpa using withoutLinksAfter_builtLink base hname hpage rest
    · rw [List.map_cons, List.map_cons, toList_intercalate_cons _ _ (by simpa using hlast),
        toList_intercalate_cons _ _ (by simpa using hlast), List.append_assoc, List.append_assoc,
        withoutLinksAfter_builtLink base hname hpage, List.append_assoc, List.append_assoc,
        ← ih hrest]
      simp [withoutLinksAfter]

theorem unmarked_linkedNames {type : Api.TypeExpr} {place : Place}
    (unmarks : manual.Unmarks type place) :
    ∀ name ∈ type.linkedNames manual.catalog.elements, Unmarked name.toList := by
  have fixed : ∀ name ∈ ["int", "table", "LuaLazyLoadedValue", "LuaCustomTable"],
      Unmarked name.toList := by decide
  cases type with
  | named name =>
    have hname := unmarks.names name List.mem_cons_self
    have hindex : Unmarked "int".toList := fixed _ (by decide)
    rw [Api.TypeExpr.linkedNames]
    split
    · simpa using ⟨hname, hindex⟩
    · simpa using hname
  | dictionary | lazyLoaded | customTable =>
    exact List.forall_mem_singleton.mpr (fixed _ (by decide))
  | array | variant | table | function => exact List.forall_mem_nil _

/-- A text with links and its plain form, if the plain form has no more marks than a type. -/
theorem Shows.withoutLinks_eq {names : List String} {text plain : String}
    (shows : manual.Shows names text plain) (base : Unmarked manual.baseUrl.toList)
    (hnames : ∀ name ∈ names, Unmarked name.toList) (hplain : NoJoint plain.toList) :
    withoutLinks text = plain := by
  obtain ⟨entries, rest, rfl, pages, rfl, rfl⟩ := shows
  have hrest : NoJoint rest.toList := by
    rintro before after hsplit
    refine hplain (("<".intercalate (entries.map (·.1))).toList ++ before) after ?_
    rw [String.toList_append, hsplit, List.append_assoc]
  have cut := withoutLinksAfter_links base
    (fun entry hentry => ⟨hnames _ (List.mem_map_of_mem hentry), pages entry hentry⟩) rest.toList
  rw [withoutLinks, String.toList_append, cut, withoutLinksAfter_of_noJoint hrest,
    ← String.toList_inj, String.toList_ofList, String.toList_append]

end Manual

end LuaStubs
