import LuaStubs.Proofs.Fields
import LuaStubs.Proofs.Lowering.Form
import LuaStubs.Proofs.Outline.Lines
import LuaStubs.Proofs.Prose.Skeleton
import LuaStubs.Proofs.Prose.Tidy

/-! Types whose names are on one line are written on one line, and their tables are declared in
lines that fit, of which one is the head of a class. -/

namespace LuaStubs

open Text Emission

def Word.Clear : Word → Prop
  | .name text => '\n' ∉ text.toList
  | .label text => '\n' ∉ text.toList
  | .prose _ => True
  | .reference _ => True

instance : DecidablePred Word.Clear
  | .name text => inferInstanceAs (Decidable ('\n' ∉ text.toList))
  | .label text => inferInstanceAs (Decidable ('\n' ∉ text.toList))
  | .prose _ => inferInstanceAs (Decidable True)
  | .reference _ => inferInstanceAs (Decidable True)

theorem Word.Tidy.clear {word : Word} (tidy : word.Tidy) : word.Clear := by
  cases word with
  | name text => exact tidy
  | label text => exact tidy
  | prose text => trivial
  | reference text => trivial

/-- A clear word, which is tidy if the documentation is quiet. -/
def Word.Fits (quiet : Prop) (word : Word) : Prop :=
  word.Clear ∧ (quiet → word.Tidy)

theorem Word.Tidy.fits {word : Word} (tidy : word.Tidy) (quiet : Prop) : word.Fits quiet :=
  ⟨tidy.clear, fun _ => tidy⟩

variable {quiet : Prop}

theorem Word.Fits.prose {text : String} (h : (Word.prose text).Fits quiet) :
    quiet → Quiet true text.toList :=
  fun hquiet => (h.2 hquiet).quiet

def Api.TypeExpr.Fits (quiet : Prop) (type : TypeExpr) : Prop :=
  ∀ word ∈ type.words, word.Fits quiet

theorem fits_of_type? {type : Api.TypeExpr} {type? : Option Api.TypeExpr}
    (htype : type? = some type) (h : ∀ word ∈ Api.wordsOfType? type?, word.Fits quiet) :
    type.Fits quiet := by
  rw [htype] at h
  exact h

/-- A place whose name is on one line, with a link that can stand in a comment. -/
structure Place.Clear (place : Place) : Prop where
  name : '\n' ∉ place.name.toList
  link : Quiet true place.link.toList

theorem Place.clear_member {owner name link : String} (howner : '\n' ∉ owner.toList)
    (hname : '\n' ∉ name.toList) (hlink : Quiet true link.toList) : (member owner name link).Clear :=
  ⟨by simp [member, howner, hname], hlink⟩

/-! Fields. -/

structure TableField.Fits (quiet : Prop) (name : String) (field : TableField) : Prop where
  name : '\n' ∉ name.toList
  description : quiet → Quiet true field.description.toList
  type : field.type.Fits quiet

theorem fits_of_mem_parameters {parameters : List Api.Parameter}
    (words : ∀ word ∈ Api.wordsOfParameters parameters, word.Fits quiet) {p : Api.Parameter}
    (h : p ∈ parameters) : TableField.Fits quiet p.name (.fixed p) := by
  rw [Api.wordsOfParameters_eq] at words
  have own (word : Word) (hword : word ∈ p.words) : word.Fits quiet :=
    words word (List.mem_flatMap.mpr ⟨p, h, hword⟩)
  rw [p.words_eq] at own
  exact ⟨(own _ List.mem_cons_self).1, (own _ (List.mem_cons_of_mem _ List.mem_cons_self)).prose,
    fun word hword => own word (List.mem_cons_of_mem _ (List.mem_cons_of_mem _ hword))⟩

theorem fits_parameters {parameters : List Api.Parameter}
    (words : ∀ word ∈ Api.wordsOfParameters parameters, word.Fits quiet) :
    ∀ p ∈ sortOn (·.order) parameters, TableField.Fits quiet p.name (.fixed p) :=
  fun p hp => fits_of_mem_parameters words ((mem_sortOn _ p _).mp hp)

/-- The fields of a table fit, with what is said of them for each group. -/
theorem fits_fields {words : String} (hwords : words = appliesTo ∨ words = appliesToFilter)
    {parameters : List Api.Parameter} {groups : List Api.Group}
    (hparameters : ∀ word ∈ Api.wordsOfParameters parameters, word.Fits quiet)
    (hgroups : ∀ word ∈ Api.wordsOfGroups groups, word.Fits quiet) :
    ∀ entry ∈ TableField.all words parameters groups, TableField.Fits quiet entry.1 entry.2 := by
  have grouped {group : Api.Group} (hgroup : group ∈ groups) {p : Api.Parameter}
      (hp : p ∈ group.parameters) : TableField.Fits quiet p.name (.fixed p) ∧
        (quiet → Quiet true (TableField.groupNote words group.name p).toList) := by
    rw [Api.wordsOfGroups_eq] at hgroups
    have own (word : Word) (hword : word ∈ group.words) : word.Fits quiet :=
      hgroups word (List.mem_flatMap.mpr ⟨group, hgroup, hword⟩)
    rw [group.words_eq] at own
    have hlabel : '\n' ∉ group.name.toList := (own _ List.mem_cons_self).1
    have hfield := fits_of_mem_parameters
      (fun word hword => own word (List.mem_cons_of_mem _ (List.mem_cons_of_mem _ hword))) hp
    exact ⟨hfield, fun hquiet => quiet_groupNote hwords hlabel (hfield.description hquiet)⟩
  have kept : TableField.Kept words parameters groups (TableField.Fits quiet) := by
    refine ⟨fun p hp => fits_of_mem_parameters hparameters hp, fun group hgroup p hp => ?_,
      fun group hgroup p hp field hfield => ?_⟩
    · obtain ⟨hfield, hnote⟩ := grouped hgroup hp
      exact ⟨hfield.name, hnote, hfield.type⟩
    · obtain ⟨-, hnote⟩ := grouped hgroup hp
      exact ⟨hfield.name,
        fun hquiet => quiet_below (hfield.description hquiet) (hnote hquiet), hfield.type⟩
  exact kept.forall_mem_all

/-! Comments. -/

abbrev Silent (quiet : Prop) : List Line → Prop :=
  Marked quiet []

theorem silent_comments {contents : List (List Char)}
    (h : ∀ content ∈ contents, (Line.comment (.ofList content)).Fits quiet) :
    Silent quiet (contents.map fun content => .comment (.ofList content)) where
  fits := List.forall_mem_map.mpr h
  marks := by
    rw [List.filterMap_map]
    exact List.filterMap_eq_nil_iff.mpr fun _ _ => rfl

namespace Manual

variable {manual : Manual} {lines : List Line}

section

variable (base : '\n' ∉ manual.baseUrl.toList)
include base

theorem silent_comment {text : String} (htext : quiet → Quiet true text.toList)
    (h : manual.comment text = .ok lines) : Silent quiet lines := by
  rcases lines_of_comment h with rfl | ⟨prepared, hprepared, rfl⟩
  · exact .nil
  · have keeps := keepsLines_prepare base hprepared
    refine silent_comments fun content hcontent => ⟨?_, fun hquiet => ?_⟩
    · simpa using not_mem_of_mem_lines hcontent
    · simpa using quiet_iff_lines.mp (keeps.quiet true (htext hquiet)) content hcontent

theorem silent_describe {doc : Api.Documentation} (words : ∀ word ∈ doc.words, word.Fits quiet)
    {link description : String} (hlink : Quiet true link.toList)
    (hdescription : quiet → Quiet true description.toList)
    (h : manual.describe doc link description = .ok lines) : Silent quiet lines := by
  obtain ⟨text, htext, hlines⟩ := text_of_describe h
  refine silent_comment base (fun hquiet => ?_) hlines
  exact quiet_overview base (fun word hword => (words word hword).2 hquiet) hlink
    (hdescription hquiet) htext

theorem silent_brief {description link : String} (hdescription : quiet → Quiet true description.toList)
    (hlink : Quiet true link.toList) (h : manual.brief description link = .ok lines) :
    Silent quiet lines :=
  silent_comment base (fun hquiet => quiet_below (hdescription hquiet) hlink) h

end

/-- A manual at an address on one line, whose entries have words that fit. -/
structure WordsFit (quiet : Prop) (manual : Manual) : Prop where
  base : '\n' ∉ manual.baseUrl.toList
  elements : ∀ name element, manual.catalog.elements.get? name = some element → element.Fits quiet
  globals : ∀ type global, manual.catalog.globals.get? type = some global →
    '\n' ∉ global.name.toList ∧ (quiet → Quiet true global.description.toList)

/-! Tables. -/

variable {B : List Line → Prop}

def KeepsLine (quiet : Prop) (B : List Line → Prop) (fieldType : FieldType) : Prop :=
  ∀ type place, type.Fits quiet → place.Clear → Gives B ('\n' ∉ ·.toList) (fieldType type place)

theorem gives_linesOf_silent {α : Type} {step : α → Emission (List Line)} {xs : List α}
    (h : ∀ a ∈ xs, Gives B (Silent quiet) (step a)) : Gives B (Silent quiet) (linesOf step xs) :=
  Gives.linesOf (Q := fun _ => Silent quiet) .nil (fun _ _ _ _ => Marked.append) h

variable {fieldType : FieldType} (fits : manual.WordsFit quiet)
include fits

theorem gives_declareTable (hType : KeepsLine quiet B fieldType) {table : Place} (htable : table.Clear)
    {header : String} (hheader : quiet → Quiet true header.toList) {fields : NameMap TableField}
    (hfields : ∀ entry ∈ fields, TableField.Fits quiet entry.1 entry.2) :
    Gives B (Marked quiet [.head table.name []]) (declareTable manual fieldType table header fields) := by
  have hfield (entry : String × TableField) (hentry : entry ∈ fields) :
      Gives B (Silent quiet) (declareField manual fieldType table entry) := by
    have field := hfields entry hentry
    apply (Gives.lift fun _ => silent_brief fits.base field.description htable.link).bind
    intro comment hcomment
    apply (hType _ _ field.type (Place.clear_member htable.name field.name htable.link)).bind_pure
    intro type htype
    exact hcomment.append (.single (.field entry.1 type entry.2.optional) ⟨field.name, htype⟩)
  apply (Gives.lift fun _ => silent_comment fits.base hheader).bind
  intro comment hcomment
  apply (gives_linesOf_silent hfield).bind_pure
  intro lines hlines
  exact hcomment.append (hlines.cons (.declaration table.name []) ⟨htable.name, List.forall_mem_nil _⟩)

variable (keeps : ∀ block, Declaring quiet block → B block)
include keeps

theorem gives_lowerTable (hType : KeepsLine quiet B fieldType) {shape : Api.Shape}
    (words : ∀ word ∈ shape.words, word.Fits quiet) {place : Place} (hplace : place.Clear) :
    Gives B ('\n' ∉ ·.toList) (manual.lowerTable fieldType shape place) := by
  rw [shape.words_eq] at words
  have hfields := @fits_fields quiet appliesTo (.inl rfl) shape.parameters shape.groups
    (fun word h => words word (List.mem_append_left _ (List.mem_append_left _ h)))
    (fun word h => words word (List.mem_append_left _ (List.mem_append_right _ h)))
  apply (gives_claim place.name).bind
  intro claimed _
  cases claimed with
  | false => exact .pure hplace.name
  | true =>
    apply (gives_declareTable fits hType hplace (fun _ => hplace.link) hfields).bind
    intro lines hlines
    have hblock := hlines.append (.single .blank trivial)
    apply (gives_defer (keeps _ ⟨place.name, hblock⟩)).bind_pure
    intro _ _
    exact hplace.name

/-! Types. -/

omit keeps in
theorem gives_typeNames (linked : Bool) {names : List String}
    (hnames : ∀ name ∈ names, '\n' ∉ name.toList) :
    Gives B (fun texts => texts.length = names.length ∧ ∀ text ∈ texts, '\n' ∉ text.toList)
      (liftM (manual.typeNames linked names)) := by
  refine .lift fun texts h => ?_
  have each := forall₂_typeNames h
  clear h
  induction each with
  | nil => exact ⟨rfl, List.forall_mem_nil _⟩
  | @cons name text _ _ hname _ ih =>
    obtain ⟨hown, hrest⟩ := List.forall_mem_cons.mp hnames
    have htext : '\n' ∉ text.toList := by
      cases linked with
      | false =>
        cases hname
        exact hown
      | true => exact not_mem_link fits.base hown hown hname
    exact ⟨congrArg (· + 1) (ih hrest).1, List.forall_mem_cons.mpr ⟨htext, (ih hrest).2⟩⟩

theorem gives_lowerWithin (depth : Nat) (linked : Bool) {type : Api.TypeExpr} (htype : type.Fits quiet)
    {place : Place} (hplace : place.Clear) :
    Gives B ('\n' ∉ ·.toList) (manual.lowerWithin depth linked type place) := by
  have spells : SpellsTypes ('\n' ∉ ·) := spellsTypes_not_mem (by decide) (by decide) (by decide)
  induction depth generalizing linked type place with
  | zero => exact fun b _ r hr => absurd hr throw_ne_ok
  | succ depth ih =>
    -- Inside a type, types are written at a smaller depth and without links.
    have inner : KeepsLine quiet B (manual.lowerWithin depth false) :=
      fun type place htype hplace => ih false htype hplace
    cases type.kind manual.catalog.elements with
    | table shape => exact gives_lowerTable fits keeps inner htype hplace
    | @concept name element found =>
      have hname : '\n' ∉ name.toList := (htype (.name name) List.mem_cons_self).1
      have hnames : ∀ other ∈ [name, "int"], '\n' ∉ other.toList := by simpa using hname
      rw [lowerWithin_concept found]
      apply (Gives.lift fun _ => quiet_view fits.base hname).bind
      intro link hlink
      have helement : (Place.element name link).Clear := ⟨by simp [Place.element, hname], hlink⟩
      apply (inner element _ (fits.elements name element found) helement).bind
      intro text htext
      apply (gives_typeNames fits linked hnames).bind_pure
      intro names hnames
      exact spells.concept hnames.2 htext
    | composed composed =>
      have hfront (name : String) (h : name ∈ type.front) : '\n' ∉ name.toList := by
        rcases Api.TypeExpr.mem_front h with rfl | hgeneric
        · exact (htype _ List.mem_cons_self).1
        · exact not_mem_genericNames (by decide) name hgeneric
      have hinside (index : Nat) (entry : Api.TypeExpr × String) (h : entry ∈ type.inside) :
          Gives B ('\n' ∉ ·.toList)
            (manual.lowerWithin depth false entry.1 (place.extend entry.2)) :=
        inner _ _ (fun word hword => htype word (Api.TypeExpr.words_inside h hword))
          ⟨spells.toSpellsPlaces.extend hplace.name h, hplace.link⟩
      rw [lowerWithin_composed composed]
      apply (gives_typeNames fits linked hfront).bind
      intro names hnames
      apply (gives_eachFrom 0 hinside).bind_pure
      intro texts htexts
      exact spells.composed hnames.1 hnames.2 htexts

theorem keepsLine_lower (linked : Bool) : KeepsLine quiet B (manual.lower linked) :=
  fun _ _ htype hplace => gives_lowerWithin fits keeps _ linked htype hplace

end Manual

end LuaStubs
