import LuaStubs.Proofs.Lowering.Depth
import LuaStubs.Proofs.Success.Texts

/-! Exactly when a type can be written. Without links this only takes an end of the type; with
links, the outermost name has to be known. -/

namespace LuaStubs

/-- The names that are shown as links when a type is written with links. -/
def Api.TypeExpr.linkedNames (elements : NameMap Api.TypeExpr) : Api.TypeExpr → List String
  | .named name => if elements.has name then [name, "int"] else [name]
  | .dictionary _ _ => ["table"]
  | .lazyLoaded _ => ["LuaLazyLoadedValue"]
  | .customTable _ _ => ["LuaCustomTable"]
  | .array _ => []
  | .variant _ => []
  | .table _ => []
  | .function _ => []

theorem Api.TypeExpr.Composed.linkedNames_eq {elements : NameMap TypeExpr} {type : TypeExpr}
    (composed : type.Composed elements) : type.linkedNames elements = type.front := by
  cases type with
  | named name => simp [linkedNames, front, NameMap.has, composed.noConcept name rfl]
  | _ => rfl

theorem Api.TypeExpr.linkedNames_concept {elements : NameMap TypeExpr} {name : String}
    {element : TypeExpr} (found : elements.get? name = some element) :
    (TypeExpr.named name).linkedNames elements = [name, "int"] := by
  simp [linkedNames, NameMap.has, found]

/-! Places and fields without brackets. -/

def Api.TypeExpr.Linkable (type : Api.TypeExpr) : Prop :=
  ∀ word ∈ type.words, word.Linkable

structure Place.Linkable (place : Place) : Prop where
  name : ']' ∉ place.name.toList
  link : Settled place.link.toList

structure TableField.Linkable (name : String) (field : TableField) : Prop where
  name : ']' ∉ name.toList
  description : ']' ∉ field.description.toList
  type : field.type.Linkable

theorem Place.linkable_member {place : Place} {name : String} (h : place.Linkable)
    (hname : ']' ∉ name.toList) : (Place.member place.name name place.link).Linkable :=
  ⟨by simp [Place.member, h.name, hname], h.link⟩

theorem linkable_of_mem_parameters {parameters : List Api.Parameter}
    (words : ∀ word ∈ Api.wordsOfParameters parameters, word.Linkable) {p : Api.Parameter}
    (h : p ∈ parameters) : TableField.Linkable p.name (.fixed p) := by
  rw [Api.wordsOfParameters_eq] at words
  have own (word : Word) (hword : word ∈ p.words) : word.Linkable :=
    words word (List.mem_flatMap.mpr ⟨p, h, hword⟩)
  rw [p.words_eq] at own
  exact ⟨not_mem_of_linkMarks (own _ List.mem_cons_self) (by decide),
    (own _ (List.mem_cons_of_mem _ List.mem_cons_self)).2,
    fun word hword => own word (List.mem_cons_of_mem _ (List.mem_cons_of_mem _ hword))⟩

theorem linkable_fields {appliesTo : String} (happlies : ']' ∉ appliesTo.toList)
    {parameters : List Api.Parameter} {groups : List Api.Group}
    (hparameters : ∀ word ∈ Api.wordsOfParameters parameters, word.Linkable)
    (hgroups : ∀ word ∈ Api.wordsOfGroups groups, word.Linkable) :
    ∀ entry ∈ TableField.all appliesTo parameters groups,
      TableField.Linkable entry.1 entry.2 := by
  have grouped {group : Api.Group} (hgroup : group ∈ groups) {p : Api.Parameter}
      (hp : p ∈ group.parameters) : TableField.Linkable p.name (.fixed p) ∧
        ']' ∉ (TableField.groupNote appliesTo group.name p).toList := by
    rw [Api.wordsOfGroups_eq] at hgroups
    have own (word : Word) (hword : word ∈ group.words) : word.Linkable :=
      hgroups word (List.mem_flatMap.mpr ⟨group, hgroup, hword⟩)
    rw [group.words_eq] at own
    have hfield := linkable_of_mem_parameters
      (fun word hword => own word (List.mem_cons_of_mem _ (List.mem_cons_of_mem _ hword))) hp
    have hlabel : ']' ∉ group.name.toList := (own _ List.mem_cons_self).2
    have hnote := @not_mem_framed ']' "\n" p.description "" (by decide) hfield.description (by simp)
    refine ⟨hfield, ?_⟩
    unfold TableField.groupNote
    split <;> simp [happlies, hlabel, hnote]
  have kept : TableField.Kept appliesTo parameters groups TableField.Linkable := by
    refine ⟨fun p hp => linkable_of_mem_parameters hparameters hp, fun group hgroup p hp => ?_,
      fun group hgroup p hp field hfield => ?_⟩
    · obtain ⟨hfield, hnote⟩ := grouped hgroup hp
      exact ⟨hfield.name, hnote, hfield.type⟩
    · obtain ⟨-, hnote⟩ := grouped hgroup hp
      refine ⟨hfield.name, ?_, hfield.type⟩
      have := @not_mem_framed ']' "" field.description "\n\n" (by simp) hfield.description (by decide)
      simp [TableField.noted, this, hnote]
  exact kept.forall_mem_all

namespace Manual

/-- Types without links are written, from any backlog. -/
def WritesTypes (excused : StubError → Prop) (fieldType : FieldType) : Prop :=
  ∀ type place, type.Linkable → place.Linkable →
    Succeeds excused True (fun text => Settled text.toList) (fieldType type place)

variable {manual : Manual} {excused : StubError → Prop} {fieldType : FieldType}

theorem succeeds_declareTable (writes : WritesTypes excused fieldType) {table : Place}
    (htable : table.Linkable) {header : String} (hheader : Settled header.toList)
    {fields : NameMap TableField} (hfields : ∀ entry ∈ fields, TableField.Linkable entry.1 entry.2) :
    Succeeds excused True (fun _ => True) (declareTable manual fieldType table header fields) := by
  apply Succeeds.free_bind (.lift (answers_comment hheader))
  intro comment _
  refine ((@Succeeds.linesOf _ _ _ (fun _ => True) _ fun entry hentry => ?_).bind_pure
    fun _ _ => trivial).congr (by simp)
  have hfield := hfields entry hentry
  apply Succeeds.free_bind (.lift (answers_brief hfield.description htable.link))
  intro comment _
  exact (writes _ _ hfield.type (Place.linkable_member htable hfield.name)).bind_pure
    fun _ _ => trivial

theorem succeeds_lowerTable (writes : WritesTypes excused fieldType) {shape : Api.Shape}
    (hshape : ∀ word ∈ shape.words, word.Linkable) {place : Place} (hplace : place.Linkable) :
    Succeeds excused True (fun text => Settled text.toList)
      (manual.lowerTable fieldType shape place) := by
  rw [shape.words_eq] at hshape
  have hfields := @linkable_fields appliesTo (by decide) shape.parameters shape.groups
    (fun word h => hshape word (by simp [h])) (fun word h => hshape word (by simp [h]))
  have declares := @succeeds_declareTable manual _ _ writes _ hplace _ hplace.link _ hfields
  refine ⟨fun _ b => ?_, fun b text b' h => ⟨trivial, ?_⟩⟩
  · by_cases claimed : place.name ∈ b.names
    · exact .inl ⟨_, lowerTable_of_claimed claimed⟩
    · rw [lowerTable_of_unclaimed claimed]
      rcases declares.runs trivial (b.claim place.name).2 with ⟨r, hr⟩ | ⟨e, he, herror⟩
      · rw [hr]
        exact .inl ⟨_, rfl⟩
      · rw [herror]
        exact .inr ⟨e, he, rfl⟩
  · rw [(lowerTable_eq_ok h).1]
    exact settled_of_not_mem hplace.name

/-- A manual in which also the elements of concepts can be written. -/
structure Regular (manual : Manual) : Prop extends manual.Linkable where
  elements : ∀ concept element, manual.catalog.elements.get? concept = some element →
    element.Linkable
  known : ∀ concept element, manual.catalog.elements.get? concept = some element →
    manual.Knows concept

theorem answers_typeName (linkable : manual.Linkable) (linked : Bool) {name : String}
    (hname : ']' ∉ name.toList) :
    Answers (linked = true → manual.Knows name) (fun text => Settled text.toList)
      (manual.typeName linked name) := by
  cases linked with
  | true =>
    have hlink := answers_link linkable (fun h => hname (List.dropLast_subset _ h)) hname
    exact hlink.congr (by simp)
  | false =>
    have hplain : Answers True (fun text : String => Settled text.toList) (.ok name) :=
      .pure (settled_of_not_mem hname)
    exact hplain.congr (by simp)

theorem answers_typeNames (linkable : manual.Linkable) (linked : Bool) {names : List String}
    (hnames : ∀ name ∈ names, ']' ∉ name.toList) :
    Answers (linked = true → ∀ name ∈ names, manual.Knows name)
      (fun texts => texts.length = names.length ∧ ∀ text ∈ texts, Settled text.toList)
      (manual.typeNames linked names) := by
  induction names with
  | nil => exact (Answers.pure ⟨rfl, List.forall_mem_nil _⟩).congr (by simp)
  | cons name rest ih =>
    obtain ⟨hname, hrest⟩ := List.forall_mem_cons.mp hnames
    rw [typeNames, List.mapM_cons]
    refine ((answers_typeName linkable linked hname).bind fun text htext =>
      (ih hrest).bind_pure fun texts htexts => ?_).congr (by simp [forall_and])
    exact ⟨congrArg (· + 1) htexts.1, List.forall_mem_cons.mpr ⟨htext, htexts.2⟩⟩

theorem not_bracket_of_front {type : Api.TypeExpr} (htype : type.Linkable) :
    ∀ name ∈ type.front, ']' ∉ name.toList := by
  intro name hname
  rcases Api.TypeExpr.mem_front hname with rfl | hgeneric
  · exact not_mem_of_linkMarks (htype _ List.mem_cons_self) (by decide)
  · exact not_mem_genericNames (by decide) name hgeneric

theorem spellsTypes_settled : SpellsTypes Settled where
  toJoinsApart := joinsApart_settled
  placeMarks mark hmark := by
    have all : ∀ mark ∈ placeMarks, ']' ∉ mark.toList := by decide
    exact settled_of_not_mem (all mark hmark)
  typeMarks mark hmark := by
    have all : ∀ mark ∈ typeMarks, ']' ∉ mark.toList.dropLast := by decide
    exact settled_of_noJoint (noJoint_of_not_mem_dropLast (all mark hmark))
  digits n := settled_of_not_mem (by simpa using not_mem_toDigits (by decide) n)

theorem succeeds_lowerWithin (regular : manual.Regular) (depth : Nat) (linked : Bool)
    (type : Api.TypeExpr) (place : Place) (htype : type.Linkable) (hplace : place.Linkable) :
    Succeeds (· = .endlessType)
      (linked = true → ∀ name ∈ type.linkedNames manual.catalog.elements, manual.Knows name)
      (fun text => Settled text.toList) (manual.lowerWithin depth linked type place) := by
  induction depth generalizing linked type place with
  | zero => exact ⟨fun _ b => .inr ⟨_, rfl, rfl⟩, fun b a b' h => absurd h Emission.throw_ne_ok⟩
  | succ depth ih =>
    have writes : WritesTypes (· = .endlessType) (manual.lowerWithin depth false) :=
      fun type place htype hplace => (ih false type place htype hplace).congr (by simp)
    cases type.kind manual.catalog.elements with
    | table shape =>
      exact (succeeds_lowerTable writes htype hplace).congr (by simp [Api.TypeExpr.linkedNames])
    | @concept name element found =>
      have hname : ']' ∉ name.toList :=
        not_mem_of_linkMarks (htype _ List.mem_cons_self) (by decide)
      have hview := (answers_link regular.toLinkable (fun h => hname (List.dropLast_subset _ h))
        (show ']' ∉ "View documentation".toList by decide)).congr
          (iff_true_intro (regular.known name element found))
      have hnames := @answers_typeNames manual regular.toLinkable linked [name, "int"]
        (by simpa using hname)
      rw [lowerWithin_concept found, Api.TypeExpr.linkedNames_concept found]
      apply Succeeds.free_bind (.lift hview)
      intro link hlink
      have hplace : (Place.element name link).Linkable := ⟨by simp [Place.element, hname], hlink⟩
      apply Succeeds.free_bind (writes element _ (regular.elements name element found) hplace)
      intro text htext
      apply (Succeeds.lift hnames).bind_pure
      intro names hnames
      exact spellsTypes_settled.concept hnames.2 htext
    | composed composed =>
      have hinside (index : Nat) (entry : Api.TypeExpr × String) (h : entry ∈ type.inside) :
          Succeeds (· = .endlessType) True (fun text => Settled text.toList)
            (manual.lowerWithin depth false entry.1 (place.extend entry.2)) :=
        writes _ _ (fun word hword => htype word (Api.TypeExpr.words_inside h hword))
          ⟨(spellsPlaces_not_mem (by decide) (by decide)).extend hplace.name h, hplace.link⟩
      have hnames := answers_typeNames regular.toLinkable linked (not_bracket_of_front htype)
      rw [lowerWithin_composed composed, composed.linkedNames_eq]
      refine ((Succeeds.lift hnames).bind fun names hnames =>
        (Succeeds.eachFrom hinside).bind_pure fun texts htexts => ?_).congr (by simp)
      exact spellsTypes_settled.composed hnames.1 hnames.2 htexts

/-- Types have an end where no concept reaches itself. -/
theorem succeeds_lower (regular : manual.Regular) (acyclic : Acyclic manual.catalog.elements)
    (linked : Bool) {type : Api.TypeExpr} {place : Place} (htype : type.Linkable)
    (hplace : place.Linkable) :
    Succeeds (fun _ => False)
      (linked = true → ∀ name ∈ type.linkedNames manual.catalog.elements, manual.Knows name)
      (fun text => Settled text.toList) (manual.lower linked type place) := by
  apply (succeeds_lowerWithin regular _ linked type place htype hplace).strict
  rintro e rfl b
  exact lower_ne_endless acyclic linked type place b

theorem writesTypes_lower (regular : manual.Regular) (acyclic : Acyclic manual.catalog.elements) :
    WritesTypes (fun _ => False) (manual.lower false) :=
  fun _ _ htype hplace => (succeeds_lower regular acyclic false htype hplace).congr (by simp)

end Manual

end LuaStubs
