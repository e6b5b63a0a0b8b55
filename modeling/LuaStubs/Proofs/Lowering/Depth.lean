import LuaStubs.Proofs.Lowering.Levels
import LuaStubs.Proofs.Lowering.Reach

/-! The writing of a type comes to an end. On the way down each table claims a name that has not
been claimed, between two tables no concept is entered twice, and inside a concept the types get
lower. -/

namespace LuaStubs

/-- A concept refers to a name if its elements do, outside of their tables. -/
def Refers (elements : NameMap Api.TypeExpr) (concept name : String) : Prop :=
  ∃ element, elements.get? concept = some element ∧ name ∈ element.outerNames

/-- No concept is reached from itself. -/
def Acyclic (elements : NameMap Api.TypeExpr) : Prop :=
  ∀ concept, ¬ Relation.TransGen (Refers elements) concept concept

theorem acyclic_of_rank {elements : NameMap Api.TypeExpr} (rank : String → Nat)
    (lower : ∀ concept name, Refers elements concept name → rank name < rank concept) :
    Acyclic elements := by
  have reached {concept name : String} (h : Relation.TransGen (Refers elements) concept name) :
      rank name < rank concept := by
    induction h with
    | single h => exact lower _ _ h
    | tail _ h ih => exact Nat.lt_trans (lower _ _ h) ih
  exact fun concept h => Nat.lt_irrefl _ (reached h)

/-- The steps of a run that never say that a type has no end, with what they keep of the backlog. -/
def Emission.Ends {α : Type} (I : Backlog → Prop) (x : Emission α) : Prop :=
  ∀ b, I b → x b ≠ .error .endlessType ∧ ∀ a b', x b = .ok (a, b') → I b'

namespace Emission

variable {α β : Type} {I : Backlog → Prop}

theorem ends_pure (a : α) : Ends I (pure a : Emission α) := by
  intro b hb
  refine ⟨fun h => (by cases h), fun a' b' h => ?_⟩
  cases pure_eq_ok.mp h
  exact hb

theorem ends_lift {e : Except StubError α} (he : e ≠ .error .endlessType) :
    Ends I (liftM e : Emission α) := by
  intro b hb
  constructor
  · intro h
    cases e with
    | error other =>
      cases h
      exact he rfl
    | ok a => cases h
  · intro a b' h
    obtain ⟨_, _, h⟩ := liftM_eq_ok.mp h
    cases h
    exact hb

theorem ends_bind {x : Emission α} {f : α → Emission β} (hx : Ends I x)
    (hf : ∀ a, Ends I (f a)) : Ends I (x >>= f) := by
  intro b hb
  cases h : x b with
  | error e =>
    rw [bind_of_error h]
    refine ⟨fun same => ?_, fun a b' hok => by cases hok⟩
    cases same
    exact (hx b hb).1 h
  | ok r =>
    obtain ⟨a, b'⟩ := r
    rw [bind_of_ok h]
    exact hf a b' ((hx b hb).2 a b' h)

theorem closed_ends (I : Backlog → Prop) : @Closed Unit fun _ x => Ends I (x ()) where
  pure := ends_pure
  lift := ends_lift
  bind := ends_bind

theorem ends_linesOf {step : α → Emission (List Line)} {xs : List α}
    (hstep : ∀ a ∈ xs, Ends I (step a)) : Ends I (linesOf step xs) :=
  @Closed.linesOf Unit _ _ (closed_ends I) (fun _ => step) xs hstep

theorem ends_eachFrom {step : Nat → α → Emission β} {index : Nat} {xs : List α}
    (hstep : ∀ entry ∈ xs.zipIdx index, Ends I (step entry.2 entry.1)) :
    Ends I (eachFrom step index xs) :=
  @Closed.eachFrom Unit _ _ _ (closed_ends I) (fun _ => step) index xs hstep

end Emission

/-! Names that have not been claimed. -/

/-- How many of some names have not been claimed. -/
def Backlog.room (names : List String) (b : Backlog) : Nat :=
  names.countP (· ∉ b.names)

theorem Backlog.room_claim_le (names : List String) (name : String) (b : Backlog) :
    (b.claim name).2.room names ≤ b.room names := by
  apply List.countP_mono_left
  intro other _ h
  rw [decide_eq_true_eq] at h ⊢
  exact fun claimed => h ((mem_names_claim name other b).mpr (.inr claimed))

theorem Backlog.room_claim_lt {names : List String} {name : String} {b : Backlog}
    (hname : name ∈ names) (unclaimed : name ∉ b.names) :
    (b.claim name).2.room names < b.room names := by
  obtain ⟨front, back, rfl⟩ := List.append_of_mem hname
  have hfront := room_claim_le front name b
  have hback := room_claim_le back name b
  have claimed : name ∈ (b.claim name).2.names := (mem_names_claim name name b).mpr (.inl rfl)
  unfold room at hfront hback ⊢
  rw [List.countP_append, List.countP_append, List.countP_cons_of_neg (by simpa using claimed),
    List.countP_cons_of_pos (by simpa using unclaimed)]
  omega

/-- The tables of elements have names among these, and no element is higher than this. -/
structure Bounds (manual : Manual) (names : List String) (height : Nat) : Prop where
  named : ∀ concept element, manual.catalog.elements.get? concept = some element →
    element.tableNames (.element concept (manual.linkTo concept)) ⊆ names
  low : ∀ concept element, manual.catalog.elements.get? concept = some element →
    element.height ≤ height

/-- The concepts that have been entered since the last table, each of which leads to a type. -/
structure Entered (elements : NameMap Api.TypeExpr) (chain : List String) (type : Api.TypeExpr) :
    Prop where
  nodup : chain.Nodup
  keys : chain ⊆ elements.map (·.1)
  leads : ∀ concept ∈ chain, ∀ name ∈ type.outerNames,
    Relation.TransGen (Refers elements) concept name

namespace Entered

variable {elements : NameMap Api.TypeExpr} {chain : List String} {type inner : Api.TypeExpr}

theorem none (elements : NameMap Api.TypeExpr) (type : Api.TypeExpr) : Entered elements [] type :=
  ⟨.nil, List.nil_subset _, fun _ h => by cases h⟩

theorem part (entered : Entered elements chain type) (h : inner.outerNames ⊆ type.outerNames) :
    Entered elements chain inner :=
  ⟨entered.nodup, entered.keys, fun concept hc name hn => entered.leads concept hc name (h hn)⟩

theorem length_le (entered : Entered elements chain type) : chain.length ≤ elements.length := by
  have h := entered.nodup.length_le_of_subset entered.keys
  rwa [List.length_map] at h

theorem enter {name : String} {element : Api.TypeExpr}
    (noCycle : ¬ Relation.TransGen (Refers elements) name name)
    (entered : Entered elements chain (.named name)) (h : elements.get? name = some element) :
    Entered elements (name :: chain) element := by
  have fresh : name ∉ chain := fun hmem =>
    noCycle (entered.leads name hmem name List.mem_cons_self)
  have refers {other : String} (hother : other ∈ element.outerNames) : Refers elements name other :=
    ⟨element, h, hother⟩
  refine ⟨List.nodup_cons.mpr ⟨fresh, entered.nodup⟩, ?_, ?_⟩
  · intro concept hconcept
    rcases List.mem_cons.mp hconcept with rfl | hconcept
    · exact List.mem_map.mpr ⟨_, NameMap.mem_of_get? h, rfl⟩
    · exact entered.keys hconcept
  · intro concept hconcept other hother
    rcases List.mem_cons.mp hconcept with rfl | hconcept
    · exact .single (refers hother)
    · exact .tail (entered.leads concept hconcept name List.mem_cons_self) (refers hother)

end Entered

/-- The depth that is left for a type: a level for each name that may still be claimed, each concept
that may be entered before that, and each level of the type. -/
def depthLeft (room concepts entered height : Nat) (type : Api.TypeExpr) : Nat :=
  room * ((concepts + 1) * (height + 1)) + (concepts - entered) * (height + 1) + type.height

section

variable {room concepts entered height : Nat} {type inner : Api.TypeExpr}

theorem depthLeft_part (h : inner.height < type.height) :
    depthLeft room concepts entered height inner < depthLeft room concepts entered height type := by
  unfold depthLeft
  omega

theorem depthLeft_enter (more : entered < concepts) (low : inner.height ≤ height) :
    depthLeft room concepts (entered + 1) height inner <
      depthLeft room concepts entered height type := by
  have levels : (concepts - entered) * (height + 1) =
      (concepts - (entered + 1)) * (height + 1) + (height + 1) := by
    rw [← Nat.succ_mul]
    congr 1
    omega
  have := type.height_pos
  unfold depthLeft
  omega

theorem depthLeft_claim (low : inner.height ≤ height) :
    depthLeft room concepts 0 height inner < depthLeft (room + 1) concepts entered height type := by
  have levels : (room + 1) * ((concepts + 1) * (height + 1)) =
      room * ((concepts + 1) * (height + 1)) + (concepts * (height + 1) + (height + 1)) := by
    rw [Nat.succ_mul, Nat.succ_mul concepts]
  unfold depthLeft
  rw [Nat.sub_zero]
  omega

end

namespace Manual

open Emission

variable {manual : Manual} {names : List String} {height depth room : Nat}

/-! Parts of types and fields of tables. -/

theorem exists_parameter_of_mem_fieldSites {shape : Api.Shape} {place : Place} {site : Site}
    (h : site ∈ fieldSites place (TableField.all appliesTo shape.parameters shape.groups)) :
    ∃ p, TableField.Offers shape.parameters shape.groups p ∧
      site = ⟨p.type, .member place.name p.name place.link⟩ := by
  obtain ⟨⟨name, field⟩, hentry, rfl⟩ := List.mem_map.mp h
  obtain ⟨p, offers, rfl, htype⟩ := TableField.exists_parameter_of_mem_all hentry
  exact ⟨p, offers, by rw [htype]⟩

/-- A site for which a depth is enough: its tables have names among those known, it is not too high,
and the depth is what is left after the concepts that have been entered since the last table. -/
structure Fits (manual : Manual) (names : List String) (height depth room : Nat) (site : Site) :
    Prop where
  names : site.type.tableNames site.place ⊆ names
  low : site.type.height ≤ height
  enough : ∃ chain, Entered manual.catalog.elements chain site.type ∧
    depthLeft room manual.catalog.elements.length chain.length height site.type ≤ depth

namespace Fits

theorem not_zero {site : Site} : ¬ Fits manual names height 0 room site := by
  rintro ⟨-, -, chain, -, enough⟩
  have := site.type.height_pos
  unfold depthLeft at enough
  omega

theorem part (bounds : Bounds manual names height) {type : Api.TypeExpr} {place : Place}
    (fits : Fits manual names height (depth + 1) room ⟨type, place⟩)
    (noCycle : ∀ n, type = .named n → ¬ Relation.TransGen (Refers manual.catalog.elements) n n)
    {inner : Site} (hinner : inner ∈ manual.parts ⟨type, place⟩) :
    Fits manual names height depth room inner := by
  obtain ⟨hnames, low, chain, entered, enough⟩ := fits
  cases type.kind manual.catalog.elements with
  | table shape => cases hinner
  | @concept n element found =>
    rw [parts_concept found, List.mem_singleton] at hinner
    subst hinner
    have hlow := bounds.low n element found
    have entered' := entered.enter (noCycle n rfl) found
    have more : chain.length < manual.catalog.elements.length := entered'.length_le
    have less := @depthLeft_enter room _ _ height (.named n) element more hlow
    exact ⟨bounds.named n element found, hlow, n :: chain, entered',
      Nat.le_of_lt_succ (Nat.lt_of_lt_of_le less enough)⟩
  | composed composed =>
    rw [parts_composed composed] at hinner
    obtain ⟨⟨inner, mark⟩, hinside, rfl⟩ := List.mem_map.mp hinner
    obtain ⟨outer, inside, lower⟩ := inside_less place hinside
    have less := @depthLeft_part room manual.catalog.elements.length chain.length height _ _ lower
    exact ⟨List.Subset.trans inside hnames, Nat.le_trans (Nat.le_of_lt lower) low, chain,
      entered.part outer, Nat.le_of_lt_succ (Nat.lt_of_lt_of_le less enough)⟩

/-- The types of the fields begin anew, with a name less that may be claimed. -/
theorem field {shape : Api.Shape} {place : Place}
    (fits : Fits manual names height (depth + 1) (room + 1) ⟨.table shape, place⟩) {inner : Site}
    (hinner : inner ∈ fieldSites place (TableField.all appliesTo shape.parameters shape.groups)) :
    Fits manual names height depth room inner := by
  obtain ⟨hnames, low, chain, -, enough⟩ := fits
  obtain ⟨p, offers, rfl⟩ := exists_parameter_of_mem_fieldSites hinner
  have hp : p.type.height ≤ height :=
    Nat.le_trans (Nat.le_succ_of_le (height_le_of_offers offers)) low
  have less := @depthLeft_claim room manual.catalog.elements.length chain.length height
    (.table shape) p.type hp
  refine ⟨?_, hp, [], Entered.none _ _, Nat.le_of_lt_succ (Nat.lt_of_lt_of_le less enough)⟩
  exact List.Subset.trans (tableNames_subset_of_offers place offers) (List.cons_subset.mp hnames).2

theorem name_mem {shape : Api.Shape} {place : Place}
    (fits : Fits manual names height depth room ⟨.table shape, place⟩) : place.name ∈ names :=
  fits.names List.mem_cons_self

end Fits

theorem ends_lowerTable {fieldType : FieldType} {shape : Api.Shape} {place : Place}
    (hname : place.name ∈ names)
    (hType : ∀ room', room = room' + 1 →
      ∀ site ∈ fieldSites place (TableField.all appliesTo shape.parameters shape.groups),
        Ends (·.room names ≤ room') (fieldType site.type site.place)) :
    Ends (·.room names ≤ room) (manual.lowerTable fieldType shape place) := by
  intro b hb
  by_cases claimed : place.name ∈ b.names
  · rw [lowerTable_of_claimed claimed]
    exact ends_pure place.name b hb
  · have less := Backlog.room_claim_lt hname claimed
    obtain ⟨room', rfl⟩ : ∃ room', room = room' + 1 := ⟨room - 1, by omega⟩
    have fields := @Closed.declareTable Unit _ (closed_ends (·.room names ≤ room')) manual
      (fun _ => fieldType) place place.link _ (hType room' rfl)
    obtain ⟨hne, hroom⟩ := fields (b.claim place.name).2 (by omega)
    rw [lowerTable_of_unclaimed claimed]
    refine ⟨map_ne_endless hne, fun a b' h => ?_⟩
    obtain ⟨⟨lines, b₁⟩, hlines, same⟩ := Outcome.map_eq_ok.mp h
    cases same
    exact Nat.le_succ_of_le (hroom lines b₁ hlines)

/-- A type is written within the depth that is left for it. -/
theorem ends_lowerWithin (acyclic : Acyclic manual.catalog.elements)
    (bounds : Bounds manual names height) {linked : Bool} {type : Api.TypeExpr} {place : Place}
    (fits : Fits manual names height depth room ⟨type, place⟩) :
    Ends (·.room names ≤ room) (manual.lowerWithin depth linked type place) := by
  induction depth generalizing room linked type place with
  | zero => exact absurd fits Fits.not_zero
  | succ depth ih =>
    by_cases htable : ∃ shape, type = .table shape
    · obtain ⟨shape, rfl⟩ := htable
      apply ends_lowerTable fits.name_mem
      rintro room' rfl site hsite
      exact ih (fits.field hsite)
    · exact @Closed.lowerWithin Unit _ (closed_ends _) manual (fun _ => depth) linked type place
        (not_exists.mp htable) fun inner hinner => ih (fits.part bounds (fun n _ => acyclic n) hinner)

/-- The names of the tables inside the elements of concepts. -/
def elementNames (manual : Manual) : List String :=
  manual.catalog.elements.flatMap fun (concept, element) =>
    element.tableNames (.element concept (manual.linkTo concept))

theorem length_elementNames (manual : Manual) :
    manual.elementNames.length = tablesOfTypes manual.catalog.elementTypes := by
  unfold elementNames Catalog.elementTypes
  induction manual.catalog.elements with
  | nil => rfl
  | cons entry rest ih =>
    rw [List.flatMap_cons, List.length_append, ih, List.map_cons, tablesOfTypes,
      Api.TypeExpr.length_tableNames]

theorem bounds_elementNames (manual : Manual) (type : Api.TypeExpr) (place : Place) :
    Bounds manual (type.tableNames place ++ manual.elementNames)
      (max type.height (heightOfTypes manual.catalog.elementTypes)) where
  named concept element h := by
    intro name hname
    refine List.mem_append_right _ (List.mem_flatMap.mpr ⟨_, NameMap.mem_of_get? h, hname⟩)
  low concept element h := by
    have hmem : element ∈ manual.catalog.elementTypes :=
      List.mem_map.mpr ⟨_, NameMap.mem_of_get? h, rfl⟩
    exact Nat.le_trans (height_le_of_mem hmem) (Nat.le_max_right _ _)

theorem room_le (type : Api.TypeExpr) (place : Place) (b : Backlog) :
    b.room (type.tableNames place ++ manual.elementNames) ≤
      type.tables + tablesOfTypes manual.catalog.elementTypes := by
  rw [← type.length_tableNames place, ← manual.length_elementNames, ← List.length_append]
  exact List.countP_le_length

/-- The computed depth is what is left before anything has been claimed or entered. -/
theorem depthLeft_le_depthFor (manual : Manual) (type : Api.TypeExpr) :
    depthLeft (type.tables + tablesOfTypes manual.catalog.elementTypes)
      manual.catalog.elements.length 0
      (max type.height (heightOfTypes manual.catalog.elementTypes)) type ≤
      manual.catalog.depthFor type := by
  unfold depthLeft Catalog.depthFor
  rw [Nat.sub_zero, Nat.mul_assoc, Nat.succ_mul, Nat.succ_mul]
  omega

/-- The computed depth is enough, from whatever is in the backlog. -/
theorem fits_depthFor {type : Api.TypeExpr} (place : Place)
    (enough : manual.catalog.depthFor type ≤ depth) :
    Fits manual (type.tableNames place ++ manual.elementNames)
      (max type.height (heightOfTypes manual.catalog.elementTypes)) depth
      (type.tables + tablesOfTypes manual.catalog.elementTypes) ⟨type, place⟩ where
  names := List.subset_append_left _ _
  low := Nat.le_max_left _ _
  enough := ⟨[], Entered.none _ _, Nat.le_trans (manual.depthLeft_le_depthFor type) enough⟩

/-- A type has an end if no concept reaches itself, from whatever is in the backlog. -/
theorem lowerWithin_ne_endless (acyclic : Acyclic manual.catalog.elements) {linked : Bool}
    {type : Api.TypeExpr} {place : Place} {b : Backlog}
    (enough : manual.catalog.depthFor type ≤ depth) :
    manual.lowerWithin depth linked type place b ≠ .error .endlessType :=
  (ends_lowerWithin acyclic (manual.bounds_elementNames type place) (fits_depthFor place enough) b
    (room_le type place b)).1

theorem lower_ne_endless (acyclic : Acyclic manual.catalog.elements) (linked : Bool)
    (type : Api.TypeExpr) (place : Place) (b : Backlog) :
    manual.lower linked type place b ≠ .error .endlessType :=
  lowerWithin_ne_endless acyclic (Nat.le_refl _)

end Manual

end LuaStubs
