import LuaStubs.Proofs.Naming.Places
import LuaStubs.Proofs.Tables.Chronicle

/-! All sites of a description are at places of it, with everything that they lead to. -/

namespace LuaStubs

open Api

/-- The tables without a name of a description, also those in the fields of others. -/
inductive Job.Occurs (job : Job) : NamelessTable → Prop
  | site {site : Site} {table : NamelessTable} (isSite : site ∈ job.sites)
      (passes : job.manual.Passes site table) : Occurs job table
  | field {outer table : NamelessTable} {site : Site} (occurs : Occurs job outer)
      (isField : site ∈ fieldSites outer.place outer.fields)
      (passes : job.manual.Passes site table) : Occurs job table

/-- A site whose positions are places of a description. -/
def Site.Placed (manual : Manual) (document : Document) (site : Site) : Prop :=
  ∀ spot ∈ site.type.spots,
    Stands manual document ⟨site.place.name ++ spot.1, site.place.link⟩ (.type spot.2)

variable {manual : Manual} {document : Document}

/-- What has a type and is part of what stands at a place. -/
theorem placed_of_part {place : Place} {owner : Holder} (stands : Stands manual document place owner)
    {name : String} {reference : Option String} {type : TypeExpr}
    (hpart : Part.ofType name reference type ∈ owner.parts) {link : String}
    (hlink : link = (Part.ofType name reference type).link manual place.link) :
    Site.Placed manual document ⟨type, ⟨place.name ++ "." ++ name, link⟩⟩ := by
  intro spot hspot
  rw [hlink]
  exact .part stands hpart (List.mem_map.mpr ⟨spot, hspot, rfl⟩)

theorem placed_fieldSites {place : Place} {owner : Holder} {fields : NameMap TableField}
    (stands : Stands manual document place owner) (hparts : owner.parts = Part.ofFields fields)
    {site : Site} (h : site ∈ fieldSites place fields) : site.Placed manual document := by
  obtain ⟨entry, hentry, rfl⟩ := List.mem_map.mp h
  have hpart : Part.ofType entry.1 none entry.2.type ∈ owner.parts := by
    rw [hparts]
    exact List.mem_map.mpr ⟨entry, hentry, rfl⟩
  exact placed_of_part stands hpart rfl

namespace Site.Placed

/-- What is behind a mark in the type of a site is behind it in the name of the place. -/
theorem behind {site : Site} (placed : site.Placed manual document) {mark : String}
    {families : List (String × List (String × TypeExpr))}
    (hspots : site.type.spots = ("", site.type) :: marked families) {inner : TypeExpr}
    (hfamily : (mark, inner.spots) ∈ families) :
    Site.Placed manual document ⟨inner, ⟨site.place.name ++ mark, site.place.link⟩⟩ := by
  intro spot hspot
  have hmem : (mark ++ spot.1, spot.2) ∈ site.type.spots := by
    rw [hspots]
    exact List.mem_cons_of_mem _ (mem_marked.mpr ⟨mark, _, hfamily, spot.1, spot.2, hspot, rfl⟩)
  have stands := placed _ hmem
  rwa [← String.append_assoc] at stands

theorem stands {site : Site} (placed : site.Placed manual document)
    (hroot : ("", site.type) ∈ site.type.spots) :
    Stands manual document site.place (.type site.type) := by
  have stands := placed _ hroot
  rwa [String.append_empty] at stands

end Site.Placed

theorem mem_spotsOfParameters_of_mem {number index : Nat} {types : List TypeExpr} {type : TypeExpr}
    (h : (type, index) ∈ types.zipIdx number) :
    ("_param" ++ toString (index + 1), type.spots) ∈ spotsOfParameters (number + 1) types := by
  induction types generalizing number with
  | nil => cases h
  | cons first rest ih =>
    rw [List.zipIdx_cons] at h
    rcases List.mem_cons.mp h with h | h
    · cases h
      exact List.mem_cons_self
    · exact List.mem_cons_of_mem _ (ih h)

/-- The elements in the catalog of a manual are those of concepts of the description. -/
def Manual.KnowsElements (manual : Manual) (document : Document) : Prop :=
  ∀ name element, manual.catalog.elements.get? name = some element →
    ∃ c ∈ document.concepts, c.name = name ∧ c.elementType? = some element

theorem placed_of_element {c : Concept} (hc : c ∈ document.concepts) {element : TypeExpr}
    (helement : c.elementType? = some element) :
    Site.Placed manual document ⟨element, .element c.name (manual.linkTo c.name)⟩ := by
  intro spot hspot
  have hentry : c.part ∈ document.parts := by
    apply List.mem_append_right
    exact List.mem_map.mpr ⟨c, hc, rfl⟩
  have hspots : ("_elem" ++ spot.1, Holder.type spot.2) ∈ c.part.spots := by
    apply List.mem_cons_of_mem
    rw [helement]
    exact mem_marked.mpr ⟨"_elem", element.holders, List.mem_cons_self, spot.1, _,
      List.mem_map.mpr ⟨spot, hspot, rfl⟩, rfl⟩
  have stands : Stands manual document _ _ := .entry hentry hspots
  rwa [← String.append_assoc] at stands

theorem placed_parts (knows : manual.KnowsElements document) {site inner : Site}
    (placed : site.Placed manual document) (h : inner ∈ manual.parts site) :
    inner.Placed manual document := by
  obtain ⟨type, place⟩ := site
  cases type with
  | named name =>
    rw [Manual.parts] at h
    cases hfound : manual.catalog.elements.get? name with
    | none =>
      rw [hfound] at h
      cases h
    | some element =>
      rw [hfound] at h
      obtain ⟨c, hc, rfl, helement⟩ := knows name element hfound
      rw [List.mem_singleton.mp h]
      exact placed_of_element hc helement
  | array value =>
    rw [List.mem_singleton.mp h]
    exact placed
  | dictionary key value =>
    rcases List.mem_cons.mp h with rfl | h
    · exact placed.behind rfl List.mem_cons_self
    · rw [List.mem_singleton.mp h]
      exact placed.behind rfl (List.mem_cons_of_mem _ List.mem_cons_self)
  | variant options =>
    obtain ⟨⟨option, index⟩, hoption, rfl⟩ := List.mem_map.mp h
    have hpart : Part.ofType (toString index) none option ∈ (Holder.type (.variant options)).parts :=
      List.mem_map.mpr ⟨(option, index), hoption, rfl⟩
    exact placed_of_part (placed.stands List.mem_cons_self) hpart rfl
  | lazyLoaded value =>
    rw [List.mem_singleton.mp h]
    exact placed
  | customTable key value =>
    rcases List.mem_cons.mp h with rfl | h
    · exact placed.behind rfl List.mem_cons_self
    · rw [List.mem_singleton.mp h]
      exact placed.behind rfl (List.mem_cons_of_mem _ List.mem_cons_self)
  | table shape => cases h
  | function parameters =>
    obtain ⟨⟨type, index⟩, htype, rfl⟩ := List.mem_map.mp h
    have inner := placed.behind rfl (mem_spotsOfParameters_of_mem htype)
    rwa [← String.append_assoc] at inner

/-- A table that a site leads to stands at its place if the site is at one. -/
theorem stands_of_passes (knows : manual.KnowsElements document) {site : Site}
    {table : NamelessTable} (passes : manual.Passes site table)
    (placed : site.Placed manual document) :
    Stands manual document table.place (.type (.table table.shape)) := by
  induction passes with
  | here table => exact placed.stands List.mem_cons_self
  | part _ isPart _ ih => exact ih (placed_parts knows placed isPart)

/-! The sites of a description. -/

theorem stands_class (manual : Manual) {c : Api.Class} (h : c ∈ document.classes) :
    Stands manual document ⟨c.name, manual.linkTo c.name⟩ (.class c) := by
  have hpart : (⟨c.name, some c.name, [("", .class c)]⟩ : Part) ∈ document.parts := by
    apply List.mem_append_left
    apply List.mem_append_left
    exact List.mem_map.mpr ⟨c, h, rfl⟩
  have stands : Stands manual document _ _ := .entry hpart List.mem_cons_self
  rwa [String.append_empty] at stands

theorem stands_event (manual : Manual) {e : Event} (h : e ∈ document.events) :
    Stands manual document ⟨e.name, manual.linkTo e.name⟩ (.event e) := by
  have hpart : (⟨e.name, some e.name, [("", .event e)]⟩ : Part) ∈ document.parts := by
    apply List.mem_append_left
    apply List.mem_append_right
    exact List.mem_map.mpr ⟨e, h, rfl⟩
  have stands : Stands manual document _ _ := .entry hpart List.mem_cons_self
  rwa [String.append_empty] at stands

theorem stands_concept (manual : Manual) {c : Concept} (h : c ∈ document.concepts) :
    Stands manual document ⟨c.name, manual.linkTo c.name⟩ (.concept c) := by
  have hpart : c.part ∈ document.parts := by
    apply List.mem_append_right
    exact List.mem_map.mpr ⟨c, h, rfl⟩
  have stands : Stands manual document _ _ := .entry hpart List.mem_cons_self
  rwa [String.append_empty] at stands

theorem placed_eventSites {e : Event} (he : e ∈ document.events) {site : Site}
    (h : site ∈ manual.eventSites e) : site.Placed manual document := by
  obtain ⟨p, hp, rfl⟩ := List.mem_map.mp h
  have hpart : Part.ofType p.name none p.type ∈ (Holder.event e).parts :=
    List.mem_map.mpr ⟨p, (mem_sortOn _ p _).mp hp, rfl⟩
  exact placed_of_part (stands_event manual he) hpart rfl

theorem placed_attributesSites {place : Place} {owner : Holder} {attributes : List Attribute}
    (stands : Stands manual document place owner)
    (hparts : ∀ a ∈ attributes, Part.ofAttribute place.name a (.plain a.name) ∈ owner.parts)
    {site : Site} (h : site ∈ manual.attributesSites place.name attributes) :
    site.Placed manual document := by
  obtain ⟨a, ha, rfl⟩ := List.mem_map.mp h
  exact placed_of_part stands (hparts a ((mem_sortOn _ a _).mp ha)) rfl

section

variable {c : Api.Class} (hc : c ∈ document.classes)
include hc

theorem placed_of_family {part : Part} (hpart : part ∈ c.parts) {mark link : String}
    {type : TypeExpr} (hspots : ∀ spot ∈ type.holders, (mark ++ spot.1, spot.2) ∈ part.spots)
    (hlink : link = part.link manual (manual.linkTo c.name)) :
    Site.Placed manual document ⟨type, ⟨c.name ++ "." ++ part.name ++ mark, link⟩⟩ := by
  intro spot hspot
  have hmem := hspots _ (List.mem_map.mpr ⟨spot, hspot, rfl⟩)
  have stands := Stands.part (stands_class manual hc) hpart hmem
  rw [hlink]
  rwa [← String.append_assoc] at stands

theorem placed_methodSites {m : Method} {name : MemberName}
    (hpart : Part.ofMethod c.name m name.anchor ∈ c.parts) {site : Site}
    (h : site ∈ manual.methodSites c.name m name) : site.Placed manual document := by
  have family {mark : String} {type : TypeExpr}
      (hfamily : (mark, type.holders) ∈
        Part.family "_vararg" m.signature.variadicType ++ Part.family "_return" m.signature.returnType) :
      ∀ spot ∈ type.holders,
        (mark ++ spot.1, spot.2) ∈ (Part.ofMethod c.name m name.anchor).spots := fun spot hspot =>
    List.mem_cons_of_mem _ (mem_marked.mpr ⟨_, _, hfamily, spot.1, spot.2, hspot, rfl⟩)
  rcases List.mem_append.mp h with h | h
  · obtain ⟨p, hp, rfl⟩ := List.mem_map.mp h
    have stands : Stands manual document
        ⟨c.name ++ "." ++ m.name, manual.memberLink c.name name.anchor⟩ (.method m) := by
      have stands := Stands.part (stands_class manual hc) hpart List.mem_cons_self
      rwa [String.append_empty] at stands
    have hinner : Part.ofType p.name none p.type ∈ (Holder.method m).parts :=
      List.mem_map.mpr ⟨p, (mem_sortOn _ p _).mp hp, rfl⟩
    exact placed_of_part stands hinner rfl
  · rcases List.mem_append.mp h with h | h
    · unfold Manual.varargSites at h
      split at h
      · cases h
      next variadic hvariadic =>
        rw [List.mem_singleton.mp h]
        exact placed_of_family hc hpart
          (family (List.mem_append_left _ (by simp [Part.family, hvariadic]))) rfl
    · unfold Manual.resultSites at h
      split at h
      · cases h
      next result hresult =>
        rw [List.mem_singleton.mp h]
        exact placed_of_family hc hpart
          (family (List.mem_append_right _ (by simp [Part.family, hresult]))) rfl

theorem placed_tableMethodSites {m : Method} (hpart : Part.ofTableMethod c.name m ∈ c.parts)
    {site : Site} (h : site ∈ manual.tableMethodSites c.name m) : site.Placed manual document := by
  rcases List.mem_append.mp h with h | h
  · have hspot : ("_param", Holder.methodTable m) ∈ (Part.ofTableMethod c.name m).spots :=
      mem_marked.mpr ⟨"_param", _, List.mem_cons_self, "", _, List.mem_cons_self, rfl⟩
    have stands := Stands.part (stands_class manual hc) hpart hspot
    exact placed_fieldSites stands rfl h
  · unfold Manual.resultSites at h
    split at h
    · cases h
    next result hresult =>
      rw [List.mem_singleton.mp h]
      have hfamily : ("_return", result.holders) ∈
          ("_param", [("", Holder.methodTable m)]) :: Part.family "_return" m.signature.returnType := by
        simp [Part.family, hresult]
      exact placed_of_family hc hpart
        (fun spot hspot => mem_marked.mpr ⟨_, _, hfamily, spot.1, spot.2, hspot, rfl⟩) rfl

theorem placed_operatorSites {o : Operator} (ho : o ∈ c.operators) {site : Site}
    (h : site ∈ manual.operatorSites c.name o) : site.Placed manual document := by
  have hparts : ∀ part ∈ Part.ofOperator c.name o, part ∈ c.parts := fun part hpart =>
    List.mem_append_left _ (List.mem_append_left _ (List.mem_append_right _
      (List.mem_flatMap.mpr ⟨o, ho, hpart⟩)))
  have stands := stands_class manual hc
  unfold Part.ofOperator at hparts
  unfold Manual.operatorSites at h
  split at h
  · rw [if_pos ‹_›] at hparts
    rw [List.mem_singleton.mp h]
    exact placed_of_part stands (hparts _ List.mem_cons_self) rfl
  · rw [if_neg ‹_›] at hparts
    split at h
    · rw [if_pos ‹_›] at hparts
      rw [List.mem_singleton.mp h]
      exact placed_of_part stands (hparts _ List.mem_cons_self) rfl
    · cases h

theorem placed_classSites {site : Site} (h : site ∈ manual.classSites c) :
    site.Placed manual document := by
  rcases List.mem_append.mp h with h | h
  · apply placed_attributesSites (stands_class manual hc) _ h
    intro a ha
    apply List.mem_append_left
    apply List.mem_append_left
    exact List.mem_append_left _ (List.mem_map.mpr ⟨a, ha, rfl⟩)
  rcases List.mem_append.mp h with h | h
  · obtain ⟨o, ho, h⟩ := List.mem_flatMap.mp h
    exact placed_operatorSites hc ((mem_sortOn _ o _).mp ho) h
  rcases List.mem_append.mp h with h | h
  · obtain ⟨m, hm, h⟩ := List.mem_flatMap.mp h
    have hpart : Part.ofFunction c.name m ∈ c.parts :=
      List.mem_append_left _ (List.mem_append_right _
        (List.mem_map.mpr ⟨m, (mem_sortOn _ m _).mp hm, rfl⟩))
    unfold Part.ofFunction at hpart
    unfold Manual.memberFunctionSites at h
    split at h
    · rw [if_pos ‹_›] at hpart
      exact placed_tableMethodSites hc hpart h
    · rw [if_neg ‹_›] at hpart
      exact placed_methodSites hc hpart h
  · unfold Manual.callSites at h
    split at h
    next o ho =>
      have hpart : Part.ofMethod c.name o.asMethod MemberName.call.anchor ∈ c.parts :=
        List.mem_append_right _ (by simp [ho])
      exact placed_methodSites hc hpart h
    · cases h

end

theorem placed_conceptSites {c : Concept} (hc : c ∈ document.concepts) {site : Site}
    (h : site ∈ manual.conceptSites c) : site.Placed manual document := by
  have stands := stands_concept manual hc
  unfold Manual.conceptSites at h
  split at h
  next options hkind =>
    obtain ⟨o, ho, h⟩ := List.mem_flatMap.mp h
    have hsite : site = ⟨o.type, .member c.name (toString o.order) (manual.linkTo c.name)⟩ := by
      rcases List.mem_cons.mp h with h | h
      · exact h
      · exact List.mem_singleton.mp h
    have hpart : Part.ofType (toString o.order) none o.type ∈ (Holder.concept c).parts := by
      simp only [Holder.parts, Concept.parts, hkind]
      exact List.mem_map.mpr ⟨o, (mem_sortOn _ o _).mp ho, rfl⟩
    rw [hsite]
    exact placed_of_part stands hpart rfl
  · cases h
  next attributes hkind =>
    apply placed_attributesSites stands _ h
    intro a ha
    simp only [Holder.parts, Concept.parts, hkind]
    exact List.mem_map.mpr ⟨a, ha, rfl⟩
  · cases h
  next shape hkind => exact placed_fieldSites stands (by simp [Holder.parts, Concept.parts, hkind]) h
  next shape hkind => exact placed_fieldSites stands (by simp [Holder.parts, Concept.parts, hkind]) h
  · cases h
  next shape hkind => exact placed_fieldSites stands (by simp [Holder.parts, Concept.parts, hkind]) h

/-! All sites of a job. -/

theorem Job.placed_sites {job : Job} {site : Site} (h : site ∈ job.sites) :
    site.Placed job.manual job.document := by
  rcases List.mem_append.mp h with h | h
  · obtain ⟨e, he, h⟩ := List.mem_flatMap.mp h
    exact placed_eventSites ((mem_sortOn _ e _).mp he) h
  rcases List.mem_append.mp h with h | h
  · obtain ⟨c, hc, h⟩ := List.mem_flatMap.mp h
    exact placed_classSites ((mem_sortOn _ c _).mp hc) h
  · obtain ⟨c, hc, h⟩ := List.mem_flatMap.mp h
    exact placed_conceptSites ((mem_sortOn _ c _).mp hc) h

theorem Catalog.knowsElements (document : Document) (globals : List (String × Global))
    (baseUrl : String) : Manual.KnowsElements ⟨ofEntries document globals, baseUrl⟩ document := by
  intro name element h
  obtain ⟨c, hc, hentry⟩ := List.mem_filterMap.mp (NameMap.mem_of_get?_ofList h)
  obtain ⟨type, htype, hentry⟩ := Option.map_eq_some_iff.mp hentry
  cases hentry
  exact ⟨c, hc, rfl, htype⟩

namespace Job.Occurs

theorem stands {job : Job} (knows : job.manual.KnowsElements job.document) {table : NamelessTable}
    (h : job.Occurs table) :
    Stands job.manual job.document table.place (.type (.table table.shape)) := by
  induction h with
  | site isSite passes => exact stands_of_passes knows passes (Job.placed_sites isSite)
  | field _ isField passes ih => exact stands_of_passes knows passes (placed_fieldSites ih rfl isField)

end Job.Occurs

end LuaStubs
