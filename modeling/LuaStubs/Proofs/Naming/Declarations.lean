import LuaStubs.Proofs.Naming.Document
import LuaStubs.Proofs.Naming.Sections
import LuaStubs.Proofs.Outline.Document

/-! No table without a name is called like a class that the sections declare, so that a file
declares no class twice. The name of a table that a method takes has one dot and ends in `_param`,
which no mark of a position in a type does. -/

namespace LuaStubs

open Api

theorem last_append {s t : List Char} (hs : s.getLast? ≠ some 'm') (ht : t.getLast? ≠ some 'm') :
    (s ++ t).getLast? ≠ some 'm' := by
  rw [List.getLast?_append]
  cases h : t.getLast? with
  | none => exact hs
  | some c =>
    rw [h] at ht
    exact ht

theorem last_toString (n : Nat) : (toString n).toList.getLast? ≠ some 'm' := by
  rw [Nat.toString_eq_ofList_toDigits, String.toList_ofList]
  exact fun h => not_mem_toDigits (by decide) n (List.mem_of_getLast? h)

theorem last_param (n : Nat) : ("_param" ++ toString n).toList.getLast? ≠ some 'm' := by
  have digits : (toString n).toList ≠ [] := by
    rw [Nat.toString_eq_ofList_toDigits, String.toList_ofList]
    exact Nat.toDigits_ne_nil
  rw [String.toList_append, List.getLast?_append_of_ne_nil _ digits]
  exact last_toString n

def Unparam {α : Type} (spots : List (String × α)) : Prop :=
  ∀ spot ∈ spots, spot.1.toList.getLast? ≠ some 'm'

theorem unparam_marked {α : Type} {families : List (String × List (String × α))}
    (marks : ∀ family ∈ families, family.1.toList.getLast? ≠ some 'm')
    (below : ∀ family ∈ families, Unparam family.2) : Unparam (marked families) := by
  intro spot hspot
  obtain ⟨mark, spots, hfamily, inner, a, hinner, rfl⟩ := mem_marked.mp hspot
  rw [String.toList_append]
  exact last_append (marks _ hfamily) (below _ hfamily _ hinner)

theorem unparam_cons {α : Type} {a : α} {spots : List (String × α)} (h : Unparam spots) :
    Unparam (("", a) :: spots) := by
  intro spot hspot
  rcases List.mem_cons.mp hspot with rfl | hspot
  · exact nofun
  · exact h spot hspot

theorem unparam_single {α : Type} (a : α) : Unparam [("", a)] :=
  unparam_cons (by simp [Unparam])

theorem unparam_pair {α : Type} {key value : List (String × α)} (hkey : Unparam key)
    (hvalue : Unparam value) : Unparam (marked [("_key", key), ("_value", value)]) := by
  apply unparam_marked
  · simp
  · simp [hkey, hvalue]

mutual

theorem Api.TypeExpr.unparam_spots : ∀ type : TypeExpr, Unparam type.spots
  | .named _ => unparam_single _
  | .array value => value.unparam_spots
  | .dictionary key value => unparam_cons (unparam_pair key.unparam_spots value.unparam_spots)
  | .variant _ => unparam_single _
  | .lazyLoaded value => value.unparam_spots
  | .customTable key value => unparam_cons (unparam_pair key.unparam_spots value.unparam_spots)
  | .table _ => unparam_single _
  | .function parameters => by
    apply unparam_cons
    apply unparam_marked
    · intro family hfamily
      obtain ⟨number, -, hmark⟩ := mem_spotsOfParameters hfamily
      rw [hmark]
      exact last_param number
    · exact unparam_spotsOfParameters 1 parameters

theorem unparam_spotsOfParameters (number : Nat) : ∀ types : List TypeExpr,
    ∀ family ∈ spotsOfParameters number types, Unparam family.2
  | [], _, h => nomatch h
  | type :: rest, family, h => by
    rcases List.mem_cons.mp h with rfl | h
    · exact type.unparam_spots
    · exact unparam_spotsOfParameters (number + 1) rest family h

end

theorem Api.TypeExpr.unparam_holders (type : TypeExpr) : Unparam type.holders := by
  intro spot hspot
  obtain ⟨inner, hinner, rfl⟩ := List.mem_map.mp hspot
  exact type.unparam_spots inner hinner

theorem ne_param {name method : String} (last : name.toList.getLast? ≠ some 'm') :
    name ≠ method ++ "_param" := by
  rintro rfl
  rw [String.toList_append, List.getLast?_append_of_ne_nil _ (by decide)] at last
  exact last rfl

/-- Behind a mark that does not end in an `m`, a name ends in `_param` only without the mark. -/
theorem eq_of_append_param {name marks method : String} (h : name ++ marks = method ++ "_param")
    (last : marks.toList.getLast? ≠ some 'm') : marks = "" ∧ name = method ++ "_param" := by
  by_cases empty : marks = ""
  · rw [empty, String.append_empty] at h
    exact ⟨empty, h⟩
  · have hmarks : marks.toList ≠ [] := fun nil => empty (String.toList_inj.mp nil)
    apply absurd h
    apply ne_param
    rw [String.toList_append, List.getLast?_append_of_ne_nil _ hmarks]
    exact last

namespace Api

def TypeExpr.isTable : TypeExpr → Bool
  | .table _ => true
  | _ => false

/-- No entry is called like a table in the elements of a concept, and no attribute that is a table like
the table that a method of its class takes. -/
structure Document.Unmixed (document : Document) : Prop where
  distinct : document.Distinct
  elements : ∀ c ∈ document.concepts, ∀ element ∈ c.elementType?, ∀ spot ∈ element.spots,
    spot.2.isTable = true → c.name ++ "_elem" ++ spot.1 ∉ document.entryNames
  attributes : ∀ c ∈ document.classes, ∀ m ∈ c.methods, m.signature.takesTable = true →
    ∀ a ∈ c.attributes, ∀ spot ∈ a.type.spots, spot.1 = "" → spot.2.isTable = true →
      a.name ≠ m.name ++ "_param"

/-- What the name of an entry and the marks behind it stand for. -/
inductive Document.Entry (document : Document) : String → String → Holder → Prop
  | ofClass {c : Class} (hc : c ∈ document.classes) : Entry document c.name "" (.class c)
  | ofEvent {e : Event} (he : e ∈ document.events) : Entry document e.name "" (.event e)
  | ofConcept {k : Concept} (hk : k ∈ document.concepts) : Entry document k.name "" (.concept k)
  | ofElement {k : Concept} (hk : k ∈ document.concepts) {element : TypeExpr}
      (helement : k.elementType? = some element) {marks : String} {type : TypeExpr}
      (hspot : (marks, type) ∈ element.spots) :
      Entry document k.name ("_elem" ++ marks) (.type type)

theorem Document.entry_of_spot {document : Document} {part : Part} (hpart : part ∈ document.parts)
    {marks : String} {holder : Holder} (hspot : (marks, holder) ∈ part.spots) :
    document.Entry part.name marks holder := by
  simp only [parts, List.mem_append, List.mem_map] at hpart
  obtain (⟨c, hc, rfl⟩ | ⟨e, he, rfl⟩) | ⟨k, hk, rfl⟩ := hpart
  · cases List.mem_singleton.mp hspot
    exact .ofClass hc
  · cases List.mem_singleton.mp hspot
    exact .ofEvent he
  · rcases List.mem_cons.mp hspot with hspot | hspot
    · cases hspot
      exact .ofConcept hk
    · obtain ⟨mark, spots, hfamily, inner, holder, hinner, hspot⟩ := mem_marked.mp hspot
      obtain ⟨element, helement, hfamily⟩ := List.mem_map.mp hfamily
      cases hfamily
      cases hspot
      obtain ⟨own, hown, same⟩ := List.mem_map.mp hinner
      cases same
      exact .ofElement hk (Option.mem_toList.mp helement) hown

theorem Part.unparam_family {mark : String} (hmark : mark.toList.getLast? ≠ some 'm')
    (type : Option TypeExpr) : Unparam (marked (family mark type)) := by
  apply unparam_marked
  · intro family hfamily
    rw [mark_of_mem_family hfamily]
    exact hmark
  · intro family hfamily
    obtain ⟨type, -, rfl⟩ := List.mem_map.mp hfamily
    exact type.unparam_holders

theorem Part.ne_empty_of_mem_family {mark marks : String} (hmark : IsMark mark)
    {type : Option TypeExpr} {holder : Holder} (h : (marks, holder) ∈ marked (family mark type)) :
    marks ≠ "" :=
  (families_family hmark type).ne_empty_of_mem_marked h

namespace Part

variable {owner : String} {m : Method} {marks method : String} {type : TypeExpr}

theorem ne_param_of_family {mark : String} (hmark : IsMark mark)
    (last : mark.toList.getLast? ≠ some 'm') {inner : Option TypeExpr}
    (hspot : (marks, Holder.type type) ∈ marked (family mark inner)) {name : String} :
    name ++ marks ≠ method ++ "_param" := by
  intro same
  exact ne_empty_of_mem_family hmark hspot
    (eq_of_append_param same (unparam_family last inner _ hspot)).1

theorem ne_param_of_method {anchor : String}
    (hspot : (marks, Holder.type type) ∈ (ofMethod owner m anchor).spots) :
    m.name ++ marks ≠ method ++ "_param" := by
  rw [ofMethod, marked, List.flatMap_append] at hspot
  rcases List.mem_cons.mp hspot with hspot | hspot
  · cases hspot
  rcases List.mem_append.mp hspot with hspot | hspot
  · exact ne_param_of_family isMark_vararg (by decide) hspot
  · exact ne_param_of_family isMark_return (by decide) hspot

theorem ne_param_of_tableMethod
    (hspot : (marks, Holder.type type) ∈ (ofTableMethod owner m).spots) :
    m.name ++ marks ≠ method ++ "_param" := by
  rw [ofTableMethod, marked, List.flatMap_cons] at hspot
  rcases List.mem_append.mp hspot with hspot | hspot
  · cases List.mem_singleton.mp hspot
  · exact ne_param_of_family isMark_return (by decide) hspot

/-- Among what has a type, only something called like it stands where the table of a method would. -/
theorem eq_of_attribute {a : Attribute} {name : MemberName}
    (hspot : (marks, Holder.type type) ∈ (ofAttribute owner a name).spots)
    (same : name.lua ++ marks = method ++ "_param") :
    name.lua = method ++ "_param" ∧ ("", type) ∈ a.type.spots := by
  obtain ⟨spot, hmem, hspot⟩ := List.mem_map.mp hspot
  cases hspot
  obtain ⟨hempty, hname⟩ := eq_of_append_param same (a.type.unparam_spots spot hmem)
  refine ⟨hname, ?_⟩
  rw [← hempty]
  exact hmem

end Part

theorem Class.attribute_of_spot {c : Class} {part : Part} (hpart : part ∈ c.parts)
    {marks method : String} {type : TypeExpr} (hspot : (marks, Holder.type type) ∈ part.spots)
    (same : part.name ++ marks = method ++ "_param") :
    ∃ a ∈ c.attributes, a.name = method ++ "_param" ∧ ("", type) ∈ a.type.spots := by
  simp only [parts, List.mem_append, List.mem_map, List.mem_flatMap] at hpart
  obtain ((⟨a, ha, rfl⟩ | ⟨o, -, hpart⟩) | ⟨m, -, rfl⟩) | ⟨o, -, rfl⟩ := hpart
  · obtain ⟨hname, htype⟩ := Part.eq_of_attribute hspot same
    exact ⟨a, ha, hname, htype⟩
  · unfold Part.ofOperator at hpart
    split at hpart
    · cases List.mem_singleton.mp hpart
      exact absurd (Part.eq_of_attribute hspot same).1 (ne_param (by decide))
    · split at hpart
      · cases List.mem_singleton.mp hpart
        exact absurd (Part.eq_of_attribute hspot same).1 (ne_param (by decide))
      · cases hpart
  · have hname : (Part.ofFunction c.name m).name = m.name := by
      unfold Part.ofFunction
      split <;> rfl
    rw [hname] at same
    unfold Part.ofFunction at hspot
    split at hspot
    · exact absurd same (Part.ne_param_of_tableMethod hspot)
    · exact absurd same (Part.ne_param_of_method hspot)
  · exact absurd same (Part.ne_param_of_method hspot)

end Api

namespace Api

variable {document : Document}

theorem Document.Distinct.name_of_entry (distinct : document.Distinct) {name marks : String}
    {holder : Holder} (h : document.Entry name marks holder) :
    name ∈ document.entryNames ∧ name ≠ constantRoot := by
  have root : constantRoot ∈ document.builtins.map (·.name) ++ document.constantNames :=
    List.mem_append_right _ List.mem_cons_self
  have concept {k : Concept} (hk : k ∈ document.concepts) :
      k.name ∈ document.entryNames ∧ k.name ≠ constantRoot := by
    refine ⟨List.mem_append_right _ (List.mem_map_of_mem hk), ?_⟩
    exact (distinct.concept_ne hk (List.mem_append_left _ (List.mem_append_left _ root))).symm
  cases h with
  | @ofClass c hc =>
    refine ⟨List.mem_append_left _ (List.mem_append_right _ (List.mem_map_of_mem hc)), ?_⟩
    exact (distinct.class_ne hc (List.mem_append_left _ root)).symm
  | @ofEvent e he =>
    refine ⟨?_, (distinct.event_ne he root).symm⟩
    exact List.mem_append_left _ (List.mem_append_left _ (List.mem_append_right _ (List.mem_map_of_mem he)))
  | ofConcept hk => exact concept hk
  | ofElement hk _ _ => exact concept hk

end Api

namespace Stands

variable {manual : Manual} {document : Document} {place : Place} {holder : Holder}

/-- Before the first dot in the name of a place there is the name of an entry, with marks. -/
theorem exists_entry (h : Stands manual document place holder) :
    ∃ name marks owner, document.Entry name marks owner ∧ '.' ∉ marks.toList ∧
      Starts '_' marks.toList ∧ ∃ rest,
        place.name.toList = name.toList ++ marks.toList ++ rest ∧ Starts '.' rest := by
  induction h with
  | entry hpart hspot =>
    have chains := Document.chains_parts hpart
    refine ⟨_, _, _, Document.entry_of_spot hpart hspot, chains.dotless _ hspot, chains.starts _ hspot,
      [], ?_, .inl rfl⟩
    simp
  | @part _ _ _ inner marks _ _ _ ih =>
    obtain ⟨name, first, owner, entry, dotless, starts, rest, hname, hrest⟩ := ih
    refine ⟨name, first, owner, entry, dotless, starts,
      rest ++ '.' :: (inner.name.toList ++ marks.toList), ?_, ?_⟩
    · rw [toList_part, hname, List.append_assoc]
    · rcases hrest with rfl | ⟨rest, rfl⟩
      · exact .inr ⟨_, rfl⟩
      · exact .inr ⟨_, rfl⟩

theorem entry_of_dotless (h : Stands manual document place holder) (hdot : '.' ∉ place.name.toList) :
    ∃ name marks, document.Entry name marks holder ∧ place.name = name ++ marks := by
  cases h with
  | entry hpart hspot => exact ⟨_, _, Document.entry_of_spot hpart hspot, rfl⟩
  | part _ _ _ =>
    rw [toList_part] at hdot
    exact absurd (List.mem_append_right _ List.mem_cons_self) hdot

theorem class_or_element (distinct : document.Distinct) {c : Api.Class} (hc : c ∈ document.classes)
    (h : Stands manual document place holder) (hname : place.name = c.name) :
    holder = .class c ∨ ∃ type, holder = .type type ∧
      ∃ k ∈ document.concepts, ∃ element, k.elementType? = some element ∧
        ∃ marks, (marks, type) ∈ element.spots ∧ k.name ++ "_elem" ++ marks = c.name := by
  obtain ⟨name, marks, entry, same⟩ := h.entry_of_dotless (hname ▸ distinct.dotless_class hc)
  rw [hname] at same
  cases entry with
  | @ofClass other hother =>
    rw [String.append_empty] at same
    rw [List.inj_on_of_nodup_map distinct.classes hc hother same]
    exact .inl rfl
  | ofEvent he =>
    rw [String.append_empty] at same
    have apart := distinct.class_ne hc (List.mem_append_right _ (List.mem_map_of_mem he))
    exact absurd same.symm apart
  | ofConcept hk =>
    rw [String.append_empty] at same
    have apart := distinct.concept_ne hk (List.mem_append_right _ (List.mem_map_of_mem hc))
    exact absurd same apart
  | @ofElement k hk element helement marks type hspot =>
    refine .inr ⟨type, rfl, k, hk, element, helement, marks, hspot, ?_⟩
    rw [same, String.append_assoc]

variable {shape : Shape} (unmixed : document.Unmixed)
include unmixed

theorem ne_entry (h : Stands manual document place (.type (.table shape))) :
    place.name ∉ document.entryNames := by
  intro entry
  obtain ⟨name, marks, hentry, same⟩ := h.entry_of_dotless (unmixed.distinct.dotless _ entry)
  cases hentry with
  | @ofElement k hk element helement marks _ hspot =>
    rw [same, ← String.append_assoc] at entry
    exact unmixed.elements k hk element helement _ hspot rfl entry

theorem ne_constant (h : Stands manual document place holder) :
    place.name ∉ document.constantNames := by
  intro constant
  obtain ⟨name, marks, owner, entry, dotless, starts, rest, hname, hrest⟩ := h.exists_entry
  obtain ⟨behind, hpath, hbehind⟩ := Document.constantName_starts constant
  obtain ⟨own, root⟩ := unmixed.distinct.name_of_entry entry
  have hdot : '.' ∉ name.toList ++ marks.toList := fun h =>
    (List.mem_append.mp h).elim (unmixed.distinct.dotless _ own) dotless
  rw [hname] at hpath
  obtain ⟨hroot, -⟩ := eq_of_append_starts hdot (by decide) hrest hbehind hpath
  rcases starts with hempty | ⟨line, hmarks⟩
  · rw [hempty, List.append_nil] at hroot
    exact root (String.toList_inj.mp hroot)
  · -- There is no underscore in the root of all constants.
    have hline : '_' ∉ constantRoot.toList := by decide
    rw [← hroot, hmarks] at hline
    exact hline (List.mem_append_right _ List.mem_cons_self)

theorem ne_takenTable {c : Api.Class} (hc : c ∈ document.classes)
    (h : Stands manual document place (.type (.table shape))) : place.name ∉ c.takenTables := by
  intro taken
  obtain ⟨m, hm, takes, hname⟩ := mem_takenTables.mp taken
  have hclass := unmixed.distinct.dotless_class hc
  have hmethod : '.' ∉ m.name.toList ++ "_param".toList := fun h => (List.mem_append.mp h).elim
    (unmixed.distinct.dotlessMethods c hc m hm takes) (by decide)
  cases h with
  | @entry part marks _ hpart hspot =>
    obtain ⟨own, -⟩ := unmixed.distinct.name_of_entry (Document.entry_of_spot hpart hspot)
    have hdot : '.' ∉ (part.name ++ marks).toList := by
      rw [String.toList_append]
      exact fun h => (List.mem_append.mp h).elim (unmixed.distinct.dotless _ own)
        ((Document.chains_parts hpart).dotless _ hspot)
    rw [show part.name ++ marks = _ from hname, takenTable_toList] at hdot
    exact hdot (List.mem_append_right _ List.mem_cons_self)
  | @part outer owner stands part marks _ hpart hspot =>
    rw [← String.toList_inj, takenTable_toList, toList_part] at hname
    obtain ⟨houter, hlists⟩ := eq_of_dotted_eq hclass hmethod hname.symm
    rw [← String.toList_append, ← String.toList_append, String.toList_inj] at hlists
    rcases stands.class_or_element unmixed.distinct hc (String.toList_inj.mp houter.symm) with
      rfl | ⟨type, rfl, k, hk, element, helement, inner, hinner, hsame⟩
    · obtain ⟨a, ha, hattribute, htable⟩ := Class.attribute_of_spot hpart hspot hlists.symm
      exact unmixed.attributes c hc m hm takes a ha _ htable rfl rfl hattribute
    · cases type with
      | table shape' =>
        apply unmixed.elements k hk element helement _ hinner rfl
        rw [hsame]
        exact List.mem_append_left _ (List.mem_append_right _ (List.mem_map_of_mem hc))
      | variant options =>
        obtain ⟨⟨option, index⟩, -, rfl⟩ := List.mem_map.mp hpart
        have last := option.unparam_holders _ hspot
        obtain ⟨-, hindex⟩ := eq_of_append_param hlists.symm last
        exact ne_param (last_toString index) hindex
      | _ => cases hpart

end Stands

/-- A name that is given to a table is not that of a class in the sections. -/
theorem Api.Document.Unmixed.name_not_mem {document : Document} (unmixed : document.Unmixed)
    {settings : Settings} {stubs : Stubs} (h : stubsOf document settings "" = .ok stubs) {name : String}
    (hname : name ∈ stubs.names) : name ∉ (document.heads settings).map (·.1) := by
  obtain ⟨job, hjob, hrun⟩ := stubsOf_eq_ok.mp h
  obtain ⟨main, history, chronicle⟩ := Job.chronicle_of_run hrun
  obtain ⟨rfl, knows⟩ := Job.knowsElements hjob
  rw [chronicle.names] at hname
  obtain ⟨table, hclaimed, rfl⟩ := List.mem_map.mp hname
  obtain ⟨⟨_, lines⟩, hdeclared, rfl⟩ :=
    List.mem_map.mp (history.declared_perm_claimed.mem_iff.mpr hclaimed)
  have stands := (chronicle.occurs hdeclared).stands knows
  intro hhead
  rcases List.mem_append.mp ((Document.map_heads_subperm _ settings).subset hhead) with hsection | htaken
  · have entry := stands.ne_entry unmixed
    have constant := stands.ne_constant unmixed
    simp only [Document.sectionNames, List.mem_append] at hsection
    simp only [Document.entryNames, List.mem_append] at entry
    tauto
  · obtain ⟨c, hc, htaken⟩ := List.mem_flatMap.mp htaken
    exact stands.ne_takenTable unmixed hc htaken

/-- The lines of a file that declare classes are those of its sections and one for each table without a
name. Where no entry or attribute is called like such a table, no two of them declare one name. -/
theorem stubsOf_declares_once {document : Document} {settings : Settings}
    (clear : document.Clear settings.baseUrl) (tidy : document.Tidy settings.baseUrl)
    (unmixed : document.Unmixed) (stubs : Stubs) (h : stubsOf document settings "" = .ok stubs) :
    ∃ names : List String, names.Perm stubs.names ∧
      headsOf stubs.text = (document.heads settings ++ names.map fun name => (name, [])).map
        (fun (name, bases) => headLine name bases) ∧
      ((document.heads settings).map (·.1) ++ names).Nodup := by
  obtain ⟨lines, names, htext, hnames, outlined⟩ := exists_outline clear h
  refine ⟨names, hnames, ?_, ?_⟩
  · rw [htext]
    exact outlined.headsOf_renderAll clear.noComment tidy
  · obtain ⟨job, -, hrun⟩ := stubsOf_eq_ok.mp h
    obtain ⟨main, history, chronicle⟩ := Job.chronicle_of_run hrun
    rw [List.nodup_append]
    refine ⟨unmixed.distinct.nodup_heads settings, hnames.nodup_iff.mpr chronicle.distinct, ?_⟩
    intro name hhead other hother same
    exact unmixed.name_not_mem h (hnames.mem_iff.mp hother) (same ▸ hhead)

/-- A class whose only method takes a table, and an attribute called like that table. -/
def taking (type : TypeExpr) : Document :=
  describing [⟨"A", 0, bare,
    [⟨"m", 0, bare, ⟨[⟨"y", 0, "", .named "int", false⟩], [], none, none, none, true, false, none, none⟩⟩],
    [⟨"m_param", 0, bare, type, true, true⟩], [], []⟩] [] []

def unmistaken : Document :=
  taking (.dictionary (.named "int") (tableOf "x" (.named "int")))

def mistaken : Document :=
  taking (tableOf "x" (.named "int"))

theorem stubsOf_declares_once_unmistaken :
    ∃ stubs, stubsOf unmistaken ⟨"/", []⟩ "" = .ok stubs ∧ stubs.names = ["A.m_param_value"] ∧
      ∃ names : List String, names.Perm stubs.names ∧
        headsOf stubs.text = (unmistaken.heads ⟨"/", []⟩ ++ names.map fun name => (name, [])).map
          (fun (name, bases) => headLine name bases) ∧
        ((unmistaken.heads ⟨"/", []⟩).map (·.1) ++ names).Nodup := by
  have run : (stubsOf unmistaken ⟨"/", []⟩ "").toOption.map (·.names) = some ["A.m_param_value"] := by
    decide +kernel
  have clear : unmistaken.Clear "/" := ⟨by decide +kernel, by decide, by decide, by decide⟩
  have tidy : unmistaken.Tidy "/" := ⟨by decide +kernel, by decide⟩
  have distinct : unmistaken.Distinct :=
    ⟨by decide +kernel, by decide +kernel, by decide +kernel, by decide +kernel⟩
  have unmixed : unmistaken.Unmixed := ⟨distinct, by decide +kernel, by decide +kernel⟩
  obtain ⟨stubs, h, hnames⟩ := exists_stubs_of_names run
  exact ⟨stubs, h, hnames, stubsOf_declares_once clear tidy unmixed stubs h⟩

/-- The table that the method takes is declared besides the one that is claimed for the attribute. -/
theorem stubsOf_declares_twice_mistaken :
    mistaken.Clear "/" ∧ mistaken.Tidy "/" ∧ mistaken.Distinct ∧
      ∃ stubs, stubsOf mistaken ⟨"/", []⟩ "" = .ok stubs ∧ stubs.names = ["A.m_param"] ∧
        headsOf stubs.text = ["---@class int:number", "---@class defines", "---@class A",
          "---@class A.m_param", "---@class A.m_param"] := by
  have run : (stubsOf mistaken ⟨"/", []⟩ "").toOption.map (·.names) = some ["A.m_param"] := by
    decide +kernel
  have clear : mistaken.Clear "/" := ⟨by decide +kernel, by decide, by decide, by decide⟩
  have tidy : mistaken.Tidy "/" := ⟨by decide +kernel, by decide⟩
  have distinct : mistaken.Distinct :=
    ⟨by decide +kernel, by decide +kernel, by decide +kernel, by decide +kernel⟩
  obtain ⟨stubs, h, hnames⟩ := exists_stubs_of_names run
  obtain ⟨lines, names, htext, hperm, outlined⟩ := exists_outline clear h
  rw [hnames] at hperm
  rw [hperm.eq_singleton] at outlined
  refine ⟨clear, tidy, distinct, stubs, h, hnames, ?_⟩
  rw [htext, outlined.headsOf_renderAll clear.noComment tidy]
  decide +kernel

end LuaStubs
