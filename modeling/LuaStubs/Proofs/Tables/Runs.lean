import LuaStubs.Proofs.Lowering.Form
import LuaStubs.Proofs.Tables.Walk

/-! A run of the whole file is a walk over the sites of its description, since writing a type is a
walk over its site and nothing else touches the backlog. -/

namespace LuaStubs

open Emission

variable {manual : Manual}

theorem walks_declareField {fieldType : FieldType}
    (hType : ∀ type place, Walks manual (fieldType type place) [⟨type, place⟩]) (table : Place)
    (entry : String × TableField) :
    Walks manual (declareField manual fieldType table entry)
      [⟨entry.2.type, .member table.name entry.1 table.link⟩] := by
  obtain ⟨name, field⟩ := entry
  apply walks_lift_bind
  intro comment _
  exact walks_bind_pure (hType _ _)

theorem walks_declareTable {fieldType : FieldType}
    (hType : ∀ type place, Walks manual (fieldType type place) [⟨type, place⟩]) (table : Place)
    (header : String) (fields : NameMap TableField) :
    Walks manual (declareTable manual fieldType table header fields) (fieldSites table fields) := by
  apply walks_lift_bind
  intro comment _
  have hFields := walks_linesOf (walks_declareField hType table) fields
  rw [← List.map_eq_flatMap] at hFields
  exact walks_bind_pure hFields

namespace Manual

/-- Writing a type is a walk over its site, however deep the types may be. -/
theorem walks_lowerWithin (depth : Nat) (linked : Bool) (type : Api.TypeExpr) (place : Place) :
    Walks manual (manual.lowerWithin depth linked type place) [⟨type, place⟩] := by
  induction depth generalizing linked type place with
  | zero =>
    intro b s b' h
    exact absurd h throw_ne_ok
  | succ depth ih =>
    cases type.kind manual.catalog.elements with
    | table shape =>
      intro b s b' h
      obtain ⟨-, ⟨claimed, rfl⟩ | ⟨unclaimed, lines, b₁, hlines, rfl⟩⟩ := lowerTable_eq_ok h
      · exact ⟨_, .again ⟨shape, place⟩ claimed (.done _)⟩
      · obtain ⟨inner, inside⟩ := walks_declareTable (ih false) _ _ _ _ _ _ hlines
        exact ⟨_, .first ⟨shape, place⟩ unclaimed ⟨depth, hlines⟩ inside (.done _)⟩
    | concept found =>
      apply walks_through (by simp)
      rw [lowerWithin_concept found, parts_concept found]
      apply walks_lift_bind
      intro link hlink
      rw [linkTo_eq hlink]
      apply walks_site_bind (ih false _ _)
      intro text
      exact walks_lift_bind fun names _ => walks_pure _
    | composed composed =>
      apply walks_through composed.noTable
      rw [lowerWithin_composed composed, parts_composed composed, List.map_eq_flatMap]
      apply walks_lift_bind
      intro names _
      exact walks_bind_pure (walks_each (fun (inner, mark) => ih false inner (place.extend mark)) 0 _)

theorem walks_lower (linked : Bool) (type : Api.TypeExpr) (place : Place) :
    Walks manual (manual.lower linked type place) [⟨type, place⟩] :=
  walks_lowerWithin _ linked type place

/-! Members and entries. -/

theorem walks_attributeLines (owner : String) (a : Api.Attribute) (name : MemberName) :
    Walks manual (manual.attributeLines owner a name) [manual.attributeSite owner a name] := by
  refine walks_lift_bind fun link hlink => walks_lift_bind fun comment _ => ?_
  rw [attributeSite, memberLink, linkTo_eq hlink]
  exact walks_bind_pure (walks_lower false _ _)

theorem walks_parameterLines (owner method link : String) (p : Api.Parameter) :
    Walks manual (manual.parameterLines owner method link p)
      [parameterSite owner method link p] := by
  apply walks_site_bind (walks_lower false _ _)
  intro type
  apply walks_lift_bind
  rintro ⟨remark, lines⟩ _
  exact walks_pure _

theorem walks_varargLines (owner link : String) (m : Api.Method) :
    Walks manual (manual.varargLines owner link m) (varargSites owner link m) := by
  unfold varargLines varargSites
  cases m.signature.variadicType with
  | none => exact walks_pure _
  | some variadic =>
    apply walks_site_bind (walks_lower false _ _)
    intro type
    exact walks_lift_bind fun lines _ => walks_pure _

theorem walks_resultLines (owner link : String) (m : Api.Method) :
    Walks manual (manual.resultLines owner link m) (resultSites owner link m) := by
  unfold resultLines resultSites
  cases m.signature.returnType with
  | none => exact walks_pure _
  | some result =>
    apply walks_site_bind (walks_lower false _ _)
    intro type
    exact walks_lift_bind fun (remark, lines) _ => walks_pure _

theorem walks_methodLines (owner : String) (m : Api.Method) (name : MemberName) :
    Walks manual (manual.methodLines owner m name) (manual.methodSites owner m name) := by
  refine walks_lift_bind fun link hlink => walks_lift_bind fun comment _ => ?_
  simp only [methodSites, memberLink, linkTo_eq hlink]
  have hParameters := walks_linesOf (@walks_parameterLines manual owner m.name link)
    (sortOn (·.order) m.signature.parameters)
  rw [← List.map_eq_flatMap] at hParameters
  apply walks_bind hParameters
  intro parameters
  apply walks_bind (walks_varargLines owner link m)
  intro vararg
  exact walks_bind_pure (walks_resultLines owner link m)

theorem walks_tableMethodLines (owner : String) (m : Api.Method) :
    Walks manual (manual.tableMethodLines owner m) (manual.tableMethodSites owner m) := by
  apply walks_lift_bind
  intro link hlink
  simp only [tableMethodSites, memberLink, linkTo_eq hlink]
  apply walks_bind (walks_declareTable (walks_lower false) _ _ _)
  intro declaration
  apply walks_lift_bind
  intro comment _
  exact walks_bind_pure (walks_resultLines owner link m)

theorem walks_memberFunctionLines (owner : String) (m : Api.Method) :
    Walks manual (manual.memberFunctionLines owner m) (manual.memberFunctionSites owner m) := by
  unfold memberFunctionLines memberFunctionSites
  split
  · exact walks_tableMethodLines owner m
  · exact walks_methodLines owner m _

theorem walks_operatorLines (owner : String) (o : Api.Operator) :
    Walks manual (manual.operatorLines owner o) (manual.operatorSites owner o) := by
  unfold operatorLines operatorSites
  split
  · exact walks_attributeLines owner _ _
  · split
    · exact walks_attributeLines owner _ _
    · exact walks_pure _

theorem walks_callLines (owner : String) (operators : List Api.Operator) :
    Walks manual (manual.callLines owner operators) (manual.callSites owner operators) := by
  unfold callLines callSites
  cases operators.find? (·.name = "call") with
  | some o => exact walks_methodLines owner o.asMethod .call
  | none => exact walks_pure _

theorem walks_attributesLines (owner : String) (attributes : List Api.Attribute) :
    Walks manual (manual.attributesLines owner attributes)
      (manual.attributesSites owner attributes) := by
  have h := walks_linesOf (fun a => @walks_attributeLines manual owner a (.plain a.name))
    (sortOn (·.order) attributes)
  rwa [← List.map_eq_flatMap] at h

theorem walks_structLines (name : String) (doc : Api.Documentation)
    (attributes : List Api.Attribute) :
    Walks manual (manual.structLines name doc attributes)
      (manual.attributesSites name attributes) := by
  apply walks_lift_bind
  intro comment _
  exact walks_bind_pure (walks_attributesLines name attributes)

theorem walks_classLines (c : Api.Class) :
    Walks manual (manual.classLines c) (manual.classSites c) := by
  refine walks_lift_bind fun comment _ => walks_lift_bind fun _ _ => ?_
  apply walks_bind (walks_attributesLines c.name c.attributes)
  intro fields
  apply walks_bind (walks_linesOf (walks_operatorLines c.name) _)
  intro operators
  apply walks_bind (walks_linesOf (walks_memberFunctionLines c.name) _)
  intro methods
  exact walks_bind_pure (walks_callLines c.name c.operators)

theorem walks_eventLines (e : Api.Event) :
    Walks manual (manual.eventLines e) (manual.eventSites e) := by
  refine walks_lift_bind fun link hlink => walks_lift_bind fun comment _ => ?_
  rw [eventSites, linkTo_eq hlink, List.map_eq_flatMap]
  refine walks_bind_pure (walks_linesOf (fun p => ?_) _)
  exact walks_lift_bind fun comment _ => walks_bind_pure (walks_lower false _ _)

theorem walks_identificationOption (owner link : String) (hlink : manual.view owner = .ok link)
    (o : Api.Identification) :
    Walks manual (manual.identificationOption owner link o)
      (manual.identificationSites owner o) := by
  rw [identificationSites, linkTo_eq hlink]
  apply walks_site_bind (walks_lower true _ _)
  intro shown
  exact walks_bind_pure (walks_lower false _ _)

theorem walks_identificationLines (c : Api.Concept) (options : List Api.Identification) :
    Walks manual (manual.identificationLines c options)
      ((sortOn (·.order) options).flatMap (manual.identificationSites c.name)) := by
  apply walks_lift_bind
  intro link hlink
  rw [← List.append_nil (List.flatMap _ _)]
  apply walks_bind (walks_each (walks_identificationOption c.name link hlink) 0 _)
  intro shown
  exact walks_lift_bind fun comment _ => walks_pure _

theorem walks_tableLines (c : Api.Concept) (shape : Api.Shape) (words : String) :
    Walks manual (manual.tableLines c shape words) (manual.tableSites c shape words) := by
  refine walks_lift_bind fun link hlink => walks_lift_bind fun header _ => ?_
  rw [tableSites, linkTo_eq hlink]
  exact walks_declareTable (walks_lower false) _ _ _

theorem walks_conceptLines (c : Api.Concept) :
    Walks manual (manual.conceptLines c) (manual.conceptSites c) := by
  unfold conceptLines conceptSites
  cases c.kind with
  | identification options => exact walks_identificationLines c options
  | plain => exact walks_lift _
  | struct attributes => exact walks_structLines c.name c.doc attributes
  | flag options => exact walks_lift _
  | table shape => exact walks_tableLines c shape _
  | tableOrArray shape => exact walks_tableLines c shape _
  | union options => exact walks_lift _
  | filter shape => exact walks_tableLines c shape _

end Manual

theorem walks_mainLines (job : Job) : Walks job.manual job.mainLines job.sites := by
  refine walks_lift_bind fun builtins _ => walks_lift_bind fun constants _ => ?_
  apply walks_bind (walks_linesOf Manual.walks_eventLines _)
  intro events
  apply walks_bind (walks_linesOf Manual.walks_classLines _)
  intro classes
  exact walks_bind_pure (walks_linesOf Manual.walks_conceptLines _)

end LuaStubs
