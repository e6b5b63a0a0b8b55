import LuaStubs.Proofs.Lowering.Deeper
import LuaStubs.Proofs.Success.Document

/-! Every run comes to an end, however the tables inside the elements of concepts refer back to
these concepts. Only the writing of types could go on for ever, and it keeps to a depth that is
known from the description and the type. -/

namespace LuaStubs

theorem ok_ne_endless {α : Type} {a : α} :
    (.ok a : Except StubError α) ≠ .error .endlessType := by
  intro h
  cases h

namespace Manual

variable {manual : Manual}

/-! Texts. -/

theorem describe_ne_endless (doc : Api.Documentation) (link description : String) :
    manual.describe doc link description ≠ .error .endlessType := by
  have hreferences (names : List String) : manual.references names ≠ .error .endlessType := by
    induction names with
    | nil => exact ok_ne_endless
    | cons name rest ih =>
      exact bind_ne_endless (link_ne_endless _ _) fun _ => bind_ne_endless ih fun _ =>
        ok_ne_endless
  have hseeAlso : manual.seeAlso doc.seeAlso ≠ .error .endlessType := by
    unfold seeAlso
    split
    · exact ok_ne_endless
    · exact map_ne_endless (hreferences _)
  have hoverview : manual.overview doc link description ≠ .error .endlessType :=
    bind_ne_endless hseeAlso fun _ => ok_ne_endless
  exact bind_ne_endless hoverview fun text => comment_ne_endless text

theorem overview_ne_endless (doc : Api.Documentation) (link description : String) :
    manual.overview doc link description ≠ .error .endlessType := by
  intro h
  apply @describe_ne_endless manual doc link description
  unfold describe
  rw [h]
  rfl

theorem classComment_ne_endless (name : String) (doc : Api.Documentation) :
    manual.classComment name doc ≠ .error .endlessType :=
  bind_ne_endless (link_ne_endless _ _) fun link => describe_ne_endless doc link _

theorem remark_ne_endless (description : String) :
    manual.remark description ≠ .error .endlessType := by
  unfold remark
  split
  · exact ok_ne_endless
  · split
    · exact map_ne_endless (comment_ne_endless _)
    · exact map_ne_endless (prepareStretches_ne_endless _)

theorem varargComment_ne_endless (description : String) :
    manual.varargComment description ≠ .error .endlessType := by
  unfold varargComment
  split
  · exact ok_ne_endless
  · exact comment_ne_endless _

theorem checkOperators_ne_endless (owner : String) (operators : List Api.Operator) :
    checkOperators owner operators ≠ .error .endlessType := by
  unfold checkOperators
  split
  · intro h
    cases h
  · exact ok_ne_endless

theorem builtinsLines_ne_endless (settings : Settings) (builtins : List Api.Builtin) :
    manual.builtinsLines settings builtins ≠ .error .endlessType := by
  induction builtins with
  | nil => exact ok_ne_endless
  | cons b rest ih =>
    have hlines : manual.builtinLines b ≠ .error .endlessType :=
      bind_ne_endless (link_ne_endless _ _) fun _ =>
        bind_ne_endless (comment_ne_endless _) fun _ => ok_ne_endless
    unfold builtinsLines
    split
    · exact bind_ne_endless ok_ne_endless fun _ => bind_ne_endless ih fun _ => ok_ne_endless
    · exact bind_ne_endless hlines fun _ => bind_ne_endless ih fun _ => ok_ne_endless

theorem valuesLines_ne_endless (node : String) (values : List Api.ConstantValue) :
    manual.valuesLines node values ≠ .error .endlessType := by
  induction values with
  | nil => exact ok_ne_endless
  | cons value rest ih =>
    have hvalue : manual.valueLines node value ≠ .error .endlessType :=
      bind_ne_endless (link_ne_endless _ _) fun _ =>
        bind_ne_endless (comment_ne_endless _) fun _ => ok_ne_endless
    exact bind_ne_endless hvalue fun _ => bind_ne_endless ih fun _ => ok_ne_endless

mutual

theorem treeLines_ne_endless (parent : String) :
    ∀ node : Api.Constant, manual.treeLines parent node ≠ .error .endlessType
  | ⟨name, _, description, values, subkeys⟩ => by
    unfold treeLines
    exact bind_ne_endless (link_ne_endless _ _) fun _ =>
      bind_ne_endless (comment_ne_endless _) fun _ =>
        bind_ne_endless (valuesLines_ne_endless _ _) fun _ =>
          bind_ne_endless (treesLines_ne_endless _ subkeys) fun _ => ok_ne_endless

theorem treesLines_ne_endless (parent : String) :
    ∀ nodes : List Api.Constant, manual.treesLines parent nodes ≠ .error .endlessType
  | [] => ok_ne_endless
  | node :: rest => by
    unfold treesLines
    exact bind_ne_endless (treeLines_ne_endless parent node) fun _ =>
      bind_ne_endless (treesLines_ne_endless parent rest) fun _ => ok_ne_endless

end

theorem constantLines_ne_endless (trees : List Api.Constant) :
    manual.constantLines trees ≠ .error .endlessType :=
  bind_ne_endless (link_ne_endless _ _) fun _ =>
    bind_ne_endless (comment_ne_endless _) fun _ =>
      bind_ne_endless (treesLines_ne_endless _ _) fun _ => ok_ne_endless

theorem plainLines_ne_endless (c : Api.Concept) :
    manual.plainLines c ≠ .error .endlessType :=
  bind_ne_endless (link_ne_endless _ _) fun _ =>
    bind_ne_endless (describe_ne_endless _ _ _) fun _ => ok_ne_endless

theorem unionLines_ne_endless (c : Api.Concept) (options : List Api.Choice) :
    manual.unionLines c options ≠ .error .endlessType :=
  bind_ne_endless (link_ne_endless _ _) fun _ =>
    bind_ne_endless (describe_ne_endless _ _ _) fun _ => ok_ne_endless

theorem flagsLines_ne_endless (c : Api.Concept) (options : List Api.Choice) :
    manual.flagsLines c options ≠ .error .endlessType := by
  have hflags (link : String) (choices : List Api.Choice) :
      manual.flagLines link choices ≠ .error .endlessType := by
    induction choices with
    | nil => exact ok_ne_endless
    | cons choice rest ih =>
      exact bind_ne_endless (comment_ne_endless _) fun _ =>
        bind_ne_endless ih fun _ => ok_ne_endless
  exact bind_ne_endless (link_ne_endless _ _) fun _ =>
    bind_ne_endless (describe_ne_endless _ _ _) fun _ =>
      bind_ne_endless (hflags _ _) fun _ => ok_ne_endless

/-! Entries, which end where their types do. -/

open Emission

def TypesEnd (manual : Manual) : Prop :=
  ∀ linked type place, Ends (fun _ => True) (manual.lower linked type place)

theorem typesEnd (acyclic : Acyclic manual.catalog.elements) : manual.TypesEnd :=
  fun linked type place b _ =>
    ⟨lower_ne_endless acyclic linked type place b, fun _ _ _ => trivial⟩

variable (ends : manual.TypesEnd)
include ends

theorem ends_fields (table : Place) (header : String) (fields : NameMap TableField) :
    Ends (fun _ => True) (declareTable manual (manual.lower false) table header fields) :=
  @Closed.declareTable Unit _ (closed_ends _) manual (fun _ => manual.lower false) table header fields
    fun site _ => ends false site.type site.place

theorem ends_attributeLines (owner : String) (a : Api.Attribute) (name : MemberName) :
    Ends (fun _ => True) (manual.attributeLines owner a name) :=
  ends_bind (ends_lift (link_ne_endless _ _)) fun _ =>
    ends_bind (ends_lift (describe_ne_endless _ _ _)) fun _ =>
      ends_bind (ends false _ _) fun _ => ends_pure _

theorem ends_parameterLines (owner method link : String) (p : Api.Parameter) :
    Ends (fun _ => True) (manual.parameterLines owner method link p) :=
  ends_bind (ends false _ _) fun _ =>
    ends_bind (ends_lift (remark_ne_endless _)) fun _ => ends_pure _

theorem ends_varargLines (owner link : String) (m : Api.Method) :
    Ends (fun _ => True) (manual.varargLines owner link m) := by
  unfold varargLines
  cases m.signature.variadicType with
  | none => exact ends_pure _
  | some variadic =>
    exact ends_bind (ends false _ _) fun _ =>
      ends_bind (ends_lift (varargComment_ne_endless _)) fun _ => ends_pure _

theorem ends_resultLines (owner link : String) (m : Api.Method) :
    Ends (fun _ => True) (manual.resultLines owner link m) := by
  unfold resultLines
  cases m.signature.returnType with
  | none => exact ends_pure _
  | some result =>
    exact ends_bind (ends false _ _) fun _ =>
      ends_bind (ends_lift (remark_ne_endless _)) fun _ => ends_pure _

theorem ends_methodLines (owner : String) (m : Api.Method) (name : MemberName) :
    Ends (fun _ => True) (manual.methodLines owner m name) := by
  apply ends_bind (ends_lift (link_ne_endless _ _))
  intro link
  apply ends_bind (ends_lift (describe_ne_endless _ _ _))
  intro comment
  apply ends_bind (ends_linesOf fun p _ => ends_parameterLines ends owner m.name link p)
  intro parameters
  apply ends_bind (ends_varargLines ends owner link m)
  intro vararg
  exact ends_bind (ends_resultLines ends owner link m) fun _ => ends_pure _

theorem ends_tableMethodLines (owner : String) (m : Api.Method) :
    Ends (fun _ => True) (manual.tableMethodLines owner m) := by
  apply ends_bind (ends_lift (link_ne_endless _ _))
  intro link
  apply ends_bind (ends_fields ends _ _ _)
  intro declaration
  apply ends_bind (ends_lift (describe_ne_endless _ _ _))
  intro comment
  exact ends_bind (ends_resultLines ends owner link m) fun _ => ends_pure _

theorem ends_attributesLines (owner : String) (attributes : List Api.Attribute) :
    Ends (fun _ => True) (manual.attributesLines owner attributes) :=
  ends_linesOf fun a _ => ends_attributeLines ends owner a _

theorem ends_structLines (name : String) (doc : Api.Documentation)
    (attributes : List Api.Attribute) :
    Ends (fun _ => True) (manual.structLines name doc attributes) :=
  ends_bind (ends_lift (classComment_ne_endless name doc)) fun _ =>
    ends_bind (ends_attributesLines ends name attributes) fun _ => ends_pure _

theorem ends_operatorLines (owner : String) (o : Api.Operator) :
    Ends (fun _ => True) (manual.operatorLines owner o) := by
  unfold operatorLines
  split
  · exact ends_attributeLines ends owner _ _
  · split
    · exact ends_attributeLines ends owner _ _
    · exact ends_pure _

theorem ends_memberFunctionLines (owner : String) (m : Api.Method) :
    Ends (fun _ => True) (manual.memberFunctionLines owner m) := by
  unfold memberFunctionLines
  split
  · exact ends_tableMethodLines ends owner m
  · exact ends_methodLines ends owner m _

theorem ends_callLines (owner : String) (operators : List Api.Operator) :
    Ends (fun _ => True) (manual.callLines owner operators) := by
  unfold callLines
  split
  · exact ends_methodLines ends owner _ _
  · exact ends_pure _

theorem ends_classLines (c : Api.Class) : Ends (fun _ => True) (manual.classLines c) := by
  apply ends_bind (ends_lift (classComment_ne_endless _ _))
  intro comment
  apply ends_bind (ends_lift (checkOperators_ne_endless _ _))
  intro checked
  apply ends_bind (ends_attributesLines ends c.name c.attributes)
  intro fields
  apply ends_bind (ends_linesOf fun o _ => ends_operatorLines ends c.name o)
  intro operators
  apply ends_bind (ends_linesOf fun m _ => ends_memberFunctionLines ends c.name m)
  intro methods
  exact ends_bind (ends_callLines ends c.name c.operators) fun call => ends_pure _

theorem ends_eventLines (e : Api.Event) : Ends (fun _ => True) (manual.eventLines e) := by
  apply ends_bind (ends_lift (link_ne_endless _ _))
  intro link
  apply ends_bind (ends_lift (describe_ne_endless _ _ _))
  intro comment
  refine ends_bind (ends_linesOf fun p _ => ?_) fun _ => ends_pure _
  exact ends_bind (ends_lift (comment_ne_endless _)) fun _ =>
    ends_bind (ends false _ _) fun _ => ends_pure _

theorem ends_identificationLines (c : Api.Concept) (options : List Api.Identification) :
    Ends (fun _ => True) (manual.identificationLines c options) := by
  apply ends_bind (ends_lift (link_ne_endless _ _))
  intro link
  refine ends_bind (ends_eachFrom fun entry _ => ?_) fun _ => ?_
  · exact ends_bind (ends true _ _) fun _ =>
      ends_bind (ends false _ _) fun _ => ends_pure _
  · exact ends_bind (ends_lift (describe_ne_endless _ _ _)) fun _ => ends_pure _

theorem ends_tableLines (c : Api.Concept) (shape : Api.Shape) (words : String) :
    Ends (fun _ => True) (manual.tableLines c shape words) :=
  ends_bind (ends_lift (link_ne_endless _ _)) fun _ =>
    ends_bind (ends_lift (overview_ne_endless _ _ _)) fun header => ends_fields ends _ header _

theorem ends_conceptLines (c : Api.Concept) : Ends (fun _ => True) (manual.conceptLines c) := by
  unfold conceptLines
  cases c.kind with
  | identification options => exact ends_identificationLines ends c options
  | plain => exact ends_lift (plainLines_ne_endless c)
  | struct attributes => exact ends_structLines ends c.name c.doc attributes
  | flag options => exact ends_lift (flagsLines_ne_endless c options)
  | table shape => exact ends_tableLines ends c shape _
  | tableOrArray shape => exact ends_tableLines ends c shape _
  | union options => exact ends_lift (unionLines_ne_endless c options)
  | filter shape => exact ends_tableLines ends c shape _

end Manual

open Emission in
theorem ends_mainLines {job : Job} (ends : job.manual.TypesEnd) :
    Ends (fun _ => True) job.mainLines := by
  apply ends_bind (ends_lift (Manual.builtinsLines_ne_endless _ _))
  intro builtins
  apply ends_bind (ends_lift (Manual.constantLines_ne_endless _))
  intro constants
  apply ends_bind (ends_linesOf fun e _ => Manual.ends_eventLines ends e)
  intro events
  apply ends_bind (ends_linesOf fun c _ => Manual.ends_classLines ends c)
  intro classes
  exact ends_bind (ends_linesOf fun c _ => Manual.ends_conceptLines ends c) fun _ =>
    ends_pure _

theorem Job.run_ne_endless {job : Job} (ends : job.manual.TypesEnd) :
    job.run ≠ .error .endlessType := by
  have hlines : job.lines ≠ .error .endlessType :=
    bind_ne_endless (ends_mainLines ends .empty trivial).1 fun _ => ok_ne_endless
  exact bind_ne_endless hlines fun _ => ok_ne_endless

theorem Manual.declareTable_eq_lower {manual : Manual} (acyclic : Acyclic manual.catalog.elements)
    {depth : Nat} {fields : NameMap TableField}
    (enough : ∀ entry ∈ fields, manual.catalog.depthFor entry.2.type ≤ depth) (table : Place)
    (header : String) :
    declareTable manual (manual.lowerWithin depth false) table header fields =
      declareTable manual (manual.lower false) table header fields := by
  have hfields : Emission.linesOf (declareField manual (manual.lowerWithin depth false) table) fields =
      Emission.linesOf (declareField manual (manual.lower false) table) fields := by
    induction fields with
    | nil => rfl
    | cons entry rest ih =>
      obtain ⟨hentry, hrest⟩ := List.forall_mem_cons.mp enough
      have htype : manual.lowerWithin depth false entry.2.type =
          manual.lower false entry.2.type := by
        funext place b
        exact lowerWithin_eq_lower acyclic hentry place b
      have hentry : declareField manual (manual.lowerWithin depth false) table entry =
          declareField manual (manual.lower false) table entry := by
        unfold declareField
        dsimp only
        rw [htype]
      rw [Emission.linesOf, Emission.linesOf, hentry, ih hrest]
  unfold declareTable
  rw [hfields]

/-- Where no concept reaches itself outside of tables, every run has an end. A type is written
within every depth above the one that is computed from the catalog and the type, from any backlog,
and in the same way within all of them; and so are the fields of a table. -/
theorem stubsOf_ends {document : Api.Document} (acyclic : Acyclic document.elements) :
    (∀ settings appendix, stubsOf document settings appendix ≠ .error (.stub .endlessType)) ∧
    ∀ manual : Manual, Catalog.ofDocument document = .ok manual.catalog →
      (∀ linked type place backlog depth, manual.catalog.depthFor type ≤ depth →
        manual.lowerWithin depth linked type place backlog ≠ .error .endlessType ∧
        manual.lowerWithin depth linked type place backlog =
          manual.lowerWithin (manual.catalog.depthFor type) linked type place backlog) ∧
      ∀ table header fields backlog depth,
        (∀ entry ∈ fields, manual.catalog.depthFor entry.2.type ≤ depth) →
        declareTable manual (manual.lowerWithin depth false) table header fields backlog ≠
          .error .endlessType ∧
        declareTable manual (manual.lowerWithin depth false) table header fields =
          declareTable manual (manual.lower false) table header fields := by
  have elements {catalog : Catalog} (h : Catalog.ofDocument document = .ok catalog) :
      Acyclic catalog.elements := by
    obtain ⟨entries, -, rfl⟩ := Catalog.ofDocument_eq_ok.mp h
    exact acyclic
  constructor
  · intro settings appendix h
    unfold stubsOf Job.ofDocument at h
    cases hcatalog : Catalog.ofDocument document with
    | error e =>
      rw [hcatalog] at h
      cases h
    | ok catalog =>
      rw [hcatalog] at h
      let job : Job := ⟨document, catalog, settings, appendix⟩
      have hne : job.run ≠ .error .endlessType :=
        Job.run_ne_endless (Manual.typesEnd (elements hcatalog))
      change job.run.mapError GenerationError.stub = _ at h
      cases hrun : job.run with
      | error e =>
        rw [hrun] at h
        cases h
        exact hne hrun
      | ok stubs =>
        rw [hrun] at h
        cases h
  · intro manual hcatalog
    have acyclic := elements hcatalog
    constructor
    · intro linked type place backlog depth enough
      exact ⟨Manual.lowerWithin_ne_endless acyclic enough,
        Manual.lowerWithin_eq_lower acyclic enough place backlog⟩
    · intro table header fields backlog depth enough
      have same := Manual.declareTable_eq_lower acyclic enough table header
      have ends := Manual.ends_fields (Manual.typesEnd acyclic) table header fields
      exact ⟨by rw [same]; exact (ends backlog trivial).1, same⟩

/-- Two concepts whose elements refer to both of them: the first one inside a table, the second one
through an array of the first. -/
def entangled : Api.Document where
  classes := [⟨"A", 0, ⟨"", [], [], [], []⟩, [],
    [⟨"a", 0, ⟨"", [], [], [], []⟩, .named "Q", true, true⟩], [], []⟩]
  events := []
  concepts := [
    ⟨"P", 0, ⟨"", [], [], [], []⟩, .tableOrArray ⟨[⟨"x", 0, "", .table ⟨[
      ⟨"p", 0, "", .named "P", false⟩, ⟨"q", 1, "", .variant [.named "Q", .named "P"], false⟩],
      [], none⟩, false⟩], [], none⟩⟩,
    ⟨"Q", 1, ⟨"", [], [], [], []⟩,
      .tableOrArray ⟨[⟨"y", 0, "", .array (.named "P"), false⟩], [], none⟩⟩]
  builtins := [⟨"int", 0, ""⟩]
  globals := []
  constants := []

theorem entangled_acyclic : Acyclic entangled.elements := by
  apply acyclic_of_rank (fun name => if name = "Q" then 1 else 0)
  rintro concept name ⟨element, helement, hname⟩
  rcases List.mem_cons.mp (NameMap.mem_of_get? helement) with entry | entry
  · cases entry
    cases hname
  · cases List.mem_singleton.mp entry
    have only : name = "P" := List.mem_singleton.mp hname
    rw [only]
    decide

theorem stubsOf_entangled_ends :
    Acyclic entangled.elements ∧
      (stubsOf entangled ⟨"/", []⟩ "").toOption.map (·.names) = some ["P_elem", "P.x"] ∧
      stubsOf entangled ⟨"/", []⟩ "" ≠ .error (.stub .endlessType) ∧
      (Catalog.ofEntries entangled []).depthFor (.named "Q") ≤ 30 ∧
      (Manual.mk (Catalog.ofEntries entangled []) "/").lowerWithin 30 true (.named "Q") ⟨"A.a", ""⟩
        ⟨["P.x"], []⟩ ≠ .error .endlessType := by
  obtain ⟨run, types⟩ := stubsOf_ends entangled_acyclic
  have enough : (Catalog.ofEntries entangled []).depthFor (.named "Q") ≤ 30 := by decide
  obtain ⟨type, -⟩ := types ⟨Catalog.ofEntries entangled [], "/"⟩ rfl
  exact ⟨entangled_acyclic, by decide +kernel, run _ _, enough, (type _ _ _ _ _ enough).1⟩

end LuaStubs
