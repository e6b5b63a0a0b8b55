import LuaStubs.Proofs.Arrangement.Types
import LuaStubs.Proofs.Arrangement.Sorting
import LuaStubs.Stub.Concepts
import LuaStubs.Stub.Constants

/-! Entries in order are written as the entries are. A class that cannot be written may be refused
for another operator, so that for classes only what is written is compared. -/

namespace LuaStubs

namespace Emission

variable {α β : Type} {key : α → Nat}

/-- Lists are written by their order keys, so that it does not matter if they come in order. -/
theorem linesOf_inOrder {f : α → α} {step step' : α → Emission (List Line)}
    (same : ∀ a, key (f a) = key a) (h : ∀ a, step' (f a) = step a) (xs : List α) :
    linesOf step' (sortOn key (sortOn key (xs.map f))) = linesOf step (sortOn key xs) := by
  rw [sortOn_sortOn_map same, linesOf_map h]

theorem linesOf_map_eq_ok {f : α → β} {step : α → Emission (List Line)}
    {step' : β → Emission (List Line)} {xs : List α}
    (h : ∀ a ∈ xs, ∀ b r, step' (f a) b = .ok r ↔ step a b = .ok r) (b : Backlog)
    (r : List Line × Backlog) :
    linesOf step' (xs.map f) b = .ok r ↔ linesOf step xs b = .ok r := by
  induction xs generalizing b r with
  | nil => rfl
  | cons a rest ih =>
    obtain ⟨ha, hrest⟩ := List.forall_mem_cons.mp h
    simp only [List.map_cons, linesOf, bind_eq_ok, pure_eq_ok, ha, ih hrest]

end Emission

/-! Putting the parts of an entry in order changes neither its name nor its key. -/

namespace Api

theorem Attribute.order_arranged (a : Attribute) : a.arranged.order = a.order := rfl

theorem Operator.order_arranged (o : Operator) : o.arranged.order = o.order := rfl

theorem Method.order_arranged (m : Method) : m.arranged.order = m.order := rfl

theorem Identification.order_arranged (o : Identification) : o.arranged.order = o.order := rfl

theorem Class.order_arranged (c : Class) : c.arranged.order = c.order := rfl

theorem Class.name_arranged (c : Class) : c.arranged.name = c.name := rfl

theorem Event.order_arranged (e : Event) : e.arranged.order = e.order := rfl

theorem Event.name_arranged (e : Event) : e.arranged.name = e.name := rfl

theorem Concept.order_arranged (c : Concept) : c.arranged.order = c.order := rfl

theorem Concept.name_arranged (c : Concept) : c.arranged.name = c.name := rfl

theorem Shape.firstType?_arranged (shape : Shape) :
    shape.arranged.firstType? = shape.firstType?.map TypeExpr.arranged := by
  unfold firstType?
  rw [shape.arranged_eq]
  change ((sortOn _ (sortOn _ (shape.parameters.map _))).head?).map _ = _
  rw [sortOn_sortOn_map TableField.order_arranged, List.head?_map, Option.map_map, Option.map_map]
  congr 1
  funext p
  change p.arranged.type = p.type.arranged
  rw [p.arranged_eq]

theorem Class.calledOnce_arranged (c : Class) : c.arranged.CalledOnce ↔ c.CalledOnce := by
  have hperm : c.arranged.operators.Perm (c.operators.map Operator.arranged) := sortOn_perm _ _
  unfold CalledOnce
  rw [(hperm.filter _).length_eq, List.filter_map, List.length_map]
  rfl

theorem Concept.elementType?_arranged (c : Concept) :
    c.arranged.elementType? = c.elementType?.map TypeExpr.arranged := by
  have hkind : c.arranged.kind = c.kind.arranged := rfl
  unfold elementType?
  rw [hkind]
  cases c.kind with
  | tableOrArray shape => exact shape.firstType?_arranged
  | _ => rfl

theorem Operator.asAttribute_arranged (o : Operator) :
    o.arranged.asAttribute = o.asAttribute.arranged := by
  unfold asAttribute Attribute.arranged arranged
  cases o.type with
  | none => rfl
  | some type => rfl

end Api

namespace Manual

variable {first second : Manual} (arranges : first.Arranges second)
include arranges

/-! Members. -/

theorem memberView_eq (owner anchor : String) :
    second.memberView owner anchor = first.memberView owner anchor :=
  (arranges.view_eq _).symm

theorem remark_eq (description : String) : second.remark description = first.remark description := by
  unfold remark
  rw [arranges.comment_eq, arranges.prepare_eq]

theorem attributeLines_arranged (owner : String) (a : Api.Attribute) (name : MemberName) :
    second.attributeLines owner a.arranged name = first.attributeLines owner a name := by
  unfold attributeLines
  simp only [memberView_eq arranges, ← arranges.describe_eq, Api.Attribute.arranged,
    lower_arranged arranges]
  rfl

theorem parameterLines_arranged (owner method link : String) (p : Api.Parameter) :
    second.parameterLines owner method link p.arranged = first.parameterLines owner method link p := by
  unfold parameterLines
  rw [p.arranged_eq]
  simp only [lower_arranged arranges, remark_eq arranges]

theorem varargLines_arranged (owner link : String) (m : Api.Method) :
    second.varargLines owner link m.arranged = first.varargLines owner link m := by
  unfold varargLines varargComment
  simp only [Api.Method.arranged, Api.Signature.arranged]
  cases m.signature.variadicType with
  | none => rfl
  | some variadic => simp only [Option.map_some, lower_arranged arranges, ← arranges.comment_eq]

theorem resultLines_arranged (owner link : String) (m : Api.Method) :
    second.resultLines owner link m.arranged = first.resultLines owner link m := by
  unfold resultLines
  simp only [Api.Method.arranged, Api.Signature.arranged]
  cases m.signature.returnType with
  | none => rfl
  | some result => simp only [Option.map_some, lower_arranged arranges, remark_eq arranges]

omit arranges in
theorem arguments_arranged (signature : Api.Signature) :
    arguments signature.arranged = arguments signature := by
  unfold arguments
  simp only [Api.Signature.arranged, sortOn_sortOn_map TableField.order_arranged, List.map_map,
    Option.isSome_map]
  congr 2
  funext p
  change Identifier.escapeKeyword p.arranged.name = _
  rw [p.arranged_eq]

theorem methodLines_arranged (owner : String) (m : Api.Method) (name : MemberName) :
    second.methodLines owner m.arranged name = first.methodLines owner m name := by
  have hparameters (link : String) :
      Emission.linesOf (second.parameterLines owner m.name link)
          (sortOn (·.order) m.signature.arranged.parameters) =
        Emission.linesOf (first.parameterLines owner m.name link)
          (sortOn (·.order) m.signature.parameters) :=
    Emission.linesOf_inOrder TableField.order_arranged
      (parameterLines_arranged arranges owner m.name link) m.signature.parameters
  unfold methodLines
  simp only [memberView_eq arranges, varargLines_arranged arranges, resultLines_arranged arranges]
  simp only [Api.Method.arranged, hparameters, ← arranges.describe_eq, arguments_arranged]

theorem tableMethodLines_arranged (owner : String) (m : Api.Method) :
    second.tableMethodLines owner m.arranged = first.tableMethodLines owner m := by
  have htable (table : Place) (link : String) :
      declareTable second (second.lower false) table link
          (TableField.all appliesTo m.signature.arranged.parameters m.signature.arranged.groups) =
        declareTable first (first.lower false) table link
          (TableField.all appliesTo m.signature.parameters m.signature.groups) := by
    simp only [Api.Signature.arranged, TableField.all_arranged]
    exact declareTable_arranged arranges.toSamePages (lower_arranged arranges false) table link _
  unfold tableMethodLines
  simp only [memberView_eq arranges, resultLines_arranged arranges]
  simp only [Api.Method.arranged, htable, ← arranges.describe_eq]
  rfl

/-! Classes. -/

theorem attributesLines_arranged (owner : String) (attributes : List Api.Attribute) :
    second.attributesLines owner (sortOn (·.order) (attributes.map Api.Attribute.arranged)) =
      first.attributesLines owner attributes :=
  Emission.linesOf_inOrder Api.Attribute.order_arranged
    (fun a => attributeLines_arranged arranges owner a (.plain a.name)) attributes

theorem classComment_eq (name : String) (doc : Api.Documentation) :
    second.classComment name doc = first.classComment name doc := by
  unfold classComment classDescription
  simp only [arranges.globals, ← arranges.view_eq, ← arranges.describe_eq]

theorem operatorLines_arranged (owner : String) (o : Api.Operator) :
    second.operatorLines owner o.arranged = first.operatorLines owner o := by
  unfold operatorLines
  rw [o.asAttribute_arranged]
  simp only [attributeLines_arranged arranges]
  rfl

theorem memberFunctionLines_arranged (owner : String) (m : Api.Method) :
    second.memberFunctionLines owner m.arranged = first.memberFunctionLines owner m := by
  unfold memberFunctionLines
  rw [tableMethodLines_arranged arranges, ← methodLines_arranged arranges]
  rfl

theorem callLines_arranged {c : Api.Class} (once : c.CalledOnce) :
    second.callLines c.name c.arranged.operators = first.callLines c.name c.operators := by
  have hperm : (c.operators.map Api.Operator.arranged).Perm c.arranged.operators :=
    (sortOn_perm _ _).symm
  have once' : ((c.operators.map Api.Operator.arranged).filter (·.name = "call")).length ≤ 1 := by
    rw [(hperm.filter _).length_eq]
    exact c.calledOnce_arranged.mpr once
  have hfind : c.arranged.operators.find? (·.name = "call") =
      (c.operators.find? (·.name = "call")).map Api.Operator.arranged := by
    rw [find?_eq_of_perm hperm once', List.find?_map]
    rfl
  unfold callLines
  rw [hfind]
  cases c.operators.find? (·.name = "call") with
  | none => rfl
  | some o => exact methodLines_arranged arranges c.name o.asMethod .call

omit arranges in
theorem checkOperators_eq_ok (owner : String) (operators : List Api.Operator) :
    checkOperators owner operators = .ok () ↔
      ∀ o ∈ operators, expressible.contains o.name = true := by
  unfold checkOperators
  cases hfound : operators.find? fun o => !expressible.contains o.name with
  | none =>
    apply iff_of_true rfl
    simpa using hfound
  | some o =>
    apply iff_of_false (fun h => by cases h)
    intro all
    have unknown := List.find?_some hfound
    rw [all o (List.mem_of_find?_eq_some hfound)] at unknown
    cases unknown

omit arranges in
theorem checkOperators_arranged (c : Api.Class) :
    checkOperators c.name c.arranged.operators = .ok () ↔
      checkOperators c.name c.operators = .ok () := by
  rw [checkOperators_eq_ok, checkOperators_eq_ok]
  constructor
  · intro all o ho
    exact all o.arranged ((mem_sortOn _ _ _).mpr (List.mem_map_of_mem ho))
  · intro all o ho
    obtain ⟨o', ho', rfl⟩ := List.mem_map.mp ((mem_sortOn _ _ _).mp ho)
    exact all o' ho'

omit arranges in
theorem checkOperators_of_classLines {manual : Manual} {c : Api.Class} {b : Backlog}
    {r : List Line × Backlog} (h : manual.classLines c b = .ok r) :
    checkOperators c.name c.operators = .ok () := by
  obtain ⟨_, _, -, h⟩ := Emission.bind_eq_ok.mp h
  obtain ⟨_, _, h, -⟩ := Emission.bind_eq_ok.mp h
  obtain ⟨_, h, -⟩ := Emission.liftM_eq_ok.mp h
  exact h

theorem classLines_arranged {c : Api.Class} (once : c.CalledOnce) (b : Backlog)
    (r : List Line × Backlog) :
    second.classLines c.arranged b = .ok r ↔ first.classLines c b = .ok r := by
  have hfields : second.attributesLines c.name c.arranged.attributes =
      first.attributesLines c.name c.attributes :=
    attributesLines_arranged arranges c.name c.attributes
  have hoperators : Emission.linesOf (second.operatorLines c.name)
        (sortOn (·.order) c.arranged.operators) =
      Emission.linesOf (first.operatorLines c.name) (sortOn (·.order) c.operators) :=
    Emission.linesOf_inOrder Api.Operator.order_arranged (operatorLines_arranged arranges c.name)
      c.operators
  have hmethods : Emission.linesOf (second.memberFunctionLines c.name)
        (sortOn (·.order) c.arranged.methods) =
      Emission.linesOf (first.memberFunctionLines c.name) (sortOn (·.order) c.methods) :=
    Emission.linesOf_inOrder Api.Method.order_arranged (memberFunctionLines_arranged arranges c.name)
      c.methods
  have hvariable : second.classVariable c.name = first.classVariable c.name := by
    unfold classVariable
    rw [arranges.globals]
  by_cases allowed : checkOperators c.name c.operators = .ok ()
  · have allowed' : checkOperators c.name c.arranged.operators = .ok () :=
      (checkOperators_arranged c).mpr allowed
    have hequal : second.classLines c.arranged = first.classLines c := by
      have hdoc : c.arranged.doc = c.doc := rfl
      have hbases : c.arranged.baseClasses = c.baseClasses := rfl
      unfold classLines
      rw [c.name_arranged, hdoc, hbases, hfields, hoperators, hmethods, hvariable, allowed, allowed',
        classComment_eq arranges, callLines_arranged arranges once]
    rw [hequal]
  · have refused : checkOperators c.name c.arranged.operators ≠ .ok () :=
      fun h => allowed ((checkOperators_arranged c).mp h)
    constructor
    · intro h
      exact absurd (checkOperators_of_classLines h) refused
    · intro h
      exact absurd (checkOperators_of_classLines h) allowed

theorem classesLines_arranged {classes : List Api.Class} (once : ∀ c ∈ classes, c.CalledOnce)
    (b : Backlog) (r : List Line × Backlog) :
    second.classesLines (sortOn (·.order) (classes.map Api.Class.arranged)) b = .ok r ↔
      first.classesLines classes b = .ok r := by
  unfold classesLines
  rw [sortOn_sortOn_map Api.Class.order_arranged]
  refine Emission.linesOf_map_eq_ok (fun c hc => ?_) b r
  exact classLines_arranged arranges (once c ((mem_sortOn _ c classes).mp hc))

/-! Events and concepts. -/

theorem eventField_arranged (event link : String) (p : Api.Parameter) :
    second.eventField event link p.arranged = first.eventField event link p := by
  unfold eventField
  rw [p.arranged_eq]
  simp only [lower_arranged arranges, ← arranges.brief_eq]

theorem eventLines_arranged (e : Api.Event) :
    second.eventLines e.arranged = first.eventLines e := by
  have hfields (link : String) :
      Emission.linesOf (second.eventField e.name link) (sortOn (·.order) e.arranged.data) =
        Emission.linesOf (first.eventField e.name link) (sortOn (·.order) e.data) :=
    Emission.linesOf_inOrder TableField.order_arranged (eventField_arranged arranges e.name link)
      e.data
  have hdoc : e.arranged.doc = e.doc := rfl
  unfold eventLines
  simp only [e.name_arranged, hdoc, hfields, ← arranges.view_eq, ← arranges.describe_eq]

theorem eventsLines_arranged (events : List Api.Event) :
    second.eventsLines (sortOn (·.order) (events.map Api.Event.arranged)) =
      first.eventsLines events :=
  Emission.linesOf_inOrder Api.Event.order_arranged (eventLines_arranged arranges) events

theorem identificationOption_arranged (owner link : String) (o : Api.Identification) :
    second.identificationOption owner link o.arranged = first.identificationOption owner link o := by
  unfold identificationOption
  simp only [Api.Identification.arranged, lower_arranged arranges]

theorem identificationLines_arranged (c : Api.Concept) (options : List Api.Identification) :
    second.identificationLines c.arranged
        (sortOn (·.order) (options.map Api.Identification.arranged)) =
      first.identificationLines c options := by
  have hoptions (link : String) :
      Emission.eachFrom (fun _ => second.identificationOption c.name link) 0
          (sortOn (·.order) (sortOn (·.order) (options.map Api.Identification.arranged))) =
        Emission.eachFrom (fun _ => first.identificationOption c.name link) 0
          (sortOn (·.order) options) := by
    rw [sortOn_sortOn_map Api.Identification.order_arranged]
    refine Emission.eachFrom_map (fun _ o => ?_) 0 _
    exact identificationOption_arranged arranges c.name link o
  have hdoc : c.arranged.doc = c.doc := rfl
  unfold identificationLines
  simp only [c.name_arranged, hdoc, hoptions, ← arranges.view_eq, ← arranges.describe_eq]

theorem plainLines_arranged (c : Api.Concept) :
    second.plainLines c.arranged = first.plainLines c := by
  unfold plainLines
  simp only [← arranges.view_eq, ← arranges.describe_eq]
  rfl

theorem structLines_arranged (name : String) (doc : Api.Documentation)
    (attributes : List Api.Attribute) :
    second.structLines name doc (sortOn (·.order) (attributes.map Api.Attribute.arranged)) =
      first.structLines name doc attributes := by
  unfold structLines
  simp only [classComment_eq arranges, attributesLines_arranged arranges]

theorem flagLines_eq (link : String) (options : List Api.Choice) :
    second.flagLines link options = first.flagLines link options := by
  induction options with
  | nil => rfl
  | cons choice rest ih => rw [flagLines, flagLines, ih, arranges.brief_eq]

theorem flagsLines_arranged (c : Api.Concept) (options : List Api.Choice) :
    second.flagsLines c.arranged (sortOn (·.order) options) = first.flagsLines c options := by
  unfold flagsLines
  simp only [sortOn_sortOn, flagLines_eq arranges, ← arranges.view_eq, ← arranges.describe_eq]
  rfl

theorem unionLines_arranged (c : Api.Concept) (options : List Api.Choice) :
    second.unionLines c.arranged (sortOn (·.order) options) = first.unionLines c options := by
  unfold unionLines
  simp only [sortOn_sortOn, ← arranges.view_eq, ← arranges.describe_eq]
  rfl

theorem tableLines_arranged (c : Api.Concept) (shape : Api.Shape) (words : String) :
    second.tableLines c.arranged shape.arranged words = first.tableLines c shape words := by
  have hfields : TableField.all words shape.arranged.parameters shape.arranged.groups =
      (TableField.all words shape.parameters shape.groups).mapValues TableField.arranged := by
    rw [shape.arranged_eq]
    exact TableField.all_arranged words shape.parameters shape.groups
  have hdescription : tableDescription c.arranged shape.arranged = tableDescription c shape := by
    rw [shape.arranged_eq]
    rfl
  have hdoc : c.arranged.doc = c.doc := rfl
  unfold tableLines
  simp only [c.name_arranged, hdoc, hdescription, hfields, ← arranges.view_eq, ← arranges.overview_eq,
    declareTable_arranged arranges.toSamePages (lower_arranged arranges false)]

theorem conceptLines_arranged (c : Api.Concept) :
    second.conceptLines c.arranged = first.conceptLines c := by
  have hkind : c.arranged.kind = c.kind.arranged := rfl
  have hdoc : c.arranged.doc = c.doc := rfl
  unfold conceptLines
  rw [hkind, c.name_arranged, hdoc]
  cases c.kind with
  | identification options => exact identificationLines_arranged arranges c options
  | plain => simp only [Api.ConceptKind.arranged, plainLines_arranged arranges]
  | struct attributes => exact structLines_arranged arranges c.name c.doc attributes
  | flag options => simp only [Api.ConceptKind.arranged, flagsLines_arranged arranges]
  | table shape => exact tableLines_arranged arranges c shape appliesTo
  | tableOrArray shape => exact tableLines_arranged arranges c shape appliesTo
  | union options => simp only [Api.ConceptKind.arranged, unionLines_arranged arranges]
  | filter shape => exact tableLines_arranged arranges c shape appliesToFilter

theorem conceptsLines_arranged (concepts : List Api.Concept) :
    second.conceptsLines (sortOn (·.order) (concepts.map Api.Concept.arranged)) =
      first.conceptsLines concepts :=
  Emission.linesOf_inOrder Api.Concept.order_arranged (conceptLines_arranged arranges) concepts

end Manual

/-! Builtins and constants, in which no types occur. -/

theorem sortedConstants_eq (nodes : List Api.Constant) :
    sortedConstants nodes = nodes.map Api.Constant.sorted := by
  induction nodes with
  | nil => rfl
  | cons node rest ih => rw [sortedConstants, ih, List.map_cons]

theorem Api.Constant.order_sorted (node : Api.Constant) : node.sorted.order = node.order := by
  cases node
  rfl

theorem sortOn_sortedConstants_of_sorted {nodes : List Api.Constant}
    (h : sortedConstants (sortedConstants nodes) = sortedConstants nodes) :
    sortOn (·.order) (sortedConstants (sortOn (·.order) (sortedConstants nodes))) =
      sortOn (·.order) (sortedConstants nodes) := by
  rw [sortedConstants_eq (sortOn _ _), ← sortOn_map Api.Constant.order_sorted, sortOn_sortOn,
    ← sortedConstants_eq, h]

mutual

theorem Api.Constant.sorted_sorted : ∀ node : Api.Constant, node.sorted.sorted = node.sorted
  | ⟨_, _, _, _, subkeys⟩ => by
    rw [Api.Constant.sorted, Api.Constant.sorted, sortOn_sortOn,
      sortOn_sortedConstants_of_sorted (sortedConstants_sortedConstants subkeys)]

theorem sortedConstants_sortedConstants :
    ∀ nodes : List Api.Constant, sortedConstants (sortedConstants nodes) = sortedConstants nodes
  | [] => rfl
  | node :: rest => by
    rw [sortedConstants, sortedConstants, node.sorted_sorted, sortedConstants_sortedConstants rest]

end

namespace Manual

variable {first second : Manual}

theorem builtinsLines_eq (same : first.SamePages second) (settings : Settings) (builtins : List Api.Builtin) :
    second.builtinsLines settings builtins = first.builtinsLines settings builtins := by
  induction builtins with
  | nil => rfl
  | cons b rest ih =>
    have hentry : second.builtinLines b = first.builtinLines b := by
      unfold builtinLines
      simp only [← same.view_eq, ← same.brief_eq]
    rw [builtinsLines, builtinsLines, hentry, ih]

theorem valuesLines_eq (same : first.SamePages second) (node : String)
    (values : List Api.ConstantValue) :
    second.valuesLines node values = first.valuesLines node values := by
  induction values with
  | nil => rfl
  | cons value rest ih =>
    have hentry : second.valueLines node value = first.valueLines node value := by
      unfold valueLines
      simp only [← same.view_eq, ← same.brief_eq]
    rw [valuesLines, valuesLines, hentry, ih]

mutual

theorem treeLines_eq (same : first.SamePages second) (parent : String) :
    ∀ node : Api.Constant, second.treeLines parent node = first.treeLines parent node
  | ⟨name, _, description, values, subkeys⟩ => by
    rw [treeLines, treeLines, valuesLines_eq same, treesLines_eq same (parent ++ "." ++ name) subkeys,
      same.view_eq]
    simp only [same.brief_eq]

theorem treesLines_eq (same : first.SamePages second) (parent : String) :
    ∀ nodes : List Api.Constant, second.treesLines parent nodes = first.treesLines parent nodes
  | [] => rfl
  | node :: rest => by
    rw [treesLines, treesLines, treeLines_eq same parent node, treesLines_eq same parent rest]

end

theorem constantLines_arranged (same : first.SamePages second) (trees : List Api.Constant) :
    second.constantLines (sortOn (·.order) (sortedConstants trees)) =
      first.constantLines trees := by
  unfold constantLines
  simp only [sortOn_sortedConstants_of_sorted (sortedConstants_sortedConstants trees),
    treesLines_eq same, ← same.view_eq, ← same.comment_eq]

end Manual

end LuaStubs
