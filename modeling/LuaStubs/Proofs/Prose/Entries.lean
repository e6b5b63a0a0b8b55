import LuaStubs.Proofs.Prose.Types
import LuaStubs.Stub.Concepts
import LuaStubs.Stub.Constants

/-! Entries that differ only in documentation are written alike. -/

namespace LuaStubs

namespace Api

theorem Operator.asAttribute_bare (o : Operator) : o.bare.asAttribute = o.asAttribute.bare := by
  unfold asAttribute Attribute.bare bare
  cases o.type with
  | none => rfl
  | some type => rfl

theorem Operator.asMethod_bare (o : Operator) : o.bare.asMethod = o.asMethod.bare := rfl

end Api

namespace Manual

variable {first second : Manual} (alike : first.Alike second)
include alike

/-! Members. -/

theorem paired_view (name : String) :
    Emission.Paired (· = ·) (liftM (first.view name)) (liftM (second.view name)) :=
  .lift_same (alike.view_eq name)

theorem paired_memberView (owner anchor : String) :
    Emission.Paired (· = ·) (liftM (first.memberView owner anchor))
      (liftM (second.memberView owner anchor)) :=
  .lift_same (alike.view_eq _)

theorem paired_attributeLines (owner : String) {a a' : Api.Attribute} (same : a.bare = a'.bare)
    (name : MemberName) :
    Emission.Paired Line.Alike (first.attributeLines owner a name)
      (second.attributeLines owner a' name) := by
  have htype : a.type.bare = a'.type.bare := congrArg Api.Attribute.type same
  apply (paired_memberView alike owner name.anchor).bind
  rintro link _ rfl
  apply (paired_describe _ _ _ _ _ _).bind
  intro comment comment' hcomment
  apply (paired_lower alike false _ _ _ htype).bind_pure
  rintro type _ rfl
  exact hcomment.append (.refl _)

omit alike in
theorem paired_remark (description description' : String) :
    Emission.Paired (fun r r' : Remark × List Line => Line.Alike r.2 r'.2)
      (liftM (first.remark description)) (liftM (second.remark description')) := by
  apply Emission.Paired.lift
  intro r r' h h'
  exact (skeleton_of_remark h).trans (skeleton_of_remark h').symm

theorem paired_parameterLines (owner method link : String) (p p' : Api.Parameter)
    (same : p.bare = p'.bare) :
    Emission.Paired Line.Alike (first.parameterLines owner method link p)
      (second.parameterLines owner method link p') := by
  rw [p.bare_eq, p'.bare_eq] at same
  obtain ⟨hname, -, -, htype, hoptional⟩ := Api.Parameter.mk.inj same
  unfold parameterLines
  rw [hname, hoptional]
  apply (paired_lower alike false _ _ _ htype).bind
  rintro type _ rfl
  apply (paired_remark p.description p'.description).bind_pure
  intro r r' h
  exact h.cons rfl

omit alike in
theorem paired_varargComment (description description' : String) :
    Emission.Paired Line.Alike (liftM (first.varargComment description))
      (liftM (second.varargComment description')) := by
  have leaves_nothing {manual : Manual} {description : String} {lines : List Line}
      (h : manual.varargComment description = .ok lines) : Line.skeleton lines = [] := by
    unfold varargComment at h
    split at h
    · cases h
      rfl
    · exact skeleton_of_comment h
  apply Emission.Paired.lift
  intro lines lines' h h'
  exact (leaves_nothing h).trans (leaves_nothing h').symm

omit alike in
theorem option_bare_cases {type? type?' : Option Api.TypeExpr}
    (same : type?.map Api.TypeExpr.bare = type?'.map Api.TypeExpr.bare) :
    (type? = none ∧ type?' = none) ∨
      ∃ type type', type? = some type ∧ type?' = some type' ∧ type.bare = type'.bare := by
  cases type? with
  | none => exact .inl ⟨rfl, Option.map_eq_none_iff.mp same.symm⟩
  | some type =>
    obtain ⟨type', hsecond, hbare⟩ := Option.map_eq_some_iff.mp same.symm
    exact .inr ⟨type, type', rfl, hsecond, hbare.symm⟩

theorem paired_varargLines (owner link : String) {m m' : Api.Method} (same : m.bare = m'.bare) :
    Emission.Paired Line.Alike (first.varargLines owner link m)
      (second.varargLines owner link m') := by
  obtain ⟨hname, -, -, hsignature⟩ := Api.Method.mk.inj same
  unfold varargLines
  rw [hname]
  rcases option_bare_cases (congrArg Api.Signature.variadicType hsignature) with
    ⟨hfirst, hsecond⟩ | ⟨variadic, variadic', hfirst, hsecond, hbare⟩
  · rw [hfirst, hsecond]
    exact .pure (.refl [])
  · rw [hfirst, hsecond]
    apply (paired_lower alike false _ _ _ hbare).bind
    rintro type _ rfl
    apply (paired_varargComment _ _).bind_pure
    intro lines lines' h
    exact h.cons rfl

theorem paired_resultLines (owner link : String) {m m' : Api.Method} (same : m.bare = m'.bare) :
    Emission.Paired Line.Alike (first.resultLines owner link m)
      (second.resultLines owner link m') := by
  obtain ⟨hname, -, -, hsignature⟩ := Api.Method.mk.inj same
  unfold resultLines
  rw [hname]
  rcases option_bare_cases (congrArg Api.Signature.returnType hsignature) with
    ⟨hfirst, hsecond⟩ | ⟨result, result', hfirst, hsecond, hbare⟩
  · rw [hfirst, hsecond]
    exact .pure (.refl [])
  · rw [hfirst, hsecond]
    apply (paired_lower alike false _ _ _ hbare).bind
    rintro type _ rfl
    apply (paired_remark _ _).bind_pure
    intro r r' h
    exact h.cons rfl

omit alike in
theorem arguments_bare {s s' : Api.Signature} (same : s.bare = s'.bare) :
    arguments s = arguments s' := by
  have hparameters : s.parameters.map Api.Parameter.bare = s'.parameters.map Api.Parameter.bare :=
    congrArg Api.Signature.parameters same
  have hvariadic : s.variadicType.map Api.TypeExpr.bare = s'.variadicType.map Api.TypeExpr.bare :=
    congrArg Api.Signature.variadicType same
  have hsome : s.variadicType.isSome = s'.variadicType.isSome := by
    rw [← Option.isSome_map (f := Api.TypeExpr.bare), hvariadic, Option.isSome_map]
  have hnames (ps : List Api.Parameter) : ps.map (Identifier.escapeKeyword ·.name) =
      (ps.map Api.Parameter.bare).map (Identifier.escapeKeyword ·.name) := by
    rw [List.map_map]
    apply List.map_congr_left
    intro p _
    change _ = Identifier.escapeKeyword p.bare.name
    rw [p.bare_eq]
  unfold arguments
  rw [hsome, hnames (sortOn _ s.parameters), hnames (sortOn _ s'.parameters),
    map_sortOn_eq TableField.parameter_order_bare hparameters]

theorem paired_methodLines (owner : String) {m m' : Api.Method} (same : m.bare = m'.bare)
    (name : MemberName) :
    Emission.Paired Line.Alike (first.methodLines owner m name)
      (second.methodLines owner m' name) := by
  obtain ⟨hname, -, -, hsignature⟩ := Api.Method.mk.inj same
  have hparameters : m.signature.parameters.map Api.Parameter.bare =
      m'.signature.parameters.map Api.Parameter.bare :=
    congrArg Api.Signature.parameters hsignature
  unfold methodLines
  rw [arguments_bare hsignature, hname]
  apply (paired_memberView alike owner name.anchor).bind
  rintro link _ rfl
  apply (paired_describe _ _ _ _ _ _).bind
  intro comment comment' hcomment
  apply (Emission.paired_linesOf (paired_parameterLines alike owner m'.name link)
    (map_sortOn_eq TableField.parameter_order_bare hparameters)).bind
  intro parameters parameters' hparameters
  apply (paired_varargLines alike owner link same).bind
  intro vararg vararg' hvararg
  apply (paired_resultLines alike owner link same).bind_pure
  intro result result' hresult
  exact (((hcomment.append hparameters).append hvararg).append hresult).append (.refl _)

theorem paired_tableMethodLines (owner : String) {m m' : Api.Method} (same : m.bare = m'.bare) :
    Emission.Paired Line.Alike (first.tableMethodLines owner m)
      (second.tableMethodLines owner m') := by
  obtain ⟨hname, -, -, hsignature⟩ := Api.Method.mk.inj same
  obtain ⟨-, -, -, -, -, -, hoptional, -, -⟩ := Api.Signature.mk.inj hsignature
  have hfields := @TableField.all_bare appliesTo _ _ _ _
    (congrArg Api.Signature.parameters hsignature) (congrArg Api.Signature.groups hsignature)
  unfold tableMethodLines
  rw [hname, hoptional]
  apply (paired_memberView alike owner m'.name).bind
  rintro link _ rfl
  apply (paired_declareTable (paired_lower alike false) _ link link hfields).bind
  intro declaration declaration' hdeclaration
  apply (paired_describe _ _ _ _ _ _).bind
  intro comment comment' hcomment
  apply (paired_resultLines alike owner link same).bind_pure
  intro result result' hresult
  exact ((hdeclaration.append (hcomment.cons rfl)).append (hresult.cons rfl)).append (.refl _)

/-! Classes. -/

theorem paired_attributesLines (owner : String) {attributes attributes' : List Api.Attribute}
    (same : attributes.map Api.Attribute.bare = attributes'.map Api.Attribute.bare) :
    Emission.Paired Line.Alike (first.attributesLines owner attributes)
      (second.attributesLines owner attributes') := by
  refine Emission.paired_linesOf (fun a a' h => ?_)
    (map_sortOn_eq (k := (·.order)) (fun _ => rfl) same)
  have hname : a.name = a'.name := (Api.Attribute.mk.inj h).1
  rw [hname]
  exact paired_attributeLines alike owner h (.plain a'.name)

omit alike in
theorem paired_classComment (name : String) (doc doc' : Api.Documentation) :
    Emission.Paired Line.Alike (liftM (first.classComment name doc))
      (liftM (second.classComment name doc')) := by
  have leaves_nothing {manual : Manual} {doc : Api.Documentation} {lines : List Line}
      (h : manual.classComment name doc = .ok lines) : Line.skeleton lines = [] := by
    obtain ⟨link, -, hlines⟩ := Outcome.bind_eq_ok.mp h
    exact skeleton_of_describe hlines
  apply Emission.Paired.lift
  intro lines lines' h h'
  exact (leaves_nothing h).trans (leaves_nothing h').symm

theorem paired_operatorLines (owner : String) (o o' : Api.Operator) (same : o.bare = o'.bare) :
    Emission.Paired Line.Alike (first.operatorLines owner o) (second.operatorLines owner o') := by
  have hname : o.name = o'.name := (Api.Operator.mk.inj same).1
  have hattribute : o.asAttribute.bare = o'.asAttribute.bare := by
    rw [← o.asAttribute_bare, ← o'.asAttribute_bare, same]
  unfold operatorLines
  rw [hname]
  split
  · exact paired_attributeLines alike owner hattribute .index
  · split
    · exact paired_attributeLines alike owner hattribute .length
    · exact .pure (.refl [])

theorem paired_memberFunctionLines (owner : String) (m m' : Api.Method) (same : m.bare = m'.bare) :
    Emission.Paired Line.Alike (first.memberFunctionLines owner m)
      (second.memberFunctionLines owner m') := by
  obtain ⟨hname, -, -, hsignature⟩ := Api.Method.mk.inj same
  obtain ⟨-, -, -, -, -, htable, -, -, -⟩ := Api.Signature.mk.inj hsignature
  unfold memberFunctionLines
  rw [htable, hname]
  split
  · exact paired_tableMethodLines alike owner same
  · exact paired_methodLines alike owner same (.plain m'.name)

theorem paired_callLines (owner : String) {operators operators' : List Api.Operator}
    (same : operators.map Api.Operator.bare = operators'.map Api.Operator.bare) :
    Emission.Paired Line.Alike (first.callLines owner operators)
      (second.callLines owner operators') := by
  have hfind (os : List Api.Operator) : (os.find? (·.name = "call")).map Api.Operator.bare =
      (os.map Api.Operator.bare).find? (·.name = "call") := by
    rw [List.find?_map]
    rfl
  have hfound : (operators.find? (·.name = "call")).map Api.Operator.bare =
      (operators'.find? (·.name = "call")).map Api.Operator.bare := by
    rw [hfind, hfind, same]
  unfold callLines
  cases hfirst : operators.find? (·.name = "call") with
  | none =>
    rw [hfirst] at hfound
    rw [Option.map_eq_none_iff.mp hfound.symm]
    exact .pure (.refl [])
  | some o =>
    rw [hfirst] at hfound
    obtain ⟨o', hsecond, hbare⟩ := Option.map_eq_some_iff.mp hfound.symm
    rw [hsecond]
    have hmethod : o.asMethod.bare = o'.asMethod.bare := by
      rw [← o.asMethod_bare, ← o'.asMethod_bare, hbare]
    exact paired_methodLines alike owner hmethod .call

theorem classVariable_eq (name : String) : first.classVariable name = second.classVariable name := by
  have hglobal := alike.globals name
  unfold classVariable
  cases hfirst : first.catalog.globals.get? name with
  | none =>
    rw [hfirst] at hglobal
    rw [Option.map_eq_none_iff.mp hglobal.symm]
  | some global =>
    rw [hfirst] at hglobal
    obtain ⟨global', hsecond, hname⟩ := Option.map_eq_some_iff.mp hglobal.symm
    rw [hsecond]
    exact hname.symm

theorem paired_classLines (c c' : Api.Class) (same : c.bare = c'.bare) :
    Emission.Paired Line.Alike (first.classLines c) (second.classLines c') := by
  obtain ⟨hname, -, -, hmethods, hattributes, hoperators, hbases⟩ := Api.Class.mk.inj same
  unfold classLines
  rw [hname, hbases, classVariable_eq alike]
  apply (paired_classComment c'.name c.doc c'.doc).bind
  intro comment comment' hcomment
  apply (Emission.Paired.lift fun _ _ _ _ => trivial).bind
  intro _ _ _
  apply (paired_attributesLines alike c'.name hattributes).bind
  intro fields fields' hfields
  apply (Emission.paired_linesOf (paired_operatorLines alike c'.name)
    (map_sortOn_eq (k := (·.order)) (fun _ => rfl) hoperators)).bind
  intro operators operators' hoperatorLines
  apply (Emission.paired_linesOf (paired_memberFunctionLines alike c'.name)
    (map_sortOn_eq (k := (·.order)) (fun _ => rfl) hmethods)).bind
  intro methods methods' hmethodLines
  apply (paired_callLines alike c'.name hoperators).bind_pure
  intro call call' hcall
  exact (((((hcomment.append (hfields.cons rfl)).append hoperatorLines).append
    (hmethodLines.cons rfl)).append hcall).append (.refl _))

theorem paired_classesLines {classes classes' : List Api.Class}
    (same : classes.map Api.Class.bare = classes'.map Api.Class.bare) :
    Emission.Paired Line.Alike (first.classesLines classes) (second.classesLines classes') :=
  Emission.paired_linesOf (paired_classLines alike)
    (map_sortOn_eq (k := (·.order)) (fun _ => rfl) same)

/-! Events and concepts. -/

theorem paired_eventField (event link : String) (p p' : Api.Parameter) (same : p.bare = p'.bare) :
    Emission.Paired Line.Alike (first.eventField event link p) (second.eventField event link p') := by
  rw [p.bare_eq, p'.bare_eq] at same
  obtain ⟨hname, -, -, htype, hoptional⟩ := Api.Parameter.mk.inj same
  unfold eventField
  rw [hname, hoptional]
  apply (paired_brief _ _ _ _).bind
  intro comment comment' hcomment
  apply (paired_lower alike false _ _ _ htype).bind_pure
  rintro type _ rfl
  exact hcomment.append (.refl _)

theorem paired_eventLines (e e' : Api.Event) (same : e.bare = e'.bare) :
    Emission.Paired Line.Alike (first.eventLines e) (second.eventLines e') := by
  obtain ⟨hname, -, -, hdata⟩ := Api.Event.mk.inj same
  unfold eventLines
  rw [hname]
  apply (paired_view alike e'.name).bind
  rintro link _ rfl
  apply (paired_describe _ _ _ _ _ _).bind
  intro comment comment' hcomment
  apply (Emission.paired_linesOf (paired_eventField alike e'.name link)
    (map_sortOn_eq TableField.parameter_order_bare hdata)).bind_pure
  intro fields fields' hfields
  exact hcomment.append (hfields.cons rfl)

theorem paired_eventsLines {events events' : List Api.Event}
    (same : events.map Api.Event.bare = events'.map Api.Event.bare) :
    Emission.Paired Line.Alike (first.eventsLines events) (second.eventsLines events') :=
  Emission.paired_linesOf (paired_eventLines alike)
    (map_sortOn_eq (k := (·.order)) (fun _ => rfl) same)

theorem paired_identificationOption (owner link : String) (o o' : Api.Identification)
    (same : o.bare = o'.bare) :
    Emission.Paired (fun r r' => r.2 = r'.2) (first.identificationOption owner link o)
      (second.identificationOption owner link o') := by
  obtain ⟨horder, -, htype⟩ := Api.Identification.mk.inj same
  unfold identificationOption
  rw [horder]
  apply (paired_lower alike true _ _ _ htype).bind
  rintro linked _ rfl
  apply (paired_lower alike false _ _ _ htype).bind_pure
  rintro plain _ rfl
  rfl

theorem paired_identificationLines {c c' : Api.Concept} (hname : c.name = c'.name)
    {options options' : List Api.Identification}
    (same : options.map Api.Identification.bare = options'.map Api.Identification.bare) :
    Emission.Paired Line.Alike (first.identificationLines c options)
      (second.identificationLines c' options') := by
  unfold identificationLines
  rw [hname]
  apply (paired_view alike c'.name).bind
  rintro link _ rfl
  apply (Emission.paired_eachFrom (u := (·.2)) (v := (·.2)) 0
    (fun _ => paired_identificationOption alike c'.name link)
    (map_sortOn_eq (k := (·.order)) (fun _ => rfl) same)).bind
  intro written written' hwritten
  apply (paired_describe _ _ _ _ _ _).bind_pure
  intro comment comment' hcomment
  rw [hwritten]
  exact hcomment.append (.refl _)

theorem paired_structLines (name : String) (doc doc' : Api.Documentation)
    {attributes attributes' : List Api.Attribute}
    (same : attributes.map Api.Attribute.bare = attributes'.map Api.Attribute.bare) :
    Emission.Paired Line.Alike (first.structLines name doc attributes)
      (second.structLines name doc' attributes') := by
  apply (paired_classComment name doc doc').bind
  intro comment comment' hcomment
  apply (paired_attributesLines alike name same).bind_pure
  intro fields fields' hfields
  exact hcomment.append (hfields.cons rfl)

theorem paired_plainLines {c c' : Api.Concept} (hname : c.name = c'.name) :
    Emission.Paired Line.Alike (liftM (first.plainLines c)) (liftM (second.plainLines c')) := by
  unfold plainLines
  rw [hname]
  simp only [Emission.lift_bind]
  apply (paired_view alike c'.name).bind
  rintro link _ rfl
  apply (paired_describe _ _ _ _ _ _).bind
  intro comment comment' hcomment
  exact .pure (hcomment.append (.refl _))

omit alike in
theorem paired_flagLines (link : String) {options options' : List Api.Choice}
    (same : options.map Api.Choice.bare = options'.map Api.Choice.bare) :
    Emission.Paired Line.Alike (liftM (first.flagLines link options))
      (liftM (second.flagLines link options')) := by
  induction same using map_eq_induction with
  | nil => exact .pure (.refl [])
  | cons _ hfirst _ ih =>
    obtain ⟨hname, -, -⟩ := Api.Choice.mk.inj hfirst
    unfold flagLines
    rw [hname]
    simp only [Emission.lift_bind]
    apply (paired_brief _ _ _ _).bind
    intro comment comment' hcomment
    apply ih.bind
    intro others others' hothers
    exact .pure (hcomment.append (hothers.cons rfl))

theorem paired_flagsLines {c c' : Api.Concept} (hname : c.name = c'.name)
    {options options' : List Api.Choice}
    (same : options.map Api.Choice.bare = options'.map Api.Choice.bare) :
    Emission.Paired Line.Alike (liftM (first.flagsLines c options))
      (liftM (second.flagsLines c' options')) := by
  unfold flagsLines
  rw [hname]
  simp only [Emission.lift_bind]
  apply (paired_view alike c'.name).bind
  rintro link _ rfl
  apply (paired_describe _ _ _ _ _ _).bind
  intro comment comment' hcomment
  apply (paired_flagLines link (map_sortOn_eq (k := (·.order)) (fun _ => rfl) same)).bind
  intro flags flags' hflags
  exact .pure (hcomment.append (hflags.cons rfl))

theorem paired_unionLines {c c' : Api.Concept} (hname : c.name = c'.name)
    (options options' : List Api.Choice) :
    Emission.Paired Line.Alike (liftM (first.unionLines c options))
      (liftM (second.unionLines c' options')) := by
  unfold unionLines
  rw [hname]
  simp only [Emission.lift_bind]
  apply (paired_view alike c'.name).bind
  rintro link _ rfl
  apply (paired_describe _ _ _ _ _ _).bind
  intro comment comment' hcomment
  exact .pure (hcomment.append (.refl _))

theorem paired_tableLines {c c' : Api.Concept} (hname : c.name = c'.name)
    {shape shape' : Api.Shape} (same : shape.bare = shape'.bare) (words : String) :
    Emission.Paired Line.Alike (first.tableLines c shape words)
      (second.tableLines c' shape' words) := by
  rw [shape.bare_eq, shape'.bare_eq] at same
  obtain ⟨hparameters, hgroups, -⟩ := Api.Shape.mk.inj same
  unfold tableLines
  rw [hname]
  apply (paired_view alike c'.name).bind
  rintro link _ rfl
  apply (Emission.Paired.lift fun _ _ _ _ => trivial).bind
  intro header header' _
  exact paired_declareTable (paired_lower alike false) _ _ _
    (TableField.all_bare hparameters hgroups)

theorem paired_conceptLines (c c' : Api.Concept) (same : c.bare = c'.bare) :
    Emission.Paired Line.Alike (first.conceptLines c) (second.conceptLines c') := by
  obtain ⟨hname, -, -, hkind⟩ := Api.Concept.mk.inj same
  unfold conceptLines
  generalize c.kind = kind at hkind ⊢
  generalize c'.kind = kind' at hkind ⊢
  cases kind with
  | identification options =>
    cases kind' with
    | identification options' =>
      exact paired_identificationLines alike hname (Api.ConceptKind.identification.inj hkind)
    | _ => exact absurd hkind (by simp [Api.ConceptKind.bare])
  | plain =>
    cases kind' with
    | plain =>
      exact paired_plainLines alike hname
    | _ => exact absurd hkind (by simp [Api.ConceptKind.bare])
  | struct attributes =>
    cases kind' with
    | struct attributes' =>
      rw [hname]
      exact paired_structLines alike c'.name _ _ (Api.ConceptKind.struct.inj hkind)
    | _ => exact absurd hkind (by simp [Api.ConceptKind.bare])
  | flag options =>
    cases kind' with
    | flag options' =>
      exact paired_flagsLines alike hname (Api.ConceptKind.flag.inj hkind)
    | _ => exact absurd hkind (by simp [Api.ConceptKind.bare])
  | table shape =>
    cases kind' with
    | table shape' =>
      exact paired_tableLines alike hname (Api.ConceptKind.table.inj hkind) appliesTo
    | _ => exact absurd hkind (by simp [Api.ConceptKind.bare])
  | tableOrArray shape =>
    cases kind' with
    | tableOrArray shape' =>
      exact paired_tableLines alike hname (Api.ConceptKind.tableOrArray.inj hkind) appliesTo
    | _ => exact absurd hkind (by simp [Api.ConceptKind.bare])
  | union options =>
    cases kind' with
    | union options' =>
      exact paired_unionLines alike hname options options'
    | _ => exact absurd hkind (by simp [Api.ConceptKind.bare])
  | filter shape =>
    cases kind' with
    | filter shape' =>
      exact paired_tableLines alike hname (Api.ConceptKind.filter.inj hkind) appliesToFilter
    | _ => exact absurd hkind (by simp [Api.ConceptKind.bare])

theorem paired_conceptsLines {concepts concepts' : List Api.Concept}
    (same : concepts.map Api.Concept.bare = concepts'.map Api.Concept.bare) :
    Emission.Paired Line.Alike (first.conceptsLines concepts) (second.conceptsLines concepts') :=
  Emission.paired_linesOf (paired_conceptLines alike)
    (map_sortOn_eq (k := (·.order)) (fun _ => rfl) same)

/-! Builtins and constants. -/

theorem paired_viewBrief (name description description' : String) (declared : List Line) :
    Emission.Paired Line.Alike
      (liftM (first.view name) >>= fun link =>
        liftM (first.brief description link) >>= fun comment => pure (comment ++ declared))
      (liftM (second.view name) >>= fun link =>
        liftM (second.brief description' link) >>= fun comment => pure (comment ++ declared)) := by
  apply (paired_view alike name).bind
  rintro link _ rfl
  apply (paired_brief _ _ _ _).bind_pure
  intro comment comment' hcomment
  exact hcomment.append (.refl declared)

theorem paired_builtinsLines (settings : Settings) {builtins builtins' : List Api.Builtin}
    (same : builtins.map Api.Builtin.bare = builtins'.map Api.Builtin.bare) :
    Emission.Paired Line.Alike (liftM (first.builtinsLines settings builtins))
      (liftM (second.builtinsLines settings builtins')) := by
  induction same using map_eq_induction with
  | nil => exact .pure (.refl [])
  | @cons b b' _ _ _ hfirst _ ih =>
    have hname : b.name = b'.name := (Api.Builtin.mk.inj hfirst).1
    have hlines : Emission.Paired Line.Alike (liftM (first.builtinLines b))
        (liftM (second.builtinLines b')) := by
      unfold builtinLines
      rw [hname]
      simp only [Emission.lift_bind]
      exact paired_viewBrief alike _ _ _ _
    have hknown : Emission.Paired Line.Alike (liftM (pure [] : Except StubError (List Line)))
        (liftM (pure [] : Except StubError (List Line))) := .pure (.refl [])
    rw [builtinsLines, builtinsLines, hname]
    split
    · simp only [Emission.lift_bind]
      apply hknown.bind
      intro lines lines' hlines
      apply ih.bind
      intro others others' hothers
      exact .pure (hlines.append hothers)
    · simp only [Emission.lift_bind]
      apply hlines.bind
      intro lines lines' hlines
      apply ih.bind
      intro others others' hothers
      exact .pure (hlines.append hothers)

theorem paired_valuesLines (node : String) {values values' : List Api.ConstantValue}
    (same : values.map Api.ConstantValue.bare = values'.map Api.ConstantValue.bare) :
    Emission.Paired Line.Alike (liftM (first.valuesLines node values))
      (liftM (second.valuesLines node values')) := by
  induction same using map_eq_induction with
  | nil => exact .pure (.refl [])
  | @cons value value' _ _ _ hfirst _ ih =>
    obtain ⟨hname, -, -⟩ := Api.ConstantValue.mk.inj hfirst
    have hlines : Emission.Paired Line.Alike (liftM (first.valueLines node value))
        (liftM (second.valueLines node value')) := by
      unfold valueLines
      rw [hname]
      simp only [Emission.lift_bind]
      exact paired_viewBrief alike _ _ _ _
    rw [valuesLines, valuesLines]
    simp only [Emission.lift_bind]
    apply hlines.bind
    intro lines lines' hlines
    apply ih.bind
    intro others others' hothers
    exact .pure (hlines.append hothers)

end Manual

mutual

theorem Manual.paired_treeLines {first second : Manual} (alike : first.Alike second)
    (parent : String) :
    ∀ node node' : Api.Constant, node.bare = node'.bare →
      Emission.Paired Line.Alike (liftM (first.treeLines parent node))
        (liftM (second.treeLines parent node'))
  | ⟨name, order, description, values, subkeys⟩, ⟨name', order', description', values', subkeys'⟩,
    same => by
    obtain ⟨rfl, -, -, hvalues, hsubkeys⟩ := Api.Constant.mk.inj same
    rw [treeLines, treeLines]
    simp only [Emission.lift_bind]
    apply (paired_view alike _).bind
    rintro link _ rfl
    apply (paired_brief _ _ _ _).bind
    intro comment comment' hcomment
    apply (paired_valuesLines alike _ hvalues).bind
    intro constants constants' hconstants
    apply (paired_treesLines alike _ subkeys subkeys' hsubkeys).bind
    intro trees trees' htrees
    exact .pure ((hcomment.append ((hconstants.cons rfl).cons rfl)).append (htrees.cons rfl))

theorem Manual.paired_treesLines {first second : Manual} (alike : first.Alike second)
    (parent : String) :
    ∀ nodes nodes' : List Api.Constant, Api.bareConstants nodes = Api.bareConstants nodes' →
      Emission.Paired Line.Alike (liftM (first.treesLines parent nodes))
        (liftM (second.treesLines parent nodes'))
  | [], [], _ => .pure (.refl [])
  | node :: rest, node' :: rest', same => by
    obtain ⟨hfirst, hrest⟩ := List.cons.inj same
    rw [treesLines, treesLines]
    simp only [Emission.lift_bind]
    apply (paired_treeLines alike parent node node' hfirst).bind
    intro lines lines' hlines
    apply (paired_treesLines alike parent rest rest' hrest).bind
    intro others others' hothers
    exact .pure (hlines.append hothers)

end

end LuaStubs
