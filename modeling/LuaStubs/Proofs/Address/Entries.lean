import LuaStubs.Proofs.Address.Types
import LuaStubs.Stub.Concepts
import LuaStubs.Stub.Constants

/-! Entries at all addresses of a manual: the lines written for an entry are a template filled with
the address. -/

namespace LuaStubs

theorem Api.Documentation.unbracketed {doc : Documentation}
    (words : ∀ word ∈ doc.words, word.Unbracketed) : ∀ name ∈ doc.seeAlso, ']' ∉ name.toList := by
  intro name hname
  exact words (.reference name)
    (List.mem_cons_of_mem _ (List.mem_append_right _ (List.mem_map_of_mem hname)))

/-- An entry of a list, on a line of its own. -/
structure CalmEntry (x : Address → String) : Prop where
  calm : CalmText x
  line : ∀ a, (x a).toList.head? = some '\n'

theorem Written.calmEntry {x : Address → String} (h : Written true x) (behind : String) :
    CalmEntry fun a => "\n- " ++ x a ++ behind := by
  obtain ⟨front, rest, hfront, rfl⟩ := h
  refine ⟨?_, fun a => by simp⟩
  have hmark : ']' ∉ "\n- ".toList := by decide
  have hcalm := ((tightText_const hmark).append hfront).append_calm (calmText_const (rest ++ behind))
  simpa only [String.append_assoc] using hcalm

namespace Catalog

variable (catalog : Catalog)

/-! Members. -/

theorem agree_attributeLines (owner : String) {field : Api.Attribute}
    (words : ∀ word ∈ field.doc.words, word.Unbracketed) (name : MemberName) :
    Emission.Agree FilledLines fun a =>
      (catalog.manualAt a).attributeLines owner field name := by
  apply (Emission.Agree.lift (agree_view catalog _)).bind
  intro link hlink
  apply (Emission.Agree.lift (agree_describe catalog hlink (Api.Documentation.unbracketed words)
    (calmText_const _))).bind
  intro comment hcomment
  apply (agree_lower_plain catalog _ (calmPlace_of_name (owner ++ "." ++ name.lua) hlink)).bind_pure
  rintro _ ⟨type, rfl⟩
  exact hcomment.above _

theorem filledLines_remark {remark : Address → Remark × List Line}
    (h : Filled (fun a => (remark a).1.text) ∧ FilledLines fun a => (remark a).2)
    {line : Address → Line} (text : String)
    (hline : ∀ a, (line a).render = text ++ (remark a).1.text ++ "\n") :
    FilledLines fun a => line a :: (remark a).2 := by
  refine h.2.cons ?_
  simp only [hline]
  exact ((filled_const text).append h.1).append (filled_const "\n")

section

variable {link : Address → String} (hlink : CalmText link)
include hlink

theorem agree_parameterLines (owner method : String) (p : Api.Parameter) :
    Emission.Agree FilledLines fun a =>
      (catalog.manualAt a).parameterLines owner method (link a) p := by
  apply (agree_lower_plain catalog _
    (calmPlace_of_name (owner ++ "." ++ method ++ "." ++ p.name) hlink)).bind
  rintro _ ⟨type, rfl⟩
  apply (Emission.Agree.lift (agree_remark catalog p.description)).bind_pure
  intro remark hremark
  exact filledLines_remark hremark _ fun _ => rfl

theorem agree_varargLines (owner : String) (m : Api.Method) :
    Emission.Agree FilledLines fun a => (catalog.manualAt a).varargLines owner (link a) m := by
  unfold Manual.varargLines
  cases m.signature.variadicType with
  | none => exact .pure (filledLines_const [])
  | some variadic =>
    have hcomment (description : String) : Agree FilledLines fun a =>
        (catalog.manualAt a).varargComment description := by
      unfold Manual.varargComment
      by_cases hempty : description.isEmpty = true
      · simp only [if_pos hempty]
        exact .ok (filledLines_const [])
      · simp only [if_neg hempty]
        exact agree_comment catalog (calmText_const _)
    apply (agree_lower_plain catalog _
      (calmPlace_of_name (owner ++ "." ++ m.name ++ "_vararg") hlink)).bind
    rintro _ ⟨type, rfl⟩
    apply (Emission.Agree.lift (hcomment _)).bind_pure
    intro lines hlines
    exact hlines.below _

theorem agree_resultLines (owner : String) (m : Api.Method) :
    Emission.Agree FilledLines fun a => (catalog.manualAt a).resultLines owner (link a) m := by
  unfold Manual.resultLines
  cases m.signature.returnType with
  | none => exact .pure (filledLines_const [])
  | some result =>
    apply (agree_lower_plain catalog _
      (calmPlace_of_name (owner ++ "." ++ m.name ++ "_return") hlink)).bind
    rintro _ ⟨type, rfl⟩
    apply (Emission.Agree.lift (agree_remark catalog _)).bind_pure
    intro remark hremark
    exact filledLines_remark hremark _ fun _ => rfl

end

theorem agree_methodLines (owner : String) {m : Api.Method}
    (words : ∀ word ∈ m.doc.words, word.Unbracketed) (name : MemberName) :
    Emission.Agree FilledLines fun a => (catalog.manualAt a).methodLines owner m name := by
  apply (Emission.Agree.lift (agree_view catalog _)).bind
  intro link hlink
  apply (Emission.Agree.lift (agree_describe catalog hlink (Api.Documentation.unbracketed words)
    (calmText_const _))).bind
  intro comment hcomment
  apply (Emission.agree_linesOf fun p _ => agree_parameterLines catalog hlink owner m.name p).bind
  intro parameters hparameters
  apply (agree_varargLines catalog hlink owner m).bind
  intro vararg hvararg
  apply (agree_resultLines catalog hlink owner m).bind_pure
  intro result hresult
  exact (((hcomment.append hparameters).append hvararg).append hresult).above _

theorem agree_tableMethodLines (owner : String) {m : Api.Method}
    (words : ∀ word ∈ m.doc.words, word.Unbracketed) :
    Emission.Agree FilledLines fun a => (catalog.manualAt a).tableMethodLines owner m := by
  apply (Emission.Agree.lift (agree_view catalog _)).bind
  intro link hlink
  have htable := calmPlace_of_name (owner ++ "." ++ m.name ++ "_param") hlink
  apply (agree_declareTable catalog (fun type _ => agree_lower_plain catalog type) htable hlink
    _).bind
  intro declaration hdeclaration
  apply (Emission.Agree.lift (agree_describe catalog hlink (Api.Documentation.unbracketed words)
    (calmText_const _))).bind
  intro comment hcomment
  apply (agree_resultLines catalog hlink owner m).bind_pure
  intro result hresult
  have hparameter := hresult.below (.parameter "param" m.signature.tableIsOptional
    (owner ++ "." ++ m.name ++ "_param") .none)
  exact ((hdeclaration.append (hcomment.below _)).append hparameter).above _

/-! Classes. -/

theorem agree_attributesLines (owner : String) {attributes : List Api.Attribute}
    (words : ∀ word ∈ attributes.flatMap Api.Attribute.words, word.Unbracketed) :
    Emission.Agree FilledLines fun a => (catalog.manualAt a).attributesLines owner attributes := by
  apply Emission.agree_linesOf
  intro field hfield
  have own := words_of_sortOn words field hfield
  exact agree_attributeLines catalog owner (fun word h => own word (field.words_of_doc h)) _

theorem agree_classComment (name : String) {doc : Api.Documentation}
    (words : ∀ word ∈ doc.words, word.Unbracketed) :
    Agree FilledLines fun a => (catalog.manualAt a).classComment name doc := by
  apply (agree_view catalog name).bind
  intro link hlink
  -- The description of a class is the same for all manuals of a catalog.
  exact agree_describe catalog hlink (Api.Documentation.unbracketed words)
    (calmText_const ((catalog.manualAt default).classDescription name doc))

theorem agree_structLines (name : String) {doc : Api.Documentation}
    (hdoc : ∀ word ∈ doc.words, word.Unbracketed) {attributes : List Api.Attribute}
    (words : ∀ word ∈ attributes.flatMap Api.Attribute.words, word.Unbracketed) :
    Emission.Agree FilledLines fun a =>
      (catalog.manualAt a).structLines name doc attributes := by
  apply (Emission.Agree.lift (agree_classComment catalog name hdoc)).bind
  intro comment hcomment
  apply (agree_attributesLines catalog name words).bind_pure
  intro fields hfields
  exact hcomment.append (hfields.below _)

theorem agree_operatorLines (owner : String) {o : Api.Operator}
    (words : ∀ word ∈ o.words, word.Unbracketed) :
    Emission.Agree FilledLines fun a => (catalog.manualAt a).operatorLines owner o := by
  have hdoc : ∀ word ∈ o.asAttribute.doc.words, word.Unbracketed :=
    fun word h => words word (o.words_of_doc h)
  unfold Manual.operatorLines
  by_cases hindex : o.name = "index"
  · simp only [if_pos hindex]
    exact agree_attributeLines catalog owner hdoc .index
  · by_cases hlength : o.name = "length"
    · simp only [if_neg hindex, if_pos hlength]
      exact agree_attributeLines catalog owner hdoc .length
    · simp only [if_neg hindex, if_neg hlength]
      exact .pure (filledLines_const [])

theorem agree_memberFunctionLines (owner : String) {m : Api.Method}
    (words : ∀ word ∈ m.words, word.Unbracketed) :
    Emission.Agree FilledLines fun a => (catalog.manualAt a).memberFunctionLines owner m := by
  have hdoc : ∀ word ∈ m.doc.words, word.Unbracketed := fun word h => words word (m.words_of_doc h)
  unfold Manual.memberFunctionLines
  by_cases htable : m.signature.takesTable = true
  · simp only [if_pos htable]
    exact agree_tableMethodLines catalog owner hdoc
  · simp only [if_neg htable]
    exact agree_methodLines catalog owner hdoc _

theorem agree_callLines (owner : String) {operators : List Api.Operator}
    (words : ∀ word ∈ operators.flatMap Api.Operator.words, word.Unbracketed) :
    Emission.Agree FilledLines fun a => (catalog.manualAt a).callLines owner operators := by
  unfold Manual.callLines
  cases hfound : operators.find? (·.name = "call") with
  | none => exact .pure (filledLines_const [])
  | some o =>
    have hdoc (word : Word) (h : word ∈ o.doc.words) : word.Unbracketed :=
      words word (List.mem_flatMap.mpr ⟨o, List.mem_of_find?_eq_some hfound, o.words_of_doc h⟩)
    exact agree_methodLines catalog owner (m := o.asMethod) hdoc .call

theorem agree_classLines {c : Api.Class} (words : ∀ word ∈ c.words, word.Unbracketed) :
    Emission.Agree FilledLines fun a => (catalog.manualAt a).classLines c := by
  have part {own : List Word} (h : own ⊆ c.words) : ∀ word ∈ own, word.Unbracketed :=
    fun word hword => words word (h hword)
  have operatorLines (o : Api.Operator) (ho : o ∈ sortOn (·.order) c.operators) :=
    agree_operatorLines catalog c.name (words_of_sortOn (part c.words_of_operators) o ho)
  have methodLines (m : Api.Method) (hm : m ∈ sortOn (·.order) c.methods) :=
    agree_memberFunctionLines catalog c.name (words_of_sortOn (part c.words_of_methods) m hm)
  obtain ⟨table, htable⟩ : ∃ table, ∀ a, (catalog.manualAt a).classVariable c.name = table :=
    ⟨(catalog.manualAt default).classVariable c.name, fun _ => rfl⟩
  unfold Manual.classLines
  simp only [htable]
  apply (Emission.Agree.lift (agree_classComment catalog c.name (part c.words_of_doc))).bind
  intro comment hcomment
  apply (Emission.Agree.lift (agree_const (Manual.checkOperators c.name c.operators))).bind
  intro _ _
  apply (agree_attributesLines catalog c.name (part c.words_of_attributes)).bind
  intro fields hfields
  apply (Emission.agree_linesOf operatorLines).bind
  intro operators hoperatorLines
  apply (Emission.agree_linesOf methodLines).bind
  intro methods hmethodLines
  apply (agree_callLines catalog c.name (part c.words_of_operators)).bind_pure
  intro call hcall
  exact ((((hcomment.append (hfields.below _)).append hoperatorLines).append
    (hmethodLines.below _)).append hcall).above _

/-! Events and concepts. -/

theorem agree_eventLines {e : Api.Event} (words : ∀ word ∈ e.words, word.Unbracketed) :
    Emission.Agree FilledLines fun a => (catalog.manualAt a).eventLines e := by
  have hdoc : ∀ word ∈ e.doc.words, word.Unbracketed := fun word h => words word (e.words_of_doc h)
  apply (Emission.Agree.lift (agree_view catalog e.name)).bind
  intro link hlink
  apply (Emission.Agree.lift (agree_describe catalog hlink (Api.Documentation.unbracketed hdoc)
    (calmText_const _))).bind
  intro comment hcomment
  have hfield (p : Api.Parameter) : Emission.Agree FilledLines fun a =>
      (catalog.manualAt a).eventField e.name (link a) p := by
    apply (Emission.Agree.lift (agree_brief catalog hlink p.description)).bind
    intro comment hcomment
    apply (agree_lower_plain catalog _ (calmPlace_of_name (e.name ++ "." ++ p.name) hlink)).bind_pure
    rintro _ ⟨type, rfl⟩
    exact hcomment.above _
  apply (Emission.agree_linesOf fun p _ => hfield p).bind_pure
  intro fields hfields
  exact hcomment.append (hfields.below _)

theorem agree_identificationOption (owner : String) {link : Address → String} (hlink : CalmText link)
    {o : Api.Identification} (words : ∀ word ∈ o.words, word.Unbracketed) :
    Emission.Agree (fun entry => CalmEntry (fun a => (entry a).1) ∧ Fixed fun a => (entry a).2)
      fun a => (catalog.manualAt a).identificationOption owner (link a) o := by
  have hplace := calmPlace_of_name (owner ++ "." ++ toString o.order) hlink
  apply (agree_lower catalog true o.type
    (fun _ word h => words word (List.mem_cons_of_mem _ h)) hplace).bind
  intro linked hlinked
  apply (agree_lower_plain catalog o.type hplace).bind_pure
  intro plain hplain
  exact ⟨hlinked.calmEntry _, hplain⟩

theorem agree_identificationLines {c : Api.Concept} (hdoc : ∀ word ∈ c.doc.words, word.Unbracketed)
    {options : List Api.Identification}
    (words : ∀ word ∈ options.flatMap Api.Identification.words, word.Unbracketed) :
    Emission.Agree FilledLines fun a => (catalog.manualAt a).identificationLines c options := by
  apply (Emission.Agree.lift (agree_view catalog c.name)).bind
  intro link hlink
  apply (Emission.agree_eachFrom 0 fun _ o ho =>
    agree_identificationOption catalog c.name hlink (words_of_sortOn words o ho)).bind
  rintro _ ⟨entries, hentries, rfl⟩
  have hlisted : ∀ entry ∈ entries.map fun entry a => (entry a).1, CalmEntry entry := by
    intro _ hmem
    obtain ⟨entry, hentry, rfl⟩ := List.mem_map.mp hmem
    exact (hentries entry hentry).1
  have hplain : ∀ entry ∈ entries.map fun entry a => (entry a).2, Fixed entry := by
    intro _ hmem
    obtain ⟨entry, hentry, rfl⟩ := List.mem_map.mp hmem
    exact (hentries entry hentry).2
  obtain ⟨types, htypes⟩ := fixed_each hplain
  have hfirst (a : Address) : ((entries.map (· a)).map fun entry => entry.1)
      = (entries.map fun entry a => (entry a).1).map (· a) := by
    rw [List.map_map, List.map_map]
    rfl
  have hsecond (a : Address) : ((entries.map (· a)).map fun entry => entry.2) = types := by
    rw [List.map_map, ← congrFun htypes a, List.map_map]
    rfl
  simp only [hfirst, hsecond]
  have hdescription := (calmText_const (Text.framed "" c.doc.description "\n\n"
    ++ "May be specified in one of the following ways:")).append_join
      fun entry hentry => ⟨(hlisted entry hentry).calm, (hlisted entry hentry).line⟩
  apply (Emission.Agree.lift (agree_describe catalog hlink (Api.Documentation.unbracketed hdoc)
    hdescription)).bind_pure
  intro comment hcomment
  exact hcomment.above _

theorem agree_declared {c : Api.Concept} (hdoc : ∀ word ∈ c.doc.words, word.Unbracketed)
    (description : String) (declared : List Line) :
    Agree FilledLines fun a => do
      let link ← (catalog.manualAt a).view c.name
      let comment ← (catalog.manualAt a).describe c.doc link description
      return comment ++ declared := by
  apply (agree_view catalog c.name).bind
  intro link hlink
  apply (agree_describe catalog hlink (Api.Documentation.unbracketed hdoc)
    (calmText_const description)).bind
  intro comment hcomment
  exact .ok (hcomment.above declared)

theorem agree_flagLines {link : Address → String} (hlink : CalmText link)
    (options : List Api.Choice) :
    Agree FilledLines fun a => (catalog.manualAt a).flagLines (link a) options := by
  induction options with
  | nil => exact .ok (filledLines_const [])
  | cons choice rest ih =>
    apply (agree_brief catalog hlink choice.description).bind
    intro comment hcomment
    apply ih.bind
    intro others hothers
    exact .ok (hcomment.append (hothers.below _))

theorem agree_flagsLines {c : Api.Concept} (hdoc : ∀ word ∈ c.doc.words, word.Unbracketed)
    (options : List Api.Choice) :
    Agree FilledLines fun a => (catalog.manualAt a).flagsLines c options := by
  apply (agree_view catalog c.name).bind
  intro link hlink
  apply (agree_describe catalog hlink (Api.Documentation.unbracketed hdoc) (calmText_const _)).bind
  intro comment hcomment
  apply (agree_flagLines catalog hlink _).bind
  intro flags hflags
  exact .ok (hcomment.append (hflags.below _))

theorem agree_tableLines {c : Api.Concept} (hdoc : ∀ word ∈ c.doc.words, word.Unbracketed)
    (shape : Api.Shape) (words : String) :
    Emission.Agree FilledLines fun a => (catalog.manualAt a).tableLines c shape words := by
  apply (Emission.Agree.lift (agree_view catalog c.name)).bind
  intro link hlink
  apply (Emission.Agree.lift (agree_overview catalog hlink (Api.Documentation.unbracketed hdoc)
    (calmText_const _))).bind
  intro header hheader
  exact agree_declareTable catalog (fun type _ => agree_lower_plain catalog type)
    (calmPlace_of_name c.name hlink) hheader _

theorem agree_conceptLines {c : Api.Concept} (words : ∀ word ∈ c.words, word.Unbracketed) :
    Emission.Agree FilledLines fun a => (catalog.manualAt a).conceptLines c := by
  have hdoc : ∀ word ∈ c.doc.words, word.Unbracketed := fun word h => words word (c.words_of_doc h)
  have hkind : ∀ word ∈ c.kind.words, word.Unbracketed :=
    fun word h => words word (c.words_of_kind h)
  unfold Manual.conceptLines
  generalize c.kind = kind at hkind ⊢
  cases kind with
  | identification options => exact agree_identificationLines catalog hdoc hkind
  | plain => exact .lift (agree_declared catalog hdoc _ _)
  | struct attributes => exact agree_structLines catalog c.name hdoc hkind
  | flag options => exact .lift (agree_flagsLines catalog hdoc options)
  | table shape => exact agree_tableLines catalog hdoc shape appliesTo
  | tableOrArray shape => exact agree_tableLines catalog hdoc shape appliesTo
  | union options => exact .lift (agree_declared catalog hdoc _ _)
  | filter shape => exact agree_tableLines catalog hdoc shape appliesToFilter

/-! Builtins and constants. -/

theorem agree_viewBrief (name description : String) (declared : List Line) :
    Agree FilledLines fun a => do
      let link ← (catalog.manualAt a).view name
      let comment ← (catalog.manualAt a).brief description link
      return comment ++ declared := by
  apply (agree_view catalog name).bind
  intro link hlink
  apply (agree_brief catalog hlink description).bind
  intro comment hcomment
  exact .ok (hcomment.above declared)

theorem agree_builtinsLines (known : List String) (builtins : List Api.Builtin) :
    Agree FilledLines fun a => (catalog.manualAt a).builtinsLines ⟨a.url, known⟩ builtins := by
  induction builtins with
  | nil => exact .ok (filledLines_const [])
  | cons b rest ih =>
    have step {own : Address → Except StubError (List Line)} (hown : Agree FilledLines own) :
        Agree FilledLines fun a => do
          let lines ← own a
          let others ← (catalog.manualAt a).builtinsLines ⟨a.url, known⟩ rest
          return lines ++ others := by
      apply hown.bind
      intro lines hlines
      apply ih.bind
      intro others hothers
      exact .ok (hlines.append hothers)
    cases hknown : known.contains b.name with
    | true =>
      have hknows (a : Address) : Settings.knows ⟨a.url, known⟩ b.name = true := hknown
      simp only [Manual.builtinsLines, hknows, if_true]
      exact step (.ok (filledLines_const []))
    | false =>
      have hknows (a : Address) : Settings.knows ⟨a.url, known⟩ b.name = false := hknown
      simp only [Manual.builtinsLines, hknows, Bool.false_eq_true, if_false]
      exact step (agree_viewBrief catalog b.name b.description _)

theorem agree_valuesLines (node : String) (values : List Api.ConstantValue) :
    Agree FilledLines fun a => (catalog.manualAt a).valuesLines node values := by
  induction values with
  | nil => exact .ok (filledLines_const [])
  | cons value rest ih =>
    apply (agree_viewBrief catalog (node ++ "." ++ value.name) value.description _).bind
    intro lines hlines
    apply ih.bind
    intro others hothers
    exact .ok (hlines.append hothers)

mutual

theorem agree_treeLines (parent : String) : ∀ node : Api.Constant,
    Agree FilledLines fun a => (catalog.manualAt a).treeLines parent node
  | ⟨name, order, description, values, subkeys⟩ => by
    unfold Manual.treeLines
    apply (agree_view catalog _).bind
    intro link hlink
    apply (agree_brief catalog hlink description).bind
    intro comment hcomment
    apply (agree_valuesLines catalog _ values).bind
    intro constants hconstants
    apply (agree_treesLines _ subkeys).bind
    intro trees htrees
    exact .ok ((hcomment.append ((hconstants.below _).below _)).append (htrees.below _))

theorem agree_treesLines (parent : String) : ∀ nodes : List Api.Constant,
    Agree FilledLines fun a => (catalog.manualAt a).treesLines parent nodes
  | [] => .ok (filledLines_const [])
  | node :: rest => by
    unfold Manual.treesLines
    apply (agree_treeLines parent node).bind
    intro lines hlines
    apply (agree_treesLines parent rest).bind
    intro others hothers
    exact .ok (hlines.append hothers)

end

theorem agree_constantLines (trees : List Api.Constant) :
    Agree FilledLines fun a => (catalog.manualAt a).constantLines trees := by
  apply (agree_view catalog constantRoot).bind
  intro link hlink
  apply (agree_comment catalog hlink).bind
  intro comment hcomment
  apply (agree_treesLines catalog constantRoot _).bind
  intro nodes hnodes
  exact .ok (hcomment.append ((hnodes.below _).below _))

end Catalog

end LuaStubs
