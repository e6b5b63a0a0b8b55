import LuaStubs.Proofs.Arrangement.Sorting
import LuaStubs.Proofs.Identifiers
import LuaStubs.Proofs.Outline.Types

/-! The outlines of entries. Whatever is documented about an entry, its lines have the code and the
heads that are read off the description, and above its functions stand the annotations of their
parameters and results. -/

namespace LuaStubs

open Text Emission

structure MemberName.Clear (name : MemberName) : Prop where
  lua : '\n' ∉ name.lua.toList
  anchor : '\n' ∉ name.anchor.toList

theorem MemberName.clear_plain {name : String} (h : '\n' ∉ name.toList) : (plain name).Clear :=
  ⟨h, h⟩

theorem MemberName.clear_index : index.Clear := by
  constructor <;> decide

theorem MemberName.clear_length : length.Clear := by
  constructor <;> decide

theorem MemberName.clear_call : call.Clear := by
  constructor <;> decide

/-! Annotations of functions. -/

namespace Api.Signature

def varargMarks (s : Signature) : List Mark :=
  (s.variadicType.map fun _ => Mark.vararg).toList

def resultMarks (s : Signature) : List Mark :=
  (s.returnType.map fun _ => Mark.result).toList

def parameterMarks (s : Signature) : List Mark :=
  (sortOn (·.order) s.parameters).map fun p =>
    .parameter (Identifier.escapeKeyword p.name) p.optional

/-- The annotations of a function that takes its parameters one by one. -/
def marks (s : Signature) : List Mark :=
  s.parameterMarks ++ s.varargMarks ++ s.resultMarks

theorem heads_resultMarks (s : Signature) : s.resultMarks.filterMap Mark.head? = [] := by
  unfold resultMarks
  cases s.returnType <;> rfl

theorem code_resultMarks (s : Signature) : s.resultMarks.filterMap Mark.code? = [] := by
  unfold resultMarks
  cases s.returnType <;> rfl

theorem heads_marks (s : Signature) : s.marks.filterMap Mark.head? = [] := by
  have varargs : s.varargMarks.filterMap Mark.head? = [] := by
    unfold varargMarks
    cases s.variadicType <;> rfl
  simp [marks, parameterMarks, varargs, s.heads_resultMarks, List.filterMap_map, Mark.head?,
    Function.comp_def]

theorem code_marks (s : Signature) : s.marks.filterMap Mark.code? = [] := by
  have varargs : s.varargMarks.filterMap Mark.code? = [] := by
    unfold varargMarks
    cases s.variadicType <;> rfl
  simp [marks, parameterMarks, varargs, s.code_resultMarks, List.filterMap_map, Mark.code?,
    Function.comp_def]

end Api.Signature

/-- A function, and what is known of the lines above it. -/
def FunctionBelow (quiet : Prop) (above : List Line → Prop) (name : String) (arguments : List String)
    (lines : List Line) : Prop :=
  (Line.function name arguments).Fits quiet ∧
    ∃ front, above front ∧ lines = front ++ [.function name arguments]

/-- Above a function that takes a table, the table is declared, and annotated as the one parameter. -/
def TableAbove (quiet : Prop) (s : Api.Signature) (table : String) (above : List Line) : Prop :=
  ∃ declaration results, Marked quiet [.head table []] declaration ∧
    Marked quiet s.resultMarks results ∧ '\n' ∉ table.toList ∧
    above = declaration ++ .parameter "param" s.tableIsOptional table .none :: results

variable {quiet : Prop} {s : Api.Signature} {table : String} {above : List Line}

theorem TableAbove.marked (h : TableAbove quiet s table above) :
    Marked quiet (.head table [] :: .parameter "param" s.tableIsOptional :: s.resultMarks) above := by
  obtain ⟨declaration, results, hdeclaration, hresults, htable, rfl⟩ := h
  exact hdeclaration.append (hresults.cons (.parameter "param" s.tableIsOptional table .none)
    ⟨by decide, htable, by decide⟩)

theorem FunctionBelow.outlined {name : String} {arguments : List String} {marks : List Mark}
    {lines : List Line} (h : FunctionBelow quiet (Marked quiet marks) name arguments lines)
    (code : marks.filterMap Mark.code? = []) :
    Outlined quiet [functionCode name arguments] (marks.filterMap Mark.head?) lines := by
  obtain ⟨hline, front, hfront, rfl⟩ := h
  have all := hfront.outlined.append (.single (.function name arguments) hline)
  rw [code] at all
  simpa [Line.code?, Line.head?, Line.mark?, Mark.code?, Mark.head?] using all

theorem FunctionBelow.imp {above above' : List Line → Prop} {name : String} {arguments : List String}
    {lines : List Line} (h : FunctionBelow quiet above name arguments lines)
    (himp : ∀ front, above front → above' front) : FunctionBelow quiet above' name arguments lines := by
  obtain ⟨hline, front, hfront, rfl⟩ := h
  exact ⟨hline, front, himp front hfront, rfl⟩

namespace Manual

variable {B : List Line → Prop} {α : Type} {step : α → Emission (List Line)} {xs : List α}

theorem gives_linesOf_marked {marks : α → List Mark}
    (h : ∀ a ∈ xs, Gives B (Marked quiet (marks a)) (step a)) :
    Gives B (Marked quiet (xs.flatMap marks)) (linesOf step xs) :=
  Gives.linesOf (Q := fun xs => Marked quiet (xs.flatMap marks)) .nil
    (fun _ _ _ _ => Marked.append) h

theorem gives_linesOf_outlined {code : α → List String} {heads : α → List (String × List String)}
    (h : ∀ a ∈ xs, Gives B (Outlined quiet (code a) (heads a)) (step a)) :
    Gives B (Outlined quiet (xs.flatMap code) (xs.flatMap heads)) (linesOf step xs) :=
  Gives.linesOf (Q := fun xs => Outlined quiet (xs.flatMap code) (xs.flatMap heads)) .nil
    (fun _ _ _ _ => Outlined.append) h

variable {manual : Manual} {owner link : String} {lines : List Line}

theorem not_mem_escapeKeyword {name : String} (h : '\n' ∉ name.toList) :
    '\n' ∉ (Identifier.escapeKeyword name).toList := by
  unfold Identifier.escapeKeyword
  split
  · simp [h]
  · exact h

theorem not_mem_arguments {s : Api.Signature} (words : ∀ word ∈ s.words, word.Fits quiet) :
    ∀ argument ∈ arguments s, '\n' ∉ argument.toList := by
  intro argument h
  rcases List.mem_append.mp h with h | h
  · obtain ⟨p, hp, rfl⟩ := List.mem_map.mp h
    exact not_mem_escapeKeyword (fits_parameters (fun word h => words word (s.words_of_parameters h))
      p hp).name
  · split at h
    · rw [List.mem_singleton.mp h]
      decide
    · cases h

theorem quiet_getD {text? : Option String}
    (h : ∀ word ∈ (text?.map Word.prose).toList, word.Fits quiet) :
    quiet → Quiet true (text?.getD "").toList := by
  cases text? with
  | none => exact fun _ => joins_quiet.nil
  | some text => exact (h _ List.mem_cons_self).prose

variable (fits : manual.WordsFit quiet) (keeps : ∀ block, Declaring quiet block → B block)
include fits

/-! Members. -/

theorem quiet_memberView {anchor text : String} (howner : '\n' ∉ owner.toList)
    (hanchor : '\n' ∉ anchor.toList) (h : manual.memberView owner anchor = .ok text) :
    Quiet true text.toList :=
  quiet_view fits.base (by simp [howner, hanchor]) h

theorem silent_remark {description : String} (hdescription : quiet → Quiet true description.toList)
    {r : Remark × List Line} (h : manual.remark description = .ok r) :
    '\n' ∉ r.1.text.toList ∧ Silent quiet r.2 := by
  rcases remark_cases h with rfl | ⟨lines, hlines, rfl⟩ | ⟨text, htext, hline, rfl⟩
  · exact ⟨by decide, .nil⟩
  · have hmark : '\n' ∉ Remark.below.text.toList := by decide
    exact ⟨hmark, silent_comment fits.base hdescription hlines⟩
  · have hclear : '\n' ∉ text :=
      fun hmem => hline ((keepsLines_prepare fits.base htext).newline hmem)
    exact ⟨by simp [Remark.text, hclear], .nil⟩

theorem silent_varargComment {description : String}
    (hdescription : quiet → Quiet true description.toList)
    (h : manual.varargComment description = .ok lines) : Silent quiet lines := by
  unfold varargComment at h
  split at h
  · cases h
    exact .nil
  · exact silent_comment fits.base (fun hquiet => quiet_varargNote (hdescription hquiet)) h

include keeps

theorem gives_attributeLines (howner : '\n' ∉ owner.toList) {a : Api.Attribute}
    (words : ∀ word ∈ a.doc.words, word.Fits quiet) (htype : a.type.Fits quiet) {name : MemberName}
    (hname : name.Clear) : Gives B (Silent quiet) (manual.attributeLines owner a name) := by
  have hdescription : quiet → Quiet true a.doc.description.toList := (words _ List.mem_cons_self).prose
  apply (Gives.lift fun _ => quiet_memberView fits howner hname.anchor).bind
  intro link hlink
  apply (Gives.lift fun _ => silent_describe fits.base words hlink
    fun hquiet => quiet_access (hdescription hquiet)).bind
  intro comment hcomment
  apply (keepsLine_lower fits keeps false _ _ htype
    (Place.clear_member howner hname.lua hlink)).bind_pure
  intro type htype
  exact hcomment.append (.single (.field name.lua type false) ⟨hname.lua, htype⟩)

theorem gives_parameterLines {method : String} (howner : '\n' ∉ owner.toList)
    (hmethod : '\n' ∉ method.toList) (hlink : Quiet true link.toList) {p : Api.Parameter}
    (hp : TableField.Fits quiet p.name (.fixed p)) :
    Gives B (Marked quiet [.parameter (Identifier.escapeKeyword p.name) p.optional])
      (manual.parameterLines owner method link p) := by
  have hplace : (Place.methodParameter owner method p.name link).Clear :=
    ⟨by simp [Place.methodParameter, howner, hmethod, hp.name], hlink⟩
  apply (keepsLine_lower fits keeps false _ _ hp.type hplace).bind
  intro type htype
  apply (Gives.lift fun _ => silent_remark fits hp.description).bind_pure
  rintro ⟨remark, lines⟩ ⟨hremark, hlines⟩
  exact hlines.cons (.parameter (Identifier.escapeKeyword p.name) p.optional type remark)
    ⟨not_mem_escapeKeyword hp.name, htype, hremark⟩

theorem gives_varargLines (howner : '\n' ∉ owner.toList) (hlink : Quiet true link.toList)
    {m : Api.Method} (hname : '\n' ∉ m.name.toList)
    (words : ∀ word ∈ m.signature.words, word.Fits quiet) :
    Gives B (Marked quiet m.signature.varargMarks) (manual.varargLines owner link m) := by
  unfold varargLines Api.Signature.varargMarks
  cases htype : m.signature.variadicType with
  | none => exact .pure .nil
  | some variadic =>
    have hvariadic := fits_of_type? htype fun word h =>
      words word (m.signature.words_of_variadicType h)
    have hdescription := @quiet_getD quiet m.signature.variadicDescription fun word h =>
      words word (m.signature.words_of_variadicDescription h)
    have hplace : (Place.methodVararg owner m.name link).Clear :=
      ⟨by simp [Place.methodVararg, howner, hname], hlink⟩
    apply (keepsLine_lower fits keeps false _ _ hvariadic hplace).bind
    intro type htype
    apply (Gives.lift fun _ => silent_varargComment fits hdescription).bind_pure
    intro lines hlines
    exact hlines.cons (.vararg type) htype

theorem gives_resultLines (howner : '\n' ∉ owner.toList) (hlink : Quiet true link.toList)
    {m : Api.Method} (hname : '\n' ∉ m.name.toList)
    (words : ∀ word ∈ m.signature.words, word.Fits quiet) :
    Gives B (Marked quiet m.signature.resultMarks) (manual.resultLines owner link m) := by
  unfold resultLines Api.Signature.resultMarks
  cases htype : m.signature.returnType with
  | none => exact .pure .nil
  | some result =>
    have hresult := fits_of_type? htype fun word h =>
      words word (m.signature.words_of_returnType h)
    have hdescription := @quiet_getD quiet m.signature.returnDescription fun word h =>
      words word (m.signature.words_of_returnDescription h)
    have hplace : (Place.methodReturn owner m.name link).Clear :=
      ⟨by simp [Place.methodReturn, howner, hname], hlink⟩
    apply (keepsLine_lower fits keeps false _ _ hresult hplace).bind
    intro type htype
    apply (Gives.lift fun _ => silent_remark fits hdescription).bind_pure
    rintro ⟨remark, lines⟩ ⟨hremark, hlines⟩
    exact hlines.cons (.result type remark) ⟨htype, hremark⟩

theorem gives_methodLines (howner : '\n' ∉ owner.toList) {m : Api.Method}
    (words : ∀ word ∈ m.words, word.Fits quiet) {name : MemberName} (hname : name.Clear) :
    Gives B (FunctionBelow quiet (Marked quiet m.signature.marks) name.lua (arguments m.signature))
      (manual.methodLines owner m name) := by
  have hown : '\n' ∉ m.name.toList := (words (.name m.name) List.mem_cons_self).1
  have hdoc : ∀ word ∈ m.doc.words, word.Fits quiet := fun word h => words word (m.words_of_doc h)
  have hsignature : ∀ word ∈ m.signature.words, word.Fits quiet :=
    fun word h => words word (m.words_of_signature h)
  have hdescription : quiet → Quiet true m.doc.description.toList := (hdoc _ List.mem_cons_self).prose
  have hparameters := @fits_parameters quiet m.signature.parameters fun word h =>
    hsignature word (m.signature.words_of_parameters h)
  apply (Gives.lift fun _ => quiet_memberView fits howner hname.anchor).bind
  intro link hlink
  apply (Gives.lift fun _ => silent_describe fits.base hdoc hlink hdescription).bind
  intro comment hcomment
  apply (gives_linesOf_marked fun p hp =>
    gives_parameterLines fits keeps howner hown hlink (hparameters p hp)).bind
  intro parameters hparameters
  apply (gives_varargLines fits keeps howner hlink hown hsignature).bind
  intro vararg hvararg
  apply (gives_resultLines fits keeps howner hlink hown hsignature).bind_pure
  intro result hresult
  refine ⟨⟨hname.lua, not_mem_arguments hsignature⟩, _, ?_, rfl⟩
  rw [← List.map_eq_flatMap] at hparameters
  exact ((hcomment.append hparameters).append hvararg).append hresult

theorem gives_tableMethodLines (howner : '\n' ∉ owner.toList) {m : Api.Method}
    (words : ∀ word ∈ m.words, word.Fits quiet) :
    Gives B (FunctionBelow quiet (TableAbove quiet m.signature (owner ++ "." ++ m.name ++ "_param"))
      m.name ["param"]) (manual.tableMethodLines owner m) := by
  have hown : '\n' ∉ m.name.toList := (words (.name m.name) List.mem_cons_self).1
  have hdoc : ∀ word ∈ m.doc.words, word.Fits quiet := fun word h => words word (m.words_of_doc h)
  have hsignature : ∀ word ∈ m.signature.words, word.Fits quiet :=
    fun word h => words word (m.words_of_signature h)
  have hdescription : quiet → Quiet true m.doc.description.toList := (hdoc _ List.mem_cons_self).prose
  have hfields := @fits_fields quiet appliesTo (.inl rfl) m.signature.parameters m.signature.groups
    (fun word h => hsignature word (m.signature.words_of_parameters h))
    (fun word h => hsignature word (m.signature.words_of_groups h))
  apply (Gives.lift fun _ => quiet_memberView fits howner hown).bind
  intro link hlink
  have hplace : (Place.methodTable owner m.name link).Clear :=
    ⟨by simp [Place.methodTable, howner, hown], hlink⟩
  apply (gives_declareTable fits (keepsLine_lower fits keeps false) hplace (fun _ => hlink)
    hfields).bind
  intro declaration hdeclaration
  apply (Gives.lift fun _ => silent_describe fits.base hdoc hlink hdescription).bind
  intro comment hcomment
  apply (gives_resultLines fits keeps howner hlink hown hsignature).bind_pure
  intro results hresults
  have hparam : ∀ argument ∈ ["param"], '\n' ∉ argument.toList :=
    List.forall_mem_singleton.mpr (by decide)
  exact ⟨⟨hown, hparam⟩, _, ⟨_, results, hdeclaration.append (hcomment.cons .blank trivial), hresults,
    hplace.name, rfl⟩, rfl⟩

theorem gives_memberFunctionLines (howner : '\n' ∉ owner.toList) {m : Api.Method}
    (words : ∀ word ∈ m.words, word.Fits quiet) :
    Gives B (Outlined quiet [m.code] (m.heads owner)) (manual.memberFunctionLines owner m) := by
  have hname : '\n' ∉ m.name.toList := (words (.name m.name) List.mem_cons_self).1
  unfold memberFunctionLines Api.Method.code Api.Method.heads
  split
  · apply (gives_tableMethodLines fits keeps howner words).imp
    intro lines h
    have outlined := (h.imp fun _ => TableAbove.marked).outlined m.signature.code_resultMarks
    simpa [List.filterMap_cons, Mark.head?, m.signature.heads_resultMarks] using outlined
  · apply (gives_methodLines fits keeps howner words (MemberName.clear_plain hname)).imp
    intro lines h
    have outlined := h.outlined m.signature.code_marks
    rwa [m.signature.heads_marks] at outlined

/-! Classes. -/

theorem gives_attributesLines (howner : '\n' ∉ owner.toList) {attributes : List Api.Attribute}
    (words : ∀ word ∈ attributes.flatMap Api.Attribute.words, word.Fits quiet) :
    Gives B (Silent quiet) (manual.attributesLines owner attributes) := by
  apply gives_linesOf_silent
  intro a ha
  have own := words_of_sortOn words a ha
  have hname : '\n' ∉ a.name.toList := (own (.name a.name) List.mem_cons_self).1
  exact gives_attributeLines fits keeps howner (fun word h => own word (a.words_of_doc h))
    (fun word h => own word (a.words_of_type h)) (MemberName.clear_plain hname)

omit keeps in
theorem silent_classComment {name : String} (hname : '\n' ∉ name.toList) {doc : Api.Documentation}
    (words : ∀ word ∈ doc.words, word.Fits quiet) (h : manual.classComment name doc = .ok lines) :
    Silent quiet lines := by
  obtain ⟨link, hlink, hlines⟩ := Outcome.bind_eq_ok.mp h
  refine silent_describe fits.base words (quiet_view fits.base hname hlink) (fun hquiet => ?_) hlines
  exact quiet_classDescription (fun global hglobal => (fits.globals name global hglobal).2 hquiet)
    ((words _ List.mem_cons_self).prose hquiet)

theorem gives_structLines {name : String} (hname : '\n' ∉ name.toList) {doc : Api.Documentation}
    (hdoc : ∀ word ∈ doc.words, word.Fits quiet) {attributes : List Api.Attribute}
    (words : ∀ word ∈ attributes.flatMap Api.Attribute.words, word.Fits quiet) :
    Gives B (Marked quiet [.head name []]) (manual.structLines name doc attributes) := by
  apply (Gives.lift fun _ => silent_classComment fits hname hdoc).bind
  intro comment hcomment
  apply (gives_attributesLines fits keeps hname words).bind_pure
  intro fields hfields
  exact hcomment.append (hfields.cons (.declaration name []) ⟨hname, List.forall_mem_nil _⟩)

theorem gives_operatorLines (howner : '\n' ∉ owner.toList) {o : Api.Operator}
    (words : ∀ word ∈ o.words, word.Fits quiet) :
    Gives B (Silent quiet) (manual.operatorLines owner o) := by
  have hdoc : ∀ word ∈ o.asAttribute.doc.words, word.Fits quiet :=
    fun word h => words word (o.words_of_doc h)
  have htype : o.asAttribute.type.Fits quiet := by
    unfold Api.Operator.asAttribute
    cases hfound : o.type with
    | none =>
      intro word hword
      rw [List.mem_singleton.mp hword]
      exact Word.Tidy.fits (by decide) quiet
    | some type => exact fits_of_type? hfound fun word h => words word (o.words_of_type h)
  unfold operatorLines
  split
  · exact gives_attributeLines fits keeps howner hdoc htype MemberName.clear_index
  · split
    · exact gives_attributeLines fits keeps howner hdoc htype MemberName.clear_length
    · exact .pure .nil

theorem gives_callLines (howner : '\n' ∉ owner.toList) {operators : List Api.Operator}
    (words : ∀ word ∈ operators.flatMap Api.Operator.words, word.Fits quiet) {o : Api.Operator}
    (found : operators.find? (·.name = "call") = some o) :
    Gives B (FunctionBelow quiet (Marked quiet o.signature.marks) "__call" (arguments o.signature))
      (manual.callLines owner operators) := by
  have hmethod (word : Word) (h : word ∈ o.asMethod.words) : word.Fits quiet :=
    words word (List.mem_flatMap.mpr ⟨o, List.mem_of_find?_eq_some found, o.words_of_asMethod h⟩)
  unfold callLines
  rw [found]
  exact gives_methodLines fits keeps howner hmethod MemberName.clear_call

theorem gives_classLines {globals : List Api.Global} {c : Api.Class}
    (words : ∀ word ∈ c.words, word.Fits quiet)
    (known : manual.classVariable c.name = c.variable globals)
    (hvariable : '\n' ∉ (c.variable globals).toList) :
    Gives B (Outlined quiet (c.code globals) c.heads) (manual.classLines c) := by
  have hname : '\n' ∉ c.name.toList := (words (.name c.name) List.mem_cons_self).1
  have hbases : ∀ base ∈ c.baseClasses, '\n' ∉ base.toList := by
    intro base hbase
    exact (words (.name base) (List.mem_append_right _ (List.mem_map_of_mem hbase))).1
  have part {own : List Word} (h : own ⊆ c.words) : ∀ word ∈ own, word.Fits quiet :=
    fun word hword => words word (h hword)
  have operatorLines (o : Api.Operator) (ho : o ∈ sortOn (·.order) c.operators) :=
    gives_operatorLines fits keeps hname (words_of_sortOn (part c.words_of_operators) o ho)
  have methodLines (m : Api.Method) (hm : m ∈ sortOn (·.order) c.methods) :=
    gives_memberFunctionLines fits keeps hname (words_of_sortOn (part c.words_of_methods) m hm)
  have callLines : Gives B
      (Outlined quiet ((c.operators.find? (·.name = "call")).toList.map Api.Operator.callCode) [])
      (manual.callLines c.name c.operators) := by
    cases found : c.operators.find? (·.name = "call") with
    | none =>
      unfold Manual.callLines
      rw [found]
      exact .pure .nil
    | some o =>
      apply (gives_callLines fits keeps hname (part c.words_of_operators) found).imp
      intro lines h
      have outlined := h.outlined o.signature.code_marks
      rwa [o.signature.heads_marks] at outlined
  apply (Gives.lift fun _ => silent_classComment fits hname (part c.words_of_doc)).bind
  intro comment hcomment
  apply Gives.lift_bind
  intro _ _
  apply (gives_attributesLines fits keeps hname (part c.words_of_attributes)).bind
  intro fields hfields
  apply (gives_linesOf_silent operatorLines).bind
  intro operators hoperators
  apply (gives_linesOf_outlined methodLines).bind
  intro methods hmethods
  apply callLines.bind_pure
  intro call hcall
  have hdeclaration := hfields.cons (.declaration c.name c.baseClasses) ⟨hname, hbases⟩
  have htable := hmethods.cons (.openTable (manual.classVariable c.name)) (known ▸ hvariable)
  have hfront := ((hcomment.append hdeclaration).append hoperators).outlined
  have hclass := ((hfront.append htable).append hcall).append (.single .closeTable trivial)
  rw [← List.map_eq_flatMap] at hclass
  simpa [List.filterMap_cons, Line.code?, Line.head?, Line.mark?, Mark.code?, Mark.head?, Api.Class.code,
    Api.Class.heads, known] using hclass

/-! Events and concepts. -/

theorem gives_eventLines {e : Api.Event} (words : ∀ word ∈ e.words, word.Fits quiet) :
    Gives B (Marked quiet [.head e.name []]) (manual.eventLines e) := by
  have hname : '\n' ∉ e.name.toList := (words (.name e.name) List.mem_cons_self).1
  have hdoc : ∀ word ∈ e.doc.words, word.Fits quiet := fun word h => words word (e.words_of_doc h)
  have hdata := @fits_parameters quiet e.data fun word h => words word (e.words_of_data h)
  apply (Gives.lift fun _ => quiet_view fits.base hname).bind
  intro link hlink
  apply (Gives.lift fun _ => silent_describe fits.base hdoc hlink
    (hdoc _ List.mem_cons_self).prose).bind
  intro comment hcomment
  have hfield (p : Api.Parameter) (hp : p ∈ sortOn (·.order) e.data) :
      Gives B (Silent quiet) (manual.eventField e.name link p) := by
    have field := hdata p hp
    apply (Gives.lift fun _ => silent_brief fits.base field.description hlink).bind
    intro comment hcomment
    apply (keepsLine_lower fits keeps false _ _ field.type
      (Place.clear_member hname field.name hlink)).bind_pure
    intro type htype
    exact hcomment.append (.single (.field p.name type p.optional) ⟨field.name, htype⟩)
  apply (gives_linesOf_silent hfield).bind_pure
  intro fields hfields
  exact hcomment.append (hfields.cons (.declaration e.name []) ⟨hname, List.forall_mem_nil _⟩)

theorem gives_identificationOption (howner : '\n' ∉ owner.toList) (hlink : Quiet true link.toList)
    {o : Api.Identification} (words : ∀ word ∈ o.words, word.Fits quiet) :
    Gives B (fun entry => (quiet → Quiet true entry.1.toList) ∧ '\n' ∉ entry.2.toList)
      (manual.identificationOption owner link o) := by
  have hdescription : quiet → Quiet true o.description.toList := (words _ List.mem_cons_self).prose
  have htype : o.type.Fits quiet := fun word h => words word (List.mem_cons_of_mem _ h)
  have horder : '\n' ∉ (toString o.order).toList := by
    simpa using not_mem_toDigits (show '\n'.isDigit = false by decide) o.order
  have hplace := Place.clear_member howner horder hlink
  apply (keepsLine_lower fits keeps true _ _ htype hplace).bind
  intro linked hlinked
  apply (keepsLine_lower fits keeps false _ _ htype hplace).bind_pure
  intro plain hplain
  refine ⟨fun hquiet => ?_, hplain⟩
  have hfront : Quiet true ("\n- " ++ linked).toList :=
    quiet_after (by decide) (by decide) (quiet_of_not_mem hlinked)
  exact joins_quiet.join hfront (joins_quiet.framed (by decide) (hdescription hquiet) (by decide))

theorem gives_identificationLines {c : Api.Concept} (hname : '\n' ∉ c.name.toList)
    (hdoc : ∀ word ∈ c.doc.words, word.Fits quiet) {options : List Api.Identification}
    (words : ∀ word ∈ options.flatMap Api.Identification.words, word.Fits quiet) :
    Gives B (Silent quiet) (manual.identificationLines c options) := by
  have hdescription : quiet → Quiet true c.doc.description.toList := (hdoc _ List.mem_cons_self).prose
  apply (Gives.lift fun _ => quiet_view fits.base hname).bind
  intro link hlink
  apply (gives_eachFrom 0 fun _ o ho =>
    gives_identificationOption fits keeps hname hlink (words_of_sortOn words o ho)).bind
  intro entries hentries
  have hlist (hquiet : quiet) : Quiet true (String.join (entries.map (·.1))).toList := by
    apply joins_quiet.concat
    intro text htext
    obtain ⟨entry, hentry, rfl⟩ := List.mem_map.mp htext
    exact (hentries entry hentry).1 hquiet
  have halternation : '\n' ∉ ("|".intercalate (entries.map (·.2))).toList := by
    apply (joins_not_mem _).intercalate (by decide)
    intro text htext
    obtain ⟨entry, hentry, rfl⟩ := List.mem_map.mp htext
    exact (hentries entry hentry).2
  apply (Gives.lift fun _ => silent_describe fits.base hdoc hlink fun hquiet =>
    joins_quiet.join (quiet_below (hdescription hquiet) (by decide)) (hlist hquiet)).bind_pure
  intro comment hcomment
  exact hcomment.append (.single (.alternation c.name _) ⟨hname, halternation⟩)

omit keeps in
theorem marked_declared {c : Api.Concept} (hname : '\n' ∉ c.name.toList)
    (hdoc : ∀ word ∈ c.doc.words, word.Fits quiet) {description : String}
    (hdescription : quiet → Quiet true description.toList) (hlink : Quiet true link.toList)
    (h : manual.describe c.doc link description = .ok lines) {below : List Line}
    (hbelow : Silent quiet below) :
    Marked quiet [.head c.name []] (lines ++ .declaration c.name [] :: below) :=
  (silent_describe fits.base hdoc hlink hdescription h).append
    (hbelow.cons (.declaration c.name []) ⟨hname, List.forall_mem_nil _⟩)

omit keeps in
theorem marked_plainLines {c : Api.Concept} (hname : '\n' ∉ c.name.toList)
    (hdoc : ∀ word ∈ c.doc.words, word.Fits quiet) (h : manual.plainLines c = .ok lines) :
    Marked quiet [.head c.name []] lines := by
  obtain ⟨link, hlink, h⟩ := Outcome.bind_eq_ok.mp h
  obtain ⟨comment, hcomment, h⟩ := Outcome.bind_eq_ok.mp h
  cases h
  exact marked_declared fits hname hdoc (hdoc _ List.mem_cons_self).prose
    (quiet_view fits.base hname hlink) hcomment .nil

omit keeps in
theorem marked_unionLines {c : Api.Concept} (hname : '\n' ∉ c.name.toList)
    (hdoc : ∀ word ∈ c.doc.words, word.Fits quiet) {options : List Api.Choice}
    (words : ∀ word ∈ options.flatMap Api.Choice.words, word.Fits quiet)
    (h : manual.unionLines c options = .ok lines) : Marked quiet [.head c.name []] lines := by
  have hdescription : quiet → Quiet true c.doc.description.toList := (hdoc _ List.mem_cons_self).prose
  have hentries (hquiet : quiet) :
      Quiet true (String.join ((sortOn (·.order) options).map unionEntry)).toList := by
    apply joins_quiet.concat
    intro text htext
    obtain ⟨choice, hchoice, rfl⟩ := List.mem_map.mp htext
    have own := words_of_sortOn words choice hchoice
    exact quiet_unionEntry (own (.label choice.name) List.mem_cons_self).1
      ((own _ (List.mem_cons_of_mem _ List.mem_cons_self)).prose hquiet)
  obtain ⟨link, hlink, h⟩ := Outcome.bind_eq_ok.mp h
  obtain ⟨comment, hcomment, h⟩ := Outcome.bind_eq_ok.mp h
  cases h
  refine marked_declared fits hname hdoc (fun hquiet => ?_) (quiet_view fits.base hname hlink)
    hcomment .nil
  exact joins_quiet.join (quiet_below (hdescription hquiet) (by decide)) (hentries hquiet)

omit keeps in
theorem silent_flagLines (hlink : Quiet true link.toList) {options : List Api.Choice}
    (words : ∀ choice ∈ options, ∀ word ∈ choice.words, word.Fits quiet)
    (h : manual.flagLines link options = .ok lines) : Silent quiet lines := by
  induction options generalizing lines with
  | nil =>
    cases h
    exact .nil
  | cons choice rest ih =>
    obtain ⟨hchoice, hrest⟩ := List.forall_mem_cons.mp words
    have hname : '\n' ∉ choice.name.toList := (hchoice (.label choice.name) List.mem_cons_self).1
    have hprose := (hchoice _ (List.mem_cons_of_mem _ List.mem_cons_self)).prose
    obtain ⟨comment, hcomment, h⟩ := Outcome.bind_eq_ok.mp h
    obtain ⟨others, hothers, h⟩ := Outcome.bind_eq_ok.mp h
    cases h
    exact (silent_brief fits.base hprose hlink hcomment).append
      ((ih hrest hothers).cons (.field choice.name "boolean" true) ⟨hname, by decide⟩)

omit keeps in
theorem marked_flagsLines {c : Api.Concept} (hname : '\n' ∉ c.name.toList)
    (hdoc : ∀ word ∈ c.doc.words, word.Fits quiet) {options : List Api.Choice}
    (words : ∀ word ∈ options.flatMap Api.Choice.words, word.Fits quiet)
    (h : manual.flagsLines c options = .ok lines) : Marked quiet [.head c.name []] lines := by
  obtain ⟨link, hlink, h⟩ := Outcome.bind_eq_ok.mp h
  obtain ⟨comment, hcomment, h⟩ := Outcome.bind_eq_ok.mp h
  obtain ⟨flags, hflags, h⟩ := Outcome.bind_eq_ok.mp h
  cases h
  have hlink := quiet_view fits.base hname hlink
  exact marked_declared fits hname hdoc (hdoc _ List.mem_cons_self).prose hlink hcomment
    (silent_flagLines fits hlink (words_of_sortOn words) hflags)

theorem gives_tableLines {c : Api.Concept} (hname : '\n' ∉ c.name.toList)
    (hdoc : ∀ word ∈ c.doc.words, word.Fits quiet) {shape : Api.Shape}
    (words : ∀ word ∈ shape.words, word.Fits quiet) {appliesWords : String}
    (happlies : appliesWords = appliesTo ∨ appliesWords = appliesToFilter) :
    Gives B (Marked quiet [.head c.name []]) (manual.tableLines c shape appliesWords) := by
  have hdescription : quiet → Quiet true c.doc.description.toList := (hdoc _ List.mem_cons_self).prose
  rw [shape.words_eq] at words
  have hfields := fits_fields happlies
    (fun word h => words word (List.mem_append_left _ (List.mem_append_left _ h)))
    (fun word h => words word (List.mem_append_left _ (List.mem_append_right _ h)))
  have hgroups := @quiet_getD quiet shape.groupsDescription
    fun word h => words word (List.mem_append_right _ h)
  unfold tableLines
  apply (Gives.lift fun _ => quiet_view fits.base hname).bind
  intro link hlink
  have hheader (header : String) (h : manual.overview c.doc link (tableDescription c shape) = .ok header)
      (hquiet : quiet) : Quiet true header.toList :=
    quiet_overview fits.base (fun word hword => (hdoc word hword).2 hquiet) hlink
      (quiet_trimEnd (quiet_below (hdescription hquiet) (hgroups hquiet))) h
  apply (Gives.lift hheader).bind
  intro header hheader
  exact gives_declareTable fits (keepsLine_lower fits keeps false) ⟨hname, hlink⟩ hheader hfields

theorem gives_conceptLines {c : Api.Concept} (words : ∀ word ∈ c.words, word.Fits quiet) :
    Gives B (Outlined quiet [] c.heads) (manual.conceptLines c) := by
  have hname : '\n' ∉ c.name.toList := (words (.name c.name) List.mem_cons_self).1
  have hdoc : ∀ word ∈ c.doc.words, word.Fits quiet := fun word h => words word (c.words_of_doc h)
  have hkind : ∀ word ∈ c.kind.words, word.Fits quiet := fun word h => words word (c.words_of_kind h)
  unfold conceptLines Api.Concept.heads
  cases hk : c.kind with
  | identification options =>
    rw [hk] at hkind
    exact (gives_identificationLines fits keeps hname hdoc hkind).imp fun _ => Marked.outlined
  | plain =>
    exact (Gives.lift fun _ => marked_plainLines fits hname hdoc).imp fun _ => Marked.outlined
  | struct attributes =>
    rw [hk] at hkind
    exact (gives_structLines fits keeps hname hdoc hkind).imp fun _ => Marked.outlined
  | flag options =>
    rw [hk] at hkind
    exact (Gives.lift fun _ => marked_flagsLines fits hname hdoc hkind).imp fun _ => Marked.outlined
  | table shape =>
    rw [hk] at hkind
    exact (gives_tableLines fits keeps hname hdoc hkind (.inl rfl)).imp fun _ => Marked.outlined
  | tableOrArray shape =>
    rw [hk] at hkind
    exact (gives_tableLines fits keeps hname hdoc hkind (.inl rfl)).imp fun _ => Marked.outlined
  | union options =>
    rw [hk] at hkind
    exact (Gives.lift fun _ => marked_unionLines fits hname hdoc hkind).imp fun _ => Marked.outlined
  | filter shape =>
    rw [hk] at hkind
    exact (gives_tableLines fits keeps hname hdoc hkind (.inr rfl)).imp fun _ => Marked.outlined

end Manual

end LuaStubs
