import LuaStubs.Proofs.Outline.Annotations
import LuaStubs.Proofs.Outline.Runs

/-! Functions fit the annotations above them. A method and a call have one annotation for each
parameter, in the order of the arguments, and one for further arguments and one for a result if
there are any; a method that takes a table has that table as its one parameter, and declares it
above. -/

namespace LuaStubs

open Text Emission

/-! What stands above a function in the text. -/

/-- The annotation of a parameter, whatever its type is and whatever is said of it. -/
def Api.Parameter.AnnotatedBy (p : Parameter) (row : String) : Prop :=
  ∃ type remark, row = (Line.parameter (Identifier.escapeKeyword p.name) p.optional type remark).text

/-- The annotations of a function that takes its parameters one by one. -/
structure Api.Signature.Annotated (s : Signature) (above : List (List Char)) : Prop where
  parameters : List.Forall₂ Api.Parameter.AnnotatedBy (sortOn (·.order) s.parameters)
    (tagged "---@param" above)
  varargs : (tagged "---@vararg" above).length = if s.variadicType.isSome then 1 else 0
  results : (tagged "---@return" above).length = if s.returnType.isSome then 1 else 0

def Api.Signature.tableRow (s : Signature) (table : String) : String :=
  "---@param param" ++ (if s.tableIsOptional then "? " else " ") ++ table

/-- The annotations of a function that takes a table, with the declaration of the table before. -/
structure Api.Signature.TableAnnotated (s : Signature) (table : String) (above : List (List Char)) :
    Prop where
  parameter : tagged "---@param" above = [s.tableRow table]
  declared : ∃ before after, above = before ++ (s.tableRow table).toList :: after ∧
    ("---@class " ++ table).toList ∈ before
  varargs : tagged "---@vararg" above = []
  results : (tagged "---@return" above).length = if s.returnType.isSome then 1 else 0

/-- The annotations of a method, in whatever way it takes its parameters. -/
def Api.Method.Annotated (owner : String) (m : Method) : List (List Char) → Prop :=
  if m.signature.takesTable then m.signature.TableAnnotated (owner ++ "." ++ m.name ++ "_param")
  else m.signature.Annotated

/-- A text whose last line is code, and where something is known of the lines above. -/
def EndsWith (code : String) (above : List (List Char) → Prop) (text : String) : Prop :=
  ∃ front, lines text.toList = front ++ [code.toList, []] ∧ above front

/-! The same for the lines that are written. -/

namespace Api.Signature

variable {s : Signature} {table : String} {above : List Line}

theorem filter_parameter_marks (s : Signature) :
    s.marks.filter (·.kind? == some .parameter) = s.parameterMarks := by
  unfold marks varargMarks resultMarks
  cases s.variadicType <;> cases s.returnType <;>
    simp [parameterMarks, List.filter_map, Mark.kind?, Function.comp_def]

theorem filter_vararg_marks (s : Signature) :
    s.marks.filter (·.kind? == some .vararg) = s.varargMarks := by
  unfold marks varargMarks resultMarks
  cases s.variadicType <;> cases s.returnType <;>
    simp [parameterMarks, List.filter_map, Mark.kind?, Function.comp_def]

theorem filter_result_marks (s : Signature) :
    s.marks.filter (·.kind? == some .result) = s.resultMarks := by
  unfold marks varargMarks resultMarks
  cases s.variadicType <;> cases s.returnType <;>
    simp [parameterMarks, List.filter_map, Mark.kind?, Function.comp_def]

theorem filter_resultMarks (s : Signature) {a : AnnotationKind} (other : a ≠ .result) :
    s.resultMarks.filter (·.kind? == some a) = [] := by
  unfold resultMarks
  cases s.returnType <;> simp [Mark.kind?, Ne.symm other]

theorem filter_result_resultMarks (s : Signature) :
    s.resultMarks.filter (·.kind? == some .result) = s.resultMarks := by
  unfold resultMarks
  cases s.returnType <;> rfl

theorem length_varargMarks (s : Signature) :
    s.varargMarks.length = if s.variadicType.isSome then 1 else 0 := by
  rw [varargMarks, Option.length_toList, Option.isSome_map]

theorem length_resultMarks (s : Signature) :
    s.resultMarks.length = if s.returnType.isSome then 1 else 0 := by
  rw [resultMarks, Option.length_toList, Option.isSome_map]

theorem annotated_of_marked (h : Marked True s.marks above) :
    s.Annotated (above.map (·.text.toList)) where
  parameters := by
    have rows := h.forall₂_tagged s.code_marks .parameter
    rw [s.filter_parameter_marks, parameterMarks, List.forall₂_map_left_iff] at rows
    refine rows.imp ?_
    rintro p row ⟨line, hmark, rfl⟩
    cases line <;> cases hmark
    exact ⟨_, _, rfl⟩
  varargs := (h.length_tagged s.code_marks .vararg).trans
    (by rw [s.filter_vararg_marks, length_varargMarks])
  results := (h.length_tagged s.code_marks .result).trans
    (by rw [s.filter_result_marks, length_resultMarks])

theorem tableAnnotated_of_above (h : TableAbove True s table above) :
    s.TableAnnotated table (above.map (·.text.toList)) := by
  obtain ⟨declaration, results, hdeclaration, hresults, -, rfl⟩ := h
  have htext : (Line.parameter "param" s.tableIsOptional table .none).text = s.tableRow table :=
    String.append_empty
  have front (a : AnnotationKind) : tagged a.tag (declaration.map (·.text.toList)) = [] :=
    hdeclaration.tagged_eq_nil rfl rfl
  have tags (a : AnnotationKind) : tagged a.tag ((declaration ++
      .parameter "param" s.tableIsOptional table .none :: results).map (·.text.toList)) =
      tagged a.tag [(s.tableRow table).toList] ++ tagged a.tag (results.map (·.text.toList)) := by
    rw [List.map_append, tagged_append, front, List.nil_append, List.map_cons, htext,
      ← List.singleton_append, tagged_append]
  have row (a : AnnotationKind) : tagged a.tag [(s.tableRow table).toList] =
      if a = .parameter then [s.tableRow table] else [] := by
    have htag : a.tag.toList.isPrefixOf (s.tableRow table).toList = decide (a = .parameter) := by
      cases a <;> simp [AnnotationKind.tag, tableRow, List.isPrefixOf]
    rw [tagged, List.filter_cons, htag]
    cases a <;> simp
  have none {a : AnnotationKind} (other : a ≠ .result) :
      tagged a.tag (results.map (·.text.toList)) = [] :=
    hresults.tagged_eq_nil s.code_resultMarks (s.filter_resultMarks other)
  have head : ("---@class " ++ table).toList ∈ declaration.map (·.text.toList) := by
    have hmark : Mark.head table [] ∈ declaration.filterMap Line.mark? := by
      rw [hdeclaration.marks]
      exact List.mem_cons_self
    obtain ⟨line, hline, hmark⟩ := List.mem_filterMap.mp hmark
    cases line <;> cases hmark
    exact List.mem_map.mpr ⟨_, hline, by simp [Line.text]⟩
  refine ⟨?_, ⟨declaration.map (·.text.toList), results.map (·.text.toList), ?_, head⟩, ?_, ?_⟩
  · exact (tags .parameter).trans (by rw [row, none (by decide)]; rfl)
  · rw [List.map_append, List.map_cons, htext]
  · exact (tags .vararg).trans (by rw [row, none (by decide)]; rfl)
  · have hresult : tagged "---@return" _ = _ := tags .result
    rw [hresult, row, List.length_append, hresults.length_tagged s.code_resultMarks .result,
      filter_result_resultMarks, length_resultMarks]
    exact Nat.zero_add _

end Api.Signature

/-! The text of a function with what stands above. -/

theorem FunctionBelow.endsWith {above : List Line → Prop} {name : String} {arguments : List String}
    {lines : List Line} {P : List (List Char) → Prop}
    (h : FunctionBelow True above name arguments lines)
    (habove : ∀ front, above front → Fitting True front ∧ P (front.map (·.text.toList))) :
    EndsWith (functionCode name arguments) P (Line.renderAll lines) := by
  obtain ⟨hline, front, hfront, rfl⟩ := h
  obtain ⟨fits, known⟩ := habove front hfront
  have all : Fitting True (front ++ [.function name arguments]) := by
    intro line hmem
    rcases List.mem_append.mp hmem with hmem | hmem
    · exact fits line hmem
    · rw [List.mem_singleton.mp hmem]
      exact hline
  refine ⟨front.map (·.text.toList), ?_, known⟩
  rw [Line.lines_renderAll all, List.map_append, List.append_assoc]
  rfl

namespace Manual

variable {manual : Manual} (fits : manual.WordsFit True) {owner : String} {B : List Line → Prop}
  (keeps : ∀ block, Declaring True block → B block)
include fits keeps

theorem endsWith_memberFunctionLines (howner : '\n' ∉ owner.toList) {m : Api.Method}
    (words : ∀ word ∈ m.words, word.Fits True) :
    Gives B (fun lines => EndsWith m.code (m.Annotated owner) (Line.renderAll lines))
      (manual.memberFunctionLines owner m) := by
  have hname : '\n' ∉ m.name.toList := (words (.name m.name) List.mem_cons_self).1
  unfold memberFunctionLines Api.Method.code Api.Method.Annotated
  by_cases table : m.signature.takesTable
  · simp only [if_pos table]
    apply (gives_tableMethodLines fits keeps howner words).imp
    exact fun lines h => h.endsWith fun front above =>
      ⟨above.marked.fits, Api.Signature.tableAnnotated_of_above above⟩
  · simp only [if_neg table]
    apply (gives_methodLines fits keeps howner words (MemberName.clear_plain hname)).imp
    exact fun lines h => h.endsWith fun front above =>
      ⟨above.fits, Api.Signature.annotated_of_marked above⟩

theorem endsWith_callLines (howner : '\n' ∉ owner.toList) {operators : List Api.Operator}
    (words : ∀ word ∈ operators.flatMap Api.Operator.words, word.Fits True) {o : Api.Operator}
    (found : operators.find? (·.name = "call") = some o) :
    Gives B (fun lines => EndsWith o.callCode o.signature.Annotated (Line.renderAll lines))
      (manual.callLines owner operators) := by
  apply (gives_callLines fits keeps howner words found).imp
  exact fun lines h => h.endsWith fun front above =>
    ⟨above.fits, Api.Signature.annotated_of_marked above⟩

end Manual

/-- In a tidy description every method, and the way in which a class is called, is written as a
function below annotations that fit it, whatever the backlog holds. -/
theorem functions_annotated {document : Api.Document} {baseUrl : String} {catalog : Catalog}
    (tidy : document.Tidy baseUrl) (built : Catalog.ofDocument document = .ok catalog)
    {c : Api.Class} (hc : c ∈ document.classes) :
    (∀ m ∈ c.methods, ∀ b lines b',
      (Manual.mk catalog baseUrl).memberFunctionLines c.name m b = .ok (lines, b') →
        EndsWith m.code (m.Annotated c.name) (Line.renderAll lines)) ∧
    (∀ o, c.operators.find? (·.name = "call") = some o → ∀ b lines b',
      (Manual.mk catalog baseUrl).callLines c.name c.operators b = .ok (lines, b') →
        EndsWith o.callCode o.signature.Annotated (Line.renderAll lines)) := by
  obtain ⟨entries, hentries, rfl⟩ := Catalog.ofDocument_eq_ok.mp built
  have all (word : Word) (h : word ∈ document.words) : word.Fits True := (tidy.words word h).fits True
  have fits := Manual.fits_of_document all tidy.base hentries
  have keeps : ∀ block, Declaring True block → True := fun _ _ => trivial
  have words (word : Word) (h : word ∈ c.words) : word.Fits True :=
    all word (Api.Document.words_of_class hc h)
  have hname : '\n' ∉ c.name.toList := (words (.name c.name) List.mem_cons_self).1
  refine ⟨fun m hm b lines b' h => ?_, fun o found b lines b' h => ?_⟩
  · have hwords (word : Word) (h : word ∈ m.words) : word.Fits True :=
      words word (c.words_of_methods (List.mem_flatMap.mpr ⟨m, hm, h⟩))
    exact (Manual.endsWith_memberFunctionLines fits keeps hname hwords b (fun _ _ => trivial) _ h).1
  · have hwords (word : Word) (h : word ∈ c.operators.flatMap Api.Operator.words) : word.Fits True :=
      words word (c.words_of_operators h)
    exact (Manual.endsWith_callLines fits keeps hname hwords found b (fun _ _ => trivial) _ h).1

def callable (s : Api.Signature) : Api.Class :=
  ⟨"A", 0, ⟨"", [], [], [], []⟩, [⟨"f", 0, ⟨"", [], [], [], []⟩, s⟩], [],
    [⟨"call", 0, ⟨"", [], [], [], []⟩, none, true, false, s⟩], []⟩

def callableDocument (s : Api.Signature) : Api.Document :=
  ⟨[callable s], [], [], [⟨"int", 0, ""⟩], [], []⟩

def callableManual (s : Api.Signature) : Manual :=
  ⟨.ofEntries (callableDocument s) [], "/"⟩

/-- A keyword, a table, a remark below its line, further arguments and a result. -/
def variadicSignature : Api.Signature :=
  ⟨[⟨"t", 1, "Rows\nof it.", .table ⟨[⟨"x", 0, "", .named "int", false⟩], [], none⟩, true⟩,
      ⟨"end", 0, "The last.", .named "int", false⟩],
    [], none, some (.named "int"), some "More.", false, false, some (.array (.named "int")), none⟩

def variadicCall : String :=
  "---[View documentation](//A.html#A.operator%20())\n" ++
  "---@param end_ int@The last.\n" ++ "---@param t? A.call.t@\n---Rows  \n---of it.\n" ++
  "---@vararg int\n---\n---**vararg**: More.\n" ++ "---@return int[]\n" ++
  "__call=function(end_,t,...)end,\n"

theorem functions_annotated_variadic :
    ∃ method call b b', ∃ m ∈ (callable variadicSignature).methods,
      (callableManual variadicSignature).memberFunctionLines "A" m .empty = .ok (method, b) ∧
      (callableManual variadicSignature).callLines "A" (callable variadicSignature).operators b =
        .ok (call, b') ∧
      Line.renderAll call = variadicCall ∧
      EndsWith "f=function(end_,t,...)end," variadicSignature.Annotated (Line.renderAll method) ∧
      EndsWith "__call=function(end_,t,...)end," variadicSignature.Annotated
        (Line.renderAll call) := by
  let m : Api.Method := ⟨"f", 0, ⟨"", [], [], [], []⟩, variadicSignature⟩
  have run : ((do
      let method ← (callableManual variadicSignature).memberFunctionLines "A" m
      let call ← (callableManual variadicSignature).callLines "A"
        (callable variadicSignature).operators
      return (method, call) : Emission (List Line × List Line)) .empty).toOption.map
        (fun r => Line.renderAll r.1.2) =
      some variadicCall := by decide +kernel
  obtain ⟨⟨⟨method, call⟩, b'⟩, h, text⟩ := Outcome.exists_of_toOption run
  obtain ⟨_, b, hmethod, h⟩ := Emission.bind_eq_ok.mp h
  obtain ⟨_, _, hcall, h⟩ := Emission.bind_eq_ok.mp h
  cases Emission.pure_eq_ok.mp h
  have tidy : (callableDocument variadicSignature).Tidy "/" := ⟨by decide +kernel, by decide⟩
  have built : Catalog.ofDocument (callableDocument variadicSignature) =
      .ok (callableManual variadicSignature).catalog := rfl
  obtain ⟨methods, calls⟩ := functions_annotated tidy built List.mem_cons_self
  refine ⟨method, call, b, b', m, List.mem_cons_self, hmethod, hcall, text, ?_, ?_⟩
  · exact methods m List.mem_cons_self .empty method b hmethod
  · exact calls _ rfl b call b' hcall

/-- A parameter that is called like the mark for further arguments. -/
def dotsSignature : Api.Signature :=
  ⟨[⟨"...", 0, "", .named "int", false⟩], [], none, none, none, false, false, none, none⟩

/-- The last argument can be such a parameter, which is not annotated as further arguments. -/
theorem last_argument_dots :
    (callableDocument dotsSignature).Tidy "/" ∧
    Catalog.ofDocument (callableDocument dotsSignature) = .ok (callableManual dotsSignature).catalog ∧
    ∃ m ∈ (callable dotsSignature).methods, ∃ lines b above,
      (callableManual dotsSignature).memberFunctionLines "A" m .empty = .ok (lines, b) ∧
      Text.lines (Line.renderAll lines).toList =
        above ++ [(functionCode "f" ["..."]).toList, []] ∧
      tagged "---@param" above = ["---@param ... int"] ∧ tagged "---@vararg" above = [] := by
  let m : Api.Method := ⟨"f", 0, ⟨"", [], [], [], []⟩, dotsSignature⟩
  have run : ((callableManual dotsSignature).memberFunctionLines "A" m .empty).toOption.map
      (fun r => Text.lines (Line.renderAll r.1).toList) =
      some (["---[View documentation](//A.html#A.f)".toList, "---@param ... int".toList]
        ++ ["f=function(...)end,".toList, []]) := by decide +kernel
  obtain ⟨⟨lines, b⟩, h, text⟩ := Outcome.exists_of_toOption run
  refine ⟨⟨by decide +kernel, by decide⟩, rfl, m, List.mem_cons_self, lines, b, _, h, text, ?_, ?_⟩
  · decide +kernel
  · decide +kernel

end LuaStubs
