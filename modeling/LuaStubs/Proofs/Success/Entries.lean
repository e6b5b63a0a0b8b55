import LuaStubs.Proofs.Arrangement.Sorting
import LuaStubs.Proofs.Success.Members
import LuaStubs.Stub.Concepts
import LuaStubs.Stub.Constants

/-! Exactly when entries can be written. The references that an entry makes by itself are to what is
there; what may be missing are operators, further reading, and names shown as links. -/

namespace LuaStubs

def Api.Class.docs (c : Api.Class) : List Api.Documentation :=
  c.doc :: c.attributes.map (·.doc) ++ c.operators.map (·.doc) ++ c.methods.map (·.doc)

def Api.Concept.docs (c : Api.Concept) : List Api.Documentation :=
  c.doc :: match c.kind with
    | .struct attributes => attributes.map (·.doc)
    | _ => []

def Api.Concept.identifications (c : Api.Concept) : List Api.Identification :=
  match c.kind with
  | .identification options => options
  | _ => []

namespace Manual

variable {manual : Manual}

/-- What can be missing when a class is written. -/
structure ClassNeeds (manual : Manual) (c : Api.Class) : Prop where
  operators : ∀ o ∈ c.operators, o.name ∈ expressible
  docs : ∀ doc ∈ c.docs, manual.Resolves doc

/-- What can be missing when a concept is written. -/
structure ConceptNeeds (manual : Manual) (c : Api.Concept) : Prop where
  docs : ∀ doc ∈ c.docs, manual.Resolves doc
  links : ∀ o ∈ c.identifications, ∀ name ∈ o.type.linkedNames manual.catalog.elements,
    manual.Knows name

theorem answers_checkOperators (owner : String) (operators : List Api.Operator) :
    Answers (∀ o ∈ operators, o.name ∈ expressible) (fun _ => True)
      (checkOperators owner operators) := by
  unfold checkOperators
  cases hfind : operators.find? fun o => !expressible.contains o.name with
  | none =>
    rw [List.find?_eq_none] at hfind
    exact (Answers.pure trivial).congr (iff_of_true trivial fun o ho => by simpa using hfind o ho)
  | some o =>
    have hmem := List.mem_of_find?_eq_some hfind
    have hbad := List.find?_some hfind
    refine ⟨fun all => ?_, fun a h => by cases h⟩
    simp [all o hmem] at hbad

theorem settled_classDescription (ready : manual.Ready) {name : String} {doc : Api.Documentation}
    (h : ']' ∉ doc.description.toList) : Settled (manual.classDescription name doc).toList := by
  apply settled_of_not_mem
  unfold classDescription
  cases hglobal : manual.catalog.globals.get? name with
  | none => exact h
  | some global =>
    have hdescription := ready.globals name global hglobal
    simp only
    split
    · exact h
    · split <;> simp [h, hdescription]

theorem answers_view (linkable : manual.Linkable) {name : String} (hname : ']' ∉ name.toList)
    (known : manual.Knows name) :
    Answers True (fun text => Settled text.toList) (manual.view name) := by
  have hview := answers_link linkable (fun h => hname (List.dropLast_subset _ h))
    (show ']' ∉ "View documentation".toList by decide)
  exact hview.congr (iff_true_intro known)

variable (ready : manual.Ready)
include ready

theorem answers_classComment {name : String} (hname : ']' ∉ name.toList)
    (known : manual.Knows name) {doc : Api.Documentation}
    (words : ∀ word ∈ doc.words, word.Linkable) :
    Answers (manual.Resolves doc) (fun _ => True) (manual.classComment name doc) := by
  have hdescription : ']' ∉ doc.description.toList := (words _ List.mem_cons_self).2
  apply (answers_view ready.toLinkable hname known).free_bind
  intro link hlink
  exact answers_describe ready.toLinkable words hlink (settled_classDescription ready hdescription)

theorem succeeds_attributesLines {owner : String} (howner : manual.Owner owner)
    {attributes : List Api.Attribute}
    (words : ∀ word ∈ attributes.flatMap Api.Attribute.words, word.Linkable) :
    (manual.attributesLines owner attributes).SucceedsIff
      (∀ a ∈ attributes, manual.Resolves a.doc) := by
  have hattribute (a : Api.Attribute) (ha : a ∈ sortOn (·.order) attributes) :
      (manual.attributeLines owner a (.plain a.name)).SucceedsIff (manual.Resolves a.doc) := by
    have own (word : Word) (hword : word ∈ a.words) : word.Linkable :=
      words word (List.mem_flatMap.mpr ⟨a, (mem_sortOn _ a _).mp ha, hword⟩)
    have hname : ']' ∉ a.name.toList := not_mem_of_linkMarks (own _ List.mem_cons_self) (by decide)
    exact succeeds_attributeLines ready howner
      (fun word h => own word (a.words_of_doc h)) (fun word h => own word (a.words_of_type h))
      (MemberName.linkable_plain hname)
  exact (Succeeds.linesOf hattribute).congr (by simp [mem_sortOn])

theorem succeeds_operatorLines {owner : String} (howner : manual.Owner owner) {o : Api.Operator}
    (words : ∀ word ∈ o.words, word.Linkable) :
    (manual.operatorLines owner o).SucceedsIff
      (o.name = "index" ∨ o.name = "length" → manual.Resolves o.doc) := by
  have hdoc : ∀ word ∈ o.doc.words, word.Linkable := fun word h =>
    words word (o.words_of_doc h)
  have htype : o.asAttribute.type.Linkable := by
    intro word hword
    cases htype : o.type with
    | none =>
      have hany : word = .name "any" := by
        simpa [Api.Operator.asAttribute, htype, Api.TypeExpr.words] using hword
      rw [hany]
      decide
    | some type =>
      have hmem : word ∈ Api.wordsOfType? o.type := by
        simpa [Api.Operator.asAttribute, htype, Api.wordsOfType?] using hword
      exact words word (o.words_of_type hmem)
  unfold operatorLines
  split
  · rename_i hindex
    exact (succeeds_attributeLines ready howner hdoc htype
      MemberName.linkable_index).congr (by
      simp [hindex, Api.Operator.asAttribute])
  · split
    · rename_i hlength
      exact (succeeds_attributeLines ready howner hdoc htype
        MemberName.linkable_length).congr (by
        simp [hlength, Api.Operator.asAttribute])
    · rename_i hindex hlength
      exact (Succeeds.pure trivial).congr (by simp [hindex, hlength])

theorem succeeds_callLines {owner : String} (howner : manual.Owner owner)
    {operators : List Api.Operator}
    (words : ∀ word ∈ operators.flatMap Api.Operator.words, word.Linkable) :
    (manual.callLines owner operators).SucceedsIff
      (∀ o, operators.find? (·.name = "call") = some o → manual.Resolves o.doc) := by
  unfold callLines
  cases hfind : operators.find? (·.name = "call") with
  | none => exact (Succeeds.pure trivial).congr (by simp)
  | some o =>
    have own (word : Word) (hword : word ∈ o.words) : word.Linkable :=
      words word (List.mem_flatMap.mpr ⟨o, List.mem_of_find?_eq_some hfind, hword⟩)
    have hmethod : ∀ word ∈ o.asMethod.words, word.Linkable :=
      fun word hword => own word (o.words_of_asMethod hword)
    exact (succeeds_methodLines ready howner hmethod MemberName.linkable_call).congr (by
      simp [Api.Operator.asMethod])

theorem succeeds_classLines {c : Api.Class} (once : c.CalledOnce)
    (listed : manual.catalog.classes.has c.name = true) (hcolon : ':' ∉ c.name.toList)
    (words : ∀ word ∈ c.words, word.Linkable) :
    (manual.classLines c).SucceedsIff (manual.ClassNeeds c) := by
  have hname : ']' ∉ c.name.toList := not_mem_of_linkMarks (words _ List.mem_cons_self) (by decide)
  have howner : manual.Owner c.name := ⟨⟨by simp [Catalog.ownerPage?, listed], hcolon⟩, hname⟩
  have hdoc : ∀ word ∈ c.doc.words, word.Linkable := fun word h => words word (c.words_of_doc h)
  have hattributes : ∀ word ∈ c.attributes.flatMap Api.Attribute.words, word.Linkable :=
    fun word h => words word (c.words_of_attributes h)
  have hoperators : ∀ word ∈ c.operators.flatMap Api.Operator.words, word.Linkable :=
    fun word h => words word (c.words_of_operators h)
  have hmethods : ∀ word ∈ c.methods.flatMap Api.Method.words, word.Linkable :=
    fun word h => words word (c.words_of_methods h)
  have operatorLines (o : Api.Operator) (ho : o ∈ sortOn (·.order) c.operators) :=
    @succeeds_operatorLines manual ready _ howner o fun word h =>
      hoperators word (List.mem_flatMap.mpr ⟨o, (mem_sortOn _ o _).mp ho, h⟩)
  have methodLines (m : Api.Method) (hm : m ∈ sortOn (·.order) c.methods) :=
    @succeeds_memberFunctionLines manual ready _ howner m fun word h =>
      hmethods word (List.mem_flatMap.mpr ⟨m, (mem_sortOn _ m _).mp hm, h⟩)
  apply ((Succeeds.lift (answers_classComment ready hname (knows_class listed) hdoc)).bind
    fun comment _ => (Succeeds.lift (answers_checkOperators c.name c.operators)).bind fun _ _ =>
      (succeeds_attributesLines ready howner hattributes).bind fun fields _ =>
        (Succeeds.linesOf operatorLines).bind fun operators _ =>
          (Succeeds.linesOf methodLines).bind fun methods _ =>
            (succeeds_callLines ready howner hoperators).bind_pure fun _ _ => trivial).congr
  simp only [mem_sortOn]
  constructor
  · rintro ⟨hdoc, hoperators, hattributes, hfields, hmethods, hcall⟩
    refine ⟨hoperators, fun doc h => ?_⟩
    simp only [Api.Class.docs, List.cons_append, List.mem_cons, List.mem_append, List.mem_map] at h
    rcases h with rfl | (⟨a, ha, rfl⟩ | ⟨o, ho, rfl⟩) | ⟨m, hm, rfl⟩
    · exact hdoc
    · exact hattributes a ha
    · have hexpressible : o.name = "index" ∨ o.name = "length" ∨ o.name = "call" := by
        simpa [expressible] using hoperators o ho
      rcases hexpressible with h | h | h
      · exact hfields o ho (.inl h)
      · exact hfields o ho (.inr h)
      · exact hcall o (Api.Class.find?_call once ho h)
    · exact hmethods m hm
  · intro needs
    have docs {doc : Api.Documentation} (h : doc ∈ c.docs) := needs.docs doc h
    refine ⟨docs (by simp [Api.Class.docs]), needs.operators, fun a ha => docs ?_,
      fun o ho _ => docs ?_, fun m hm => docs ?_, fun o ho => docs ?_⟩
    · simp only [Api.Class.docs, List.cons_append, List.mem_cons, List.mem_append, List.mem_map]
      exact .inr (.inl (.inl ⟨a, ha, rfl⟩))
    · simp only [Api.Class.docs, List.cons_append, List.mem_cons, List.mem_append, List.mem_map]
      exact .inr (.inl (.inr ⟨o, ho, rfl⟩))
    · simp only [Api.Class.docs, List.cons_append, List.mem_cons, List.mem_append, List.mem_map]
      exact .inr (.inr ⟨m, hm, rfl⟩)
    · simp only [Api.Class.docs, List.cons_append, List.mem_cons, List.mem_append, List.mem_map]
      exact .inr (.inl (.inr ⟨o, List.mem_of_find?_eq_some ho, rfl⟩))

theorem succeeds_eventLines {e : Api.Event} (listed : manual.catalog.events.has e.name = true)
    (words : ∀ word ∈ e.words, word.Linkable) :
    (manual.eventLines e).SucceedsIff (manual.Resolves e.doc) := by
  have hname : ']' ∉ e.name.toList := not_mem_of_linkMarks (words _ List.mem_cons_self) (by decide)
  have hdoc : ∀ word ∈ e.doc.words, word.Linkable := fun word h => words word (e.words_of_doc h)
  have hdescription : ']' ∉ e.doc.description.toList := (hdoc _ List.mem_cons_self).2
  have hdata : ∀ word ∈ Api.wordsOfParameters e.data, word.Linkable := fun word h =>
    words word (e.words_of_data h)
  apply (Succeeds.lift (answers_view ready.toLinkable hname (knows_event listed))).free_bind
  intro link hlink
  have hdescribe := answers_describe ready.toLinkable hdoc hlink (settled_of_not_mem hdescription)
  refine ((Succeeds.lift hdescribe).bind fun comment _ => ?_).congr (iff_of_eq (and_true _))
  have hfield (p : Api.Parameter) (hp : p ∈ sortOn (·.order) e.data) :
      (manual.eventField e.name link p).SucceedsIff True := by
    have hp := linkable_of_mem_parameters hdata ((mem_sortOn _ p _).mp hp)
    have hplace : (Place.member e.name p.name link).Linkable :=
      ⟨by simp [Place.member, hname, hp.name], hlink⟩
    apply Succeeds.free_bind (.lift (answers_brief hp.description hlink))
    intro comment _
    exact (writesTypes_lower ready.toRegular ready.acyclic _ _ hp.type hplace).bind_pure
      fun _ _ => trivial
  exact ((Succeeds.linesOf hfield).congr (by simp)).bind_pure fun _ _ => trivial

/-! Concepts. -/

omit ready in
theorem settled_entries {entries : List String}
    (h : ∀ entry ∈ entries, Settled entry.toList ∧ entry.toList.head? = some '\n') :
    Settled (String.join entries).toList := by
  rw [String.toList_join]
  induction entries with
  | nil => exact settled_of_not_mem (by simp)
  | cons entry rest ih =>
    have hrest := ih fun other hother => h other (List.mem_cons_of_mem _ hother)
    refine settled_append (h entry List.mem_cons_self).1 hrest (.inr ?_)
    cases rest with
    | nil => simp
    | cons next rest =>
      have hhead := (h next (by simp)).2
      change (next.toList ++ rest.flatMap String.toList).head? ≠ some '('
      rw [List.head?_append, hhead]
      simp

theorem succeeds_identificationOption {owner link : String} (howner : ']' ∉ owner.toList)
    (hlink : Settled link.toList) {o : Api.Identification}
    (words : ∀ word ∈ o.words, word.Linkable) :
    Succeeds (fun _ => False)
      (∀ name ∈ o.type.linkedNames manual.catalog.elements, manual.Knows name)
      (fun entry => Settled entry.1.toList ∧ entry.1.toList.head? = some '\n')
      (manual.identificationOption owner link o) := by
  have hdescription : ']' ∉ o.description.toList := (words _ List.mem_cons_self).2
  have htype : o.type.Linkable := fun word h => words word (List.mem_cons_of_mem _ h)
  have digits := not_mem_toDigits (show ']'.isDigit = false by decide) o.order
  have hplace : (Place.member owner (toString o.order) link).Linkable :=
    ⟨by simp [Place.member, howner, digits], hlink⟩
  have hlower (linked : Bool) := succeeds_lower ready.toRegular ready.acyclic linked htype hplace
  refine ((hlower true).bind fun shown hshown => (hlower false).bind_pure fun plain _ => ?_).congr
    (by simp)
  have hback := @not_mem_framed ']' ": " o.description "" (by decide) hdescription (by simp)
  have hfront := settled_after (show ']' ∉ "\n- ".toList by decide) hshown
  refine ⟨settled_before hfront (settled_of_not_mem hback) ?_, by simp⟩
  unfold Text.framed
  split <;> simp

theorem succeeds_identificationLines {c : Api.Concept} {options : List Api.Identification}
    (hname : ']' ∉ c.name.toList) (known : manual.Knows c.name)
    (hdoc : ∀ word ∈ c.doc.words, word.Linkable)
    (words : ∀ word ∈ options.flatMap Api.Identification.words, word.Linkable) :
    (manual.identificationLines c options).SucceedsIff (manual.Resolves c.doc ∧
      ∀ o ∈ options, ∀ name ∈ o.type.linkedNames manual.catalog.elements, manual.Knows name) := by
  have hdescription : ']' ∉ c.doc.description.toList := (hdoc _ List.mem_cons_self).2
  apply (Succeeds.lift (answers_view ready.toLinkable hname known)).free_bind
  intro link hlink
  have hoption (index : Nat) (o : Api.Identification) (ho : o ∈ sortOn (·.order) options) :=
    @succeeds_identificationOption manual ready _ _ hname hlink o fun word h =>
      words word (List.mem_flatMap.mpr ⟨o, (mem_sortOn _ o _).mp ho, h⟩)
  have hoptions := (@Succeeds.eachFrom _ _ _ _ _ _ 0 _ hoption).congr
    (Q := ∀ o ∈ options, ∀ name ∈ o.type.linkedNames manual.catalog.elements, manual.Knows name)
    (by simp only [mem_sortOn])
  refine (hoptions.bind fun entries hentries => ?_).congr and_comm
  have hjoin : Settled (String.join (entries.map (·.1))).toList := by
    apply settled_entries
    intro text htext
    obtain ⟨entry, hentry, rfl⟩ := List.mem_map.mp htext
    exact hentries entry hentry
  have hfront := @not_mem_framed ']' "" c.doc.description "\n\n" (by simp) hdescription (by decide)
  have hlist : Settled (Text.framed "" c.doc.description "\n\n"
      ++ "May be specified in one of the following ways:" ++ String.join (entries.map (·.1))).toList :=
    settled_after (by simp [hfront]) hjoin
  have hdescribe := answers_describe ready.toLinkable hdoc hlink hlist
  exact (Succeeds.lift hdescribe).bind_pure fun _ _ => trivial

theorem answers_describeConcept {c : Api.Concept} (hname : ']' ∉ c.name.toList)
    (known : manual.Knows c.name) (hdoc : ∀ word ∈ c.doc.words, word.Linkable)
    {description : String} (hdescription : ']' ∉ description.toList) :
    Answers (manual.Resolves c.doc) (fun _ => True)
      (do
        let link ← manual.view c.name
        let comment ← manual.describe c.doc link description
        return comment ++ [Line.declaration c.name []]) :=
  (answers_view ready.toLinkable hname known).free_bind fun _ hlink =>
    (answers_describe ready.toLinkable hdoc hlink (settled_of_not_mem hdescription)).bind_pure
      fun _ _ => trivial

omit ready in
theorem answers_flagLines {link : String} (hlink : Settled link.toList)
    {options : List Api.Choice} (h : ∀ choice ∈ options, ']' ∉ choice.description.toList) :
    Answers True (fun _ => True) (manual.flagLines link options) := by
  induction options with
  | nil => exact .pure trivial
  | cons choice rest ih =>
    have hrest := ih fun other hother => h other (List.mem_cons_of_mem _ hother)
    exact (answers_brief (h choice List.mem_cons_self) hlink).free_bind fun comment _ =>
      hrest.bind_pure fun _ _ => trivial

theorem answers_flagsLines {c : Api.Concept} (hname : ']' ∉ c.name.toList)
    (known : manual.Knows c.name) (hdoc : ∀ word ∈ c.doc.words, word.Linkable)
    {options : List Api.Choice} (words : ∀ word ∈ options.flatMap Api.Choice.words, word.Linkable) :
    Answers (manual.Resolves c.doc) (fun _ => True) (manual.flagsLines c options) := by
  have hdescription : ']' ∉ c.doc.description.toList := (hdoc _ List.mem_cons_self).2
  apply (answers_view ready.toLinkable hname known).free_bind
  intro link hlink
  have hdescribe := answers_describe ready.toLinkable hdoc hlink (settled_of_not_mem hdescription)
  refine (hdescribe.bind fun comment _ => ?_).congr (iff_of_eq (and_true _))
  refine (answers_flagLines hlink fun choice hchoice => ?_).bind_pure fun _ _ => trivial
  have hword : Word.prose choice.description ∈ options.flatMap Api.Choice.words :=
    List.mem_flatMap.mpr ⟨choice, (mem_sortOn _ choice _).mp hchoice, by simp [Api.Choice.words]⟩
  exact (words _ hword).2

theorem answers_unionLines {c : Api.Concept} (hname : ']' ∉ c.name.toList)
    (known : manual.Knows c.name) (hdoc : ∀ word ∈ c.doc.words, word.Linkable)
    {options : List Api.Choice} (words : ∀ word ∈ options.flatMap Api.Choice.words, word.Linkable) :
    Answers (manual.Resolves c.doc) (fun _ => True) (manual.unionLines c options) := by
  have hdescription : ']' ∉ c.doc.description.toList := (hdoc _ List.mem_cons_self).2
  have hfront := @not_mem_framed ']' "" c.doc.description "\n\n" (by simp) hdescription (by decide)
  have hentries (choice : Api.Choice) (hchoice : choice ∈ sortOn (·.order) options) :
      ']' ∉ (unionEntry choice).toList := by
    have own (word : Word) (hword : word ∈ choice.words) : word.Linkable :=
      words word (List.mem_flatMap.mpr ⟨choice, (mem_sortOn _ choice _).mp hchoice, hword⟩)
    have hlabel : ']' ∉ choice.name.toList := (own (.label _) (by simp [Api.Choice.words])).2
    have hprose : ']' ∉ choice.description.toList := (own (.prose _) (by simp [Api.Choice.words])).2
    have hback := @not_mem_framed ']' " - " choice.description "" (by decide) hprose (by simp)
    simp [unionEntry, hlabel, hback]
  exact answers_describeConcept ready hname known hdoc (by simpa [hfront] using hentries)

omit ready in
theorem not_mem_trimEnd {mark : Char} {text : String} (h : mark ∉ text.toList) :
    mark ∉ (Text.trimEnd text).toList := by
  intro hmem
  have hmem' : mark ∈ text.toList.reverse.dropWhile Text.isSpace := by
    simpa [Text.trimEnd] using hmem
  have hsuffix := (List.dropWhile_suffix Text.isSpace).subset hmem'
  exact h (List.mem_reverse.mp hsuffix)

theorem succeeds_tableLines {c : Api.Concept} (hname : ']' ∉ c.name.toList)
    (known : manual.Knows c.name) (hdoc : ∀ word ∈ c.doc.words, word.Linkable)
    {shape : Api.Shape} (words : ∀ word ∈ shape.words, word.Linkable) {appliesTo : String}
    (happlies : ']' ∉ appliesTo.toList) :
    (manual.tableLines c shape appliesTo).SucceedsIff (manual.Resolves c.doc) := by
  have hdescription : ']' ∉ c.doc.description.toList := (hdoc _ List.mem_cons_self).2
  rw [shape.words_eq] at words
  have hgroups : ']' ∉ (shape.groupsDescription.getD "").toList :=
    not_mem_getD fun word h => words word (by simp only [List.mem_append, h, or_true])
  have hfront := @not_mem_framed ']' "" c.doc.description "\n\n" (by simp) hdescription (by decide)
  have htext : ']' ∉ (tableDescription c shape).toList :=
    not_mem_trimEnd (by simp [hfront, hgroups])
  apply (Succeeds.lift (answers_view ready.toLinkable hname known)).free_bind
  intro link hlink
  have hoverview := answers_overview ready.toLinkable hdoc hlink (settled_of_not_mem htext)
  refine ((Succeeds.lift hoverview).bind fun header hheader => ?_).congr (iff_of_eq (and_true _))
  have hfields := @linkable_fields appliesTo happlies shape.parameters shape.groups
    (fun word h => words word (by simp [h])) (fun word h => words word (by simp [h]))
  exact succeeds_declareTable (writesTypes_lower ready.toRegular ready.acyclic) ⟨hname, hlink⟩
    hheader hfields

theorem succeeds_conceptLines {c : Api.Concept}
    (listed : manual.catalog.concepts.has c.name = true) (hcolon : ':' ∉ c.name.toList)
    (words : ∀ word ∈ c.words, word.Linkable) :
    (manual.conceptLines c).SucceedsIff (manual.ConceptNeeds c) := by
  have hname : ']' ∉ c.name.toList := not_mem_of_linkMarks (words _ List.mem_cons_self) (by decide)
  have known : manual.Knows c.name := knows_concept listed hcolon
  have hdoc : ∀ word ∈ c.doc.words, word.Linkable := fun word h => words word (c.words_of_doc h)
  have hkind : ∀ word ∈ c.kind.words, word.Linkable := fun word h => words word (c.words_of_kind h)
  have hdescription : ']' ∉ c.doc.description.toList := (hdoc _ List.mem_cons_self).2
  -- Only attributes have documentation of their own, and only ways of naming show links.
  have only (hdocs : c.docs = [c.doc]) (hlinks : c.identifications = []) :
      manual.Resolves c.doc ↔ manual.ConceptNeeds c := by
    refine ⟨fun h => ⟨by simpa [hdocs] using h, by simp [hlinks]⟩, fun needs => ?_⟩
    exact needs.docs _ (by simp [hdocs])
  unfold conceptLines
  cases hc : c.kind with
  | identification options =>
    rw [hc] at hkind
    apply (succeeds_identificationLines ready hname known hdoc hkind).congr
    have hdocs : c.docs = [c.doc] := by simp [Api.Concept.docs, hc]
    have hlinks : c.identifications = options := by simp [Api.Concept.identifications, hc]
    constructor
    · rintro ⟨hresolves, hoptions⟩
      exact ⟨by simpa [hdocs] using hresolves, by rwa [hlinks]⟩
    · intro needs
      have hoptions := needs.links
      rw [hlinks] at hoptions
      exact ⟨needs.docs _ (by simp [hdocs]), hoptions⟩
  | plain =>
    exact (Succeeds.lift (answers_describeConcept ready hname known hdoc hdescription)).congr
      (only (by simp [Api.Concept.docs, hc]) (by simp [Api.Concept.identifications, hc]))
  | struct attributes =>
    rw [hc] at hkind
    have howner : manual.Owner c.name := ⟨⟨by simp [Catalog.ownerPage?, listed]; split <;> rfl, hcolon⟩, hname⟩
    apply ((Succeeds.lift (answers_classComment ready hname known hdoc)).bind fun comment _ =>
      (succeeds_attributesLines ready howner hkind).bind_pure fun _ _ => trivial).congr
    have hdocs : c.docs = c.doc :: attributes.map (·.doc) := by simp [Api.Concept.docs, hc]
    have hlinks : c.identifications = [] := by simp [Api.Concept.identifications, hc]
    constructor
    · rintro ⟨hresolves, hattributes⟩
      refine ⟨fun doc h => ?_, by simp [hlinks]⟩
      rw [hdocs] at h
      rcases List.mem_cons.mp h with rfl | h
      · exact hresolves
      · obtain ⟨a, ha, rfl⟩ := List.mem_map.mp h
        exact hattributes a ha
    · intro needs
      have hall := needs.docs
      rw [hdocs] at hall
      exact ⟨hall _ List.mem_cons_self,
        fun a ha => hall _ (List.mem_cons_of_mem _ (List.mem_map_of_mem ha))⟩
  | flag options =>
    rw [hc] at hkind
    exact (Succeeds.lift (answers_flagsLines ready hname known hdoc hkind)).congr
      (only (by simp [Api.Concept.docs, hc]) (by simp [Api.Concept.identifications, hc]))
  | table shape =>
    rw [hc] at hkind
    exact (succeeds_tableLines ready hname known hdoc hkind (by decide)).congr
      (only (by simp [Api.Concept.docs, hc]) (by simp [Api.Concept.identifications, hc]))
  | tableOrArray shape =>
    rw [hc] at hkind
    exact (succeeds_tableLines ready hname known hdoc hkind (by decide)).congr
      (only (by simp [Api.Concept.docs, hc]) (by simp [Api.Concept.identifications, hc]))
  | union options =>
    rw [hc] at hkind
    exact (Succeeds.lift (answers_unionLines ready hname known hdoc hkind)).congr
      (only (by simp [Api.Concept.docs, hc]) (by simp [Api.Concept.identifications, hc]))
  | filter shape =>
    rw [hc] at hkind
    exact (succeeds_tableLines ready hname known hdoc hkind (by decide)).congr
      (only (by simp [Api.Concept.docs, hc]) (by simp [Api.Concept.identifications, hc]))

/-! Builtins and constants. -/

omit ready in
theorem answers_builtinsLines (linkable : manual.Linkable) {settings : Settings}
    {builtins : List Api.Builtin}
    (listed : ∀ b ∈ builtins, manual.catalog.builtins.has b.name = true)
    (words : ∀ word ∈ builtins.flatMap Api.Builtin.words, word.Linkable) :
    Answers True (fun _ => True) (manual.builtinsLines settings builtins) := by
  induction builtins with
  | nil => exact .pure trivial
  | cons b rest ih =>
    have hrest := ih (fun other h => listed other (List.mem_cons_of_mem _ h))
      fun word h => words word (List.mem_append_right _ h)
    have own (word : Word) (h : word ∈ b.words) : word.Linkable :=
      words word (List.mem_append_left _ h)
    have hname : ']' ∉ b.name.toList := not_mem_of_linkMarks (own _ List.mem_cons_self) (by decide)
    have hdescription : ']' ∉ b.description.toList := (own (.prose _) (by simp [Api.Builtin.words])).2
    have hlines : Answers True (fun _ => True) (manual.builtinLines b) :=
      (answers_view linkable hname (knows_builtin (listed b List.mem_cons_self))).free_bind
        fun link hlink => (answers_brief hdescription hlink).bind_pure fun _ _ => trivial
    unfold builtinsLines
    split
    · have hnone : Answers True (fun _ => True) (.ok ([] : List Line)) := .pure trivial
      exact hnone.free_bind fun _ _ => hrest.bind_pure fun _ _ => trivial
    · exact hlines.free_bind fun _ _ => hrest.bind_pure fun _ _ => trivial

omit ready in
theorem answers_valuesLines (linkable : manual.Linkable) {node : String} (hnode : ']' ∉ node.toList)
    {values : List Api.ConstantValue}
    (listed : ∀ value ∈ values, node ++ "." ++ value.name ∈ manual.catalog.paths)
    (words : ∀ word ∈ values.flatMap Api.ConstantValue.words, word.Linkable) :
    Answers True (fun _ => True) (manual.valuesLines node values) := by
  induction values with
  | nil => exact .pure trivial
  | cons value rest ih =>
    have hrest := ih (fun other h => listed other (List.mem_cons_of_mem _ h))
      fun word h => words word (List.mem_append_right _ h)
    have own (word : Word) (h : word ∈ value.words) : word.Linkable :=
      words word (List.mem_append_left _ h)
    have hname : ']' ∉ value.name.toList := not_mem_of_linkMarks (own _ List.mem_cons_self) (by decide)
    have hdescription : ']' ∉ value.description.toList :=
      (own (.prose _) (by simp [Api.ConstantValue.words])).2
    have hpath : ']' ∉ (node ++ "." ++ value.name).toList := by simp [hnode, hname]
    have hlines : Answers True (fun _ => True) (manual.valueLines node value) :=
      (answers_view linkable hpath (knows_path (listed value List.mem_cons_self))).free_bind
        fun link hlink => (answers_brief hdescription hlink).bind_pure fun _ _ => trivial
    exact hlines.free_bind fun _ _ => hrest.bind_pure fun _ _ => trivial

end Manual

mutual

theorem Manual.answers_treeLines {manual : Manual} (linkable : manual.Linkable) (parent : String)
    (hparent : ']' ∉ parent.toList) :
    ∀ node : Api.Constant, (∀ path ∈ node.paths parent, path ∈ manual.catalog.paths) →
      (∀ word ∈ node.words, word.Linkable) →
      Answers True (fun _ => True) (manual.treeLines parent node)
  | ⟨name, order, description, values, subkeys⟩, listed, words => by
    have hname : ']' ∉ name.toList := not_mem_of_linkMarks (words _ List.mem_cons_self) (by decide)
    have hpath : ']' ∉ (parent ++ "." ++ name).toList := by simp [hparent, hname]
    have hdescription : ']' ∉ description.toList :=
      (words (.prose _) (by simp [Api.Constant.words])).2
    have known := knows_path (listed _ List.mem_cons_self)
    have hvalues := @answers_valuesLines manual linkable _ hpath values
      (fun value hvalue => listed _ (by
        simp only [Api.Constant.paths, List.cons_append, List.mem_cons, List.mem_append, List.mem_map]
        exact .inr (.inl ⟨value, hvalue, rfl⟩)))
      (fun word h => words word (by simp [Api.Constant.words, h]))
    have hsubkeys := answers_treesLines linkable _ hpath subkeys
      (fun path h => listed path (by simp [Api.Constant.paths, h]))
      (fun word h => words word (by simp [Api.Constant.words, h]))
    exact (answers_view linkable hpath known).free_bind fun link hlink =>
      (answers_brief hdescription hlink).free_bind fun _ _ => hvalues.free_bind fun _ _ =>
        hsubkeys.bind_pure fun _ _ => trivial

theorem Manual.answers_treesLines {manual : Manual} (linkable : manual.Linkable) (parent : String)
    (hparent : ']' ∉ parent.toList) :
    ∀ nodes : List Api.Constant, (∀ path ∈ constantPaths parent nodes, path ∈ manual.catalog.paths) →
      (∀ word ∈ Api.wordsOfConstants nodes, word.Linkable) →
      Answers True (fun _ => True) (manual.treesLines parent nodes)
  | [], _, _ => .pure trivial
  | node :: rest, listed, words => by
    have hnode := answers_treeLines linkable parent hparent node
      (fun path h => listed path (List.mem_append_left _ h))
      (fun word h => words word (List.mem_append_left _ h))
    have hrest := answers_treesLines linkable parent hparent rest
      (fun path h => listed path (List.mem_append_right _ h))
      (fun word h => words word (List.mem_append_right _ h))
    exact hnode.free_bind fun _ _ => hrest.bind_pure fun _ _ => trivial

end

end LuaStubs
