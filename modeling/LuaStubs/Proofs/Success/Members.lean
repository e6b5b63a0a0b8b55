import LuaStubs.Proofs.Success.Texts
import LuaStubs.Proofs.Success.Lowering
import LuaStubs.Stub.Members

/-! Exactly when members can be written: each when what its documentation refers to is there. -/

namespace LuaStubs

/-- A manual from which entries can be written, since all types have an end. -/
structure Manual.Ready (manual : Manual) : Prop extends manual.Regular where
  acyclic : Acyclic manual.catalog.elements
  globals : ∀ type global, manual.catalog.globals.get? type = some global →
    ']' ∉ global.description.toList

abbrev Emission.SucceedsIff (x : Emission (List Line)) (needs : Prop) : Prop :=
  Succeeds (fun _ => False) needs (fun _ => True) x

structure MemberName.Linkable (name : MemberName) : Prop where
  lua : ']' ∉ name.lua.toList
  /-- A bracket stands at the end, if at all. -/
  anchor : ']' ∉ name.anchor.toList.dropLast

theorem MemberName.linkable_plain {name : String} (h : ']' ∉ name.toList) : (plain name).Linkable :=
  ⟨h, fun hmem => h (List.dropLast_subset _ hmem)⟩

theorem MemberName.linkable_index : index.Linkable := by
  constructor <;> decide

theorem MemberName.linkable_length : length.Linkable := by
  constructor <;> decide

theorem MemberName.linkable_call : call.Linkable := by
  constructor <;> decide

namespace Manual

/-- An owner of members whose name leaves links alone. -/
structure Owner (manual : Manual) (owner : String) : Prop extends manual.Owns owner where
  bracket : ']' ∉ owner.toList

variable {manual : Manual}

theorem settled_access {a : Api.Attribute} (h : ']' ∉ a.doc.description.toList) :
    Settled (access a).toList := by
  have hfront : Settled
      ("[" ++ (if a.readable then "R" else "") ++ (if a.writable then "W" else "") ++ "]").toList := by
    refine settled_of_noJoint (noJoint_of_not_mem_dropLast ?_)
    cases a.readable <;> cases a.writable <;> decide
  have hback := @not_mem_framed ']' "\n" a.doc.description "" (by decide) h (by simp)
  apply settled_before hfront (settled_of_not_mem hback)
  unfold Text.framed
  split <;> simp

theorem answers_memberView (linkable : manual.Linkable) {owner anchor : String}
    (howner : manual.Owner owner) (hanchor : ']' ∉ anchor.toList.dropLast) :
    Answers True (fun text => Settled text.toList) (manual.memberView owner anchor) := by
  have hreference : ']' ∉ (owner ++ "::" ++ anchor).toList.dropLast := by
    rw [String.toList_append]
    exact not_mem_dropLast_append (by simp [howner.bracket]) hanchor
  have hview := answers_link linkable hreference (show ']' ∉ "View documentation".toList by decide)
  exact hview.congr (iff_true_intro (knows_member howner.toOwns anchor))

theorem answers_remark {description : String} (h : ']' ∉ description.toList) :
    Answers True (fun _ => True) (manual.remark description) := by
  have settled := settled_of_not_mem h
  unfold remark
  split
  · exact .pure trivial
  · split
    · exact (answers_comment settled).map fun _ _ => trivial
    · exact (Answers.of_runs (prepare_of_settled settled)).map fun _ _ => trivial

theorem answers_varargComment {description : String} (h : ']' ∉ description.toList) :
    Answers True (fun _ => True) (manual.varargComment description) := by
  unfold varargComment
  split
  · exact .pure trivial
  · refine answers_comment (settled_of_not_mem ?_)
    unfold varargNote
    split <;> simp [h]

theorem not_mem_getD {text? : Option String}
    (h : ∀ word ∈ (text?.map Word.prose).toList, word.Linkable) : ']' ∉ (text?.getD "").toList := by
  cases text? with
  | none => simp
  | some text => exact (h _ List.mem_cons_self).2

theorem linkable_of_type? {type : Api.TypeExpr} {type? : Option Api.TypeExpr} (htype : type? = some type)
    (h : ∀ word ∈ Api.wordsOfType? type?, word.Linkable) : type.Linkable := by
  rw [htype] at h
  exact h

/-! Members. -/

variable (ready : manual.Ready) {owner link : String}
include ready

theorem succeeds_attributeLines (howner : manual.Owner owner) {a : Api.Attribute}
    (words : ∀ word ∈ a.doc.words, word.Linkable) (htype : a.type.Linkable) {name : MemberName}
    (hname : name.Linkable) :
    (manual.attributeLines owner a name).SucceedsIff (manual.Resolves a.doc) := by
  have hdescription : ']' ∉ a.doc.description.toList := (words _ List.mem_cons_self).2
  apply Succeeds.free_bind (.lift (answers_memberView ready.toLinkable howner hname.anchor))
  intro link hlink
  have hplace : (Place.member owner name.lua link).Linkable :=
    ⟨by simp [Place.member, howner.bracket, hname.lua], hlink⟩
  have hdescribe := answers_describe ready.toLinkable words hlink (settled_access hdescription)
  refine ((Succeeds.lift hdescribe).bind fun comment _ => ?_).congr (iff_of_eq (and_true _))
  exact (writesTypes_lower ready.toRegular ready.acyclic _ _ htype hplace).bind_pure fun _ _ => trivial

theorem succeeds_parameterLines {method : String} (howner : ']' ∉ owner.toList)
    (hmethod : ']' ∉ method.toList) (hlink : Settled link.toList) {p : Api.Parameter}
    (hp : TableField.Linkable p.name (.fixed p)) :
    (manual.parameterLines owner method link p).SucceedsIff True := by
  have hplace : (Place.methodParameter owner method p.name link).Linkable :=
    ⟨by simp [Place.methodParameter, howner, hmethod, hp.name], hlink⟩
  apply (writesTypes_lower ready.toRegular ready.acyclic _ _ hp.type hplace).free_bind
  intro _ _
  apply Succeeds.free_bind (.lift (answers_remark hp.description))
  rintro ⟨remark, lines⟩ _
  exact .pure trivial

theorem succeeds_varargLines (howner : ']' ∉ owner.toList) (hlink : Settled link.toList)
    {m : Api.Method} (hname : ']' ∉ m.name.toList)
    (words : ∀ word ∈ m.signature.words, word.Linkable) :
    (manual.varargLines owner link m).SucceedsIff True := by
  unfold varargLines
  cases htype : m.signature.variadicType with
  | none => exact .pure trivial
  | some variadic =>
    have hvariadic := linkable_of_type? htype fun word h =>
      words word (m.signature.words_of_variadicType h)
    have hdescription := @not_mem_getD m.signature.variadicDescription fun word h =>
      words word (m.signature.words_of_variadicDescription h)
    have hplace : (Place.methodVararg owner m.name link).Linkable :=
      ⟨by simp [Place.methodVararg, howner, hname], hlink⟩
    apply (writesTypes_lower ready.toRegular ready.acyclic _ _ hvariadic hplace).free_bind
    intro _ _
    exact Succeeds.free_bind (.lift (answers_varargComment hdescription)) fun lines _ => .pure trivial

theorem succeeds_resultLines (howner : ']' ∉ owner.toList) (hlink : Settled link.toList)
    {m : Api.Method} (hname : ']' ∉ m.name.toList)
    (words : ∀ word ∈ m.signature.words, word.Linkable) :
    (manual.resultLines owner link m).SucceedsIff True := by
  unfold resultLines
  cases htype : m.signature.returnType with
  | none => exact .pure trivial
  | some result =>
    have hresult := linkable_of_type? htype fun word h =>
      words word (m.signature.words_of_returnType h)
    have hdescription := @not_mem_getD m.signature.returnDescription fun word h =>
      words word (m.signature.words_of_returnDescription h)
    have hplace : (Place.methodReturn owner m.name link).Linkable :=
      ⟨by simp [Place.methodReturn, howner, hname], hlink⟩
    apply (writesTypes_lower ready.toRegular ready.acyclic _ _ hresult hplace).free_bind
    intro _ _
    apply Succeeds.free_bind (.lift (answers_remark hdescription))
    rintro ⟨remark, lines⟩ _
    exact .pure trivial

theorem succeeds_methodLines (howner : manual.Owner owner) {m : Api.Method}
    (words : ∀ word ∈ m.words, word.Linkable) {name : MemberName} (hname : name.Linkable) :
    (manual.methodLines owner m name).SucceedsIff (manual.Resolves m.doc) := by
  have hm : ']' ∉ m.name.toList := not_mem_of_linkMarks (words _ List.mem_cons_self) (by decide)
  have hdoc : ∀ word ∈ m.doc.words, word.Linkable := fun word h => words word (m.words_of_doc h)
  have hsignature : ∀ word ∈ m.signature.words, word.Linkable := fun word h =>
    words word (m.words_of_signature h)
  have hdescription : ']' ∉ m.doc.description.toList := (hdoc _ List.mem_cons_self).2
  apply Succeeds.free_bind (.lift (answers_memberView ready.toLinkable howner hname.anchor))
  intro link hlink
  have hdescribe := answers_describe ready.toLinkable hdoc hlink (settled_of_not_mem hdescription)
  refine ((Succeeds.lift hdescribe).bind fun comment _ => ?_).congr (iff_of_eq (and_true _))
  have hparameters (p : Api.Parameter) (hp : p ∈ sortOn (·.order) m.signature.parameters) :
      (manual.parameterLines owner m.name link p).SucceedsIff True :=
    succeeds_parameterLines ready howner.bracket hm hlink
      (linkable_of_mem_parameters (fun word h => hsignature word (m.signature.words_of_parameters h))
        ((mem_sortOn _ p _).mp hp))
  apply ((Succeeds.linesOf hparameters).congr (by simp)).free_bind
  intro parameters _
  apply (succeeds_varargLines ready howner.bracket hlink hm hsignature).free_bind
  intro vararg _
  exact (succeeds_resultLines ready howner.bracket hlink hm hsignature).bind_pure fun _ _ => trivial

theorem succeeds_tableMethodLines (howner : manual.Owner owner) {m : Api.Method}
    (words : ∀ word ∈ m.words, word.Linkable) :
    (manual.tableMethodLines owner m).SucceedsIff (manual.Resolves m.doc) := by
  have hm : ']' ∉ m.name.toList := not_mem_of_linkMarks (words _ List.mem_cons_self) (by decide)
  have hdoc : ∀ word ∈ m.doc.words, word.Linkable := fun word h => words word (m.words_of_doc h)
  have hsignature : ∀ word ∈ m.signature.words, word.Linkable := fun word h =>
    words word (m.words_of_signature h)
  have hdescription : ']' ∉ m.doc.description.toList := (hdoc _ List.mem_cons_self).2
  have hanchor : ']' ∉ m.name.toList.dropLast := fun h => hm (List.dropLast_subset _ h)
  apply Succeeds.free_bind (.lift (answers_memberView ready.toLinkable howner hanchor))
  intro link hlink
  have htable : (Place.methodTable owner m.name link).Linkable :=
    ⟨by simp [Place.methodTable, howner.bracket, hm], hlink⟩
  have hfields := @linkable_fields appliesTo (by decide) m.signature.parameters m.signature.groups
    (fun word h => hsignature word (m.signature.words_of_parameters h))
    (fun word h => hsignature word (m.signature.words_of_groups h))
  have writes := writesTypes_lower ready.toRegular ready.acyclic
  apply (succeeds_declareTable writes htable hlink hfields).free_bind
  intro declaration _
  have hdescribe := answers_describe ready.toLinkable hdoc hlink (settled_of_not_mem hdescription)
  refine ((Succeeds.lift hdescribe).bind fun comment _ => ?_).congr (iff_of_eq (and_true _))
  exact (succeeds_resultLines ready howner.bracket hlink hm hsignature).bind_pure fun _ _ => trivial

theorem succeeds_memberFunctionLines (howner : manual.Owner owner) {m : Api.Method}
    (words : ∀ word ∈ m.words, word.Linkable) :
    (manual.memberFunctionLines owner m).SucceedsIff (manual.Resolves m.doc) := by
  have hm : ']' ∉ m.name.toList := not_mem_of_linkMarks (words _ List.mem_cons_self) (by decide)
  unfold memberFunctionLines
  split
  · exact succeeds_tableMethodLines ready howner words
  · exact succeeds_methodLines ready howner words (MemberName.linkable_plain hm)

end Manual

end LuaStubs
