import LuaStubs.Proofs.Links.Pages
import LuaStubs.Proofs.Success.Basic
import LuaStubs.Proofs.Texts

/-! Assembled texts are settled. The words of a description bring no brackets, and where a text ends
with a bracket, as an array type does, no parenthesis follows. -/

namespace LuaStubs

/-! Texts that are put together. -/

theorem joinsApart_settled : Text.JoinsApart Settled where
  nil := settled_of_not_mem (by simp)
  append _ _ := settled_append

theorem settled_intercalate {sep : String} (hsep : ']' ∉ sep.toList)
    (hhead : sep.toList.head? ≠ some '(') (hne : sep.toList ≠ []) {parts : List String}
    (h : ∀ part ∈ parts, Settled part.toList) : Settled (sep.intercalate parts).toList :=
  joinsApart_settled.intercalate (settled_of_not_mem hsep)
    (fun hlast => hsep (List.mem_of_getLast? hlast)) hhead hne h

theorem settled_paragraphs {parts : List String} (h : ∀ part ∈ parts, Settled part.toList) :
    Settled (Text.paragraphs parts).toList :=
  settled_intercalate (by decide) (by decide) (by decide) fun part hpart =>
    h part (List.mem_filter.mp hpart).1

theorem settled_after {front text : String} (hfront : ']' ∉ front.toList)
    (h : Settled text.toList) : Settled (front ++ text).toList :=
  joinsApart_settled.after (settled_of_not_mem hfront) (fun hlast => hfront (List.mem_of_getLast? hlast)) h

theorem settled_before {text back : String} (h : Settled text.toList) (hback : Settled back.toList)
    (hhead : back.toList.head? ≠ some '(') : Settled (text ++ back).toList :=
  joinsApart_settled.before h hback hhead

theorem not_mem_framed {mark : Char} {before text after : String} (hbefore : mark ∉ before.toList)
    (htext : mark ∉ text.toList) (hafter : mark ∉ after.toList) :
    mark ∉ (Text.framed before text after).toList :=
  (Text.joins_not_mem mark).framed hbefore htext hafter

namespace Manual

/-- A reference that names something. -/
def Knows (manual : Manual) (reference : String) : Prop :=
  (manual.catalog.page? reference).isSome = true

variable {manual : Manual}

theorem answers_link (linkable : manual.Linkable) {reference shown : String}
    (hreference : ']' ∉ reference.toList.dropLast) (hshown : ']' ∉ shown.toList) :
    Answers (manual.Knows reference) (fun text => Settled text.toList)
      (manual.link reference shown) := by
  refine ⟨fun known => ?_, fun text h => ⟨?_, settled_of_link linkable hreference hshown h⟩⟩
  · obtain ⟨page, hpage⟩ := Option.isSome_iff_exists.mp known
    exact ⟨_, by rw [link, url, Manual.page, hpage]; rfl⟩
  · cases hpage : manual.catalog.page? reference with
    | none =>
      rw [link, url, page, hpage] at h
      cases h
    | some page =>
      unfold Knows
      rw [hpage]
      rfl

theorem answers_references (linkable : manual.Linkable) {names : List String}
    (hnames : ∀ name ∈ names, (Word.reference name).Linkable) :
    Answers (∀ name ∈ names, manual.Knows name)
      (fun entries => ∀ entry ∈ entries, Settled entry.toList) (manual.references names) := by
  induction names with
  | nil => exact (Answers.pure (by simp)).congr (by simp)
  | cons name rest ih =>
    have hname : ']' ∉ name.toList :=
      not_mem_of_linkMarks (hnames name List.mem_cons_self) (by decide)
    have hlink := answers_link linkable (fun h => hname (List.dropLast_subset _ h)) hname
    have hrest := ih fun other hother => hnames other (List.mem_cons_of_mem _ hother)
    refine (hlink.bind fun link hlink => hrest.bind_pure fun others hothers => ?_).congr (by simp)
    exact List.forall_mem_cons.mpr ⟨settled_after (by decide) hlink, hothers⟩

theorem answers_seeAlso (linkable : manual.Linkable) {names : List String}
    (hnames : ∀ name ∈ names, (Word.reference name).Linkable) :
    Answers (∀ name ∈ names, manual.Knows name) (fun text => Settled text.toList)
      (manual.seeAlso names) := by
  cases names with
  | nil =>
    have hempty : Answers True (fun text : String => Settled text.toList) (.ok "") :=
      .pure (settled_of_not_mem (by decide))
    exact hempty.congr (by simp)
  | cons name rest =>
    apply (answers_references linkable hnames).map
    intro entries hentries
    exact settled_after (by decide) (settled_intercalate (by decide) (by decide) (by decide) hentries)

/-- The documentation of an entry names only what is there. -/
def Resolves (manual : Manual) (doc : Api.Documentation) : Prop :=
  ∀ reference ∈ doc.seeAlso, manual.Knows reference

theorem answers_overview (linkable : manual.Linkable) {doc : Api.Documentation}
    (words : ∀ word ∈ doc.words, word.Linkable) {link description : String}
    (hlink : Settled link.toList) (hdescription : Settled description.toList) :
    Answers (manual.Resolves doc) (fun text => Settled text.toList)
      (manual.overview doc link description) := by
  have prose {text : String} (h : text ∈ doc.notes ++ doc.examples ++ doc.subclasses) :
      ']' ∉ text.toList := by
    have hword : Word.prose text ∈ doc.words :=
      List.mem_cons_of_mem _ (List.mem_append_left _ (List.mem_map_of_mem h))
    exact (words _ hword).2
  have references {name : String} (h : name ∈ doc.seeAlso) : (Word.reference name).Linkable :=
    words _ (List.mem_cons_of_mem _ (List.mem_append_right _ (List.mem_map_of_mem h)))
  apply (answers_seeAlso linkable fun name => references).bind_pure
  intro seeAlso hseeAlso
  apply settled_paragraphs
  simp only [List.mem_cons, List.not_mem_nil, or_false, forall_eq_or_imp, forall_eq]
  refine ⟨hdescription, ?_, hlink, ?_, ?_, hseeAlso⟩
  · refine settled_of_not_mem ((Text.joins_not_mem _).intercalate (by decide) fun note hnote => ?_)
    obtain ⟨text, htext, rfl⟩ := List.mem_map.mp hnote
    have := @prose text (by simp [htext])
    simp [this]
  · refine settled_of_not_mem ((Text.joins_not_mem _).intercalate (by decide) fun sample hsample => ?_)
    obtain ⟨text, htext, rfl⟩ := List.mem_map.mp hsample
    have := @prose text (by simp [htext])
    simp [this]
  · split
    · exact settled_of_not_mem (by decide)
    · have hnames : ∀ name ∈ doc.subclasses, ']' ∉ name.toList :=
        fun name hname => prose (by simp [hname])
      have := (Text.joins_not_mem ']').orList (by decide) (by decide) hnames
      exact settled_of_not_mem (by simp [this])

theorem answers_comment {text : String} (h : Settled text.toList) :
    Answers True (fun _ => True) (manual.comment text) :=
  .of_runs (comment_of_settled h)

theorem answers_describe (linkable : manual.Linkable) {doc : Api.Documentation}
    (words : ∀ word ∈ doc.words, word.Linkable) {link description : String}
    (hlink : Settled link.toList) (hdescription : Settled description.toList) :
    Answers (manual.Resolves doc) (fun _ => True) (manual.describe doc link description) :=
  ((answers_overview linkable words hlink hdescription).bind fun _ htext =>
    answers_comment htext).congr (iff_of_eq (and_true _))

theorem answers_brief {description link : String} (hdescription : ']' ∉ description.toList)
    (hlink : Settled link.toList) : Answers True (fun _ => True) (manual.brief description link) :=
  answers_comment (settled_after (not_mem_framed (by simp) hdescription (by decide)) hlink)

end Manual

/-! What a manual knows: the entries of its catalog, and the members of classes and concepts,
whatever they are called. -/

namespace Manual

variable {manual : Manual} {name : String}

theorem knows_builtin (h : manual.catalog.builtins.has name = true) : manual.Knows name := by
  unfold Knows Catalog.page?
  rw [if_pos h]
  rfl

theorem knows_class (h : manual.catalog.classes.has name = true) : manual.Knows name := by
  unfold Knows Catalog.page?
  rw [if_pos h]
  split <;> rfl

theorem knows_event (h : manual.catalog.events.has name = true) : manual.Knows name := by
  unfold Knows Catalog.page?
  rw [if_pos h]
  repeat' split
  all_goals rfl

theorem knows_path (h : name ∈ manual.catalog.paths) : manual.Knows name := by
  unfold Knows Catalog.page?
  rw [if_pos (List.contains_iff_mem.mpr h)]
  repeat' split
  all_goals rfl

/-- A class or a concept whose name does not end where that of a member begins. -/
structure Owns (manual : Manual) (owner : String) : Prop where
  page : (manual.catalog.ownerPage? owner).isSome = true
  colon : ':' ∉ owner.toList

theorem knows_member (owns : manual.Owns name) (member : String) :
    manual.Knows (name ++ "::" ++ member) := by
  have hsplit : Text.splitAtMark [':', ':'] (name ++ "::" ++ member).toList
      = some (name.toList, member.toList) := by
    rw [← Text.splitAtMark_found [':'] owns.colon]
    simp
  obtain ⟨page, hpage⟩ := Option.isSome_iff_exists.mp owns.page
  unfold Knows Catalog.page?
  simp only [hsplit, String.ofList_toList, hpage]
  repeat' split
  all_goals rfl

theorem knows_concept (h : manual.catalog.concepts.has name = true) (hcolon : ':' ∉ name.toList) :
    manual.Knows name := by
  unfold Knows Catalog.page?
  simp only [Text.splitAtMark_eq_none [':'] hcolon, if_pos h]
  repeat' split
  all_goals rfl

end Manual

end LuaStubs
