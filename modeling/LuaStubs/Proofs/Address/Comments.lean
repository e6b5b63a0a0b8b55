import LuaStubs.Proofs.Address.Texts
import LuaStubs.Proofs.Links.Reached

/-! Comments at all addresses of a manual. The links of a calm text are found and looked up in the
same way at each address, so that the comments that it becomes are a template filled with the
address. -/

namespace LuaStubs

open Markdown Template

abbrev Catalog.manualAt (catalog : Catalog) (a : Address) : Manual :=
  ⟨catalog, a.url⟩

/-! What links lead to. -/

theorem Template.Settles.cases {target rest : Template} (h : Settles (target ++ rest))
    (hne : target ≠ []) (line : .char '\n' ∉ target) :
    (∃ more, target = .hole :: more) ∨ ∃ s, target = literal s := by
  obtain ⟨slot, more, rfl⟩ := List.exists_cons_of_ne_nil hne
  rcases h with hhole | hnone
  · cases Option.some.inj hhole
    exact .inl ⟨more, rfl⟩
  · refine .inr (eq_literal_of_not_mem fun hmem => ?_)
    rw [holeAhead_of_mem line hmem] at hnone
    cases hnone

theorem filledChars_piece (display target : Template) :
    FilledChars fun a =>
      (Piece.link (fill a.url.toList display) (fill a.url.toList target)).text := by
  refine ⟨literal ['['] ++ display ++ literal [']', '('] ++ target ++ literal [')'], fun a => ?_⟩
  simp only [fill_append, fill_literal, Piece.text]

/-- The parts of a link are found at the same places at each address. -/
structure LinkFound (display target rest : Template) : Prop where
  opened : ∀ a : Address, lineTo? [']', '('] (fill a.url.toList
    (display ++ (literal [']', '('] ++ (target ++ (literal [')'] ++ rest)))))
    = some (fill a.url.toList display, fill a.url.toList (target ++ (literal [')'] ++ rest)))
  closed : ∀ a : Address, lineTo? [')'] (fill a.url.toList (target ++ (literal [')'] ++ rest)))
    = some (fill a.url.toList target, fill a.url.toList rest)

namespace LinkFound

variable {display target rest : Template} (found : LinkFound display target rest)
include found

theorem link? (a : Address) :
    Markdown.link? (fill a.url.toList display ++ ']' :: '(' ::
      (fill a.url.toList target ++ ')' :: fill a.url.toList rest))
      = some (fill a.url.toList display, fill a.url.toList target) := by
  have hchars : fill a.url.toList display ++ ']' :: '(' ::
      (fill a.url.toList target ++ ')' :: fill a.url.toList rest)
      = fill a.url.toList (display ++ (literal [']', '('] ++ (target ++ (literal [')'] ++ rest)))) := by
    simp only [fill_append, fill_literal]
    rfl
  rw [hchars, Markdown.link?, found.opened]
  simp [found.closed]

theorem relink (manual : Manual) (a : Address) :
    manual.relink (fill a.url.toList
      (.char '[' :: (display ++ (literal [']', '('] ++ (target ++ (literal [')'] ++ rest))))))
      = manual.relinked (fill a.url.toList display) (fill a.url.toList target) >>= fun link =>
        (manual.relink (fill a.url.toList rest)).map (link ++ ·) := by
  have hchars : fill a.url.toList
      (.char '[' :: (display ++ (literal [']', '('] ++ (target ++ (literal [')'] ++ rest)))))
      = (Piece.link (fill a.url.toList display) (fill a.url.toList target)).text
        ++ fill a.url.toList rest := by
    simp only [fill_cons, fill_append, fill_literal, Slot.fill, Piece.text]
    simp
  rw [hchars, Manual.relink_found (found.link? a)]

theorem target_ne : target ≠ [] := by
  obtain ⟨-, hne, -, -⟩ := lineTo?_char_eq_some.mp (found.closed default)
  rwa [ne_eq, fill_eq_nil] at hne

theorem target_line : .char '\n' ∉ target := by
  obtain ⟨-, -, line, -⟩ := lineTo?_char_eq_some.mp (found.closed default)
  exact fun hmem => line (mem_fill hmem)

end LinkFound

namespace Catalog

variable (catalog : Catalog)

theorem filled_builtLink {shown : Address → String} (h : Filled shown) (page : String) :
    Filled fun a => (catalog.manualAt a).builtLink (shown a) page :=
  ((((filled_const "[").append h).append (filled_const "](")).append
    (Filled.append filledChars_url (filled_const page))).append (filled_const ")")

theorem agree_link (reference : String) {shown : Address → String} {Q : (Address → String) → Prop}
    (h : ∀ page, catalog.page? reference = some page →
      Q fun a => (catalog.manualAt a).builtLink (shown a) page) :
    Agree Q fun a => (catalog.manualAt a).link reference (shown a) := by
  cases hpage : catalog.page? reference with
  | none =>
    have hlink (a : Address) : (catalog.manualAt a).link reference (shown a)
        = .error (.unresolvedReference reference) := by
      simp only [Manual.link, Manual.url, Manual.page, hpage]
      rfl
    simp only [hlink]
    exact .error _
  | some page =>
    have hlink (a : Address) : (catalog.manualAt a).link reference (shown a)
        = .ok ((catalog.manualAt a).builtLink (shown a) page) := Manual.link_of_page hpage (shown a)
    simp only [hlink]
    exact .ok (h page hpage)

theorem agree_relinked (display : Template) {target rest : Template}
    (settles : Settles (target ++ rest)) (hne : target ≠ []) (line : .char '\n' ∉ target) :
    Agree FilledChars fun a => (catalog.manualAt a).relinked (fill a.url.toList display)
      (fill a.url.toList target) := by
  rcases settles.cases hne line with ⟨more, rfl⟩ | ⟨s, rfl⟩
  · have hkept (a : Address) : (catalog.manualAt a).relinked (fill a.url.toList display)
        (fill a.url.toList (.hole :: more))
        = .ok (Piece.link (fill a.url.toList display) (fill a.url.toList (.hole :: more))).text :=
      if_pos (Manual.isAbsolute_append a.web _)
    simp only [hkept]
    exact .ok (filledChars_piece display _)
  · simp only [fill_literal, Manual.relinked]
    by_cases habsolute : Manual.isAbsolute s = true
    · simp only [if_pos habsolute]
      have hpiece := filledChars_piece display (literal s)
      simp only [fill_literal] at hpiece
      exact .ok hpiece
    · by_cases hpage : Manual.isPage s = true
      · simp only [if_neg habsolute, if_pos hpage]
        have hpiece := filledChars_piece display (.hole :: literal s)
        simp only [fill_cons, Slot.fill, fill_literal] at hpiece
        exact .ok hpiece
      · simp only [if_neg habsolute, if_neg hpage]
        have hshown : Filled fun a => String.ofList (fill a.url.toList display) :=
          ⟨display, fun a => String.toList_ofList⟩
        have hlink := agree_link catalog (String.ofList s) fun page _ =>
          filled_builtLink catalog hshown page
        exact hlink.map fun _ hlink => hlink

/-! Texts. -/

theorem agree_relink_slot {slot : Slot} (hslot : slot ≠ .char '[') {t : Template}
    (h : Agree FilledChars fun a => (catalog.manualAt a).relink (fill a.url.toList t)) :
    Agree FilledChars fun a => (catalog.manualAt a).relink (fill a.url.toList (slot :: t)) := by
  have hrelink (a : Address) : (catalog.manualAt a).relink (fill a.url.toList (slot :: t))
      = ((catalog.manualAt a).relink (fill a.url.toList t)).map (slot.fill a.url.toList ++ ·) := by
    rw [fill_cons, Manual.relink_append (Slot.not_mem_fill (by decide) hslot a)]
  have kept : FilledChars fun a => slot.fill a.url.toList :=
    ⟨[slot], fun a => (List.append_nil _).symm⟩
  simp only [hrelink]
  exact h.map fun text htext => kept.append htext

theorem agree_relink_bracket {t : Template}
    (hnone : ∀ a : Address, link? (fill a.url.toList t) = none)
    (h : Agree FilledChars fun a => (catalog.manualAt a).relink (fill a.url.toList t)) :
    Agree FilledChars fun a =>
      (catalog.manualAt a).relink (fill a.url.toList (.char '[' :: t)) := by
  have hrelink (a : Address) : (catalog.manualAt a).relink (fill a.url.toList (.char '[' :: t))
      = ((catalog.manualAt a).relink (fill a.url.toList t)).map ('[' :: ·) :=
    Manual.relink_bracket (hnone a)
  simp only [hrelink]
  exact h.map fun text htext => (filledChars_const ['[']).append htext

/-- A link in front of a text, the target of which begins with the address or does not have it. -/
theorem agree_relink_link {display target rest : Template} (found : LinkFound display target rest)
    (settles : Settles (target ++ (literal [')'] ++ rest)))
    (h : Agree FilledChars fun a => (catalog.manualAt a).relink (fill a.url.toList rest)) :
    Agree FilledChars fun a => (catalog.manualAt a).relink (fill a.url.toList
      (.char '[' :: (display ++ (literal [']', '('] ++ (target ++ (literal [')'] ++ rest)))))) := by
  simp only [found.relink]
  apply (agree_relinked catalog display settles found.target_ne found.target_line).bind
  intro link hlink
  exact h.map fun text htext => hlink.append htext

/-- The links of a calm text are found and looked up in the same way at each address. -/
theorem agree_relink (t : Template) (calm : Calm t) :
    Agree FilledChars fun a => (catalog.manualAt a).relink (fill a.url.toList t) := by
  match t with
  | [] => exact .ok (filledChars_const [])
  | .hole :: t =>
    exact agree_relink_slot catalog (by simp) (agree_relink t (Calm.right (s := [.hole]) calm))
  | .char c :: t =>
    have rest := agree_relink t (Calm.right (s := [.char c]) calm)
    by_cases hc : c = '['
    · subst hc
      -- A link ends at the first places on the line where its parts are found.
      rcases lineTo?_fill (show ∀ c ∈ [']', '('], c ∈ inlineMarks by simp [inlineMarks]) t with
        hnone | ⟨display, behind, rfl, opened⟩
      · exact agree_relink_bracket catalog (fun a => by simp [link?, hnone]) rest
      · rcases lineTo?_fill (show ∀ c ∈ [')'], c ∈ inlineMarks by simp [inlineMarks]) behind with
          hnone | ⟨target, behind, rfl, closed⟩
        · exact agree_relink_bracket catalog (fun a => by simp [link?, opened, hnone]) rest
        · have found : LinkFound display target behind := ⟨opened, closed⟩
          have settles : Settles (target ++ (literal [')'] ++ behind)) :=
            calm (.char '[' :: display) _ (by simp [literal])
          have calmBehind : Calm behind :=
            Calm.right (s := .char '[' :: display ++ literal [']', '('] ++ target ++ literal [')'])
              (by simpa using calm)
          exact agree_relink_link catalog found settles (agree_relink behind calmBehind)
    · exact agree_relink_slot catalog (by simpa using hc) rest
termination_by t.length

/-- Fences are at the same places at each address. -/
theorem agree_prepare (t : Template) (calm : Calm t) :
    Agree FilledChars fun a => (catalog.manualAt a).prepare (fill a.url.toList t) := by
  have broken {t : Template} (calm : Calm t) : Agree FilledChars fun a =>
      (catalog.manualAt a).relink (hardBreaks (fill a.url.toList t)) := by
    have hrelink := agree_relink catalog _ (calm_hardBreaksAfter calm false)
    simpa only [hardBreaks, fill_hardBreaksAfter] using hrelink
  have single (hsingle : ∀ (a : Address) before rest,
      Text.splitAtMark fence (fill a.url.toList t) = some (before, rest) →
      Text.splitAtMark fence rest = none) :
      Agree FilledChars fun a => (catalog.manualAt a).prepare (fill a.url.toList t) := by
    simp only [Manual.prepare_single (hsingle _)]
    exact broken calm
  have hfence : ∀ c ∈ fence, c ∈ inlineMarks := by simp [fence, inlineMarks]
  have cut (t : Template) : CutAt (Text.splitAtMark fence) fence t := splitAtMark_fill hfence t
  rcases cut t with hnone | ⟨before, rest, ht, hopen⟩
  · exact single fun a before rest h => by rw [hnone a] at h; cases h
  · rcases cut rest with hnone | ⟨code, after, hrest, hclose⟩
    · refine single fun a before rest h => ?_
      rw [hopen a] at h
      cases h
      exact hnone a
    · simp only [Manual.prepare_fenced (hopen _) (hclose _)]
      have calmBefore : Calm before := Calm.left (ht ▸ calm)
      have calmAfter : Calm after := by
        rw [ht, hrest] at calm
        exact Calm.right (s := before ++ literal fence ++ code ++ literal fence)
          (by simpa using calm)
      have hcode : FilledChars fun a => fence ++ fill a.url.toList code ++ fence :=
        ((filledChars_const fence).append ⟨code, fun _ => rfl⟩).append (filledChars_const fence)
      exact (broken calmBefore).bind fun text htext => (agree_prepare after calmAfter).map
        fun others hothers => htext.append (hcode.append hothers)
termination_by t.length
decreasing_by
  rw [ht, hrest]
  simp [literal, fence]
  omega

/-! Comments. -/

/-- Comments are a template, since an address is on one line. -/
theorem filledLines_comments {prepared : Address → List Char} (h : FilledChars prepared) :
    FilledLines fun a =>
      (Text.lines (prepared a)).map fun line => .comment (String.ofList line) := by
  obtain ⟨t, ht⟩ := h
  simp only [ht]
  -- What comes in front of a text comes behind the mark of its first comment.
  suffices marked : ∃ u : Template, ∀ a : Address,
      (Line.renderAll ((Text.lines (fill a.url.toList t)).map fun line =>
        .comment (String.ofList line))).toList = "---".toList ++ fill a.url.toList u by
    obtain ⟨u, hu⟩ := marked
    refine ⟨literal "---".toList ++ u, fun a => (hu a).trans ?_⟩
    rw [fill_append, fill_literal]
  clear ht
  induction t with
  | nil =>
    refine ⟨[.char '\n'], fun _ => ?_⟩
    simp [fill, Slot.fill, Text.lines, Line.renderAll, Line.render, Line.text]
  | cons slot t ih =>
    obtain ⟨u, hu⟩ := ih
    by_cases hnewline : slot = .char '\n'
    · subst hnewline
      refine ⟨.char '\n' :: (literal "---".toList ++ u), fun a => ?_⟩
      have hlines : Text.lines (fill a.url.toList (.char '\n' :: t))
          = [] :: Text.lines (fill a.url.toList t) := rfl
      rw [hlines, List.map_cons, Line.renderAll, String.toList_append, hu, fill_cons, fill_append,
        fill_literal]
      rfl
    · refine ⟨slot :: u, fun a => ?_⟩
      obtain ⟨line, others, hlines, happend⟩ :=
        Text.lines_append (Slot.not_mem_fill (by decide) hnewline a) (fill a.url.toList t)
      have hrest := hu a
      rw [hlines] at hrest
      rw [fill_cons, happend, fill_cons]
      simp only [List.map_cons, Line.renderAll, Line.render, Line.text, String.toList_append,
        String.toList_ofList, List.append_assoc, List.append_cancel_left_eq] at hrest ⊢
      exact hrest

theorem agree_comment {text : Address → String} (h : CalmText text) :
    Agree FilledLines fun a => (catalog.manualAt a).comment (text a) := by
  unfold Manual.comment
  rcases h.eq_empty with hempty | hne
  · simp only [hempty]
    exact .ok (filledLines_const [])
  · obtain ⟨t, calm, ht⟩ := h
    have hfull (a : Address) : (text a).isEmpty = false := by simpa using hne a
    simp only [hfull, Bool.false_eq_true, if_false, ht]
    exact (agree_prepare catalog t calm).map fun prepared hprepared => filledLines_comments hprepared

theorem agree_remark (description : String) :
    Agree (fun r : Address → Remark × List Line =>
      Filled (fun a => (r a).1.text) ∧ FilledLines fun a => (r a).2)
      fun a => (catalog.manualAt a).remark description := by
  unfold Manual.remark
  by_cases hempty : description.isEmpty = true
  · simp only [if_pos hempty]
    exact .ok ⟨filled_const "", filledLines_const []⟩
  · by_cases hlines : description.toList.contains '\n' = true
    · simp only [if_neg hempty, if_pos hlines]
      exact (agree_comment catalog (calmText_const description)).map fun lines hlines =>
        ⟨filled_const "@", hlines⟩
    · simp only [if_neg hempty, if_neg hlines]
      have hprepare := agree_prepare catalog _ (calm_literal description.toList)
      simp only [fill_literal] at hprepare
      refine hprepare.map fun text htext => ⟨?_, filledLines_const []⟩
      have hremark : Filled fun a => String.ofList (text a) := by
        simpa only [Filled, String.toList_ofList] using htext
      exact (filled_const "@").append hremark

/-! What is said of an entry. -/

theorem builtLink_fill (shown page : String) (a : Address) :
    ((catalog.manualAt a).builtLink shown page).toList
      = fill a.url.toList (Template.link shown.toList page.toList) := by
  simp [Manual.builtLink, Template.link, fill_append, fill_cons, fill_literal, Slot.fill]

theorem agree_view (reference : String) :
    Agree CalmText fun a => (catalog.manualAt a).view reference :=
  agree_link catalog reference fun page _ => ⟨_, calm_link (by decide) _, builtLink_fill catalog _ page⟩

theorem agree_link_name {name : String} (h : ']' ∉ name.toList) :
    Agree TightText fun a => (catalog.manualAt a).link name name :=
  agree_link catalog name fun page hpage =>
    ⟨_, tight_link h (not_mem_page? (by decide) h hpage), builtLink_fill catalog _ page⟩

theorem agree_references {names : List String} (h : ∀ name ∈ names, ']' ∉ name.toList) :
    Agree (fun entries => ∃ xs : List (Address → String),
      (∀ x ∈ xs, CalmText x) ∧ entries = fun a => xs.map (· a))
      fun a => (catalog.manualAt a).references names := by
  induction names with
  | nil => exact .ok ⟨[], by simp, rfl⟩
  | cons name names ih =>
    obtain ⟨hname, hrest⟩ := List.forall_mem_cons.mp h
    unfold Manual.references
    apply (agree_link_name catalog hname).bind
    intro link hlink
    apply (ih hrest).bind
    rintro _ ⟨xs, hxs, rfl⟩
    have hentry : CalmText fun a => "- " ++ link a :=
      (tightText_const (by decide)).append_calm hlink.calm
    exact .ok ⟨(fun a => "- " ++ link a) :: xs, List.forall_mem_cons.mpr ⟨hentry, hxs⟩, rfl⟩

theorem agree_seeAlso {names : List String} (h : ∀ name ∈ names, ']' ∉ name.toList) :
    Agree CalmText fun a => (catalog.manualAt a).seeAlso names := by
  unfold Manual.seeAlso
  by_cases hempty : names.isEmpty = true
  · simp only [if_pos hempty]
    exact .ok (calmText_const "")
  · simp only [if_neg hempty]
    apply (agree_references catalog h).map
    rintro _ ⟨xs, hxs, rfl⟩
    exact (tightText_const (by decide)).append_calm (.intercalate (by decide) rfl hxs)

section

variable {link : Address → String} (hlink : CalmText link)
include hlink

theorem agree_overview {doc : Api.Documentation} (h : ∀ name ∈ doc.seeAlso, ']' ∉ name.toList)
    {description : Address → String} (hdescription : CalmText description) :
    Agree CalmText fun a => (catalog.manualAt a).overview doc (link a) (description a) := by
  apply (agree_seeAlso catalog h).bind
  intro seeAlso hseeAlso
  refine .ok (@CalmText.paragraphs
    [description, fun _ => _, link, fun _ => _, fun _ => _, seeAlso] ?_)
  simp only [List.mem_cons, List.not_mem_nil, or_false, forall_eq_or_imp, forall_eq]
  exact ⟨hdescription, calmText_const _, hlink, calmText_const _, calmText_const _, hseeAlso⟩

theorem agree_describe {doc : Api.Documentation} (h : ∀ name ∈ doc.seeAlso, ']' ∉ name.toList)
    {description : Address → String} (hdescription : CalmText description) :
    Agree FilledLines fun a => (catalog.manualAt a).describe doc (link a) (description a) :=
  (agree_overview catalog hlink h hdescription).bind fun _ htext => agree_comment catalog htext

theorem agree_brief (description : String) :
    Agree FilledLines fun a => (catalog.manualAt a).brief description (link a) := by
  apply agree_comment catalog
  unfold Text.framed
  by_cases hempty : description.isEmpty = true
  · simp only [if_pos hempty]
    exact (tightText_const (by decide)).append_calm hlink
  · simp only [if_neg hempty, String.append_assoc]
    exact (tightText_const (by decide)).append_calm ((calmText_const description).append_line
      ((tightText_const (by decide)).append_calm hlink) (fun _ => by simp))

end

end Catalog

end LuaStubs
