import LuaStubs.Proofs.Links.Reached

/-! Texts whose links have been pointed at a manual on the web. Only the targets of the links have
changed: each link is found again where it was, and a bracket that opened no link still opens none.
All links lead to the web now, so that pointing them at the manual once more changes nothing. -/

namespace LuaStubs

open Markdown

namespace Markdown

/-! Marks. -/

/-- Where a mark is found does not depend on what is behind it. -/
theorem lineTo?_behind {mark s before after : List Char}
    (h : lineTo? mark s = some (before, after)) (other : List Char) :
    lineTo? mark (before ++ mark ++ other) = some (before, other) := by
  refine lineTo?_induction h (fun c hc => by simp [lineTo?, hc])
    fun c rest before hc apart hline ih => ?_
  rw [eq_of_lineTo? hline] at apart
  rw [List.cons_append, List.cons_append, lineTo?, if_neg hc, Text.apart_of_apart apart,
    if_neg Bool.false_ne_true, ih]
  rfl

theorem lineTo?_line {mark : List Char} (hmark : '\n' ∉ mark) (line : List Char) {rest : List Char}
    (hrest : rest = [] ∨ rest.head? = some '\n') :
    lineTo? mark (line ++ rest)
      = (lineTo? mark line).map fun (before, after) => (before, after ++ rest) := by
  rcases hrest with rfl | hrest
  · simp
  obtain ⟨more, rfl⟩ : ∃ more, rest = '\n' :: more := by
    cases rest with
    | nil => cases hrest
    | cons c more => exact ⟨more, by simpa using hrest⟩
  induction line with
  | nil => simp [lineTo?]
  | cons c line ih =>
    have begins : mark.isPrefixOf (line ++ '\n' :: more) = mark.isPrefixOf line := by
      rw [Bool.eq_iff_iff, List.isPrefixOf_iff_prefix, List.isPrefixOf_iff_prefix]
      constructor
      · intro begins
        rcases List.prefix_or_prefix_of_prefix begins
          (show line ++ ['\n'] <+: line ++ '\n' :: more from ⟨more, by simp⟩) with short | long
        · rcases List.prefix_concat_iff.mp short with rfl | short
          · simp at hmark
          · exact short
        · exact absurd (long.subset (by simp)) hmark
      · exact fun begins => begins.trans (List.prefix_append _ _)
    rw [List.cons_append, lineTo?, lineTo?, begins, ih]
    split
    · rfl
    · split
      · rename_i hfound
        have inside := (List.isPrefixOf_iff_prefix.mp hfound).length_le
        simp [List.drop_append_of_le_length inside]
      · simp [Function.comp_def]

/-- A mark is also found from further in front on its line. -/
theorem lineTo?_ne_none_append {mark s : List Char} (h : lineTo? mark s ≠ none) {front : List Char}
    (hline : '\n' ∉ front) : lineTo? mark (front ++ s) ≠ none := by
  induction front with
  | nil => exact h
  | cons c front ih =>
    obtain ⟨hc, hfront⟩ : c ≠ '\n' ∧ '\n' ∉ front := by simpa [eq_comm] using hline
    rw [List.cons_append, lineTo?, if_neg hc]
    split
    · simp
    · simpa using ih hfront

/-! Links. -/

theorem link?_line (line : List Char) {rest : List Char}
    (hrest : rest = [] ∨ rest.head? = some '\n') : link? (line ++ rest) = link? line := by
  unfold link?
  rw [lineTo?_line (by decide) line hrest]
  cases lineTo? [']', '('] line with
  | none => rfl
  | some cut =>
    obtain ⟨display, behind⟩ := cut
    simp only [Option.map_some, Option.bind_eq_bind, Option.bind_some]
    rw [lineTo?_line (by decide) behind hrest]
    cases lineTo? [')'] behind <;> rfl

theorem link?_eq_none_of_cons {c : Char} {s : List Char} (hc : c ≠ '\n')
    (h : link? (c :: s) = none) : link? s = none := by
  refine Option.eq_none_iff_forall_ne_some.mpr fun (display, target) found => ?_
  obtain ⟨rest, behind, hdisplay, htarget⟩ := link?_eq_some.mp found
  have hs := eq_of_lineTo? hdisplay
  by_cases hfront : [']', '('].isPrefixOf s = true
  · -- The text of the link is part of the target that begins further in front.
    have hopen : lineTo? [']', '('] (c :: s) = some ([c], s.drop 2) := by
      rw [lineTo?, if_neg hc, if_pos hfront]
      rfl
    have hdrop : s.drop 2 = (display ++ [']', '(']).drop 2 ++ rest := by
      rw [hs, List.drop_append_of_le_length (by simp)]
    have hline : '\n' ∉ (display ++ [']', '(']).drop 2 := fun hmem => by
      have hmem := List.mem_of_mem_drop hmem
      simp [not_mem_of_lineTo? hdisplay] at hmem
    have hclose : lineTo? [')'] (s.drop 2) ≠ none := by
      rw [hdrop]
      exact lineTo?_ne_none_append (by simp [htarget]) hline
    obtain ⟨⟨target', behind'⟩, hclose⟩ := Option.ne_none_iff_exists'.mp hclose
    rw [link?_eq_some.mpr ⟨_, _, hopen, hclose⟩] at h
    cases h
  · have hopen : lineTo? [']', '('] (c :: s) = some (c :: display, rest) := by
      rw [lineTo?, if_neg hc, if_neg hfront, hdisplay]
      rfl
    rw [link?_eq_some.mpr ⟨_, _, hopen, htarget⟩] at h
    cases h

/-- A target that is found whole between the parentheses of any link. -/
structure Whole (target : List Char) : Prop where
  ne : target ≠ []
  line : '\n' ∉ target
  paren : ')' ∉ target

/-- A link with another target is found where the link was. -/
theorem link?_retarget {display target rest : List Char}
    (h : link? (display ++ ']' :: '(' :: (target ++ ')' :: rest)) = some (display, target))
    {url : List Char} (whole : Whole url) (more : List Char) :
    link? (display ++ ']' :: '(' :: (url ++ ')' :: more)) = some (display, url) := by
  obtain ⟨_, _, hdisplay, -⟩ := link?_eq_some.mp h
  have hopen := lineTo?_behind hdisplay (url ++ ')' :: more)
  have hclose : lineTo? [')'] (url ++ ')' :: more) = some (url, more) :=
    lineTo?_char_eq_some.mpr ⟨rfl, whole.ne, whole.line,
      fun hmem => whole.paren (List.mem_of_mem_tail hmem)⟩
  exact link?_eq_some.mpr ⟨_, more, by simpa using hopen, hclose⟩

/-- A closing bracket is not followed by parentheses with nothing in between. -/
def Targeted (s : List Char) : Prop :=
  ¬ "]()".toList <:+: s

theorem Targeted.of_append {s t : List Char} (h : Targeted (s ++ t)) : Targeted t :=
  fun empty => h (empty.trans (List.suffix_append s t).isInfix)

/-- The target of a link ends in front of any parenthesis, unless it begins with one. -/
theorem whole_of_link? {display target rest : List Char}
    (targeted : Targeted ((Piece.link display target).text ++ rest))
    (h : link? (display ++ ']' :: '(' :: (target ++ ')' :: rest)) = some (display, target)) :
    Whole target := by
  obtain ⟨_, behind, -, htarget⟩ := link?_eq_some.mp h
  obtain ⟨-, hne, hline, htail⟩ := lineTo?_char_eq_some.mp htarget
  refine ⟨hne, hline, fun hparen => ?_⟩
  cases target with
  | nil => cases hparen
  | cons c target =>
    rcases List.mem_cons.mp hparen with rfl | hmem
    · exact targeted ⟨'[' :: display, target ++ ')' :: rest, by simp [Piece.text]⟩
    · exact htail hmem

/-- What a reader sees of a piece: a character, or the text that is displayed for a link. -/
def Piece.shown : Piece → Char ⊕ List Char
  | .char c => .inl c
  | .link display _ => .inr display

end Markdown

namespace Manual

variable {manual : Manual}

theorem line_of_relink {s out : List Char} (plain : link? s = none) (h : manual.relink s = .ok out) :
    ∃ line rest rest', s = line ++ rest ∧ out = line ++ rest' ∧
      (rest = [] ∨ rest.head? = some '\n') ∧ (rest' = [] ∨ rest'.head? = some '\n') := by
  induction s generalizing out with
  | nil =>
    cases h
    exact ⟨[], [], [], rfl, rfl, .inl rfl, .inl rfl⟩
  | cons c s ih =>
    by_cases hc : c = '\n'
    · subst hc
      rw [relink_char (by simp)] at h
      obtain ⟨more, -, rfl⟩ := Outcome.map_eq_ok.mp h
      exact ⟨[], '\n' :: s, '\n' :: more, rfl, rfl, .inr rfl, .inr rfl⟩
    · have plain' := link?_eq_none_of_cons hc plain
      rw [relink_char (by simp [plain'])] at h
      obtain ⟨more, hmore, rfl⟩ := Outcome.map_eq_ok.mp h
      obtain ⟨line, rest, rest', rfl, rfl, ends, ends'⟩ := ih plain' hmore
      exact ⟨c :: line, rest, rest', rfl, rfl, ends, ends'⟩

theorem link?_relink {s out : List Char} (plain : link? s = none) (h : manual.relink s = .ok out) :
    link? out = none := by
  obtain ⟨line, rest, rest', rfl, rfl, ends, ends'⟩ := line_of_relink plain h
  rw [link?_line line ends']
  rwa [link?_line line ends] at plain

theorem relinkPieces_of_absolute {ps : List Piece}
    (h : ∀ display target, Piece.link display target ∈ ps → isAbsolute target = true) :
    manual.relinkPieces ps = .ok (ps.flatMap Piece.text) := by
  induction ps with
  | nil => rfl
  | cons piece rest ih =>
    have hrest := ih fun display target hmem => h display target (List.mem_cons_of_mem _ hmem)
    cases piece with
    | char c =>
      rw [relinkPieces, hrest]
      rfl
    | link display target =>
      have hlink : manual.relinked display target = .ok (Piece.link display target).text := by
        rw [relinked, if_pos (h display target List.mem_cons_self)]
      rw [relinkPieces, hrest, hlink]
      rfl

/-- A text whose links all lead to the web is left alone. -/
theorem relink_of_absolute {text : List Char}
    (h : ∀ display target, Piece.link display target ∈ pieces text → isAbsolute target = true) :
    manual.relink text = .ok text := by
  rw [relink, relinkPieces_of_absolute h, flatMap_text_pieces]

section

variable (web : isAbsolute manual.baseUrl.toList = true) (paren : ')' ∉ manual.baseUrl.toList)
  (line : '\n' ∉ manual.baseUrl.toList)
include web paren line

/-- A replaced link is the same link with a target on the web. -/
theorem relinked_eq_ok {display target link : List Char} (whole : Whole target)
    (h : manual.relinked display target = .ok link) :
    ∃ url, link = (Piece.link display url).text ∧ Whole url ∧ isAbsolute url = true := by
  have based {page : List Char} (hline : '\n' ∉ page) (hparen : ')' ∉ page) :
      Whole (manual.baseUrl.toList ++ page) ∧
        isAbsolute (manual.baseUrl.toList ++ page) = true := by
    have hne : manual.baseUrl.toList ≠ [] := by
      intro hnil
      rw [hnil] at web
      cases web
    exact ⟨⟨by simp [hne], by simp [line, hline], by simp [paren, hparen]⟩,
      isAbsolute_append web page⟩
  unfold relinked at h
  split at h
  · rename_i absolute
    cases h
    exact ⟨target, rfl, whole, absolute⟩
  · split at h
    · cases h
      exact ⟨_, rfl, based whole.line whole.paren⟩
    · obtain ⟨text, hlink, rfl⟩ := Outcome.map_eq_ok.mp h
      obtain ⟨page, hpage, rfl⟩ := link_eq_ok hlink
      have clear {mark : Char} (hparts : ∀ part ∈ Catalog.pageParts, mark ∉ part.toList)
          (hmark : mark ∉ target) : mark ∉ page.toList :=
        Catalog.not_mem_page? hparts (by simpa using hmark) hpage
      refine ⟨manual.baseUrl.toList ++ page.toList, by simp [Piece.text], ?_⟩
      exact based (clear (by decide) whole.line) (clear (by decide) whole.paren)

/-- Each piece is found again, and if it is a link, then it leads to the web. -/
theorem pieces_relink {text out : List Char} (targeted : Targeted text)
    (h : manual.relink text = .ok out) :
    (∀ display target, Piece.link display target ∈ pieces out → isAbsolute target = true) ∧
      (pieces out).map Piece.shown = (pieces text).map Piece.shown := by
  induction text using pieces_induction generalizing out with
  | nil =>
    cases h
    exact ⟨fun _ _ hmem => absurd hmem List.not_mem_nil, rfl⟩
  | char c rest plain ih =>
    rw [relink_char plain] at h
    obtain ⟨more, hmore, rfl⟩ := Outcome.map_eq_ok.mp h
    obtain ⟨absolute, same⟩ := ih (@Targeted.of_append [c] rest targeted) hmore
    have plain' : (if c = '[' then link? more else none) = none := by
      by_cases hc : c = '['
      · rw [if_pos hc] at plain ⊢
        exact link?_relink plain hmore
      · exact if_neg hc
    rw [pieces_cons_of_not_link plain, pieces_cons_of_not_link plain', List.map_cons, List.map_cons,
      same]
    refine ⟨fun display target hmem => ?_, rfl⟩
    exact absolute display target (List.mem_of_ne_of_mem (by simp) hmem)
  | link display target rest found ih =>
    rw [relink_found found] at h
    obtain ⟨link, hlink, h⟩ := Outcome.bind_eq_ok.mp h
    obtain ⟨more, hmore, rfl⟩ := Outcome.map_eq_ok.mp h
    obtain ⟨absolute, same⟩ := ih targeted.of_append hmore
    obtain ⟨url, rfl, whole, urlAbsolute⟩ :=
      relinked_eq_ok web paren line (whole_of_link? targeted found) hlink
    rw [pieces_found found, pieces_found (link?_retarget found whole more), List.map_cons,
      List.map_cons, same]
    refine ⟨fun display' target' hmem => ?_, rfl⟩
    rcases List.mem_cons.mp hmem with hmem | hmem
    · cases hmem
      exact urlAbsolute
    · exact absolute display' target' hmem

end

/-- The links of a relinked text all lead to the web, the text is otherwise the same piece by piece,
and it does not change when it is relinked again. -/
theorem relink_stable (web : isAbsolute manual.baseUrl.toList = true)
    (paren : ')' ∉ manual.baseUrl.toList) (line : '\n' ∉ manual.baseUrl.toList)
    {text out : List Char} (targeted : ¬ "]()".toList <:+: text)
    (h : manual.relink text = .ok out) :
    (∀ display target, Piece.link display target ∈ pieces out → isAbsolute target = true) ∧
      (pieces out).map Piece.shown = (pieces text).map Piece.shown ∧
      manual.relink out = .ok out := by
  obtain ⟨absolute, same⟩ := pieces_relink web paren line targeted h
  exact ⟨absolute, same, relink_of_absolute absolute⟩

/-- Nested brackets, a page, an address, a link that is cut by a newline, and a bracket of its own. -/
theorem relink_stable_web :
    ∃ out, (manualAt "https://lua-api.factorio.com/latest/").relink
        "[x [A](A) [P](Concepts.html#P) [w](http://w) [cut](A\n) [".toList = .ok out ∧
      String.ofList out = "[x [A](https://lua-api.factorio.com/latest/A.html) " ++
        "[P](https://lua-api.factorio.com/latest/Concepts.html#P) [w](http://w) [cut](A\n) [" ∧
      (manualAt "https://lua-api.factorio.com/latest/").relink out = .ok out := by
  have run : ((manualAt "https://lua-api.factorio.com/latest/").relink
      "[x [A](A) [P](Concepts.html#P) [w](http://w) [cut](A\n) [".toList).toOption.map String.ofList
      = some ("[x [A](https://lua-api.factorio.com/latest/A.html) " ++
        "[P](https://lua-api.factorio.com/latest/Concepts.html#P) [w](http://w) [cut](A\n) [") := by
    decide +kernel
  obtain ⟨out, h, text⟩ := Outcome.exists_of_toOption run
  obtain ⟨-, -, again⟩ := relink_stable (by decide) (by decide) (by decide) (by decide +kernel) h
  exact ⟨out, h, text, again⟩

end Manual

end LuaStubs
