import LuaStubs.Proofs.Links.Settled

/-! Settled texts become comments. Cutting a text at its fences and making its line breaks hard
leaves its links as they are, so that each link of what is relinked leads somewhere. -/

namespace LuaStubs

open Markdown

/-- Each link leads somewhere. -/
def LinksLead (s : List Char) : Prop :=
  ∀ before after, s = before ++ ']' :: '(' :: after →
    ∀ target rest, lineTo? [')'] after = some (target, rest) → Leads target

theorem linksLead_of_settled {s : List Char} (h : Settled s) : LinksLead s := by
  intro before after hs target rest hline
  have settled := h before after hs []
  rw [List.append_nil] at settled
  exact settled target rest hline

theorem linksLead_of_infix {s t : List Char} (h : LinksLead t) (inside : s <:+: t) :
    LinksLead s := by
  rintro before after rfl target rest hline
  obtain ⟨start, stop, rfl⟩ := inside
  obtain ⟨rfl, found⟩ := lineTo?_char_eq_some.mp hline
  refine h (start ++ before) ((target ++ ')' :: rest) ++ stop) (by simp) target (rest ++ stop) ?_
  exact lineTo?_char_eq_some.mpr ⟨by simp, found⟩

/-! Hard breaks. -/

theorem hardBreaksAfter_cons_of_ne {c : Char} (inLine : Bool) {s : List Char} (hc : c ≠ '\n') :
    hardBreaksAfter inLine (c :: s) = c :: hardBreaksAfter true s := by
  rw [hardBreaksAfter, if_neg hc]

theorem hardBreaksAfter_newline (inLine : Bool) (s : List Char) :
    hardBreaksAfter inLine ('\n' :: s) = ' ' :: ' ' :: '\n' :: hardBreaksAfter false s ∨
      hardBreaksAfter inLine ('\n' :: s) = '\n' :: hardBreaksAfter false s := by
  rw [hardBreaksAfter, if_pos rfl]
  split
  · exact .inl rfl
  · exact .inr rfl

theorem eq_append_of_hardBreaksAfter {mark : Char} {inLine : Bool} {s line rest : List Char}
    (hmark : mark ≠ ' ') (hline : '\n' ∉ line) (hnewline : mark ≠ '\n')
    (h : hardBreaksAfter inLine s = line ++ mark :: rest) : ∃ rest', s = line ++ mark :: rest' := by
  induction s generalizing inLine line with
  | nil =>
    cases line <;> cases h
  | cons c s ih =>
    by_cases hc : c = '\n'
    · subst hc
      rcases hardBreaksAfter_newline inLine s with hs | hs
      · rw [hs] at h
        match line, h with
        | [], h => exact absurd (List.cons.inj h).1.symm hmark
        | [_], h => exact absurd (List.cons.inj (List.cons.inj h).2).1.symm hmark
        | [_, _], h =>
          exact absurd (List.cons.inj (List.cons.inj (List.cons.inj h).2).2).1.symm hnewline
        | _ :: _ :: d :: _, h =>
          have hd : '\n' = d := (List.cons.inj (List.cons.inj (List.cons.inj h).2).2).1
          exact absurd (by simp [← hd]) hline
      · rw [hs] at h
        cases line with
        | nil => exact absurd (List.cons.inj h).1.symm hnewline
        | cons d line =>
          have hd : '\n' = d := (List.cons.inj h).1
          exact absurd (by simp [← hd]) hline
    · rw [hardBreaksAfter_cons_of_ne _ hc] at h
      cases line with
      | nil =>
        obtain ⟨rfl, -⟩ := List.cons.inj h
        exact ⟨s, rfl⟩
      | cons d line =>
        obtain ⟨rfl, hs⟩ := List.cons.inj h
        have hline' : '\n' ∉ line := fun hmem => hline (List.mem_cons_of_mem _ hmem)
        obtain ⟨rest', rfl⟩ := ih hline' hs
        exact ⟨rest', rfl⟩

theorem joint_of_hardBreaksAfter {inLine : Bool} {s before after : List Char}
    (h : hardBreaksAfter inLine s = before ++ ']' :: '(' :: after) :
    ∃ before' after', s = before' ++ ']' :: '(' :: after' ∧ after = hardBreaksAfter true after' := by
  induction s generalizing inLine before with
  | nil =>
    cases before <;> cases h
  | cons c s ih =>
    by_cases hc : c = '\n'
    · subst hc
      have later {before : List Char} (h : hardBreaksAfter false s = before ++ ']' :: '(' :: after) :
          ∃ before' after', '\n' :: s = before' ++ ']' :: '(' :: after' ∧
            after = hardBreaksAfter true after' := by
        obtain ⟨before', after', rfl, hafter⟩ := ih h
        exact ⟨'\n' :: before', after', rfl, hafter⟩
      rcases hardBreaksAfter_newline inLine s with hs | hs
      · rw [hs] at h
        match before, h with
        | [], h => exact absurd (List.cons.inj h).1 (by decide)
        | [_], h => exact absurd (List.cons.inj (List.cons.inj h).2).1 (by decide)
        | [_, _], h =>
          exact absurd (List.cons.inj (List.cons.inj (List.cons.inj h).2).2).1 (by decide)
        | _ :: _ :: _ :: before, h =>
          exact later (List.cons.inj (List.cons.inj (List.cons.inj h).2).2).2
      · rw [hs] at h
        cases before with
        | nil => exact absurd (List.cons.inj h).1 (by decide)
        | cons d before => exact later (List.cons.inj h).2
    · rw [hardBreaksAfter_cons_of_ne _ hc] at h
      cases before with
      | nil =>
        obtain ⟨rfl, hs⟩ := List.cons.inj h
        have hparen : hardBreaksAfter true s = [] ++ '(' :: after := hs
        obtain ⟨rest, rfl⟩ := eq_append_of_hardBreaksAfter (by decide) (by simp) (by decide) hparen
        rw [List.nil_append, hardBreaksAfter_cons_of_ne _ (by decide)] at hs
        exact ⟨[], rest, rfl, (List.cons.inj hs).2.symm⟩
      | cons d before =>
        obtain ⟨rfl, hs⟩ := List.cons.inj h
        obtain ⟨before', after', rfl, hafter⟩ := ih hs
        exact ⟨c :: before', after', rfl, hafter⟩

theorem linksLead_hardBreaks {s : List Char} (h : LinksLead s) : LinksLead (hardBreaks s) := by
  intro before after hs target rest hline
  obtain ⟨before', after', hs', rfl⟩ := joint_of_hardBreaksAfter hs
  obtain ⟨hafter, hne, hnewline, htail⟩ := lineTo?_char_eq_some.mp hline
  obtain ⟨rest', hrest⟩ := eq_append_of_hardBreaksAfter (by decide) hnewline (by decide) hafter
  exact h before' after' hs' target rest' (lineTo?_char_eq_some.mpr ⟨hrest, hne, hnewline, htail⟩)

/-! Fences. -/

theorem eq_of_splitAtMark {mark s before after : List Char}
    (h : Text.splitAtMark mark s = some (before, after)) : s = before ++ mark ++ after := by
  induction s generalizing before with
  | nil => cases h
  | cons c s ih =>
    rw [Text.splitAtMark] at h
    by_cases hmark : mark.isPrefixOf (c :: s) = true
    · rw [if_pos hmark] at h
      cases h
      exact eq_append_of_isPrefixOf hmark
    · rw [if_neg hmark] at h
      obtain ⟨⟨line, behind⟩, hline, hout⟩ := Option.map_eq_some_iff.mp h
      cases hout
      rw [ih hline]
      rfl

theorem infix_of_mem_stretchesWithin {most : Nat} {s text : List Char}
    (h : .prose text ∈ stretchesWithin most s) : text <:+: s := by
  have whole {s : List Char} (h : Stretch.prose text ∈ [.prose s]) : text <:+: s := by
    cases List.mem_singleton.mp h
    exact List.infix_rfl
  induction most generalizing s with
  | zero => exact whole h
  | succ most ih =>
    cases hopen : Text.splitAtMark fence s with
    | none =>
      simp only [stretchesWithin, hopen] at h
      exact whole h
    | some cut =>
      obtain ⟨before, rest⟩ := cut
      cases hclose : Text.splitAtMark fence rest with
      | none =>
        simp only [stretchesWithin, hopen, hclose] at h
        exact whole h
      | some cut =>
        obtain ⟨code, after⟩ := cut
        simp only [stretchesWithin, hopen, hclose] at h
        rw [eq_of_splitAtMark hopen, eq_of_splitAtMark hclose]
        rcases List.mem_cons.mp h with h | h
        · cases h
          exact ⟨[], fence ++ (code ++ fence ++ after), by simp⟩
        · rcases List.mem_cons.mp h with h | h
          · cases h
          · obtain ⟨start, stop, rfl⟩ := ih h
            exact ⟨before ++ fence ++ (code ++ fence ++ start), stop, by simp⟩

theorem infix_of_mem_stretches {s text : List Char} (h : .prose text ∈ stretches s) :
    text <:+: s :=
  infix_of_mem_stretchesWithin h

/-! Links. -/

/-- A link that is taken from a text stands in it, behind a bracket and a parenthesis that meet. -/
theorem joint_of_mem_pieces {s display target : List Char}
    (h : .link display target ∈ pieces s) :
    ∃ before after rest, s = before ++ ']' :: '(' :: after ∧
      lineTo? [')'] after = some (target, rest) := by
  induction s using pieces_induction with
  | nil => cases h
  | char c rest plain ih =>
    rw [pieces_cons_of_not_link plain] at h
    obtain ⟨before, after, behind, hs, hline⟩ := ih (List.mem_of_ne_of_mem (by simp) h)
    exact ⟨c :: before, after, behind, by rw [hs]; rfl, hline⟩
  | link display' target' rest found ih =>
    rw [pieces_found found] at h
    rcases List.mem_cons.mp h with h | h
    · cases h
      obtain ⟨after, behind, hdisplay, htarget⟩ := link?_eq_some.mp found
      have hrest := eq_of_lineTo? hdisplay
      refine ⟨'[' :: display, after, behind, ?_, htarget⟩
      simpa [Piece.text] using hrest
    · obtain ⟨before, after, behind, hs, hline⟩ := ih h
      exact ⟨(Piece.link display' target').text ++ before, after, behind, by rw [hs]; simp, hline⟩

namespace Manual

variable {manual : Manual}

theorem relinked_of_leads {target : List Char} (display : List Char) (h : Leads target) :
    ∃ text, manual.relinked display target = .ok text := by
  unfold relinked
  by_cases habsolute : isAbsolute target = true
  · rw [if_pos habsolute]
    exact ⟨_, rfl⟩
  · rw [if_neg habsolute, if_pos (h.resolve_left habsolute)]
    exact ⟨_, rfl⟩

theorem relinkPieces_of_leads {ps : List Piece}
    (h : ∀ display target, .link display target ∈ ps → Leads target) :
    ∃ text, manual.relinkPieces ps = .ok text := by
  induction ps with
  | nil => exact ⟨[], rfl⟩
  | cons piece rest ih =>
    obtain ⟨others, hothers⟩ := ih fun display target hmem => h _ _ (List.mem_cons_of_mem _ hmem)
    cases piece with
    | char c => exact ⟨c :: others, by rw [relinkPieces, hothers]; rfl⟩
    | link display target =>
      have leads : Leads target := h display target List.mem_cons_self
      obtain ⟨link, hlink⟩ := @relinked_of_leads manual _ display leads
      exact ⟨link ++ others, by rw [relinkPieces, hlink, hothers]; rfl⟩

theorem relink_of_linksLead {text : List Char} (h : LinksLead text) :
    ∃ out, manual.relink text = .ok out := by
  apply relinkPieces_of_leads
  intro display target hmem
  obtain ⟨before, after, rest, hs, hline⟩ := joint_of_mem_pieces hmem
  exact h before after hs target rest hline

theorem prepareStretches_of_linksLead {parts : List Stretch}
    (h : ∀ text, .prose text ∈ parts → LinksLead text) :
    ∃ out, manual.prepareStretches parts = .ok out := by
  induction parts with
  | nil => exact ⟨[], rfl⟩
  | cons part rest ih =>
    obtain ⟨others, hothers⟩ := ih fun text hmem => h text (List.mem_cons_of_mem _ hmem)
    cases part with
    | prose text =>
      have leads := linksLead_hardBreaks (h text List.mem_cons_self)
      obtain ⟨out, hout⟩ := @relink_of_linksLead manual _ leads
      exact ⟨out ++ others, by rw [prepareStretches, hout, hothers]; rfl⟩
    | code text => exact ⟨_, by rw [prepareStretches, hothers]; rfl⟩

theorem prepare_of_settled {text : List Char} (h : Settled text) :
    ∃ out, manual.prepare text = .ok out :=
  prepareStretches_of_linksLead fun _ hmem =>
    linksLead_of_infix (linksLead_of_settled h) (infix_of_mem_stretches hmem)

/-- A settled text becomes a comment, whatever the manual knows. -/
theorem comment_of_settled {text : String} (h : Settled text.toList) :
    ∃ lines, manual.comment text = .ok lines := by
  unfold comment
  by_cases hempty : text.isEmpty = true
  · rw [if_pos hempty]
    exact ⟨[], rfl⟩
  · obtain ⟨out, hout⟩ := @prepare_of_settled manual _ h
    rw [if_neg hempty, hout]
    exact ⟨_, rfl⟩

end Manual

end LuaStubs
