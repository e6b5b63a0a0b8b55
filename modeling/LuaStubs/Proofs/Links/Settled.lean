import LuaStubs.Prose

/-! Settled texts: texts in which each link leads to a page of the manual or to an address on the
web. Pointing the links of such a text at the manual cannot fail, wherever its fences and newlines
are. -/

namespace LuaStubs

open Markdown

/-- What a link may lead to without being looked up. -/
def Leads (target : List Char) : Prop :=
  Manual.isAbsolute target = true ∨ Manual.isPage target = true

/-- A closing bracket and an opening parenthesis never meet. -/
def NoJoint (s : List Char) : Prop :=
  ∀ before after, s ≠ before ++ ']' :: '(' :: after

/-- Each link leads somewhere, also if more text follows. -/
def Settled (s : List Char) : Prop :=
  ∀ before after, s = before ++ ']' :: '(' :: after →
    ∀ more target rest, lineTo? [')'] (after ++ more) = some (target, rest) → Leads target

theorem joint_of_append {α : Type} {x y : α} {s t before after : List α}
    (h : s ++ t = before ++ x :: y :: after) :
    (∃ mid, s = before ++ x :: y :: mid ∧ after = mid ++ t) ∨
      (∃ mid, before = s ++ mid ∧ t = mid ++ x :: y :: after) ∨
      (s.getLast? = some x ∧ t.head? = some y) := by
  rcases List.append_eq_append_iff.mp h with ⟨mid, hbefore, ht⟩ | ⟨mid, hs, hmid⟩
  · exact .inr (.inl ⟨mid, hbefore, ht⟩)
  · cases mid with
    | nil => exact .inr (.inl ⟨[], by simp [hs], hmid.symm⟩)
    | cons c mid =>
      obtain ⟨hc, hmid⟩ := List.cons.inj hmid
      rw [← hc] at hs
      cases mid with
      | nil =>
        have ht : t = y :: after := hmid.symm
        exact .inr (.inr ⟨by simp [hs], by simp [ht]⟩)
      | cons d mid =>
        obtain ⟨hd, hmid⟩ := List.cons.inj hmid
        rw [← hd] at hs
        exact .inl ⟨mid, hs, hmid⟩

theorem noJoint_of_not_mem {s : List Char} (h : ']' ∉ s) : NoJoint s := by
  rintro before after rfl
  simp at h

theorem noJoint_append {s t : List Char} (hs : NoJoint s) (ht : NoJoint t)
    (apart : s.getLast? ≠ some ']' ∨ t.head? ≠ some '(') : NoJoint (s ++ t) := by
  intro before after h
  rcases joint_of_append h with ⟨mid, h, _⟩ | ⟨mid, _, h⟩ | ⟨hl, hh⟩
  · exact hs _ _ h
  · exact ht _ _ h
  · exact apart.elim (fun no => no hl) (fun no => no hh)

theorem settled_of_noJoint {s : List Char} (h : NoJoint s) : Settled s :=
  fun before after hs => absurd hs (h before after)

theorem settled_of_not_mem {s : List Char} (h : ']' ∉ s) : Settled s :=
  settled_of_noJoint (noJoint_of_not_mem h)

theorem settled_append {s t : List Char} (hs : Settled s) (ht : Settled t)
    (apart : s.getLast? ≠ some ']' ∨ t.head? ≠ some '(') : Settled (s ++ t) := by
  intro before after h more target rest hline
  rcases joint_of_append h with ⟨mid, hmid, rfl⟩ | ⟨mid, _, h⟩ | ⟨hl, hh⟩
  · rw [List.append_assoc] at hline
    exact hs _ _ hmid _ _ _ hline
  · exact ht _ _ h _ _ _ hline
  · exact absurd hh (apart.resolve_left fun no => no hl)

/-! The text of a line before a mark. -/

namespace Markdown

theorem lineTo?_append {mark : Char} (more : List Char) {s : List Char} (hne : s ≠ [])
    (hline : '\n' ∉ s) (hmark : mark ∉ s.tail) (t : List Char) :
    lineTo? (mark :: more) (s ++ t) =
      if (mark :: more).isPrefixOf t then some (s, t.drop (more.length + 1))
      else (lineTo? (mark :: more) t).map fun (before, after) => (s ++ before, after) := by
  induction s with
  | nil => exact absurd rfl hne
  | cons c s ih =>
    have hc : c ≠ '\n' := fun same => hline (same ▸ List.mem_cons_self)
    rw [List.cons_append, lineTo?, if_neg hc]
    cases s with
    | nil => rfl
    | cons d s =>
      have hd : mark ≠ d := fun same => hmark (same ▸ List.mem_cons_self)
      have hrest := ih (by simp) (fun hmem => hline (List.mem_cons_of_mem _ hmem))
        (fun hmem => hmark (List.mem_cons_of_mem _ hmem))
      have apart : (mark :: more).isPrefixOf (d :: s ++ t) = false := by
        rw [List.cons_append, List.isPrefixOf, beq_eq_false_iff_ne.mpr hd, Bool.false_and]
      rw [hrest, apart, if_neg Bool.false_ne_true]
      split
      · rfl
      · rw [Option.map_map]
        rfl

theorem not_mem_of_lineTo? {mark s before after : List Char}
    (h : lineTo? mark s = some (before, after)) : '\n' ∉ before := by
  refine lineTo?_induction h (fun c hc => ?_) fun c rest before hc _ _ ih => ?_
  · simpa using Ne.symm hc
  · simp [Ne.symm hc, ih]

theorem ne_nil_of_lineTo? {mark s before after : List Char}
    (h : lineTo? mark s = some (before, after)) : before ≠ [] :=
  lineTo?_induction h (fun c _ => List.cons_ne_nil c _) fun c _ _ _ _ _ _ => List.cons_ne_nil c _

theorem not_mem_tail_of_lineTo? {mark : Char} {s before after : List Char}
    (h : lineTo? [mark] s = some (before, after)) : mark ∉ before.tail := by
  refine lineTo?_induction h (fun _ _ => List.not_mem_nil) fun c rest before _ apart hline ih => ?_
  obtain ⟨d, line, rfl⟩ := List.exists_cons_of_ne_nil (ne_nil_of_lineTo? hline)
  have hd : mark ≠ d := by simpa [eq_of_lineTo? hline, List.isPrefixOf] using apart
  simpa [hd] using ih

/-- The text before a character: all of it on one line, and the character only perhaps in front. -/
theorem lineTo?_char_eq_some {mark : Char} {s target rest : List Char} :
    lineTo? [mark] s = some (target, rest) ↔
      s = target ++ mark :: rest ∧ target ≠ [] ∧ '\n' ∉ target ∧ mark ∉ target.tail := by
  constructor
  · intro h
    exact ⟨by simpa using eq_of_lineTo? h, ne_nil_of_lineTo? h, not_mem_of_lineTo? h,
      not_mem_tail_of_lineTo? h⟩
  · rintro ⟨rfl, hne, hline, htail⟩
    rw [lineTo?_append [] hne hline htail]
    simp

end Markdown

end LuaStubs
