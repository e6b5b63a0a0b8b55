import LuaStubs.Proofs.Links.Comments
import LuaStubs.Proofs.Texts

/-! Quiet texts, of which no line begins with the mark of an annotation. Preparing a text for a
comment keeps its lines apart and leaves it quiet: links stay links, and hard breaks stand at the
ends of lines. -/

namespace LuaStubs

namespace Text

/-- No line begins with the mark of an annotation, where the text may begin inside a line. -/
def Quiet (atStart : Bool) : List Char → Prop
  | [] => True
  | c :: rest => (atStart = true → c ≠ '@') ∧ Quiet (c == '\n') rest

instance decidableQuiet (atStart : Bool) : ∀ s : List Char, Decidable (Quiet atStart s)
  | [] => inferInstanceAs (Decidable True)
  | c :: rest =>
    have := decidableQuiet (c == '\n') rest
    inferInstanceAs (Decidable ((atStart = true → c ≠ '@') ∧ Quiet (c == '\n') rest))

/-- Says whether what comes behind a text begins a line. -/
def atStartAfter (atStart : Bool) : List Char → Bool
  | [] => atStart
  | c :: rest => atStartAfter (c == '\n') rest

theorem quiet_append {atStart : Bool} {s t : List Char} :
    Quiet atStart (s ++ t) ↔ Quiet atStart s ∧ Quiet (atStartAfter atStart s) t := by
  induction s generalizing atStart with
  | nil => exact ⟨fun h => ⟨trivial, h⟩, fun h => h.2⟩
  | cons c rest ih =>
    rw [List.cons_append, Quiet, Quiet, ih, atStartAfter, and_assoc]

theorem atStartAfter_append (atStart : Bool) (s t : List Char) :
    atStartAfter atStart (s ++ t) = atStartAfter (atStartAfter atStart s) t := by
  induction s generalizing atStart with
  | nil => rfl
  | cons c rest ih => exact ih _

theorem Quiet.weaken {s : List Char} (h : Quiet true s) (atStart : Bool) : Quiet atStart s := by
  cases s with
  | nil => trivial
  | cons c rest => exact ⟨fun _ => h.1 rfl, h.2⟩

theorem Quiet.inside {atStart : Bool} {s : List Char} (h : Quiet atStart s) : Quiet false s := by
  cases s with
  | nil => trivial
  | cons c rest => exact ⟨Bool.false_ne_true.elim, h.2⟩

theorem quiet_of_not_mem {s : List Char} (h : '\n' ∉ s) : Quiet false s := by
  induction s with
  | nil => trivial
  | cons c rest ih =>
    obtain ⟨hc, hrest⟩ := not_or.mp (fun hmem => h (List.mem_cons.mpr hmem))
    have hnewline : (c == '\n') = false := beq_eq_false_iff_ne.mpr (Ne.symm hc)
    refine ⟨Bool.false_ne_true.elim, ?_⟩
    rw [hnewline]
    exact ih hrest

theorem quiet_of_line {c : Char} {rest : List Char} (hc : c ≠ '@') (hnewline : c ≠ '\n')
    (hrest : Quiet false rest) : Quiet true (c :: rest) := by
  refine ⟨fun _ => hc, ?_⟩
  rw [beq_eq_false_iff_ne.mpr hnewline]
  exact hrest

theorem atStartAfter_of_not_mem {atStart : Bool} {s : List Char} (h : '\n' ∉ s) (hne : s ≠ []) :
    atStartAfter atStart s = false := by
  induction s generalizing atStart with
  | nil => exact absurd rfl hne
  | cons c rest ih =>
    obtain ⟨hc, hrest⟩ := not_or.mp (fun hmem => h (List.mem_cons.mpr hmem))
    have hnewline : (c == '\n') = false := beq_eq_false_iff_ne.mpr (Ne.symm hc)
    rw [atStartAfter, hnewline]
    cases rest with
    | nil => rfl
    | cons d rest => exact ih hrest (by simp)

theorem atStartAfter_inside {s : List Char} (h : '\n' ∉ s) : atStartAfter false s = false := by
  cases s with
  | nil => rfl
  | cons c rest => exact atStartAfter_of_not_mem h (by simp)

theorem joins_quiet : Joins (Quiet true) where
  nil := trivial
  append _ _ hs ht := quiet_append.mpr ⟨hs, ht.weaken _⟩

theorem quiet_after {front text : String} (hfront : Quiet true front.toList)
    (inside : atStartAfter true front.toList = false) (h : Quiet false text.toList) :
    Quiet true (front ++ text).toList := by
  rw [String.toList_append, quiet_append, inside]
  exact ⟨hfront, h⟩

/-! Lines. -/

theorem lines_append_newline (s t : List Char) : lines (s ++ '\n' :: t) = lines s ++ lines t := by
  induction s with
  | nil => simp [lines]
  | cons c rest ih =>
    obtain ⟨first, others, hrest⟩ := List.exists_cons_of_ne_nil (lines_ne_nil rest)
    rw [hrest] at ih
    rw [List.cons_append, lines, lines, ih, hrest]
    split
    · rfl
    · rfl

theorem lines_of_not_mem {s : List Char} (h : '\n' ∉ s) : lines s = [s] := by
  induction s with
  | nil => rfl
  | cons c rest ih =>
    have hc : c ≠ '\n' := fun e => h (e ▸ List.mem_cons_self)
    have hrest : '\n' ∉ rest := fun hmem => h (List.mem_cons_of_mem _ hmem)
    rw [lines, if_neg hc, ih hrest]

theorem not_mem_of_mem_lines {s line : List Char} (h : line ∈ lines s) : '\n' ∉ line := by
  induction s generalizing line with
  | nil =>
    rw [lines, List.mem_singleton] at h
    simp [h]
  | cons c rest ih =>
    rw [lines] at h
    split at h
    · rcases List.mem_cons.mp h with rfl | h
      · simp
      · exact ih h
    · rename_i hc
      cases hlines : lines rest with
      | nil => exact absurd hlines (lines_ne_nil rest)
      | cons first others =>
        rw [hlines] at h ih
        rcases List.mem_cons.mp h with rfl | h
        · have hfirst := ih List.mem_cons_self
          simp [hfirst, Ne.symm hc]
        · exact ih (List.mem_cons_of_mem _ h)

theorem quiet_iff_of_lines {atStart : Bool} {s line : List Char} {others : List (List Char)}
    (hlines : lines s = line :: others) :
    Quiet atStart s ↔
      (atStart = true → line.head? ≠ some '@') ∧ ∀ other ∈ others, other.head? ≠ some '@' := by
  induction s generalizing atStart line others with
  | nil =>
    cases hlines
    simp [Quiet]
  | cons c rest ih =>
    obtain ⟨first, later, hrest⟩ := List.exists_cons_of_ne_nil (lines_ne_nil rest)
    rw [lines, hrest] at hlines
    by_cases hc : c = '\n'
    · rw [if_pos hc] at hlines
      cases hlines
      rw [Quiet, hc, ih hrest]
      simp
    · rw [if_neg hc] at hlines
      cases hlines
      rw [Quiet, beq_eq_false_iff_ne.mpr hc, ih hrest]
      simp

theorem quiet_iff_lines {s : List Char} :
    Quiet true s ↔ ∀ line ∈ lines s, line.head? ≠ some '@' := by
  obtain ⟨line, others, hlines⟩ := List.exists_cons_of_ne_nil (lines_ne_nil s)
  rw [quiet_iff_of_lines hlines, hlines, List.forall_mem_cons]
  simp

-- Whether a text is quiet is not found out by unfolding it character by character.
attribute [irreducible] Quiet

/-- A text whose lines stay apart and begin as they did. -/
structure KeepsLines (s s' : List Char) : Prop where
  newline : '\n' ∈ s' → '\n' ∈ s
  quiet : ∀ atStart, Quiet atStart s → Quiet atStart s'
  after : ∀ atStart, atStartAfter atStart s' = atStartAfter atStart s

namespace KeepsLines

theorem refl (s : List Char) : KeepsLines s s :=
  ⟨id, fun _ => id, fun _ => rfl⟩

theorem trans {s t u : List Char} (hst : KeepsLines s t) (htu : KeepsLines t u) : KeepsLines s u :=
  ⟨fun h => hst.newline (htu.newline h), fun b h => htu.quiet b (hst.quiet b h),
    fun b => (htu.after b).trans (hst.after b)⟩

theorem append {s s' t t' : List Char} (hs : KeepsLines s s') (ht : KeepsLines t t') :
    KeepsLines (s ++ t) (s' ++ t') := by
  refine ⟨fun h => ?_, fun b h => ?_, fun b => ?_⟩
  · rcases List.mem_append.mp h with h | h
    · exact List.mem_append_left _ (hs.newline h)
    · exact List.mem_append_right _ (ht.newline h)
  · rw [quiet_append] at h ⊢
    rw [hs.after]
    exact ⟨hs.quiet b h.1, ht.quiet _ h.2⟩
  · rw [atStartAfter_append, atStartAfter_append, hs.after, ht.after]

theorem cons (c : Char) {s s' : List Char} (h : KeepsLines s s') :
    KeepsLines (c :: s) (c :: s') :=
  (refl [c]).append h

theorem of_line {c : Char} {s s' : List Char} (hc : c ≠ '@') (hs : '\n' ∉ c :: s)
    (hs' : '\n' ∉ c :: s') : KeepsLines (c :: s) (c :: s') := by
  refine ⟨fun h => absurd h hs', fun b _ => ?_, fun b => ?_⟩
  · have hrest : '\n' ∉ s' := fun h => hs' (List.mem_cons_of_mem _ h)
    have hnewline : c ≠ '\n' := fun h => hs' (h ▸ List.mem_cons_self)
    exact (quiet_of_line hc hnewline (quiet_of_not_mem hrest)).weaken b
  · rw [atStartAfter_of_not_mem hs (by simp), atStartAfter_of_not_mem hs' (by simp)]

end KeepsLines

end Text

open Markdown Text

theorem keepsLines_hardBreaksAfter (inLine : Bool) (s : List Char) :
    KeepsLines s (hardBreaksAfter inLine s) := by
  induction s generalizing inLine with
  | nil => exact .refl []
  | cons c rest ih =>
    by_cases hc : c = '\n'
    · have hspaces : KeepsLines ['\n'] [' ', ' ', '\n'] :=
        ⟨fun _ => List.mem_cons_self, fun _ _ => by simp [Quiet], fun _ => rfl⟩
      subst hc
      rcases hardBreaksAfter_newline inLine rest with h | h
      · rw [h]
        exact hspaces.append (ih false)
      · rw [h]
        exact (ih false).cons _
    · rw [hardBreaksAfter_cons_of_ne inLine hc]
      exact (ih true).cons c

/-! Links stay on their lines. -/

theorem not_mem_of_link? {s display target : List Char} (h : link? s = some (display, target)) :
    '\n' ∉ display ∧ '\n' ∉ target := by
  obtain ⟨rest, behind, hdisplay, htarget⟩ := link?_eq_some.mp h
  exact ⟨not_mem_of_lineTo? hdisplay, not_mem_of_lineTo? htarget⟩

theorem not_mem_of_mem_pieces {s display target : List Char}
    (h : Piece.link display target ∈ pieces s) : '\n' ∉ display ∧ '\n' ∉ target := by
  induction s using pieces_induction with
  | nil => cases h
  | char c rest plain ih =>
    rw [pieces_cons_of_not_link plain] at h
    exact ih (List.mem_of_ne_of_mem (by simp) h)
  | link display' target' rest found ih =>
    rw [pieces_found found] at h
    rcases List.mem_cons.mp h with h | h
    · cases h
      exact not_mem_of_link? found
    · exact ih h

end LuaStubs
