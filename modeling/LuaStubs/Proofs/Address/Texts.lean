import LuaStubs.Proofs.Address.Calm
import LuaStubs.Proofs.Address.Runs
import LuaStubs.Proofs.Texts

/-! Texts with calm templates. What is put together from such texts line by line has a calm template
again. -/

namespace LuaStubs

open Template

/-- Texts that are one calm template, filled with each address. -/
def CalmText (x : Address → String) : Prop :=
  ∃ t : Template, Calm t ∧ ∀ a, (x a).toList = fill a.url.toList t

/-- Texts that are one tight template, filled with each address. -/
def TightText (x : Address → String) : Prop :=
  ∃ t : Template, Tight t ∧ ∀ a, (x a).toList = fill a.url.toList t

theorem calmText_const (text : String) : CalmText fun _ => text :=
  ⟨literal text.toList, calm_literal _, fun _ => (fill_literal _).symm⟩

theorem tightText_const {text : String} (h : ']' ∉ text.toList) : TightText fun _ => text :=
  ⟨literal text.toList, tight_literal h, fun _ => (fill_literal _).symm⟩

section

variable {x y : Address → String}

theorem TightText.calm (hx : TightText x) : CalmText x := by
  obtain ⟨t, ht, hxt⟩ := hx
  exact ⟨t, ht.calm, hxt⟩

theorem TightText.append (hx : TightText x) (hy : TightText y) : TightText fun a => x a ++ y a := by
  obtain ⟨s, hs, hxs⟩ := hx
  obtain ⟨t, ht, hyt⟩ := hy
  refine ⟨s ++ t, hs.append ht, fun a => ?_⟩
  rw [String.toList_append, fill_append, hxs, hyt]

theorem TightText.append_calm (hx : TightText x) (hy : CalmText y) :
    CalmText fun a => x a ++ y a := by
  obtain ⟨s, hs, hxs⟩ := hx
  obtain ⟨t, ht, hyt⟩ := hy
  refine ⟨s ++ t, hs.append_calm ht, fun a => ?_⟩
  rw [String.toList_append, fill_append, hxs, hyt]

theorem CalmText.append_line (hx : CalmText x) (hy : CalmText y)
    (line : ∀ a, (y a).toList.head? = some '\n') : CalmText fun a => x a ++ y a := by
  obtain ⟨s, hs, hxs⟩ := hx
  obtain ⟨t, ht, hyt⟩ := hy
  have hline := line default
  rw [hyt, head?_fill] at hline
  refine ⟨s ++ t, hs.append_line ht hline, fun a => ?_⟩
  rw [String.toList_append, fill_append, hxs, hyt]

/-- Whether a text is empty does not depend on the address. -/
theorem CalmText.eq_empty (hx : CalmText x) : (∀ a, x a = "") ∨ ∀ a, x a ≠ "" := by
  obtain ⟨t, -, ht⟩ := hx
  have hempty (a : Address) : x a = "" ↔ t = [] := by
    rw [← String.toList_eq_nil_iff, ht, fill_eq_nil]
  by_cases h : t = []
  · exact .inl fun a => (hempty a).mpr h
  · exact .inr fun a => mt (hempty a).mp h

end

/-! Texts joined. -/

section

variable {xs : List (Address → String)}

theorem CalmText.intercalate {sep : String} (hsep : ']' ∉ sep.toList)
    (line : sep.toList.head? = some '\n') (h : ∀ x ∈ xs, CalmText x) :
    CalmText fun a => sep.intercalate (xs.map (· a)) := by
  induction xs with
  | nil => exact calmText_const _
  | cons x xs ih =>
    obtain ⟨hx, hrest⟩ := List.forall_mem_cons.mp h
    by_cases hlast : xs = []
    · subst hlast
      simpa using hx
    · have hbelow (a : Address) :
          (sep ++ sep.intercalate (xs.map (· a))).toList.head? = some '\n' := by
        rw [String.toList_append, List.head?_append, line]
        rfl
      have hsplit (a : Address) : sep.intercalate ((x :: xs).map (· a))
          = x a ++ (sep ++ sep.intercalate (xs.map (· a))) := by
        rw [← String.toList_inj, List.map_cons, toList_intercalate_cons _ _ (by simpa using hlast),
          String.toList_append, String.toList_append]
      simp only [hsplit]
      exact hx.append_line ((tightText_const hsep).append_calm (ih hrest)) hbelow

theorem CalmText.append_join {x : Address → String} (hx : CalmText x)
    (h : ∀ y ∈ xs, CalmText y ∧ ∀ a, (y a).toList.head? = some '\n') :
    CalmText fun a => x a ++ String.join (xs.map (· a)) := by
  induction xs generalizing x with
  | nil => simpa using hx
  | cons y xs ih =>
    obtain ⟨⟨hy, line⟩, hrest⟩ := List.forall_mem_cons.mp h
    have hjoin := ih (hx.append_line hy line) hrest
    simpa only [List.map_cons, String.join_cons, String.append_assoc] using hjoin

theorem CalmText.paragraphs (h : ∀ x ∈ xs, CalmText x) :
    CalmText fun a => Text.paragraphs (xs.map (· a)) := by
  have hfilter : ∃ ys ⊆ xs, ∀ a : Address,
      (xs.map (· a)).filter (!·.isEmpty) = ys.map (· a) := by
    induction xs with
    | nil => exact ⟨[], List.Subset.refl _, fun _ => rfl⟩
    | cons x xs ih =>
      obtain ⟨hx, hrest⟩ := List.forall_mem_cons.mp h
      obtain ⟨ys, hys, hfilter⟩ := ih hrest
      rcases hx.eq_empty with hempty | hne
      · refine ⟨ys, List.subset_cons_of_subset _ hys, fun a => ?_⟩
        rw [List.map_cons, hempty, List.filter_cons_of_neg (by simp), hfilter]
      · refine ⟨x :: ys, List.cons_subset_cons _ hys, fun a => ?_⟩
        rw [List.map_cons, List.filter_cons_of_pos (by simpa using hne a), hfilter]
        rfl
  obtain ⟨ys, hys, hfilter⟩ := hfilter
  unfold Text.paragraphs
  simp only [hfilter]
  exact CalmText.intercalate (by decide) rfl fun y hy => h y (hys hy)

end

end LuaStubs
