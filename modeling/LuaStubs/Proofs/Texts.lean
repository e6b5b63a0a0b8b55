import LuaStubs.Text.Lines

/-! Properties that an assembled text has if all its parts have them, and what is found behind a
mark in it. -/

namespace LuaStubs

theorem not_mem_toDigits {c : Char} (h : c.isDigit = false) (n : Nat) : c ∉ Nat.toDigits 10 n := by
  intro hmem
  have digit := Nat.isDigit_of_mem_toDigits (by decide) (Nat.le_refl 10) hmem
  rw [h] at digit
  cases digit

theorem eq_of_toString_eq {m n : Nat} (h : toString m = toString n) : m = n := by
  rw [Nat.toString_eq_ofList_toDigits, Nat.toString_eq_ofList_toDigits, ← String.toList_inj,
    String.toList_ofList, String.toList_ofList] at h
  rw [← @Nat.ofDigitChars_ten_toDigits m, h, Nat.ofDigitChars_ten_toDigits]

theorem toList_intercalate_cons (sep text : String) {texts : List String} (h : texts ≠ []) :
    (sep.intercalate (text :: texts)).toList
      = text.toList ++ (sep.toList ++ (sep.intercalate texts).toList) := by
  obtain ⟨next, texts, rfl⟩ := List.exists_cons_of_ne_nil h
  simp [String.toList_intercalate]

theorem head?_intercalate (sep : String) {text : String} (hne : text ≠ "") (texts : List String) :
    (sep.intercalate (text :: texts)).toList.head? = text.toList.head? := by
  obtain ⟨c, rest, hchars⟩ := List.exists_cons_of_ne_nil (show text.toList ≠ [] by simpa using hne)
  by_cases hlast : texts = []
  · subst hlast
    simp
  · rw [toList_intercalate_cons _ _ hlast, hchars]
    rfl

namespace Text

/-- A property of the empty text, and of two texts together if both have it. -/
structure Joins (P : List Char → Prop) : Prop where
  nil : P []
  append : ∀ s t, P s → P t → P (s ++ t)

namespace Joins

variable {P : List Char → Prop} (joins : Joins P)
include joins

theorem join {front back : String} (hfront : P front.toList) (hback : P back.toList) :
    P (front ++ back).toList := by
  rw [String.toList_append]
  exact joins.append _ _ hfront hback

theorem framed {before text after : String} (hbefore : P before.toList) (htext : P text.toList)
    (hafter : P after.toList) : P (Text.framed before text after).toList := by
  unfold Text.framed
  split
  · exact joins.nil
  · exact joins.join (joins.join hbefore htext) hafter

theorem intercalate {sep : String} {parts : List String} (hsep : P sep.toList)
    (h : ∀ part ∈ parts, P part.toList) : P (sep.intercalate parts).toList := by
  rw [String.toList_intercalate]
  induction parts with
  | nil => exact joins.nil
  | cons part rest ih =>
    obtain ⟨hpart, hrest⟩ := List.forall_mem_cons.mp h
    cases rest with
    | nil => simpa using hpart
    | cons other rest =>
      rw [List.map_cons, List.map_cons, List.intercalate_cons_cons]
      exact joins.append _ _ (joins.append _ _ hpart hsep) (ih hrest)

theorem paragraphs {parts : List String} (hbreak : P "\n\n".toList)
    (h : ∀ part ∈ parts, P part.toList) : P (Text.paragraphs parts).toList :=
  joins.intercalate hbreak fun part hpart => h part (List.mem_filter.mp hpart).1

theorem orList {names : List String} (hcomma : P ", ".toList) (hor : P " or ".toList)
    (h : ∀ name ∈ names, P name.toList) : P (Text.orList names).toList := by
  match names, h with
  | [], _ => exact joins.nil
  | [only], h => exact h only List.mem_cons_self
  | first :: second :: rest, h =>
    have hfront : ∀ name ∈ first :: (second :: rest).dropLast, P name.toList := by
      intro name hname
      rcases List.mem_cons.mp hname with rfl | hname
      · exact h _ List.mem_cons_self
      · exact h name (List.mem_cons_of_mem _ (List.dropLast_subset _ hname))
    have hlast : (second :: rest).getLastD "" ∈ first :: second :: rest := by
      rw [List.getLastD_cons]
      exact List.mem_cons_of_mem _ List.getLastD_mem_cons
    exact joins.join (joins.join (joins.intercalate hcomma hfront) hor) (h _ hlast)

theorem concat {parts : List String} (h : ∀ part ∈ parts, P part.toList) :
    P (String.join parts).toList := by
  rw [String.toList_join]
  induction parts with
  | nil => exact joins.nil
  | cons part rest ih =>
    obtain ⟨hpart, hrest⟩ := List.forall_mem_cons.mp h
    exact joins.append _ _ hpart (ih hrest)

end Joins

/-- The same, unless the first text ends with a bracket and the second begins with a parenthesis. -/
structure JoinsApart (P : List Char → Prop) : Prop where
  nil : P []
  append : ∀ s t, P s → P t → s.getLast? ≠ some ']' ∨ t.head? ≠ some '(' → P (s ++ t)

theorem Joins.apart {P : List Char → Prop} (joins : Joins P) : JoinsApart P where
  nil := joins.nil
  append s t hs ht _ := joins.append s t hs ht

namespace JoinsApart

variable {P : List Char → Prop} (joins : JoinsApart P)
include joins

theorem after {front text : String} (hfront : P front.toList) (hlast : front.toList.getLast? ≠ some ']')
    (htext : P text.toList) : P (front ++ text).toList := by
  rw [String.toList_append]
  exact joins.append _ _ hfront htext (.inl hlast)

theorem before {text back : String} (htext : P text.toList) (hback : P back.toList)
    (hhead : back.toList.head? ≠ some '(') : P (text ++ back).toList := by
  rw [String.toList_append]
  exact joins.append _ _ htext hback (.inr hhead)

theorem intercalate {sep : String} (hsep : P sep.toList) (hlast : sep.toList.getLast? ≠ some ']')
    (hhead : sep.toList.head? ≠ some '(') (hne : sep.toList ≠ []) {parts : List String}
    (h : ∀ part ∈ parts, P part.toList) : P (sep.intercalate parts).toList := by
  induction parts with
  | nil => exact joins.nil
  | cons part rest ih =>
    obtain ⟨hpart, hrest⟩ := List.forall_mem_cons.mp h
    by_cases last : rest = []
    · subst last
      simpa using hpart
    · rw [toList_intercalate_cons _ _ last]
      refine joins.append _ _ hpart (joins.append _ _ hsep (ih hrest) (.inl hlast)) (.inr ?_)
      obtain ⟨c, rest, hsep⟩ := List.exists_cons_of_ne_nil hne
      rw [hsep] at hhead ⊢
      exact hhead

end JoinsApart

theorem joins_not_mem (mark : Char) : Joins (mark ∉ ·) where
  nil := by simp
  append s t hs ht := by simp [hs, ht]

/-! Texts in front of a mark. -/

/-- A mark that begins in front of a found one ends in front of what is behind that. -/
theorem apart_of_apart {mark front behind : List Char}
    (h : mark.isPrefixOf (front ++ mark ++ behind) = false) (other : List Char) :
    mark.isPrefixOf (front ++ mark ++ other) = false := by
  refine Bool.eq_false_iff.mpr fun begins => Bool.eq_false_iff.mp h ?_
  have inside : mark <+: front ++ mark :=
    List.prefix_of_prefix_length_le (List.isPrefixOf_iff_prefix.mp begins) (List.prefix_append _ _)
      (by simp)
  exact List.isPrefixOf_iff_prefix.mpr (inside.trans (List.prefix_append _ _))

theorem splitAtMark_append {mark : Char} (more : List Char) {s : List Char} (h : mark ∉ s)
    (t : List Char) :
    splitAtMark (mark :: more) (s ++ t)
      = (splitAtMark (mark :: more) t).map fun (before, after) => (s ++ before, after) := by
  induction s with
  | nil => simp
  | cons c s ih =>
    have hc : mark ≠ c := fun same => h (same ▸ List.mem_cons_self)
    rw [List.cons_append, splitAtMark, ih fun hmem => h (List.mem_cons_of_mem _ hmem)]
    simp [hc, Function.comp_def]

theorem splitAtMark_found {mark : Char} (more : List Char) {s : List Char} (h : mark ∉ s)
    (t : List Char) : splitAtMark (mark :: more) (s ++ mark :: more ++ t) = some (s, t) := by
  rw [List.append_assoc, splitAtMark_append more h, List.cons_append]
  simp [splitAtMark]

theorem splitAtMark_eq_none {mark : Char} (more : List Char) {s : List Char} (h : mark ∉ s) :
    splitAtMark (mark :: more) s = none := by
  have happend := splitAtMark_append more h []
  rw [List.append_nil] at happend
  exact happend

end Text

end LuaStubs
