import LuaStubs.Proofs.Links.Reached

/-! Texts in which the address of a manual is left open. Where marks are found in such a text does
not depend on the address that is put in, as long as there are no marks in the address. -/

namespace LuaStubs

open Markdown

/-- An address on the web without parts of links or fences. -/
structure Address where
  url : String
  web : Manual.isAbsolute url.toList = true
  inert : Inert url.toList

instance : Inhabited Address :=
  ⟨⟨"https://", rfl, by decide⟩⟩

/-- A character, or a hole for an address. -/
inductive Slot where
  | char (c : Char)
  | hole
  deriving DecidableEq

abbrev Template := List Slot

namespace Slot

def fill (address : List Char) : Slot → List Char
  | char c => [c]
  | hole => address

end Slot

namespace Template

/-- The text with an address in all holes. -/
def fill (address : List Char) (t : Template) : List Char :=
  t.flatMap (Slot.fill address)

def literal (s : List Char) : Template :=
  s.map .char

variable {address : List Char}

theorem fill_append (s t : Template) : fill address (s ++ t) = fill address s ++ fill address t :=
  List.flatMap_append

theorem fill_cons (slot : Slot) (t : Template) :
    fill address (slot :: t) = slot.fill address ++ fill address t :=
  rfl

theorem mem_fill {c : Char} {t : Template} (h : .char c ∈ t) : c ∈ fill address t :=
  List.mem_flatMap.mpr ⟨.char c, h, List.mem_singleton_self c⟩

theorem fill_literal (s : List Char) : fill address (literal s) = s := by
  induction s with
  | nil => rfl
  | cons c s ih => exact congrArg (c :: ·) ih

theorem eq_literal_of_not_mem {t : Template} (h : Slot.hole ∉ t) : ∃ s, t = literal s := by
  induction t with
  | nil => exact ⟨[], rfl⟩
  | cons slot t ih =>
    obtain ⟨s, rfl⟩ := ih fun hmem => h (List.mem_cons_of_mem _ hmem)
    cases slot with
    | char c => exact ⟨c :: s, rfl⟩
    | hole => exact absurd List.mem_cons_self h

end Template

namespace Address

variable (a : Address)

theorem url_ne : a.url.toList ≠ [] := by
  intro hempty
  have web := a.web
  rw [hempty] at web
  cases web

theorem not_mem {mark : Char} (hmark : mark ∈ inlineMarks) : mark ∉ a.url.toList :=
  a.inert.not_mem hmark

theorem exists_cons : ∃ c rest, a.url.toList = c :: rest ∧ c ∉ inlineMarks := by
  obtain ⟨c, rest, hurl⟩ := List.exists_cons_of_ne_nil a.url_ne
  exact ⟨c, rest, hurl, a.inert c (hurl ▸ List.mem_cons_self)⟩

end Address

open Template

theorem Slot.fill_ne (slot : Slot) (a : Address) : slot.fill a.url.toList ≠ [] := by
  cases slot with
  | char c => simp [fill]
  | hole => exact a.url_ne

theorem Slot.not_mem_fill {slot : Slot} {mark : Char} (hmark : mark ∈ inlineMarks)
    (h : slot ≠ .char mark) (a : Address) : mark ∉ slot.fill a.url.toList := by
  cases slot with
  | char c => simpa [fill, eq_comm] using h
  | hole => exact a.not_mem hmark

theorem Template.fill_eq_nil {t : Template} (a : Address) :
    t.fill a.url.toList = [] ↔ t = [] := by
  cases t with
  | nil => exact iff_of_true rfl rfl
  | cons slot t =>
    rw [fill_cons]
    simp [slot.fill_ne a]

/-- Marks stand in what is put in exactly where they stand in the template. -/
theorem Template.isPrefixOf_fill {mark : List Char} (hmark : ∀ c ∈ mark, c ∈ inlineMarks)
    (t : Template) (a : Address) :
    mark.isPrefixOf (t.fill a.url.toList) = (literal mark).isPrefixOf t := by
  induction mark generalizing t with
  | nil => simp [literal]
  | cons c mark ih =>
    obtain ⟨hc, hrest⟩ := List.forall_mem_cons.mp hmark
    cases t with
    | nil => rfl
    | cons slot t =>
      cases slot with
      | char d =>
        have same : (c == d) = (Slot.char c == Slot.char d) := by
          rw [Bool.eq_iff_iff, beq_iff_eq, beq_iff_eq, Slot.char.injEq]
        rw [fill_cons, Slot.fill, List.singleton_append, List.isPrefixOf, ih hrest t, same]
        rfl
      | hole =>
        obtain ⟨d, rest, hurl, hd⟩ := a.exists_cons
        have apart : (c == d) = false := beq_eq_false_iff_ne.mpr fun same => hd (same ▸ hc)
        rw [fill_cons, Slot.fill, hurl, List.cons_append, List.isPrefixOf, apart, Bool.false_and]
        rfl

theorem Template.eq_of_isPrefixOf {mark : List Char} {t : Template}
    (h : (literal mark).isPrefixOf t = true) :
    ∃ rest, t = literal mark ++ rest ∧
      ∀ address, (t.fill address).drop mark.length = rest.fill address := by
  obtain ⟨rest, rfl⟩ := List.isPrefixOf_iff_prefix.mp h
  refine ⟨rest, rfl, fun address => ?_⟩
  rw [fill_append, fill_literal, List.drop_left]

/-! Where a mark is found. -/

/-- What is found in a template when it is cut at a mark, whatever it is filled with. -/
def CutAt (cut : List Char → Option (List Char × List Char)) (mark : List Char) (t : Template) :
    Prop :=
  (∀ a : Address, cut (t.fill a.url.toList) = none) ∨
    ∃ before after, t = before ++ (literal mark ++ after) ∧ ∀ a : Address,
      cut (t.fill a.url.toList) = some (before.fill a.url.toList, after.fill a.url.toList)

section

variable {mark : Char} {more : List Char} (hmark : ∀ c ∈ mark :: more, c ∈ inlineMarks)
include hmark

theorem Template.splitAtMark_fill (t : Template) :
    CutAt (Text.splitAtMark (mark :: more)) (mark :: more) t := by
  induction t with
  | nil => exact .inl fun _ => rfl
  | cons slot t ih =>
    cases slot with
    | hole =>
      have hsplit (a : Address) : Text.splitAtMark (mark :: more) (fill a.url.toList (.hole :: t))
          = (Text.splitAtMark (mark :: more) (fill a.url.toList t)).map
            fun cut => (a.url.toList ++ cut.1, cut.2) :=
        Text.splitAtMark_append more (a.not_mem (hmark mark List.mem_cons_self)) _
      rcases ih with hnone | ⟨before, after, rfl, hsome⟩
      · exact .inl fun a => by rw [hsplit, hnone]; rfl
      · exact .inr ⟨.hole :: before, after, rfl, fun a => by rw [hsplit, hsome]; rfl⟩
    | char c =>
      have hsplit (a : Address) : Text.splitAtMark (mark :: more) (fill a.url.toList (.char c :: t))
          = if (literal (mark :: more)).isPrefixOf (Slot.char c :: t) then
              some ([], (fill a.url.toList (.char c :: t)).drop (mark :: more).length)
            else (Text.splitAtMark (mark :: more) (fill a.url.toList t)).map
              fun cut => (c :: cut.1, cut.2) := by
        rw [← isPrefixOf_fill hmark _ a]
        rfl
      by_cases hhere : (literal (mark :: more)).isPrefixOf (Slot.char c :: t) = true
      · obtain ⟨after, ht, hdrop⟩ := eq_of_isPrefixOf hhere
        exact .inr ⟨[], after, ht, fun a => by rw [hsplit, if_pos hhere, hdrop]; rfl⟩
      · rcases ih with hnone | ⟨before, after, rfl, hsome⟩
        · exact .inl fun a => by rw [hsplit, if_neg hhere, hnone]; rfl
        · exact .inr ⟨.char c :: before, after, rfl,
            fun a => by rw [hsplit, if_neg hhere, hsome]; rfl⟩

/-- What is found on a line is not empty, and is on it. -/
theorem Template.lineTo?_fill (t : Template) :
    CutAt (lineTo? (mark :: more)) (mark :: more) t := by
  induction t with
  | nil => exact .inl fun _ => rfl
  | cons slot t ih =>
    by_cases hnewline : slot = .char '\n'
    · subst hnewline
      exact .inl fun _ => rfl
    · have hline (a : Address) := Slot.not_mem_fill (by decide) hnewline a
      have hclear (a : Address) : mark ∉ (slot.fill a.url.toList).tail := by
        cases slot with
        | char c => exact List.not_mem_nil
        | hole =>
          exact fun hmem => a.not_mem (hmark mark List.mem_cons_self) (List.mem_of_mem_tail hmem)
      have hfind (a : Address) : lineTo? (mark :: more) (fill a.url.toList (slot :: t))
          = if (literal (mark :: more)).isPrefixOf t then
              some (slot.fill a.url.toList, (fill a.url.toList t).drop (mark :: more).length)
            else (lineTo? (mark :: more) (fill a.url.toList t)).map
              fun cut => (slot.fill a.url.toList ++ cut.1, cut.2) := by
        rw [← isPrefixOf_fill hmark _ a]
        exact lineTo?_append more (slot.fill_ne a) (hline a) (hclear a) _
      by_cases hhere : (literal (mark :: more)).isPrefixOf t = true
      · obtain ⟨after, ht, hdrop⟩ := eq_of_isPrefixOf hhere
        refine .inr ⟨[slot], after, by rw [ht]; rfl, fun a => ?_⟩
        rw [hfind, if_pos hhere, hdrop, fill_cons]
        simp [fill]
      · rcases ih with hnone | ⟨before, after, rfl, hsome⟩
        · exact .inl fun a => by rw [hfind, if_neg hhere, hnone]; rfl
        · exact .inr ⟨slot :: before, after, rfl,
            fun a => by rw [hfind, if_neg hhere, hsome]; rfl⟩

end

end LuaStubs
