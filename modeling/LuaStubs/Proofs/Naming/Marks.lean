import Mathlib.Data.List.Nodup

/-! How the names of positions are spelled. Behind the name of a member stand marks for a position
inside it, each beginning with an underscore. Names of positions are told apart if no name is that
of another one with marks behind it. -/

namespace LuaStubs

/-- Two texts that are split at their last dot. -/
theorem eq_of_append_dot_eq {s t u v : List Char} (ht : '.' ∉ t) (hv : '.' ∉ v)
    (h : s ++ '.' :: t = u ++ '.' :: v) : s = u ∧ t = v := by
  have shorter {s t u v : List Char} (ht : '.' ∉ t) (h : s ++ '.' :: t = u ++ '.' :: v)
      (hfront : s <+: u) : s = u ∧ t = v := by
    obtain ⟨x, rfl⟩ := hfront
    rw [List.append_assoc] at h
    have hrest := List.append_cancel_left h
    cases x with
    | nil =>
      cases hrest
      exact ⟨(List.append_nil s).symm, rfl⟩
    | cons c x =>
      obtain ⟨-, rfl⟩ := List.cons.inj hrest
      exact absurd (List.mem_append_right x List.mem_cons_self) ht
  have hs : s <+: u ++ '.' :: v := h ▸ List.prefix_append s _
  rcases List.prefix_or_prefix_of_prefix hs (List.prefix_append u _) with hfront | hfront
  · exact shorter ht h hfront
  · obtain ⟨hu, hv⟩ := shorter hv h.symm hfront
    exact ⟨hu.symm, hv.symm⟩

theorem eq_of_dotted_eq {s t u v : List Char} (hs : '.' ∉ s) (ht : '.' ∉ t)
    (h : s ++ '.' :: t = u ++ '.' :: v) : s = u ∧ t = v := by
  have count := congrArg (List.count '.') h
  rw [List.count_append, List.count_cons_self, List.count_append, List.count_cons_self,
    List.count_eq_zero_of_not_mem hs, List.count_eq_zero_of_not_mem ht] at count
  have hv : '.' ∉ v := List.count_eq_zero.mp (by omega)
  exact eq_of_append_dot_eq ht hv h

/-- A text that is empty or begins with a character. -/
def Starts (c : Char) (s : List Char) : Prop :=
  s = [] ∨ ∃ rest, s = c :: rest

/-- A mark: an underscore, and behind it neither another one nor a dot. -/
def IsMark (mark : String) : Prop :=
  ∃ rest, mark.toList = '_' :: rest ∧ '_' ∉ rest ∧ '.' ∉ rest

theorem eq_of_append_starts {mark : Char} {s t u v : List Char} (hs : mark ∉ s) (hu : mark ∉ u)
    (ht : Starts mark t) (hv : Starts mark v) (h : s ++ t = u ++ v) : s = u ∧ t = v := by
  induction s generalizing u with
  | nil =>
    cases u with
    | nil => exact ⟨rfl, h⟩
    | cons c u =>
      rcases ht with rfl | ⟨rest, rfl⟩
      · cases h
      · obtain ⟨rfl, -⟩ := List.cons.inj h
        exact absurd List.mem_cons_self hu
  | cons c s ih =>
    cases u with
    | nil =>
      rcases hv with rfl | ⟨rest, rfl⟩
      · cases h
      · obtain ⟨rfl, -⟩ := List.cons.inj h
        exact absurd List.mem_cons_self hs
    | cons d u =>
      obtain ⟨rfl, hrest⟩ := List.cons.inj h
      obtain ⟨rfl, rfl⟩ := ih (fun hc => hs (List.mem_cons_of_mem _ hc))
        (fun hc => hu (List.mem_cons_of_mem _ hc)) hrest
      exact ⟨rfl, rfl⟩

variable {α β : Type}

/-- Families of positions, each behind a mark of its own. -/
def marked (families : List (String × List (String × α))) : List (String × α) :=
  families.flatMap fun (mark, spots) => spots.map fun (marks, a) => (mark ++ marks, a)

theorem mem_marked {families : List (String × List (String × α))} {spot : String × α} :
    spot ∈ marked families ↔
      ∃ mark spots, (mark, spots) ∈ families ∧ ∃ marks a, (marks, a) ∈ spots ∧
        spot = (mark ++ marks, a) := by
  simp [marked, eq_comm]

/-- Positions by the marks that lead to them: the way to a position goes through positions, and the
marks tell where it ends. -/
structure Chains (spots : List (String × α)) : Prop where
  dotless : ∀ spot ∈ spots, '.' ∉ spot.1.toList
  starts : ∀ spot ∈ spots, Starts '_' spot.1.toList
  closed : ∀ spot ∈ spots, ∀ front back, spot.1.toList = front ++ back → Starts '_' back →
    front = [] ∨ ∃ a, (String.ofList front, a) ∈ spots
  functional : ∀ marks a b, (marks, a) ∈ spots → (marks, b) ∈ spots → a = b

def Rooted (spots : List (String × α)) : Prop :=
  ∃ a, ("", a) ∈ spots

/-- Families of positions that are told apart, each behind a mark of its own. -/
structure Families (families : List (String × List (String × α))) : Prop where
  marks : ∀ family ∈ families, IsMark family.1
  distinct : (families.map (·.1)).Nodup
  chains : ∀ family ∈ families, Chains family.2
  rooted : ∀ family ∈ families, Rooted family.2

namespace Families

variable {families : List (String × List (String × α))} (h : Families families)
include h

theorem ne_empty_of_mem_marked {spot : String × α} (hspot : spot ∈ marked families) :
    spot.1 ≠ "" := by
  obtain ⟨mark, spots, hfamily, inner, a, -, rfl⟩ := mem_marked.mp hspot
  obtain ⟨rest, hmark, -⟩ := h.marks _ hfamily
  intro hempty
  rw [← String.toList_inj, String.toList_append, hmark] at hempty
  cases hempty

theorem closed_marked {spot : String × α} (hspot : spot ∈ marked families)
    {front back : List Char} (hsplit : spot.1.toList = front ++ back) (hback : Starts '_' back) :
    front = [] ∨ ∃ a, (String.ofList front, a) ∈ marked families := by
  obtain ⟨mark, spots, hfamily, inner, a, hinner, rfl⟩ := mem_marked.mp hspot
  obtain ⟨rest, hmark, hsingle, -⟩ := h.marks _ hfamily
  have behind {inner : String} {a : α} (ha : (inner, a) ∈ spots) :
      ∃ a, (mark ++ inner, a) ∈ marked families :=
    ⟨a, mem_marked.mpr ⟨mark, spots, hfamily, inner, a, ha, rfl⟩⟩
  have spelled (x : List Char) : String.ofList ('_' :: rest ++ x) = mark ++ String.ofList x := by
    rw [← String.toList_inj, String.toList_append, hmark]
    simp
  have root : ∃ a, (String.ofList ('_' :: rest), a) ∈ marked families := by
    obtain ⟨b, hb⟩ := h.rooted _ hfamily
    rw [← List.append_nil ('_' :: rest), spelled]
    exact behind hb
  rw [String.toList_append, hmark] at hsplit
  rcases List.append_eq_append_iff.mp hsplit with ⟨x, rfl, hrest⟩ | ⟨x, hfront, rfl⟩
  · -- The front ends behind the mark.
    apply Or.inr
    rw [spelled]
    rcases (h.chains _ hfamily).closed _ hinner x back hrest hback with rfl | ⟨b, hb⟩
    · obtain ⟨b, hb⟩ := h.rooted _ hfamily
      exact behind hb
    · exact behind hb
  · -- The front ends inside the mark, where no other mark begins.
    cases front with
    | nil => exact .inl rfl
    | cons c front =>
      obtain ⟨rfl, hrest⟩ : '_' = c ∧ rest = front ++ x := List.cons.inj hfront
      cases x with
      | nil =>
        rw [hrest, List.append_nil] at root
        exact .inr root
      | cons d x =>
        rcases hback with hback | ⟨more, hback⟩
        · cases hback
        · obtain ⟨rfl, -⟩ := List.cons.inj hback
          rw [hrest] at hsingle
          exact absurd (List.mem_append_right _ List.mem_cons_self) hsingle

theorem functional_marked {marks : String} {a b : α} (ha : (marks, a) ∈ marked families)
    (hb : (marks, b) ∈ marked families) : a = b := by
  obtain ⟨mark, spots, hfamily, inner, a, hinner, ha⟩ := mem_marked.mp ha
  obtain ⟨mark', spots', hfamily', inner', b, hinner', hb⟩ := mem_marked.mp hb
  cases ha
  obtain ⟨hnames, rfl⟩ := Prod.mk.inj hb
  obtain ⟨rest, hmark, hsingle, -⟩ := h.marks _ hfamily
  obtain ⟨rest', hmark', hsingle', -⟩ := h.marks _ hfamily'
  have hlists := congrArg String.toList hnames
  rw [String.toList_append, String.toList_append, hmark, hmark'] at hlists
  obtain ⟨hrest, hmarks⟩ := eq_of_append_starts hsingle hsingle'
    ((h.chains _ hfamily).starts _ hinner) ((h.chains _ hfamily').starts _ hinner')
    (List.cons.inj hlists).2
  have hsame : mark = mark' := by rw [← String.toList_inj, hmark, hmark', hrest]
  cases List.inj_on_of_nodup_map h.distinct hfamily hfamily' hsame
  cases String.toList_inj.mp hmarks
  exact (h.chains _ hfamily).functional _ _ _ hinner hinner'

/-- What is behind different marks is told apart. -/
theorem chains_marked : Chains (marked families) where
  dotless := by
    intro spot hspot
    obtain ⟨mark, spots, hfamily, inner, a, hinner, rfl⟩ := mem_marked.mp hspot
    obtain ⟨rest, hmark, -, hdot⟩ := h.marks _ hfamily
    have hclear := (h.chains _ hfamily).dotless _ hinner
    rw [String.toList_append, hmark]
    simp [hdot, hclear]
  starts := by
    intro spot hspot
    obtain ⟨mark, spots, hfamily, inner, a, hinner, rfl⟩ := mem_marked.mp hspot
    obtain ⟨rest, hmark, -⟩ := h.marks _ hfamily
    rw [String.toList_append, hmark]
    exact .inr ⟨_, rfl⟩
  closed _ hspot _ _ hsplit hback := h.closed_marked hspot hsplit hback
  functional _ _ _ ha hb := h.functional_marked ha hb

theorem chains_cons (a : α) : Chains (("", a) :: marked families) where
  dotless := by
    intro spot hspot
    rcases List.mem_cons.mp hspot with rfl | hspot
    · simp
    · exact h.chains_marked.dotless _ hspot
  starts := by
    intro spot hspot
    rcases List.mem_cons.mp hspot with rfl | hspot
    · exact .inl rfl
    · exact h.chains_marked.starts _ hspot
  closed := by
    intro spot hspot front back hsplit hback
    rcases List.mem_cons.mp hspot with rfl | hspot
    · exact .inl (List.append_eq_nil_iff.mp hsplit.symm).1
    · refine (h.closed_marked hspot hsplit hback).imp_right ?_
      rintro ⟨b, hb⟩
      exact ⟨b, List.mem_cons_of_mem _ hb⟩
  functional := by
    intro marks b c hb hc
    rcases List.mem_cons.mp hb with hb | hb
    · rcases List.mem_cons.mp hc with hc | hc
      · cases hb
        cases hc
        rfl
      · cases hb
        exact absurd rfl (h.ne_empty_of_mem_marked hc)
    · rcases List.mem_cons.mp hc with hc | hc
      · cases hc
        exact absurd rfl (h.ne_empty_of_mem_marked hb)
      · exact h.functional_marked hb hc

end Families

theorem families_nil : Families ([] : List (String × List (String × α))) :=
  ⟨by simp, .nil, by simp, by simp⟩

theorem Families.append {first second : List (String × List (String × α))} (h : Families first)
    (h' : Families second) (differ : ∀ family ∈ first, ∀ other ∈ second, family.1 ≠ other.1) :
    Families (first ++ second) where
  marks family hfamily := (List.mem_append.mp hfamily).elim (h.marks family) (h'.marks family)
  distinct := by
    rw [List.map_append, List.nodup_append]
    refine ⟨h.distinct, h'.distinct, ?_⟩
    intro name hname other hother
    obtain ⟨family, hfamily, rfl⟩ := List.mem_map.mp hname
    obtain ⟨family', hfamily', rfl⟩ := List.mem_map.mp hother
    exact differ family hfamily family' hfamily'
  chains family hfamily := (List.mem_append.mp hfamily).elim (h.chains family) (h'.chains family)
  rooted family hfamily := (List.mem_append.mp hfamily).elim (h.rooted family) (h'.rooted family)

theorem families_single {mark : String} {spots : List (String × α)} (hmark : IsMark mark)
    (chains : Chains spots) (rooted : Rooted spots) : Families [(mark, spots)] :=
  ⟨by simpa using hmark, by simp, by simpa using chains, by simpa using rooted⟩

theorem Chains.map {spots : List (String × α)} (h : Chains spots) (f : α → β) :
    Chains (spots.map fun (marks, a) => (marks, f a)) where
  dotless := by
    intro spot hspot
    obtain ⟨own, hown, rfl⟩ := List.mem_map.mp hspot
    exact h.dotless own hown
  starts := by
    intro spot hspot
    obtain ⟨own, hown, rfl⟩ := List.mem_map.mp hspot
    exact h.starts own hown
  closed := by
    intro spot hspot front back hsplit hback
    obtain ⟨own, hown, rfl⟩ := List.mem_map.mp hspot
    refine (h.closed own hown front back hsplit hback).imp_right ?_
    rintro ⟨a, ha⟩
    exact ⟨f a, List.mem_map.mpr ⟨_, ha, rfl⟩⟩
  functional := by
    intro marks a b ha hb
    obtain ⟨⟨own, a⟩, hown, ha⟩ := List.mem_map.mp ha
    obtain ⟨⟨own', b⟩, hown', hb⟩ := List.mem_map.mp hb
    cases ha
    cases hb
    exact congrArg f (h.functional _ _ _ hown hown')

theorem Rooted.map {spots : List (String × α)} (h : Rooted spots) (f : α → β) :
    Rooted (spots.map fun (marks, a) => (marks, f a)) := by
  obtain ⟨a, ha⟩ := h
  exact ⟨f a, List.mem_map.mpr ⟨_, ha, rfl⟩⟩

/-- The parts of an owner by their names, each with the marks that may stand behind it. -/
structure Apart (parts : List (String × List String)) : Prop where
  distinct : (parts.map (·.1)).Nodup
  dotless : ∀ part ∈ parts, '.' ∉ part.1.toList
  /-- No part is called like a position inside another one. -/
  apart : ∀ part ∈ parts, ∀ mark ∈ part.2, mark ≠ "" → ∀ other ∈ parts, other.1 ≠ part.1 ++ mark

instance (parts : List (String × List String)) : Decidable (Apart parts) :=
  decidable_of_iff ((parts.map (·.1)).Nodup ∧ (∀ part ∈ parts, '.' ∉ part.1.toList) ∧
      ∀ part ∈ parts, ∀ mark ∈ part.2, mark ≠ "" → ∀ other ∈ parts, other.1 ≠ part.1 ++ mark)
    ⟨fun h => ⟨h.1, h.2.1, h.2.2⟩, fun h => ⟨h.distinct, h.dotless, h.apart⟩⟩

end LuaStubs
