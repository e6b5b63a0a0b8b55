import LuaStubs.Proofs.Catalogs
import LuaStubs.Proofs.Naming.Positions

/-! Where the parts of all owners are told apart, the name of a place says what stands there. Every
table without a name that a description leads to stands at such a place. -/

namespace LuaStubs

open Api

/-- What the tables in a part link to, inside an owner with a link. -/
def Api.Part.link (manual : Manual) (outer : String) (part : Part) : String :=
  match part.reference with
  | some reference => manual.linkTo reference
  | none => outer

/-- What stands at the places of a description. -/
inductive Stands (manual : Manual) (document : Document) : Place → Holder → Prop
  | entry {part : Part} {marks : String} {holder : Holder} (hpart : part ∈ document.parts)
      (hspot : (marks, holder) ∈ part.spots) :
      Stands manual document ⟨part.name ++ marks, part.link manual ""⟩ holder
  | part {place : Place} {owner : Holder} (stands : Stands manual document place owner) {part : Part}
      {marks : String} {holder : Holder} (hpart : part ∈ owner.parts)
      (hspot : (marks, holder) ∈ part.spots) :
      Stands manual document ⟨place.name ++ "." ++ part.name ++ marks, part.link manual place.link⟩
        holder

/-- A property of an owner and of all owners below it. -/
inductive Api.Holder.Throughout (P : Holder → Prop) : Holder → Prop
  | owner {holder : Holder} (own : P holder)
      (below : ∀ part ∈ holder.parts, ∀ spot ∈ part.spots, Throughout P spot.2) :
      Throughout P holder

def Api.Holder.throughout (P : Holder → Prop) [DecidablePred P] : Nat → Holder → Bool
  | 0, _ => false
  | depth + 1, holder =>
    decide (P holder) && holder.parts.all fun part => part.spots.all fun spot =>
      throughout P depth spot.2

theorem Api.Holder.throughout_sound {P : Holder → Prop} [DecidablePred P] {depth : Nat}
    {holder : Holder} (h : holder.throughout P depth = true) : holder.Throughout P := by
  induction depth generalizing holder with
  | zero => cases h
  | succ depth ih =>
    obtain ⟨own, below⟩ := Bool.and_eq_true_iff.mp h
    refine .owner (of_decide_eq_true own) ?_
    intro part hpart spot hspot
    exact ih (List.all_eq_true.mp (List.all_eq_true.mp below part hpart) spot hspot)

/-- A property of everything that stands somewhere in a description. -/
def Api.Document.Throughout (document : Document) (P : Holder → Prop) : Prop :=
  ∀ part ∈ document.parts, ∀ spot ∈ part.spots, spot.2.Throughout P

def Api.Document.throughout (document : Document) (P : Holder → Prop) [DecidablePred P]
    (depth : Nat) : Bool :=
  document.parts.all fun part => part.spots.all fun spot => spot.2.throughout P depth

theorem Api.Document.throughout_sound {document : Document} {P : Holder → Prop} [DecidablePred P]
    {depth : Nat} (h : document.throughout P depth = true) : document.Throughout P := by
  intro part hpart spot hspot
  exact Holder.throughout_sound
    (List.all_eq_true.mp (List.all_eq_true.mp h part hpart) spot hspot)

def Api.Holder.isVariant : Holder → Bool
  | .type (.variant _) => true
  | _ => false

def Api.Holder.Separate (holder : Holder) : Prop :=
  holder.isVariant ∨ Apart (spelled holder.parts)

instance : DecidablePred Api.Holder.Separate := fun _ => inferInstanceAs (Decidable (_ ∨ _))

/-- In all parts of a description, names and positions are told apart. -/
structure Api.Document.Spread (document : Document) : Prop where
  apart : Apart (spelled document.parts)
  below : document.Throughout Holder.Separate

theorem apart_alternatives (options : List TypeExpr) :
    Apart (spelled (Holder.type (.variant options)).parts) := by
  have hspelled : spelled (Holder.type (.variant options)).parts =
      options.zipIdx.map fun spot => (toString spot.2, spot.1.holders.map Prod.fst) := by
    simp [spelled, Holder.parts, Part.ofType]
  have digits {c : Char} (hc : c.isDigit = false) (index : Nat) : c ∉ (toString index).toList := by
    rw [Nat.toString_eq_ofList_toDigits, String.toList_ofList]
    exact not_mem_toDigits hc index
  rw [hspelled]
  refine ⟨?_, ?_, ?_⟩
  · have hnames : (options.zipIdx.map fun spot =>
        (toString spot.2, spot.1.holders.map Prod.fst)).map Prod.fst =
        (List.range' 0 options.length).map toString := by
      rw [List.map_map, ← List.zipIdx_map_snd 0 options, List.map_map]
      rfl
    rw [hnames]
    exact List.Nodup.map (fun _ _ => eq_of_toString_eq) List.nodup_range'
  · intro part hpart
    obtain ⟨⟨option, index⟩, -, rfl⟩ := List.mem_map.mp hpart
    exact digits (by decide) index
  · intro part hpart mark hmark hne other hother same
    obtain ⟨⟨option, index⟩, -, rfl⟩ := List.mem_map.mp hpart
    obtain ⟨⟨option', index'⟩, -, rfl⟩ := List.mem_map.mp hother
    obtain ⟨spot, hspot, rfl⟩ := List.mem_map.mp hmark
    rcases option.chains_holders.starts spot hspot with hempty | ⟨rest, hrest⟩
    · exact hne (String.toList_inj.mp hempty)
    · have hline : '_' ∉ (toString index').toList := digits (by decide) index'
      rw [← String.toList_inj, String.toList_append, hrest] at same
      rw [same] at hline
      exact hline (List.mem_append_right _ List.mem_cons_self)

theorem Api.Holder.Separate.apart {holder : Holder} (h : holder.Separate) :
    Apart (spelled holder.parts) := by
  rcases h with variant | apart
  · unfold isVariant at variant
    split at variant
    next options => exact apart_alternatives options
    · cases variant
  · exact apart

namespace Stands

variable {manual : Manual} {document : Document}

theorem throughout {P : Holder → Prop} (below : document.Throughout P) {place : Place}
    {holder : Holder} (h : Stands manual document place holder) : holder.Throughout P := by
  induction h with
  | entry hpart hspot => exact below _ hpart _ hspot
  | part _ hpart hspot ih =>
    obtain ⟨-, below⟩ := ih
    exact below _ hpart _ hspot

theorem apart (spread : document.Spread) {place : Place} {holder : Holder}
    (h : Stands manual document place holder) : Apart (spelled holder.parts) := by
  obtain ⟨own, -⟩ := h.throughout spread.below
  exact own.apart

theorem dotless_of_mem {parts : List Part} (apart : Apart (spelled parts))
    (chains : ∀ part ∈ parts, Chains part.spots) {part : Part} (hpart : part ∈ parts) {marks : String}
    {holder : Holder} (hspot : (marks, holder) ∈ part.spots) :
    '.' ∉ part.name.toList ++ marks.toList := by
  have hname := apart.dotless (part.name, part.spots.map (·.1)) (List.mem_map.mpr ⟨part, hpart, rfl⟩)
  have hmarks := (chains part hpart).dotless _ hspot
  exact fun h => (List.mem_append.mp h).elim hname hmarks

theorem toList_part (place : Place) (part : Part) (marks : String) :
    (place.name ++ "." ++ part.name ++ marks).toList =
      place.name.toList ++ '.' :: (part.name.toList ++ marks.toList) := by
  simp

/-- The name of a place says which place it is, and what stands there. -/
theorem unique (spread : document.Spread) {place place' : Place} {holder holder' : Holder}
    (h : Stands manual document place holder) (h' : Stands manual document place' holder')
    (same : place.name = place'.name) : place = place' ∧ holder = holder' := by
  -- Of a name, the last dot tells the place of the owner from the part.
  induction h generalizing place' holder' with
  | @entry part marks holder hpart hspot =>
    have hdot := dotless_of_mem spread.apart (fun _ => Document.chains_parts) hpart hspot
    cases h' with
    | entry hpart' hspot' =>
      obtain ⟨rfl, rfl⟩ := eq_of_spelled_eq spread.apart (fun _ => Document.chains_parts) hpart hpart'
        hspot hspot' same
      exact ⟨congrArg (Place.mk · _) same, rfl⟩
    | @part place' _ _ part' marks' =>
      rw [← String.toList_inj, toList_part, String.toList_append] at same
      rw [same] at hdot
      exact absurd (List.mem_append_right _ List.mem_cons_self) hdot
  | @part place owner stands part marks holder hpart hspot ih =>
    have apart := stands.apart spread
    have hdot := dotless_of_mem apart (fun _ => Holder.chains_parts) hpart hspot
    cases h' with
    | entry hpart' hspot' =>
      have hdot' := dotless_of_mem spread.apart (fun _ => Document.chains_parts) hpart' hspot'
      rw [← String.toList_inj, toList_part, String.toList_append] at same
      rw [← same] at hdot'
      exact absurd (List.mem_append_right _ List.mem_cons_self) hdot'
    | @part place' owner' stands' part' marks' _ hpart' hspot' =>
      have apart' := stands'.apart spread
      have hdot' := dotless_of_mem apart' (fun _ => Holder.chains_parts) hpart' hspot'
      rw [← String.toList_inj, toList_part, toList_part] at same
      obtain ⟨hplace, hspelled⟩ := eq_of_append_dot_eq hdot hdot' same
      obtain ⟨rfl, rfl⟩ := ih stands' (String.toList_inj.mp hplace)
      rw [← String.toList_append, ← String.toList_append, String.toList_inj] at hspelled
      obtain ⟨rfl, rfl⟩ := eq_of_spelled_eq apart (fun _ => Holder.chains_parts) hpart hpart' hspot
        hspot' hspelled
      refine ⟨congrArg (Place.mk · _) ?_, rfl⟩
      rw [← String.toList_inj, toList_part, toList_part, ← String.toList_append, hspelled,
        String.toList_append]

end Stands

end LuaStubs
