import LuaStubs.Json.Record
import LuaStubs.Proofs.Outcomes

/-! What is known of everything that is read. A property that a decoder gives to what it reads is
had by the items of a list, and by the fields of a record if it is had by what stands for absent
ones. -/

namespace LuaStubs.Json

open Outcome

variable {α : Type} {Q : α → Prop}

/-- Whatever is read has a property. -/
def Results (Q : α → Prop) (x : Except Failure (α × List Char)) : Prop :=
  ∀ a rest, x = .ok (a, rest) → Q a

namespace Results

variable {x : Except Failure (α × List Char)}

theorem of_error {e : Failure} : Results Q (.error e) :=
  fun _ _ h => nomatch h

theorem of_ok {a : α} {rest : List Char} (h : Q a) : Results Q (.ok (a, rest)) := by
  rintro _ _ same
  cases same
  exact h

theorem bind {β : Type} {y : Except Failure β} {f : β → Except Failure (α × List Char)}
    (h : ∀ b, y = .ok b → Results Q (f b)) : Results Q (y >>= f) := by
  intro a rest hread
  obtain ⟨b, hb, hf⟩ := bind_eq_ok.mp hread
  exact h b hb a rest hf

theorem map {β : Type} {R : β → Prop} {f : α → β} (h : Results Q x) (hf : ∀ a, Q a → R (f a)) :
    Results R (x.map fun (a, rest) => (f a, rest)) := by
  intro b rest hread
  obtain ⟨⟨a, _⟩, hx, same⟩ := map_eq_ok.mp hread
  cases same
  exact hf a (h a _ hx)

end Results

theorem results_refuse (expected : String) (s : List Char) : Results Q (refuse expected s) := by
  unfold refuse
  split
  · exact .of_error
  · exact .of_error
  · exact .bind fun _ _ => .of_error

theorem results_insideList {content : List Char → Reading α} {s : List Char}
    (h : Results Q (content s)) : Results Q (insideList content s) := by
  refine .bind fun (a, rest) hread => .bind fun rest' _ => ?_
  exact .of_ok (h a rest (mapError_eq_ok.mp hread))

theorem results_insideObject {content : List Char → Reading α} {s : List Char}
    (h : Results Q (content s)) : Results Q (insideObject content s) := by
  refine .bind fun (a, rest) hread => .bind fun rest' _ => ?_
  exact .of_ok (h a rest (mapError_eq_ok.mp hread))

theorem results_readItems {item : List Char → Reading α} (h : ∀ s, Results Q (item s)) (fuel : Nat)
    (first : Bool) (s : List Char) : Results (fun found => ∀ a ∈ found, Q a)
      (readItems item fuel first s) := by
  induction fuel generalizing first s with
  | zero => exact .of_error
  | succ fuel ih =>
    refine .bind fun (more, rest) _ => ?_
    cases more with
    | false =>
      exact .of_ok (List.forall_mem_nil _)
    | true =>
      refine .bind fun (a, rest) ha => .bind fun (others, rest) hothers => ?_
      exact .of_ok (List.forall_mem_cons.mpr ⟨h _ a _ ha, ih false _ others _ hothers⟩)

theorem results_readMembers {member : α → String → List Char → Reading α}
    (h : ∀ state key s, Q state → Results Q (member state key s)) (fuel : Nat) (first : Bool)
    {state : α} (hstate : Q state) (s : List Char) :
    Results Q (readMembers member fuel first state s) := by
  induction fuel generalizing first state s with
  | zero => exact .of_error
  | succ fuel ih =>
    refine .bind fun (key?, rest) _ => ?_
    cases key? with
    | none =>
      exact .of_ok hstate
    | some key =>
      refine .bind fun (state', rest') hmember => ?_
      exact ih false (h state key rest hstate state' rest' hmember) rest'

namespace Decoder

/-- Whatever the decoder reads has a property. -/
def Gives (Q : α → Prop) (decoder : Decoder α) : Prop :=
  ∀ limits s, Results Q (decoder.read limits s)

theorem gives_true (decoder : Decoder α) : decoder.Gives fun _ => True :=
  fun _ _ _ _ _ => trivial

theorem gives_list {item : Decoder α} (h : item.Gives Q) :
    (list item).Gives fun found => ∀ a ∈ found, Q a := by
  intro limits s
  simp only [list]
  split
  · split
    · exact .of_error
    · exact results_insideList (results_readItems (fun s => h _ s) _ _ _)
  · exact results_refuse _ _

theorem Gives.parse {decoder : Decoder α} (h : decoder.Gives Q) {source : String} {a : α}
    (hparse : decoder.parse source = .ok a) : Q a := by
  obtain ⟨⟨b, rest⟩, hread, hrest⟩ := bind_eq_ok.mp (mapError_eq_ok.mp hparse)
  have given : Q b := h _ _ b rest hread
  dsimp only at hrest
  split at hrest
  · cases hrest
    exact given
  · cases hrest

end Decoder

/-! Fields. -/

@[reducible]
def Properties : List Type → Type
  | [] => Unit
  | α :: αs => (α → Prop) × Properties αs

namespace Properties

def OfValues : {αs : List Type} → Properties αs → Values αs → Prop
  | [], _, _ => True
  | _ :: _, (P, properties), (a, values) => P a ∧ properties.OfValues values

def OfSlots : {αs : List Type} → Properties αs → Slots αs → Prop
  | [], _, _ => True
  | _ :: _, (P, properties), (slot, slots) => (∀ a ∈ slot, P a) ∧ properties.OfSlots slots

/-- What is read for the fields has their properties, and so has what stands for absent ones. -/
def OfFields : {αs : List Type} → Properties αs → Fields αs → Prop
  | [], _, .nil => True
  | _ :: _, (P, properties), .cons _ decoder absent others =>
    decoder.Gives P ∧ (∀ a ∈ absent, P a) ∧ properties.OfFields others

end Properties

namespace Fields

variable {αs : List Type} {fields : Fields αs} {properties : Properties αs}

theorem ofSlots_vacant (fields : Fields αs) (properties : Properties αs) :
    properties.OfSlots fields.vacant := by
  induction fields with
  | nil => trivial
  | cons key decoder absent others ih =>
    obtain ⟨P, properties⟩ := properties
    exact ⟨nofun, ih properties⟩

theorem results_readInto (h : properties.OfFields fields) (limits : Limits) (key : String)
    (s : List Char) {slots : Slots αs} (hslots : properties.OfSlots slots) :
    Results properties.OfSlots (fields.readInto limits key s slots) := by
  induction fields generalizing s with
  | nil =>
    exact .of_ok hslots
  | cons own decoder absent others ih =>
    obtain ⟨P, properties⟩ := properties
    obtain ⟨slot, slots⟩ := slots
    obtain ⟨hdecoder, -, hothers⟩ := h
    obtain ⟨hslot, hslots⟩ := hslots
    simp only [readInto]
    split
    · split
      · exact .of_error
      · refine .bind fun rest _ => .bind fun (a, rest) hread => ?_
        have ha : P a := hdecoder _ _ a rest hread
        exact .of_ok ⟨by simpa using ha, hslots⟩
    · refine .bind fun (slots', rest) hread => ?_
      exact .of_ok ⟨hslot, ih hothers s hslots slots' rest hread⟩

theorem ofValues_of_complete (h : properties.OfFields fields) {slots : Slots αs}
    (hslots : properties.OfSlots slots) {values : Values αs}
    (hcomplete : fields.complete slots = .ok values) : properties.OfValues values := by
  induction fields with
  | nil => trivial
  | cons own decoder absent others ih =>
    obtain ⟨P, properties⟩ := properties
    obtain ⟨slot, slots⟩ := slots
    obtain ⟨-, habsent, hothers⟩ := h
    obtain ⟨hslot, hslots⟩ := hslots
    rw [complete] at hcomplete
    split at hcomplete
    · cases hcomplete
    · rename_i a found
      obtain ⟨rest, hrest, same⟩ := bind_eq_ok.mp hcomplete
      cases same
      refine ⟨?_, ih hothers hslots hrest⟩
      rcases Option.or_eq_some_iff.mp found with found | ⟨-, found⟩
      · exact hslot a found
      · exact habsent a found

theorem results_readList (h : properties.OfFields fields) (limits : Limits) (index : Nat)
    (tooShort : String) (s : List Char) :
    Results properties.OfValues (fields.readList limits index tooShort s) := by
  induction fields generalizing index s with
  | nil => exact fun _ _ _ => trivial
  | cons own decoder absent others ih =>
    obtain ⟨P, properties⟩ := properties
    obtain ⟨hdecoder, habsent, hothers⟩ := h
    rw [readList]
    refine .bind fun (more, rest) _ => ?_
    cases more with
    | false =>
      cases absent with
      | none => exact .of_error
      | some a =>
        refine .bind fun (values, rest) hvalues => ?_
        exact .of_ok ⟨habsent a rfl, ih hothers _ _ values rest hvalues⟩
    | true =>
      refine .bind fun (a, rest) ha => .bind fun (values, rest) hvalues => ?_
      exact .of_ok ⟨hdecoder _ _ a _ ha, ih hothers _ _ values rest hvalues⟩

end Fields

/-! Records. -/

theorem Record.gives_decoder {record : Record α} {properties : Properties record.types}
    (h : properties.OfFields record.fields)
    (build : ∀ values, properties.OfValues values → Q (record.build values)) :
    record.decoder.Gives Q := by
  intro limits s
  have member (state : Slots record.types) (key : String) (s : List Char)
      (hstate : properties.OfSlots state) (limits : Limits) :
      Results properties.OfSlots (record.readMember limits state key s) := by
    unfold readMember
    split
    · exact Fields.results_readInto h limits key s hstate
    · refine .bind fun rest _ => .bind fun rest _ => ?_
      exact .of_ok hstate
  simp only [decoder, read]
  split
  · split
    · exact .of_error
    · exact (results_insideList (Fields.results_readList h _ _ _ _)).map build
  · split
    · exact .of_error
    · apply results_insideObject
      refine .bind fun (slots, rest) hslots => ?_
      have meets := results_readMembers (fun state key s hstate => member state key s hstate _) _ _
        (Fields.ofSlots_vacant record.fields properties) _ slots rest hslots
      cases complete : record.fields.complete slots with
      | error reason =>
        simp only [complete]
        exact .of_error
      | ok values =>
        simp only [complete]
        exact .of_ok (build values (Fields.ofValues_of_complete h meets complete))
  · exact results_refuse _ _

theorem OpenRecord.gives_decoder {record : OpenRecord α}
    (h : ∀ slots others a, record.complete slots others = .ok a → Q a) : record.decoder.Gives Q := by
  intro limits s
  simp only [decoder, read]
  split
  · split
    · exact .of_error
    · apply results_insideObject
      refine .bind fun ((slots, others), rest) _ => ?_
      cases complete : record.complete slots others.reverse with
      | error reason =>
        simp only [complete]
        exact .of_error
      | ok a =>
        simp only [complete]
        exact .of_ok (h slots _ a complete)
  · exact results_refuse _ _

end LuaStubs.Json
