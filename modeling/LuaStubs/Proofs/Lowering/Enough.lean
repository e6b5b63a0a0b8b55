import LuaStubs.Proofs.Lowering.Deeper
import LuaStubs.Proofs.Lowering.Levels
import LuaStubs.Proofs.Tables.Runs
import Mathlib.Logic.Relation

/-! The depth that is computed for a type is enough for every type that can be written at all. A run
that succeeds has passed through no concept that is reached from itself, so it keeps to the depth
that is enough where there are no such concepts. -/

namespace LuaStubs

variable {manual : Manual} {names : List String} {room : Nat}

/-! What succeeds has met no concept that is reached from itself. -/

theorem exists_part_of_types {types : List Api.TypeExpr} (places : Nat → Place) {name : String}
    (h : name ∈ outerNamesOfTypes types) :
    ∃ inner ∈ types.zipIdx.map (fun (type, index) => (⟨type, places index⟩ : Site)),
      name ∈ inner.type.outerNames := by
  obtain ⟨type, htype, hname⟩ : ∃ type ∈ types, name ∈ type.outerNames := by
    induction types with
    | nil => cases h
    | cons first rest ih =>
      rcases List.mem_append.mp h with h | h
      · exact ⟨first, List.mem_cons_self, h⟩
      · obtain ⟨type, htype, hname⟩ := ih h
        exact ⟨type, List.mem_cons_of_mem _ htype, hname⟩
  obtain ⟨index, hindex⟩ := List.getElem?_of_mem htype
  exact ⟨_, List.mem_map_of_mem (List.mk_mem_zipIdx_iff_getElem?.mpr hindex), hname⟩

theorem exists_part_of_outerName {site : Site} {name : String} (noName : ∀ n, site.type ≠ .named n)
    (h : name ∈ site.type.outerNames) : ∃ inner ∈ manual.parts site, name ∈ inner.type.outerNames := by
  obtain ⟨type, place⟩ := site
  cases type with
  | named n => exact absurd rfl (noName n)
  | array value => exact ⟨_, List.mem_cons_self, h⟩
  | dictionary key value =>
    rcases List.mem_append.mp h with h | h
    · exact ⟨⟨key, place.key⟩, List.mem_cons_self, h⟩
    · exact ⟨⟨value, place.value⟩, List.mem_cons_of_mem _ List.mem_cons_self, h⟩
  | variant options => exact exists_part_of_types place.option h
  | lazyLoaded value => exact ⟨_, List.mem_cons_self, h⟩
  | customTable key value =>
    rcases List.mem_append.mp h with h | h
    · exact ⟨⟨key, place.key⟩, List.mem_cons_self, h⟩
    · exact ⟨⟨value, place.value⟩, List.mem_cons_of_mem _ List.mem_cons_self, h⟩
  | table shape => cases h
  | function parameters => exact exists_part_of_types (fun index => place.parameter (index + 1)) h

/-- From no name outside of the tables does the way through the concepts go on for ever. -/
theorem Walk.acc_outerNames {sites : List Site} {b b' : Backlog} {h : History}
    (walk : Walk manual sites b h b') {site : Site} (isSite : site ∈ sites) {name : String}
    (hname : name ∈ site.type.outerNames) :
    Acc (Function.swap (Refers manual.catalog.elements)) name := by
  induction walk generalizing site name with
  | done b => cases isSite
  | @through own rest _ _ _ noTable _ ih =>
    rcases List.mem_cons.mp isSite with rfl | isSite
    · by_cases named : ∃ n, site.type = .named n
      · obtain ⟨n, hn⟩ := named
        obtain ⟨type, place⟩ := site
        subst hn
        rw [List.mem_singleton.mp hname]
        refine .intro _ fun other ⟨element, helement, hother⟩ => ?_
        have isPart : ⟨element, .element n (manual.linkTo n)⟩ ∈
            manual.parts ⟨.named n, place⟩ := by simp [Manual.parts, helement]
        exact ih (List.mem_append_left _ isPart) hother
      · obtain ⟨inner, hinner, hname⟩ :=
          @exists_part_of_outerName manual _ _ (not_exists.mp named) hname
        exact ih (List.mem_append_left _ hinner) hname
    · exact ih (List.mem_append_right _ isSite) hname
  | again table _ _ ih =>
    rcases List.mem_cons.mp isSite with rfl | isSite
    · cases hname
    · exact ih isSite hname
  | first table _ _ _ _ _ ih =>
    rcases List.mem_cons.mp isSite with rfl | isSite
    · cases hname
    · exact ih isSite hname

theorem not_transGen_of_acc {elements : NameMap Api.TypeExpr} {name : String}
    (acc : Acc (Function.swap (Refers elements)) name) :
    ¬ Relation.TransGen (Refers elements) name name := by
  rw [← acc_transGen_iff] at acc
  induction acc with
  | intro name _ ih => exact fun cycle => ih name (Relation.transGen_swap.mpr cycle) cycle

/-- A concept that is reached from itself is not written. -/
theorem Manual.noCycle_of_lowerWithin {depth : Nat} {linked : Bool} {name : String} {place : Place}
    {b : Backlog} {r : String × Backlog}
    (h : manual.lowerWithin depth linked (.named name) place b = .ok r) :
    ¬ Relation.TransGen (Refers manual.catalog.elements) name name := by
  obtain ⟨history, walk⟩ := manual.walks_lowerWithin depth linked (.named name) place b r.1 r.2 h
  exact not_transGen_of_acc (walk.acc_outerNames List.mem_cons_self List.mem_cons_self)

/-! A run that succeeds, and another one that follows it. -/

namespace Emission

variable {α β : Type}

/-- What the first step gives, the second one gives as well, and no names become free. -/
def Follows (names : List String) (room : Nat) (x y : Emission α) : Prop :=
  ∀ b, b.room names ≤ room → ∀ r, x b = .ok r → y b = .ok r ∧ r.2.room names ≤ room

theorem closed_follows (names : List String) (room : Nat) :
    @Closed Bool fun _ x => Follows names room (x true) (x false) where
  pure a := by
    intro b hb r h
    cases pure_eq_ok.mp h
    exact ⟨rfl, hb⟩
  lift _ := by
    intro b hb r h
    obtain ⟨a, rfl, rfl⟩ := liftM_eq_ok.mp h
    exact ⟨h, hb⟩
  bind hx hf := by
    intro b hb r h
    obtain ⟨a, b', hxa, hfa⟩ := bind_eq_ok.mp h
    obtain ⟨hya, hb'⟩ := hx b hb _ hxa
    obtain ⟨hga, hr⟩ := hf a b' hb' r hfa
    exact ⟨(bind_of_ok hya).trans hga, hr⟩

end Emission

namespace Manual

open Emission

theorem follows_lowerTable {fieldType fieldType' : FieldType} {shape : Api.Shape} {place : Place}
    (hname : place.name ∈ names)
    (hType : ∀ room', room = room' + 1 →
      ∀ site ∈ fieldSites place (TableField.all appliesTo shape.parameters shape.groups),
        Follows names room' (fieldType site.type site.place) (fieldType' site.type site.place)) :
    Follows names room (manual.lowerTable fieldType shape place)
      (manual.lowerTable fieldType' shape place) := by
  rintro b hb ⟨s, b'⟩ h
  by_cases claimed : place.name ∈ b.names
  · rw [lowerTable_of_claimed claimed] at h ⊢
    cases h
    exact ⟨rfl, hb⟩
  · have less := Backlog.room_claim_lt hname claimed
    obtain ⟨room', rfl⟩ : ∃ room', room = room' + 1 := ⟨room - 1, by omega⟩
    have fields := @Closed.declareTable Bool _ (closed_follows names room') manual
      (fun i => cond i fieldType fieldType') place place.link _ (hType room' rfl)
    obtain ⟨rfl, ⟨again, -⟩ | ⟨-, lines, b₁, hlines, rfl⟩⟩ := lowerTable_eq_ok h
    · exact absurd again claimed
    · obtain ⟨hlines', kept⟩ := fields (b.claim place.name).2 (by omega) _ hlines
      refine ⟨?_, Nat.le_succ_of_le kept⟩
      dsimp only [cond_false] at hlines'
      rw [lowerTable_of_unclaimed claimed, hlines']
      rfl

/-- What a run gives that succeeds, every run gives that has enough depth. -/
theorem follows_lowerWithin {height : Nat} (bounds : Bounds manual names height)
    {deep depth room : Nat} {linked : Bool} {type : Api.TypeExpr} {place : Place}
    (fits : Fits manual names height depth room ⟨type, place⟩) :
    Follows names room (manual.lowerWithin deep linked type place)
      (manual.lowerWithin depth linked type place) := by
  induction depth generalizing deep room linked type place with
  | zero => exact absurd fits Fits.not_zero
  | succ depth ih =>
    cases deep with
    | zero => exact fun b _ r h => absurd h throw_ne_ok
    | succ deep =>
      by_cases htable : ∃ shape, type = .table shape
      · obtain ⟨shape, rfl⟩ := htable
        apply follows_lowerTable fits.name_mem
        rintro room' rfl site hsite
        exact ih (fits.field hsite)
      · -- A run through a concept that is reached from itself does not succeed.
        by_cases cycle : ∃ n, type = .named n ∧
            Relation.TransGen (Refers manual.catalog.elements) n n
        · obtain ⟨n, rfl, cycle⟩ := cycle
          exact fun b _ r h => absurd cycle (noCycle_of_lowerWithin h)
        · have noCycle : ∀ n, type = .named n →
              ¬ Relation.TransGen (Refers manual.catalog.elements) n n :=
            fun n named reached => cycle ⟨n, named, reached⟩
          exact @Closed.lowerWithin Bool _ (closed_follows names room) manual
            (fun i => cond i deep depth) linked type place (not_exists.mp htable)
            fun inner hinner => ih (fits.part bounds noCycle hinner)

theorem lower_of_lowerWithin {depth : Nat} {linked : Bool} {type : Api.TypeExpr} {place : Place}
    {b : Backlog} {r : String × Backlog} (h : manual.lowerWithin depth linked type place b = .ok r) :
    manual.lower linked type place b = .ok r :=
  (follows_lowerWithin (manual.bounds_elementNames type place)
    (fits_depthFor place (Nat.le_refl _)) b (room_le type place b) r h).1

end Manual

end LuaStubs
