import LuaStubs.Proofs.Lowering.Enough
import LuaStubs.Proofs.Tables.Reached

/-! A type that can be written can also be written on another backlog, if the tables can be declared
that have not been claimed there. Each of them takes one of the names that are left, and inside of
it all types are written as they have been written somewhere before. -/

namespace LuaStubs

namespace Emission

variable {α : Type}

/-- What a run gives somewhere, the run gives at any sufficient depth on each backlog on which
enough has been claimed. The known run is indexed by `none`, the others by their depth. -/
def Resumes (names base : List String) (room : Nat) (x : Option Nat → Emission α) : Prop :=
  ∀ b a b', x none b = .ok (a, b') → ∀ c : Backlog, base ⊆ c.names → c.room names ≤ room →
    ∃ c' : Backlog, c.names ⊆ c'.names ∧ ∃ least, ∀ depth, least ≤ depth → x (some depth) c = .ok (a, c')

theorem room_le_of_subset {names : List String} {c c' : Backlog} (more : c.names ⊆ c'.names) :
    c'.room names ≤ c.room names := by
  apply List.countP_mono_left
  intro name _ free
  rw [decide_eq_true_eq] at free ⊢
  exact fun claimed => free (more claimed)

theorem closed_resumes (names base : List String) (room : Nat) :
    @Closed (Option Nat) fun _ x => Resumes names base room x where
  pure a := by
    intro b a' b' h c _ _
    cases pure_eq_ok.mp h
    exact ⟨c, List.Subset.refl _, 0, fun _ _ => rfl⟩
  lift _ := by
    intro b a b' h c _ _
    obtain ⟨_, rfl, h⟩ := liftM_eq_ok.mp h
    cases h
    exact ⟨c, List.Subset.refl _, 0, fun _ _ => rfl⟩
  bind hx hf := by
    intro b r b' h c hbase hroom
    obtain ⟨a, b₁, hxa, hfa⟩ := bind_eq_ok.mp h
    obtain ⟨c₁, more, least, hx'⟩ := hx b a b₁ hxa c hbase hroom
    have hroom₁ := Nat.le_trans (room_le_of_subset more) hroom
    obtain ⟨c', more', least', hf'⟩ := hf a b₁ r b' hfa c₁ (List.Subset.trans hbase more) hroom₁
    refine ⟨c', List.Subset.trans more more', max least least', fun depth enough => ?_⟩
    exact (bind_of_ok (hx' depth (Nat.le_trans (Nat.le_max_left _ _) enough))).trans
      (hf' depth (Nat.le_trans (Nat.le_max_right _ _) enough))

end Emission

namespace Manual

open Emission

variable {manual : Manual} {names base : List String}

/-- The depth of the known run, or the depth of another one. -/
def level (known : Nat) (i : Option Nat) : Nat :=
  i.getD known

/-- The tables that are reached and not claimed have one of certain names and can be declared. -/
def Declarable (manual : Manual) (names base : List String) (site : Site) : Prop :=
  ∀ table, manual.Reaches base site table → table.name ∉ base →
    table.name ∈ names ∧ ∃ lines before after, manual.Writes table lines before after

theorem resumes_table {room depth : Nat} {linked : Bool} {shape : Api.Shape} {place : Place}
    (declarable : manual.Declarable names base ⟨.table shape, place⟩)
    (fields : ∀ less < room, ∀ known, ∀ inner : Site,
      manual.Declarable names base inner →
        Resumes names base less fun i => manual.lowerWithin (level known i) false inner.type inner.place) :
    Resumes names base room
      fun i => manual.lowerWithin (level (depth + 1) i) linked (.table shape) place := by
  intro b text b' h c hbase hroom
  obtain ⟨rfl, -⟩ := lowerTable_eq_ok h
  by_cases claimed : place.name ∈ c.names
  · refine ⟨c, List.Subset.refl _, 1, fun depth enough => ?_⟩
    obtain ⟨depth, rfl⟩ : ∃ less, depth = less + 1 := ⟨depth - 1, by omega⟩
    exact lowerTable_of_claimed claimed
  · have unclaimed : place.name ∉ base := fun hname => claimed (hbase hname)
    obtain ⟨hname, lines, before, after, known, writes⟩ :=
      declarable ⟨shape, place⟩ (.here ⟨shape, place⟩) unclaimed
    -- The fields are written as in the known run, with a name less that is free.
    have less := Nat.lt_of_lt_of_le (Backlog.room_claim_lt hname claimed) hroom
    have more : c.names ⊆ (c.claim place.name).2.names := fun name hname =>
      (Backlog.mem_names_claim place.name name c).mpr (.inr hname)
    have inside : ∀ inner ∈ fieldSites place (NamelessTable.fields ⟨shape, place⟩),
        manual.Declarable names base inner := fun inner isField table reaches =>
      declarable table (.field ⟨shape, place⟩ unclaimed isField reaches)
    have declared := @Closed.declareTable (Option Nat) _ (closed_resumes names base _) manual
      (fun i => manual.lowerWithin (level known i) false) place place.link _
      fun inner isField => fields _ less known inner (inside inner isField)
    obtain ⟨c', more', least, hdeclared⟩ := declared before lines after writes _
      (List.Subset.trans hbase more) (Nat.le_refl _)
    refine ⟨c'.defer (lines ++ [.blank]), List.Subset.trans more more', least + 1,
      fun depth enough => ?_⟩
    obtain ⟨depth, rfl⟩ : ∃ less, depth = less + 1 := ⟨depth - 1, by omega⟩
    have hlines := hdeclared depth (Nat.le_of_succ_le_succ enough)
    apply (lowerTable_of_unclaimed claimed).trans
    exact congrArg (Except.map _) hlines

theorem resumes_lowerWithin (room depth : Nat) (linked : Bool) (type : Api.TypeExpr) (place : Place)
    (declarable : manual.Declarable names base ⟨type, place⟩) :
    Resumes names base room fun i => manual.lowerWithin (level depth i) linked type place := by
  induction room using Nat.strongRecOn generalizing depth linked type place with
  | ind room fewer =>
    induction depth generalizing linked type place with
    | zero => exact fun b a b' h => absurd h throw_ne_ok
    | succ depth ih =>
      by_cases htable : ∃ shape, type = .table shape
      · obtain ⟨shape, rfl⟩ := htable
        exact resumes_table declarable fun less hless known inner hinner =>
          fewer less hless known false inner.type inner.place hinner
      · have noTable := not_exists.mp htable
        have next := @Closed.lowerWithin (Option Nat) _ (closed_resumes names base room) manual
          (level depth) linked type place noTable fun inner isPart =>
            ih false inner.type inner.place fun table reaches =>
              declarable table (.part noTable isPart reaches)
        intro b text b' h c hbase hroom
        obtain ⟨c', more, least, hnext⟩ := next b text b' h c hbase hroom
        refine ⟨c', more, least + 1, fun depth enough => ?_⟩
        obtain ⟨depth, rfl⟩ : ∃ less, depth = less + 1 := ⟨depth - 1, by omega⟩
        exact hnext depth (Nat.le_of_succ_le_succ enough)

/-- A type that has been written somewhere is written wherever its tables can be declared. -/
theorem exists_lower_of_lower {linked : Bool} {type : Api.TypeExpr} {place : Place}
    {b b' : Backlog} {text : String} (h : manual.lower linked type place b = .ok (text, b'))
    {c : Backlog} (declarable : manual.Declarable names c.names ⟨type, place⟩) :
    ∃ c', manual.lower linked type place c = .ok (text, c') := by
  obtain ⟨c', -, least, hresumed⟩ := resumes_lowerWithin (c.room names) _ linked type place declarable
    b text b' h c (List.Subset.refl _) (Nat.le_refl _)
  exact ⟨c', lower_of_lowerWithin (hresumed least (Nat.le_refl _))⟩

end Manual

end LuaStubs
