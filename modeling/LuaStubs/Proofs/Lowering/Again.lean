import LuaStubs.Proofs.Links.Shown
import LuaStubs.Proofs.Lowering.Levels
import LuaStubs.Proofs.Tables.Chronicle

/-! Writing a type again. What is written does not depend on what has been claimed before; the
backlog only grows; and once a type has been written, writing it again has no effect. -/

namespace LuaStubs

namespace Emission

variable {α : Type}

/-- Two steps give the same wherever both succeed, each on a backlog of its own. -/
def Concur (x y : Emission α) : Prop :=
  ∀ b c r r', x b = .ok r → y c = .ok r' → r.1 = r'.1

theorem closed_concur : @Closed Bool fun _ x => Concur (x true) (x false) where
  pure a := by
    intro b c r r' h h'
    rw [pure_eq_ok.mp h, pure_eq_ok.mp h']
  lift _ := by
    intro b c r r' h h'
    obtain ⟨a, rfl, rfl⟩ := liftM_eq_ok.mp h
    obtain ⟨_, same, rfl⟩ := liftM_eq_ok.mp h'
    cases same
    rfl
  bind hx hf := by
    intro b c r r' h h'
    obtain ⟨a, b', hxa, hfa⟩ := bind_eq_ok.mp h
    obtain ⟨a', c', hya, hga⟩ := bind_eq_ok.mp h'
    obtain rfl : a = a' := hx b c _ _ hxa hya
    exact hf a b' c' r r' hfa hga

/-- A step that succeeds anywhere does so on a certain backlog, which it leaves as it is. -/
def Rests (later : Backlog) (x : Emission α) : Prop :=
  ∀ b a b', x b = .ok (a, b') → x later = .ok (a, later)

theorem closed_rests (later : Backlog) : @Closed Unit fun _ x => Rests later (x ()) where
  pure a := by
    intro b a' b' h
    cases pure_eq_ok.mp h
    rfl
  lift _ := by
    intro b a b' h
    obtain ⟨_, rfl, h⟩ := liftM_eq_ok.mp h
    cases h
    rfl
  bind hx hf := by
    intro b c b' h
    obtain ⟨a, b₁, hxa, hfa⟩ := bind_eq_ok.mp h
    exact (bind_of_ok (hx b a b₁ hxa)).trans (hf a b₁ c b' hfa)

end Emission

namespace Manual

open Emission

variable {manual : Manual} {linked : Bool} {type : Api.TypeExpr} {place : Place}

/-- The text of a type does not depend on the backlog, nor on the depth. -/
theorem concur_lowerWithin (depth depth' : Nat) (linked : Bool) (type : Api.TypeExpr)
    (place : Place) :
    Concur (manual.lowerWithin depth linked type place)
      (manual.lowerWithin depth' linked type place) := by
  induction depth generalizing depth' linked type place with
  | zero => exact fun b c r r' h => absurd h throw_ne_ok
  | succ depth ih =>
    cases depth' with
    | zero => exact fun b c r r' _ h' => absurd h' throw_ne_ok
    | succ depth' =>
      by_cases htable : ∃ shape, type = .table shape
      · obtain ⟨shape, rfl⟩ := htable
        rintro b c ⟨text, b'⟩ ⟨text', c'⟩ h h'
        exact (lowerTable_eq_ok h).1.trans (lowerTable_eq_ok h').1.symm
      · exact @Closed.lowerWithin Bool _ closed_concur manual (fun i => cond i depth depth') linked
          type place (not_exists.mp htable) fun inner _ => ih depth' false inner.type inner.place

/-- Where all tables have been claimed that a type leads to, writing the type has no effect. -/
theorem rests_lowerWithin {later : Backlog} (depth : Nat)
    (claimed : ∀ table, manual.Passes ⟨type, place⟩ table → table.name ∈ later.names) :
    Rests later (manual.lowerWithin depth linked type place) := by
  induction depth generalizing linked type place with
  | zero => exact fun b a b' h => absurd h throw_ne_ok
  | succ depth ih =>
    by_cases htable : ∃ shape, type = .table shape
    · obtain ⟨shape, rfl⟩ := htable
      intro b text b' h
      obtain ⟨rfl, -⟩ := lowerTable_eq_ok h
      exact lowerTable_of_claimed (claimed _ (.here ⟨shape, place⟩))
    · have noTable := not_exists.mp htable
      exact @Closed.lowerWithin Unit _ (closed_rests later) manual (fun _ => depth) linked type place
        noTable fun inner hinner => ih fun table passes => claimed table (.part noTable hinner passes)

/-- What is known from one writing of a type about every other one. -/
structure Repeats (manual : Manual) (linked : Bool) (type : Api.TypeExpr) (place : Place)
    (b : Backlog) (text : String) (b' : Backlog) : Prop where
  /-- The text is the same, whatever has been claimed before. -/
  same : ∀ c other c', manual.lower linked type place c = .ok (other, c') → other = text
  /-- Names and declarations are added at the end. -/
  grows : ∃ names blocks, b'.names = b.names ++ names ∧ b'.blocks = b.blocks ++ blocks ∧
    b'.text = b.text ++ Line.renderAll blocks.flatten
  /-- Writing the type again, then or later, has no effect. -/
  rests : ∀ later : Backlog, b'.names ⊆ later.names →
    manual.lower linked type place later = .ok (text, later)
  /-- Without links the type is written in the same way, but for the links. -/
  plain : linked = true → ∃ plain, manual.lower false type place b = .ok (plain, b') ∧
    (manual.Unmarks type place → withoutLinks text = plain)

/-- Writing a type is repeatable. -/
theorem lower_repeats (manual : Manual) (linked : Bool) (type : Api.TypeExpr) (place : Place)
    (b : Backlog) (text : String) (b' : Backlog)
    (h : manual.lower linked type place b = .ok (text, b')) :
    manual.Repeats linked type place b text b' := by
  obtain ⟨history, walk⟩ := manual.walks_lower linked type place b text b' h
  refine ⟨fun c other c' hother => ?_, ?_, fun later hlater => ?_, fun hlinked => ?_⟩
  · exact concur_lowerWithin _ _ linked type place c b _ _ hother h
  · refine ⟨_, _, walk.names_eq, walk.blocks_eq, ?_⟩
    rw [Backlog.text, walk.blocks_eq, List.flatten_append, Line.renderAll_append]
    rfl
  · refine rests_lowerWithin _ (fun table passes => hlater ?_) b text b' h
    exact walk.name_mem_of_reached (walk.reached_of_passes List.mem_cons_self passes)
  · subst hlinked
    obtain ⟨plain, hplain, shows⟩ := shows_of_lowerWithin h
    refine ⟨plain, hplain, fun unmarks => ?_⟩
    have elements (concept : String) (element : Api.TypeExpr)
        (h : manual.catalog.elements.get? concept = some element) (name : String)
        (hname : name ∈ element.outerNames) : NoJoint name.toList :=
      noJoint_of_unmarked (unmarks.elements concept element h name hname)
    have noJoint := (spells_lowerWithin spellsTypes_noJoint elements _
      (fun name hname => noJoint_of_unmarked (unmarks.names name hname))
      (noJoint_of_unmarked unmarks.place) b (fun _ _ => trivial) _ hplain).1
    exact shows.withoutLinks_eq unmarks.base (unmarked_linkedNames unmarks) noJoint

def sharedManual : Manual where
  catalog := .ofEntries { sharedElements with builtins := [⟨"int", 0, ""⟩] } []
  baseUrl := "https://lua-api.factorio.com/latest/"

theorem lower_repeats_sharedElements :
    ∃ text b', sharedManual.lower true (.named "C") ⟨"e.t", ""⟩ .empty = .ok (text, b') ∧
      b'.names = ["C_elem", "C_elem.h"] ∧
      sharedManual.lower true (.named "C") ⟨"e.t", ""⟩ b' = .ok (text, b') ∧
      sharedManual.lower false (.named "C") ⟨"e.t", ""⟩ .empty = .ok ("C<int,C_elem>", b') ∧
      withoutLinks text = "C<int,C_elem>" := by
  have run : (sharedManual.lower true (.named "C") ⟨"e.t", ""⟩ .empty).toOption.map
      (fun r => (r.2.names, withoutLinks r.1)) =
      some (["C_elem", "C_elem.h"], "C<int,C_elem>") := by decide +kernel
  have unmarks : sharedManual.Unmarks (.named "C") ⟨"e.t", ""⟩ := by
    refine ⟨by decide, List.forall_mem_singleton.mpr (by decide), by decide, ?_⟩
    intro concept element helement
    obtain ⟨-, rfl⟩ := Prod.mk.inj (List.mem_singleton.mp (NameMap.mem_of_get? helement))
    exact List.forall_mem_nil _
  obtain ⟨⟨text, b'⟩, h, computed⟩ := Outcome.exists_of_toOption run
  obtain ⟨hnames, htext⟩ := Prod.mk.inj computed
  have repeats := lower_repeats sharedManual true (.named "C") ⟨"e.t", ""⟩ .empty text b' h
  obtain ⟨plain, hplain, same⟩ := repeats.plain rfl
  obtain rfl := (same unmarks).symm.trans htext
  exact ⟨text, b', h, hnames, repeats.rests b' (List.Subset.refl _), hplain, htext⟩

end Manual

end LuaStubs
