import LuaStubs.Proofs.Lowering.Depth

/-! A type that is written within some depth is written in the same way within every larger one. -/

namespace LuaStubs

namespace Emission

variable {α β : Type}

/-- What a step does unless it says that a type has no end, another one does as well. -/
def Deepens (x y : Emission α) : Prop :=
  ∀ b, x b ≠ .error .endlessType → y b = x b

theorem Deepens.refl (x : Emission α) : Deepens x x := fun _ _ => rfl

theorem Deepens.trans {x y z : Emission α} (h : Deepens x y) (h' : Deepens y z) : Deepens x z := by
  intro b hne
  have hy := h b hne
  rw [h' b (by rwa [hy]), hy]

theorem Deepens.bind {x y : Emission α} {f g : α → Emission β} (h : Deepens x y)
    (hrest : ∀ a, Deepens (f a) (g a)) : Deepens (x >>= f) (y >>= g) := by
  intro b hne
  cases hx : x b with
  | error e =>
    rw [bind_of_error hx] at hne
    have hsame : (Except.error e : Except StubError (α × Backlog)) ≠ .error .endlessType := by
      intro same
      cases same
      exact hne rfl
    have hy : y b = .error e := by
      rw [h b (by rwa [hx]), hx]
    rw [bind_of_error hx, bind_of_error hy]
  | ok r =>
    obtain ⟨a, b'⟩ := r
    rw [bind_of_ok hx] at hne
    have hy : y b = .ok (a, b') := by
      rw [h b (by rw [hx]; simp), hx]
    rw [bind_of_ok hx, bind_of_ok hy]
    exact hrest a b' hne

theorem closed_deepens : @Closed Bool fun _ x => Deepens (x true) (x false) where
  pure a := .refl (pure a)
  lift _ := .refl _
  bind := .bind

end Emission

namespace Manual

open Emission

variable {manual : Manual} {fieldType fieldType' : FieldType}

theorem deepens_lowerTable (h : ∀ type place, Deepens (fieldType type place) (fieldType' type place))
    (shape : Api.Shape) (place : Place) :
    Deepens (manual.lowerTable fieldType shape place)
      (manual.lowerTable fieldType' shape place) := by
  refine (Deepens.refl (claim place.name)).bind fun claimed => ?_
  cases claimed with
  | false => exact .refl _
  | true =>
    have fields := @Closed.declareTable Bool _ closed_deepens manual
      (fun i => cond i fieldType fieldType') place place.link
      (TableField.all appliesTo shape.parameters shape.groups) fun site _ => h site.type site.place
    exact fields.bind fun lines => .refl _

theorem deepens_lowerWithin_succ (depth : Nat) (linked : Bool) (type : Api.TypeExpr) (place : Place) :
    Deepens (manual.lowerWithin depth linked type place)
      (manual.lowerWithin (depth + 1) linked type place) := by
  induction depth generalizing linked type place with
  | zero => exact fun b hne => absurd rfl hne
  | succ depth ih =>
    by_cases htable : ∃ shape, type = .table shape
    · obtain ⟨shape, rfl⟩ := htable
      exact deepens_lowerTable (ih false) shape place
    · exact @Closed.lowerWithin Bool _ closed_deepens manual (fun i => cond i depth (depth + 1))
        linked type place (not_exists.mp htable) fun inner _ => ih false inner.type inner.place

theorem deepens_lowerWithin {depth depth' : Nat} (more : depth ≤ depth') (linked : Bool)
    (type : Api.TypeExpr) (place : Place) :
    Deepens (manual.lowerWithin depth linked type place)
      (manual.lowerWithin depth' linked type place) := by
  induction more with
  | refl => exact .refl _
  | step _ ih => exact ih.trans (deepens_lowerWithin_succ _ linked type place)

/-- The writing of a type does not depend on the depth, from a certain depth on. -/
theorem lowerWithin_eq_lower (acyclic : Acyclic manual.catalog.elements) {depth : Nat} {linked : Bool}
    {type : Api.TypeExpr} (enough : manual.catalog.depthFor type ≤ depth) (place : Place)
    (b : Backlog) :
    manual.lowerWithin depth linked type place b = manual.lower linked type place b :=
  deepens_lowerWithin enough linked type place b (lower_ne_endless acyclic linked type place b)

end Manual

end LuaStubs
