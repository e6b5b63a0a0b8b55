import LuaStubs.Proofs.Outcomes
import LuaStubs.Stub.Lowering

/-! How steps of a run succeed. A step that succeeds is made of parts that succeed, one on the
backlog that the other leaves. -/

namespace LuaStubs

namespace Emission

variable {α β : Type}

theorem pure_eq_ok {a : α} {b : Backlog} {r : α × Backlog} :
    (pure a : Emission α) b = .ok r ↔ r = (a, b) := by
  constructor
  · intro h
    cases h
    rfl
  · rintro rfl
    rfl

theorem bind_eq_ok {x : Emission α} {f : α → Emission β} {b : Backlog} {r : β × Backlog} :
    (x >>= f) b = .ok r ↔ ∃ a b', x b = .ok (a, b') ∧ f a b' = .ok r := by
  change (x b >>= fun (a, b') => f a b') = .ok r ↔ _
  rw [Outcome.bind_eq_ok]
  constructor
  · rintro ⟨⟨a, b'⟩, hx, hf⟩
    exact ⟨a, b', hx, hf⟩
  · rintro ⟨a, b', hx, hf⟩
    exact ⟨(a, b'), hx, hf⟩

theorem bind_of_ok {x : Emission α} {f : α → Emission β} {b b' : Backlog} {a : α}
    (h : x b = .ok (a, b')) : (x >>= f) b = f a b' := by
  change (x b >>= fun (a, b') => f a b') = f a b'
  rw [h]
  rfl

theorem bind_of_error {x : Emission α} {f : α → Emission β} {b : Backlog} {e : StubError}
    (h : x b = .error e) : (x >>= f) b = .error e := by
  change (x b >>= fun (a, b') => f a b') = .error e
  rw [h]
  rfl

theorem liftM_eq_ok {e : Except StubError α} {b : Backlog} {r : α × Backlog} :
    (liftM e : Emission α) b = .ok r ↔ ∃ a, e = .ok a ∧ r = (a, b) := by
  change (e >>= fun a => pure (a, b)) = .ok r ↔ _
  simp only [Outcome.bind_eq_ok, Outcome.pure_eq_ok]

theorem lift_bind_eq_ok {e : Except StubError α} {f : α → Emission β} {b : Backlog}
    {r : β × Backlog} : (liftM e >>= f) b = .ok r ↔ ∃ a, e = .ok a ∧ f a b = .ok r := by
  cases e with
  | error other =>
    constructor
    · intro h
      cases h
    · rintro ⟨a, h, -⟩
      cases h
  | ok a =>
    constructor
    · exact fun h => ⟨a, rfl, h⟩
    · rintro ⟨_, h, hf⟩
      cases h
      exact hf

theorem throw_ne_ok {e : StubError} {b : Backlog} {r : α × Backlog} :
    (throw e : Emission α) b ≠ .ok r := by
  intro h
  cases h

/-! What steps give, and what the declarations in the backlog have in common. -/

/-- A step gives what is asked for where it succeeds, and leaves declarations that have a property
if it finds such declarations. -/
def Gives (B : List Line → Prop) (Q : α → Prop) (x : Emission α) : Prop :=
  ∀ b, (∀ block ∈ b.blocks, B block) → ∀ r, x b = .ok r → Q r.1 ∧ ∀ block ∈ r.2.blocks, B block

variable {B : List Line → Prop} {Q : α → Prop} {R : β → Prop}

theorem Gives.pure {a : α} (h : Q a) : Gives B Q (pure a) := by
  intro b blocks r hr
  cases pure_eq_ok.mp hr
  exact ⟨h, blocks⟩

theorem Gives.lift {e : Except StubError α} (h : ∀ a, e = .ok a → Q a) : Gives B Q (liftM e) := by
  intro b blocks r hr
  obtain ⟨a, ha, rfl⟩ := liftM_eq_ok.mp hr
  exact ⟨h a ha, blocks⟩

theorem Gives.imp {Q' : α → Prop} {x : Emission α} (h : Gives B Q x) (himp : ∀ a, Q a → Q' a) :
    Gives B Q' x :=
  fun b blocks r hr => (h b blocks r hr).imp_left (himp _)

theorem Gives.bind {x : Emission α} {f : α → Emission β} (h : Gives B Q x)
    (hrest : ∀ a, Q a → Gives B R (f a)) : Gives B R (x >>= f) := by
  intro b blocks r hr
  obtain ⟨a, c, hx, hf⟩ := bind_eq_ok.mp hr
  obtain ⟨hq, blocks'⟩ := h b blocks (a, c) hx
  exact hrest a hq c blocks' r hf

theorem Gives.bind_pure {x : Emission α} {f : α → β} (h : Gives B Q x)
    (hrest : ∀ a, Q a → R (f a)) : Gives B R (x >>= fun a => Pure.pure (f a)) := by
  apply h.bind
  intro a hq
  exact .pure (hrest a hq)

theorem Gives.lift_bind {e : Except StubError α} {f : α → Emission β}
    (h : ∀ a, e = .ok a → Gives B R (f a)) : Gives B R (liftM e >>= f) :=
  (Gives.lift (Q := fun a => e = .ok a) fun _ ha => ha).bind h

/-- What each item gives is joined to what its followers give. -/
theorem Gives.linesOf {P : α → List Line → Prop} {Q : List α → List Line → Prop} (nil : Q [] [])
    (cons : ∀ a rest lines others, P a lines → Q rest others → Q (a :: rest) (lines ++ others))
    {step : α → Emission (List Line)} {xs : List α} (h : ∀ a ∈ xs, Gives B (P a) (step a)) :
    Gives B (Q xs) (linesOf step xs) := by
  induction xs with
  | nil => exact .pure nil
  | cons a rest ih =>
    obtain ⟨ha, hrest⟩ := List.forall_mem_cons.mp h
    apply ha.bind
    intro lines hlines
    apply (ih hrest).bind_pure
    intro others hothers
    exact cons a rest lines others hlines hothers

theorem gives_eachFrom {step : Nat → α → Emission β} {xs : List α} (index : Nat)
    (h : ∀ index, ∀ a ∈ xs, Gives B R (step index a)) :
    Gives B (fun found => ∀ b ∈ found, R b) (eachFrom step index xs) := by
  induction xs generalizing index with
  | nil => exact .pure (by simp)
  | cons a rest ih =>
    apply (h index a List.mem_cons_self).bind
    intro b hb
    apply (ih (index + 1) fun index a ha => h index a (List.mem_cons_of_mem _ ha)).bind_pure
    intro others hothers
    exact List.forall_mem_cons.mpr ⟨hb, hothers⟩

theorem gives_claim (name : String) : Gives B (fun _ => True) (claim name) := by
  intro b blocks r hr
  cases hr
  refine ⟨trivial, ?_⟩
  unfold Backlog.claim
  split
  · exact blocks
  · exact blocks

theorem gives_defer {block : List Line} (h : B block) : Gives B (fun _ => True) (defer block) := by
  intro b blocks r hr
  cases hr
  refine ⟨trivial, fun other hother => ?_⟩
  rcases List.mem_append.mp hother with hother | hother
  · exact blocks other hother
  · rw [List.mem_singleton.mp hother]
    exact h

end Emission

namespace Manual

variable {manual : Manual} {fieldType : FieldType} {shape : Api.Shape} {place : Place} {b : Backlog}

theorem lowerTable_of_claimed (h : place.name ∈ b.names) :
    manual.lowerTable fieldType shape place b = .ok (place.name, b) := by
  have hclaim : Emission.claim place.name b = .ok (false, b) := by
    simp [Emission.claim, Backlog.claim, h]
  exact Emission.bind_of_ok hclaim

theorem lowerTable_of_unclaimed (h : place.name ∉ b.names) :
    manual.lowerTable fieldType shape place b =
      ((declareTable manual fieldType place place.link
        (TableField.all appliesTo shape.parameters shape.groups) (b.claim place.name).2).map
          fun (lines, b') => (place.name, b'.defer (lines ++ [.blank]))) := by
  have hclaim : Emission.claim place.name b = .ok (true, (b.claim place.name).2) := by
    simp [Emission.claim, Backlog.claim, h]
  apply (Emission.bind_of_ok hclaim).trans
  cases hlines : declareTable manual fieldType place place.link
    (TableField.all appliesTo shape.parameters shape.groups) (b.claim place.name).2 with
  | error e => exact Emission.bind_of_error hlines
  | ok written => exact Emission.bind_of_ok hlines

/-- A table is passed if its name has been claimed, and declared otherwise. -/
theorem lowerTable_eq_ok {b' : Backlog} {s : String}
    (h : manual.lowerTable fieldType shape place b = .ok (s, b')) :
    s = place.name ∧
      ((place.name ∈ b.names ∧ b' = b) ∨
        (place.name ∉ b.names ∧ ∃ lines b₁,
          declareTable manual fieldType place place.link
            (TableField.all appliesTo shape.parameters shape.groups) (b.claim place.name).2
            = .ok (lines, b₁) ∧ b' = b₁.defer (lines ++ [.blank]))) := by
  by_cases claimed : place.name ∈ b.names
  · rw [lowerTable_of_claimed claimed] at h
    cases h
    exact ⟨rfl, .inl ⟨claimed, rfl⟩⟩
  · rw [lowerTable_of_unclaimed claimed] at h
    cases hlines : declareTable manual fieldType place place.link
      (TableField.all appliesTo shape.parameters shape.groups) (b.claim place.name).2 with
    | error e =>
      rw [hlines] at h
      cases h
    | ok written =>
      obtain ⟨lines, b₁⟩ := written
      rw [hlines] at h
      cases h
      exact ⟨rfl, .inr ⟨claimed, lines, b₁, rfl, rfl⟩⟩

end Manual

end LuaStubs
