import LuaStubs.Proofs.Emission

/-! Exactly when a step succeeds. A step succeeds when what it needs is the case, and only then;
what it gives is known, so that the needs of a run are those of its steps. -/

namespace LuaStubs

/-- A result is there exactly when it is needed to be, and is as it should be. -/
structure Answers {α : Type} (needs : Prop) (gives : α → Prop) (e : Except StubError α) : Prop where
  runs : needs → ∃ a, e = .ok a
  result : ∀ a, e = .ok a → needs ∧ gives a

/-- The same for a step of a run, from any backlog; some errors are left out of the account. -/
structure Succeeds {α : Type} (excused : StubError → Prop) (needs : Prop) (gives : α → Prop)
    (x : Emission α) : Prop where
  runs : needs → ∀ b, (∃ r, x b = .ok r) ∨ ∃ e, excused e ∧ x b = .error e
  result : ∀ b a b', x b = .ok (a, b') → needs ∧ gives a

namespace Answers

variable {α β : Type} {P Q : Prop} {gives : α → Prop} {gives' : β → Prop}

theorem pure {a : α} (h : gives a) : Answers True gives (.ok a) := by
  refine ⟨fun _ => ⟨a, rfl⟩, fun a' h' => ?_⟩
  cases h'
  exact ⟨trivial, h⟩

theorem of_runs {e : Except StubError α} (h : ∃ a, e = .ok a) : Answers True (fun _ => True) e :=
  ⟨fun _ => h, fun _ _ => ⟨trivial, trivial⟩⟩

theorem congr {e : Except StubError α} (h : Answers P gives e) (same : P ↔ Q) : Answers Q gives e :=
  ⟨fun hq => h.runs (same.mpr hq), fun a ha => ⟨same.mp (h.result a ha).1, (h.result a ha).2⟩⟩

theorem bind {e : Except StubError α} {f : α → Except StubError β} (he : Answers P gives e)
    (hf : ∀ a, gives a → Answers Q gives' (f a)) : Answers (P ∧ Q) gives' (e >>= f) := by
  refine ⟨fun ⟨hp, hq⟩ => ?_, fun b h => ?_⟩
  · obtain ⟨a, rfl⟩ := he.runs hp
    exact (hf a (he.result a rfl).2).runs hq
  · cases e with
    | error other => cases h
    | ok a =>
      obtain ⟨hp, ha⟩ := he.result a rfl
      obtain ⟨hq, hb⟩ := (hf a ha).result b h
      exact ⟨⟨hp, hq⟩, hb⟩

theorem free_bind {e : Except StubError α} {f : α → Except StubError β}
    (he : Answers True gives e) (hf : ∀ a, gives a → Answers Q gives' (f a)) :
    Answers Q gives' (e >>= f) :=
  (he.bind hf).congr (iff_of_eq (true_and Q))

theorem bind_pure {e : Except StubError α} {f : α → β} (he : Answers P gives e)
    (hf : ∀ a, gives a → gives' (f a)) : Answers P gives' (e >>= fun a => .ok (f a)) :=
  (he.bind fun a ha => pure (hf a ha)).congr (iff_of_eq (and_true P))

theorem map {e : Except StubError α} {f : α → β} (he : Answers P gives e)
    (hf : ∀ a, gives a → gives' (f a)) : Answers P gives' (e.map f) := by
  have h : e.map f = e >>= fun a => .ok (f a) := by
    cases e with
    | error other => rfl
    | ok a => rfl
  rw [h]
  exact he.bind_pure hf

end Answers

namespace Succeeds

variable {α β : Type} {excused : StubError → Prop} {P Q : Prop} {gives : α → Prop}
  {gives' : β → Prop}

theorem pure {a : α} (h : gives a) : Succeeds excused True gives (pure a : Emission α) := by
  refine ⟨fun _ b => .inl ⟨(a, b), rfl⟩, fun b a' b' h' => ?_⟩
  cases Emission.pure_eq_ok.mp h'
  exact ⟨trivial, h⟩

theorem lift {e : Except StubError α} (he : Answers P gives e) :
    Succeeds excused P gives (liftM e : Emission α) := by
  constructor
  · intro hp b
    obtain ⟨a, ha⟩ := he.runs hp
    exact .inl ⟨(a, b), Emission.liftM_eq_ok.mpr ⟨a, ha, rfl⟩⟩
  · intro b a b' h
    obtain ⟨_, ha, h⟩ := Emission.liftM_eq_ok.mp h
    cases h
    exact he.result a ha

theorem congr {x : Emission α} (h : Succeeds excused P gives x) (same : P ↔ Q) :
    Succeeds excused Q gives x :=
  ⟨fun hq => h.runs (same.mpr hq),
    fun b a b' hx => ⟨same.mp (h.result b a b' hx).1, (h.result b a b' hx).2⟩⟩

theorem bind {x : Emission α} {f : α → Emission β} (hx : Succeeds excused P gives x)
    (hf : ∀ a, gives a → Succeeds excused Q gives' (f a)) :
    Succeeds excused (P ∧ Q) gives' (x >>= f) := by
  refine ⟨fun ⟨hp, hq⟩ b => ?_, fun b c b' h => ?_⟩
  · rcases hx.runs hp b with ⟨⟨a, b₁⟩, ha⟩ | ⟨e, he, herror⟩
    · rw [Emission.bind_of_ok ha]
      exact (hf a (hx.result b a b₁ ha).2).runs hq b₁
    · exact .inr ⟨e, he, Emission.bind_of_error herror⟩
  · obtain ⟨a, b₁, ha, hfa⟩ := Emission.bind_eq_ok.mp h
    obtain ⟨hp, hga⟩ := hx.result b a b₁ ha
    obtain ⟨hq, hc⟩ := (hf a hga).result b₁ c b' hfa
    exact ⟨⟨hp, hq⟩, hc⟩

theorem free_bind {x : Emission α} {f : α → Emission β} (hx : Succeeds excused True gives x)
    (hf : ∀ a, gives a → Succeeds excused Q gives' (f a)) :
    Succeeds excused Q gives' (x >>= f) :=
  (hx.bind hf).congr (iff_of_eq (true_and Q))

theorem bind_pure {x : Emission α} {f : α → β} (hx : Succeeds excused P gives x)
    (hf : ∀ a, gives a → gives' (f a)) :
    Succeeds excused P gives' (x >>= fun a => Pure.pure (f a)) :=
  (hx.bind fun a ha => pure (hf a ha)).congr (iff_of_eq (and_true P))

theorem linesOf {step : α → Emission (List Line)} {needs : α → Prop} {xs : List α}
    (hstep : ∀ a ∈ xs, Succeeds excused (needs a) (fun _ => True) (step a)) :
    Succeeds excused (∀ a ∈ xs, needs a) (fun _ => True) (Emission.linesOf step xs) := by
  induction xs with
  | nil => exact (pure trivial).congr (by simp)
  | cons a rest ih =>
    have hrest := ih fun b hb => hstep b (List.mem_cons_of_mem _ hb)
    apply ((hstep a List.mem_cons_self).bind fun lines _ =>
      hrest.bind_pure fun others _ => trivial).congr
    simp

/-- The needs of a step do not depend on the index of its item. -/
theorem eachFrom {step : Nat → α → Emission β} {needs : α → Prop} {index : Nat} {xs : List α}
    (hstep : ∀ index, ∀ a ∈ xs, Succeeds excused (needs a) gives' (step index a)) :
    Succeeds excused (∀ a ∈ xs, needs a) (fun bs => ∀ b ∈ bs, gives' b)
      (Emission.eachFrom step index xs) := by
  induction xs generalizing index with
  | nil => exact (pure (by simp)).congr (by simp)
  | cons a rest ih =>
    have hrest := @ih (index + 1) fun index b hb => hstep index b (List.mem_cons_of_mem _ hb)
    refine ((hstep index a List.mem_cons_self).bind fun b hb =>
      hrest.bind_pure fun others hothers => ?_).congr (by simp)
    exact List.forall_mem_cons.mpr ⟨hb, hothers⟩

theorem strict {x : Emission α} (h : Succeeds excused P gives x)
    (never : ∀ e, excused e → ∀ b, x b ≠ .error e) :
    Succeeds (fun _ => False) P gives x := by
  refine ⟨fun hp b => ?_, h.result⟩
  rcases h.runs hp b with hr | ⟨e, he, herror⟩
  · exact .inl hr
  · exact absurd herror (never e he b)

end Succeeds

end LuaStubs
