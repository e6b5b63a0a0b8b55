import LuaStubs.Proofs.Address.Template
import LuaStubs.Proofs.Run

/-! Runs at all addresses of a manual at once. They agree if they fail for the same reason or
succeed together, and what they leave in the backlog is then the same names, and a template that is
filled with the address. -/

namespace LuaStubs

open Template

/-- What is the same for all addresses. -/
def Fixed {α : Type} (y : Address → α) : Prop :=
  ∃ c, y = fun _ => c

theorem fixed_const {α : Type} (c : α) : Fixed fun _ => c :=
  ⟨c, rfl⟩

theorem fixed_each {α : Type} {ys : List (Address → α)} (h : ∀ y ∈ ys, Fixed y) :
    Fixed fun a => ys.map (· a) := by
  induction ys with
  | nil => exact fixed_const []
  | cons y ys ih =>
    obtain ⟨⟨c, rfl⟩, hrest⟩ := List.forall_mem_cons.mp h
    obtain ⟨cs, hcs⟩ := ih hrest
    exact ⟨c :: cs, funext fun a => congrArg (c :: ·) (congrFun hcs a)⟩

/-- Characters that are one template, filled with each address. -/
def FilledChars (x : Address → List Char) : Prop :=
  ∃ t : Template, ∀ a, x a = fill a.url.toList t

/-- Texts that are one template, filled with each address. -/
def Filled (x : Address → String) : Prop :=
  FilledChars fun a => (x a).toList

theorem FilledChars.append {x y : Address → List Char} (hx : FilledChars x) (hy : FilledChars y) :
    FilledChars fun a => x a ++ y a := by
  obtain ⟨s, hs⟩ := hx
  obtain ⟨t, ht⟩ := hy
  refine ⟨s ++ t, fun a => ?_⟩
  rw [fill_append, ← hs, ← ht]

theorem filledChars_const (s : List Char) : FilledChars fun _ => s :=
  ⟨literal s, fun _ => (fill_literal s).symm⟩

theorem filledChars_url : FilledChars fun a => a.url.toList :=
  ⟨[.hole], fun a => (List.append_nil a.url.toList).symm⟩

theorem filled_const (text : String) : Filled fun _ => text :=
  filledChars_const text.toList

theorem Filled.append {x y : Address → String} (hx : Filled x) (hy : Filled y) :
    Filled fun a => x a ++ y a := by
  unfold Filled
  simp only [String.toList_append]
  exact FilledChars.append hx hy

/-- Lines that are rendered as a template that is filled with the address. -/
def FilledLines (lines : Address → List Line) : Prop :=
  Filled fun a => Line.renderAll (lines a)

theorem filledLines_const (lines : List Line) : FilledLines fun _ => lines :=
  filled_const (Line.renderAll lines)

section

variable {lines others : Address → List Line}

theorem FilledLines.append (h : FilledLines lines) (hothers : FilledLines others) :
    FilledLines fun a => lines a ++ others a := by
  unfold FilledLines
  simp only [Line.renderAll_append]
  exact Filled.append h hothers

theorem FilledLines.cons (h : FilledLines lines) {line : Address → Line}
    (hline : Filled fun a => (line a).render) : FilledLines fun a => line a :: lines a :=
  Filled.append hline h

theorem FilledLines.below (h : FilledLines lines) (line : Line) :
    FilledLines fun a => line :: lines a :=
  h.cons (filled_const line.render)

theorem FilledLines.above (h : FilledLines lines) (last : List Line) :
    FilledLines fun a => lines a ++ last :=
  h.append (filledLines_const last)

end

/-! Outcomes, one for each address. -/

/-- All fail for one reason, or all succeed, with results of a kind. -/
def Agree {ε α : Type} (Q : (Address → α) → Prop) (x : Address → Except ε α) : Prop :=
  (∃ e, ∀ a, x a = .error e) ∨ ∃ y, Q y ∧ ∀ a, x a = .ok (y a)

section

variable {ε ε' α β : Type} {Q : (Address → α) → Prop} {R : (Address → β) → Prop}

theorem Agree.ok {y : Address → α} (h : Q y) : Agree Q fun a => (.ok (y a) : Except ε α) :=
  .inr ⟨y, h, fun _ => rfl⟩

theorem Agree.error (e : ε) : Agree Q fun _ => (.error e : Except ε α) :=
  .inl ⟨e, fun _ => rfl⟩

theorem Agree.bind {x : Address → Except ε α} {f : Address → α → Except ε β} (h : Agree Q x)
    (hrest : ∀ y, Q y → Agree R fun a => f a (y a)) : Agree R fun a => x a >>= f a := by
  have bind_of_ok {y : Address → α} (hx : ∀ a, x a = .ok (y a)) (a : Address) :
      x a >>= f a = f a (y a) := by
    rw [hx]
    rfl
  rcases h with ⟨e, hx⟩ | ⟨y, hy, hx⟩
  · exact .inl ⟨e, fun a => congrArg (· >>= f a) (hx a)⟩
  · rcases hrest y hy with ⟨e, hf⟩ | ⟨z, hz, hf⟩
    · exact .inl ⟨e, fun a => (bind_of_ok hx a).trans (hf a)⟩
    · exact .inr ⟨z, hz, fun a => (bind_of_ok hx a).trans (hf a)⟩

theorem Agree.map {x : Address → Except ε α} {f : Address → α → β} (h : Agree Q x)
    (hrest : ∀ y, Q y → R fun a => f a (y a)) : Agree R fun a => (x a).map (f a) := by
  rcases h with ⟨e, hx⟩ | ⟨y, hy, hx⟩
  · exact .inl ⟨e, fun a => congrArg (Except.map (f a)) (hx a)⟩
  · exact .inr ⟨_, hrest y hy, fun a => congrArg (Except.map (f a)) (hx a)⟩

theorem Agree.mapError {x : Address → Except ε α} (h : Agree Q x) (f : ε → ε') :
    Agree Q fun a => (x a).mapError f := by
  rcases h with ⟨e, hx⟩ | ⟨y, hy, hx⟩
  · exact .inl ⟨f e, fun a => congrArg (Except.mapError f) (hx a)⟩
  · exact .inr ⟨y, hy, fun a => congrArg (Except.mapError f) (hx a)⟩

theorem agree_const (x : Except ε α) : Agree Fixed fun _ => x := by
  cases x with
  | error e => exact .error e
  | ok c => exact .ok (fixed_const c)

end

/-- Backlogs with the same names, and with declarations that are a template filled. -/
structure Backlog.Filled (b : Address → Backlog) : Prop where
  names : Fixed fun a => (b a).names
  text : LuaStubs.Filled fun a => (b a).text

namespace Emission

variable {α β ι : Type} {Q : (Address → α) → Prop} {R : (Address → β) → Prop}

/-- Steps that agree on all such backlogs, and leave such backlogs. -/
def Agree (Q : (Address → α) → Prop) (x : Address → Emission α) : Prop :=
  ∀ b, Backlog.Filled b →
    LuaStubs.Agree (fun r : Address → α × Backlog =>
      Q (fun a => (r a).1) ∧ Backlog.Filled fun a => (r a).2) fun a => x a (b a)

theorem Agree.pure {y : Address → α} (h : Q y) : Agree Q fun a => pure (y a) :=
  fun b hb => .ok (y := fun a => (y a, b a)) ⟨h, hb⟩

theorem Agree.throw (e : StubError) : Agree Q fun _ => throw e :=
  fun _ _ => .error e

theorem Agree.lift {e : Address → Except StubError α} (h : LuaStubs.Agree Q e) :
    Agree Q fun a => liftM (e a) :=
  fun b hb => h.bind (f := fun a c => .ok (c, b a)) fun y hy =>
    .ok (y := fun a => (y a, b a)) ⟨hy, hb⟩

theorem Agree.bind {x : Address → Emission α} {f : Address → α → Emission β} (h : Agree Q x)
    (hrest : ∀ y, Q y → Agree R fun a => f a (y a)) : Agree R fun a => x a >>= f a :=
  fun b hb => (h b hb).bind (f := fun a r => f a r.1 r.2) fun r hr =>
    hrest (fun a => (r a).1) hr.1 (fun a => (r a).2) hr.2

theorem Agree.imp {x : Address → Emission α} {Q' : (Address → α) → Prop} (h : Agree Q x)
    (himp : ∀ y, Q y → Q' y) : Agree Q' x :=
  fun b hb => (h b hb).imp_right fun ⟨r, ⟨hr, hbacklog⟩, hx⟩ => ⟨r, ⟨himp _ hr, hbacklog⟩, hx⟩

theorem Agree.bind_pure {x : Address → Emission α} {f : Address → α → β} (h : Agree Q x)
    (hrest : ∀ y, Q y → R fun a => f a (y a)) :
    Agree R fun a => x a >>= fun r => Pure.pure (f a r) := by
  apply h.bind
  intro y hy
  exact .pure (hrest y hy)

theorem agree_linesOf {step : Address → ι → Emission (List Line)} {xs : List ι}
    (h : ∀ i ∈ xs, Agree FilledLines fun a => step a i) :
    Agree FilledLines fun a => linesOf (step a) xs := by
  induction xs with
  | nil => exact .pure (filledLines_const [])
  | cons i rest ih =>
    obtain ⟨hi, hrest⟩ := List.forall_mem_cons.mp h
    apply hi.bind
    intro lines hlines
    apply (ih hrest).bind_pure
    intro others hothers
    exact hlines.append hothers

theorem agree_eachFrom {step : Address → Nat → ι → Emission α} {xs : List ι} (index : Nat)
    (h : ∀ index, ∀ i ∈ xs, Agree Q fun a => step a index i) :
    Agree (fun found => ∃ ys : List (Address → α), (∀ y ∈ ys, Q y) ∧ found = fun a => ys.map (· a))
      fun a => eachFrom (step a) index xs := by
  induction xs generalizing index with
  | nil => exact .pure ⟨[], by simp, rfl⟩
  | cons i rest ih =>
    apply (h index i List.mem_cons_self).bind
    intro y hy
    apply (ih (index + 1) fun index i hi => h index i (List.mem_cons_of_mem _ hi)).bind_pure
    rintro _ ⟨ys, hys, rfl⟩
    exact ⟨y :: ys, List.forall_mem_cons.mpr ⟨hy, hys⟩, rfl⟩

theorem agree_claim (name : String) : Agree Fixed fun _ => claim name := by
  intro b hb
  obtain ⟨names, hnames⟩ := hb.names
  have same (a : Address) : (b a).names = names := congrFun hnames a
  have text := hb.text
  by_cases claimed : name ∈ names
  · refine .inr ⟨fun a => (false, b a), ⟨fixed_const false, hb⟩, fun a => ?_⟩
    simp [claim, Backlog.claim, same a, claimed]
  · refine .inr ⟨fun a => (true, ⟨names ++ [name], (b a).blocks⟩),
      ⟨fixed_const true, fixed_const _, text⟩, fun a => ?_⟩
    simp [claim, Backlog.claim, same a, claimed]

theorem agree_defer {block : Address → List Line} (h : FilledLines block) :
    Agree (fun _ => True) fun a => defer (block a) := by
  intro b hb
  refine .ok (y := fun a => ((), (b a).defer (block a))) ⟨trivial, hb.names, ?_⟩
  have htext (a : Address) :
      ((b a).defer (block a)).text = (b a).text ++ Line.renderAll (block a) := by
    unfold Backlog.text Backlog.defer
    rw [List.flatten_append, Line.renderAll_append, List.flatten_singleton]
  simp only [htext]
  exact hb.text.append h

end Emission

end LuaStubs
