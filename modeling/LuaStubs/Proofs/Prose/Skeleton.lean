import LuaStubs.Proofs.Emission
import LuaStubs.Stub.Members

/-! What is left of lines without comments and remarks, and pairs of runs that leave the same. -/

namespace LuaStubs

/-- Induction on two lists whose entries are the same under some views of them. -/
@[elab_as_elim]
theorem map_eq_induction {α β κ : Type} {f : α → κ} {g : β → κ}
    {motive : (xs : List α) → (ys : List β) → xs.map f = ys.map g → Prop} (nil : motive [] [] rfl)
    (cons : ∀ {a b xs ys} (whole : (a :: xs).map f = (b :: ys).map g) (_ : f a = g b)
      (rest : xs.map f = ys.map g), motive xs ys rest → motive (a :: xs) (b :: ys) whole)
    {xs : List α} {ys : List β} (same : xs.map f = ys.map g) : motive xs ys same := by
  induction xs generalizing ys with
  | nil =>
    cases ys with
    | nil => exact nil
    | cons b ys => cases same
  | cons a xs ih =>
    cases ys with
    | nil => cases same
    | cons b ys =>
      obtain ⟨first, rest⟩ := List.cons.inj same
      exact cons same first rest (ih rest)

namespace Line

/-- A line without its remark; of a comment nothing is left. -/
def skeleton? : Line → Option Line
  | .comment _ => none
  | .parameter name optional type _ => some (.parameter name optional type .none)
  | .result type _ => some (.result type .none)
  | line => some line

def skeleton (lines : List Line) : List Line :=
  lines.filterMap skeleton?

theorem skeleton_append (lines others : List Line) :
    skeleton (lines ++ others) = skeleton lines ++ skeleton others :=
  List.filterMap_append

theorem skeleton_comments {α : Type} (text : α → String) (xs : List α) :
    skeleton (xs.map fun a => .comment (text a)) = [] := by
  induction xs with
  | nil => rfl
  | cons a rest ih => exact ih

/-- Two lists of lines that have the same skeleton. -/
def Alike (lines lines' : List Line) : Prop :=
  skeleton lines = skeleton lines'

theorem Alike.append {lines lines' others others' : List Line} (h : Alike lines lines')
    (hothers : Alike others others') : Alike (lines ++ others) (lines' ++ others') := by
  unfold Alike at *
  rw [skeleton_append, skeleton_append, h, hothers]

theorem Alike.cons {line line' : Line} {lines lines' : List Line} (h : Alike lines lines')
    (hline : line.skeleton? = line'.skeleton?) : Alike (line :: lines) (line' :: lines') := by
  unfold Alike skeleton at *
  rw [List.filterMap_cons, List.filterMap_cons, hline, h]

theorem Alike.refl (lines : List Line) : Alike lines lines := rfl

end Line

/-- Two backlogs with the same names and alike declarations. -/
structure Backlog.Alike (b b' : Backlog) : Prop where
  names : b.names = b'.names
  blocks : b.blocks.map Line.skeleton = b'.blocks.map Line.skeleton

theorem Backlog.Alike.refl (b : Backlog) : b.Alike b := ⟨rfl, rfl⟩

namespace Emission

variable {α β γ δ : Type}

/-- Two steps that, where both succeed, give related results and leave alike backlogs. -/
def Paired (Q : α → β → Prop) (x : Emission α) (y : Emission β) : Prop :=
  ∀ b b', b.Alike b' → ∀ r r', x b = .ok r → y b' = .ok r' → Q r.1 r'.1 ∧ r.2.Alike r'.2

variable {Q : α → β → Prop} {R : γ → δ → Prop}

theorem Paired.pure {a : α} {a' : β} (h : Q a a') : Paired Q (pure a) (pure a') := by
  intro b b' alike r r' hr hr'
  cases pure_eq_ok.mp hr
  cases pure_eq_ok.mp hr'
  exact ⟨h, alike⟩

theorem Paired.imp {Q' : α → β → Prop} {x : Emission α} {y : Emission β} (h : Paired Q x y)
    (himp : ∀ a a', Q a a' → Q' a a') : Paired Q' x y :=
  fun b b' alike r r' hr hr' => (h b b' alike r r' hr hr').imp_left (himp _ _)

theorem Paired.lift {e : Except StubError α} {e' : Except StubError β}
    (h : ∀ a a', e = .ok a → e' = .ok a' → Q a a') : Paired Q (liftM e) (liftM e') := by
  intro b b' alike r r' hr hr'
  obtain ⟨a, ha, rfl⟩ := liftM_eq_ok.mp hr
  obtain ⟨a', ha', rfl⟩ := liftM_eq_ok.mp hr'
  exact ⟨h a a' ha ha', alike⟩

theorem Paired.bind {x : Emission α} {y : Emission β} {f : α → Emission γ} {g : β → Emission δ}
    (h : Paired Q x y) (hrest : ∀ a a', Q a a' → Paired R (f a) (g a')) :
    Paired R (x >>= f) (y >>= g) := by
  intro b b' alike r r' hr hr'
  obtain ⟨a, c, hx, hf⟩ := bind_eq_ok.mp hr
  obtain ⟨a', c', hy, hg⟩ := bind_eq_ok.mp hr'
  obtain ⟨hq, alike'⟩ := h b b' alike (a, c) (a', c') hx hy
  exact hrest a a' hq c c' alike' r r' hf hg

theorem Paired.bind_pure {x : Emission α} {y : Emission β} {f : α → γ} {g : β → δ}
    (h : Paired Q x y) (hrest : ∀ a a', Q a a' → R (f a) (g a')) :
    Paired R (x >>= fun a => Pure.pure (f a)) (y >>= fun a => Pure.pure (g a)) := by
  apply h.bind
  intro a a' hq
  exact .pure (hrest a a' hq)

theorem Paired.lift_same {e e' : Except StubError α} (h : e = e') :
    Paired (· = ·) (liftM e : Emission α) (liftM e') := by
  apply Paired.lift
  intro a a' ha ha'
  rw [h, ha'] at ha
  cases ha
  rfl

theorem lift_bind (e : Except StubError α) (f : α → Except StubError γ) :
    (liftM (e >>= f) : Emission γ) = liftM e >>= fun a => liftM (f a) := by
  cases e with
  | error e => rfl
  | ok a => rfl

/-! Lists whose entries are the same under some view of them. -/

variable {κ : Type} {f : α → κ} {g : β → κ}

theorem paired_linesOf {step : α → Emission (List Line)} {step' : β → Emission (List Line)}
    {xs : List α} {ys : List β}
    (h : ∀ a a', f a = g a' → Paired Line.Alike (step a) (step' a')) (same : xs.map f = ys.map g) :
    Paired Line.Alike (linesOf step xs) (linesOf step' ys) := by
  induction same using map_eq_induction with
  | nil => exact .pure (.refl [])
  | cons _ first rest ih =>
    apply (h _ _ first).bind
    intro lines lines' hlines
    apply ih.bind_pure
    intro others others' hothers
    exact hlines.append hothers

theorem paired_eachFrom {ι : Type} {u : γ → ι} {v : δ → ι} {step : Nat → α → Emission γ}
    {step' : Nat → β → Emission δ} {xs : List α} {ys : List β} (index : Nat)
    (h : ∀ index a a', f a = g a' →
      Paired (fun c d => u c = v d) (step index a) (step' index a'))
    (same : xs.map f = ys.map g) :
    Paired (fun cs ds => cs.map u = ds.map v) (eachFrom step index xs) (eachFrom step' index ys) := by
  induction same using map_eq_induction generalizing index with
  | nil => exact .pure rfl
  | cons _ first rest ih =>
    apply (h index _ _ first).bind
    intro c d hcd
    apply (ih (index + 1)).bind_pure
    intro others others' hothers
    rw [List.map_cons, List.map_cons, hcd, hothers]

/-! The backlog. -/

theorem paired_claim (name : String) : Paired (· = ·) (claim name) (claim name) := by
  intro b b' alike r r' hr hr'
  cases hr
  cases hr'
  have hnames := alike.names
  unfold Backlog.claim
  rw [← hnames]
  split
  · exact ⟨rfl, alike⟩
  · exact ⟨rfl, rfl, alike.blocks⟩

theorem paired_defer {block block' : List Line} (h : Line.Alike block block') :
    Paired (fun _ _ => True) (defer block) (defer block') := by
  intro b b' alike r r' hr hr'
  cases hr
  cases hr'
  refine ⟨trivial, alike.names, ?_⟩
  change (b.blocks ++ [block]).map _ = (b'.blocks ++ [block']).map _
  rw [List.map_append, List.map_append, alike.blocks]
  exact congrArg (_ ++ [·]) h

end Emission

/-! Comments leave nothing. -/

namespace Manual

variable {manual : Manual} {lines : List Line}

theorem lines_of_comment {text : String} (h : manual.comment text = .ok lines) :
    lines = [] ∨ ∃ prepared, manual.prepare text.toList = .ok prepared ∧
      lines = (Text.lines prepared).map fun line => .comment (String.ofList line) := by
  unfold comment at h
  split at h
  · cases h
    exact .inl rfl
  · obtain ⟨prepared, hprepared, rfl⟩ := Outcome.map_eq_ok.mp h
    exact .inr ⟨prepared, hprepared, rfl⟩

theorem text_of_describe {doc : Api.Documentation} {link description : String}
    (h : manual.describe doc link description = .ok lines) :
    ∃ text, manual.overview doc link description = .ok text ∧ manual.comment text = .ok lines :=
  Outcome.bind_eq_ok.mp h

theorem remark_cases {description : String} {r : Remark × List Line}
    (h : manual.remark description = .ok r) :
    r = (.none, []) ∨
    (∃ lines, manual.comment description = .ok lines ∧ r = (.below, lines)) ∨
    (∃ text, manual.prepare description.toList = .ok text ∧ '\n' ∉ description.toList ∧
      r = (.inline (String.ofList text), [])) := by
  unfold remark at h
  split at h
  · cases h
    exact .inl rfl
  · split at h
    · obtain ⟨lines, hlines, rfl⟩ := Outcome.map_eq_ok.mp h
      exact .inr (.inl ⟨lines, hlines, rfl⟩)
    · rename_i single
      obtain ⟨text, htext, rfl⟩ := Outcome.map_eq_ok.mp h
      have hclear : '\n' ∉ description.toList := by simpa using single
      exact .inr (.inr ⟨text, htext, hclear, rfl⟩)

theorem skeleton_of_comment {text : String} (h : manual.comment text = .ok lines) :
    Line.skeleton lines = [] := by
  rcases lines_of_comment h with rfl | ⟨prepared, -, rfl⟩
  · rfl
  · exact Line.skeleton_comments _ _

theorem skeleton_of_describe {doc : Api.Documentation} {link description : String}
    (h : manual.describe doc link description = .ok lines) : Line.skeleton lines = [] := by
  obtain ⟨text, -, htext⟩ := text_of_describe h
  exact skeleton_of_comment htext

theorem skeleton_of_remark {description : String} {r : Remark × List Line}
    (h : manual.remark description = .ok r) : Line.skeleton r.2 = [] := by
  rcases remark_cases h with rfl | ⟨lines, hlines, rfl⟩ | ⟨text, -, -, rfl⟩
  · rfl
  · exact skeleton_of_comment hlines
  · rfl

end Manual

end LuaStubs
