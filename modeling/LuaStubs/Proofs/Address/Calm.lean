import LuaStubs.Proofs.Address.Template

/-! Templates in which the address decides nothing about the links: what a link leads to begins with
the address, or there is no address in it. -/

namespace LuaStubs

namespace Template

/-- There is a hole before the end of the line. -/
def holeAhead : Template → Bool
  | [] => false
  | .hole :: _ => true
  | .char c :: t => c ≠ '\n' && holeAhead t

/-- What may stand where a link leads to. -/
def Settles (t : Template) : Prop :=
  t.head? = some .hole ∨ holeAhead t = false

/-- Each bracket and parenthesis that meet have an address behind them, or none on their line. -/
def Calm (t : Template) : Prop :=
  ∀ before after, t = before ++ .char ']' :: .char '(' :: after → Settles after

/-- Each closing bracket has something behind it that is no parenthesis, or the parenthesis and an
address. -/
def Tight (t : Template) : Prop :=
  ∀ before after, t = before ++ .char ']' :: after →
    (∃ slot rest, after = slot :: rest ∧ slot ≠ .char '(') ∨
      ∃ rest, after = .char '(' :: .hole :: rest

variable {s t : Template}

theorem holeAhead_of_not_mem (h : Slot.hole ∉ t) : holeAhead t = false := by
  induction t with
  | nil => rfl
  | cons slot t ih =>
    cases slot with
    | hole => exact absurd List.mem_cons_self h
    | char c => rw [holeAhead, ih fun hmem => h (List.mem_cons_of_mem _ hmem), Bool.and_false]

theorem holeAhead_of_mem {rest : Template} (line : .char '\n' ∉ t) (h : .hole ∈ t) :
    holeAhead (t ++ rest) = true := by
  induction t with
  | nil => cases h
  | cons slot t ih =>
    cases slot with
    | hole => rfl
    | char c =>
      have hc : c ≠ '\n' := fun same => line (same ▸ List.mem_cons_self)
      have hrest := ih (fun hmem => line (List.mem_cons_of_mem _ hmem)) (by simpa using h)
      simp [holeAhead, hc, hrest]

theorem hole_not_mem_literal (s : List Char) : Slot.hole ∉ literal s := by
  simp [literal]

theorem mem_literal {c : Char} {s : List Char} : Slot.char c ∈ literal s ↔ c ∈ s := by
  simp [literal]

theorem holeAhead_append : holeAhead (s ++ t) = true → holeAhead s = true ∨ holeAhead t = true := by
  induction s with
  | nil => exact .inr
  | cons slot s ih =>
    cases slot with
    | hole => exact fun _ => .inl rfl
    | char c =>
      intro h
      simp only [List.cons_append, holeAhead, Bool.and_eq_true] at h ⊢
      exact (ih h.2).imp_left fun hs => ⟨h.1, hs⟩

theorem holeAhead_left (h : holeAhead (s ++ t) = false) : holeAhead s = false := by
  induction s with
  | nil => rfl
  | cons slot s ih =>
    cases slot with
    | hole => cases h
    | char c =>
      simp only [List.cons_append, holeAhead, Bool.and_eq_false_iff] at h ⊢
      exact h.imp_right ih

theorem Settles.left (h : Settles (s ++ t)) : Settles s := by
  rcases h with h | h
  · cases s with
    | nil => exact .inr rfl
    | cons slot s => exact .inl h
  · exact .inr (holeAhead_left h)

/-! How calm templates are put together. -/

theorem calm_of_not_mem (h : Slot.hole ∉ t) : Calm t := by
  rintro before after rfl
  exact .inr (holeAhead_of_not_mem fun hmem => h (by simp [hmem]))

theorem calm_literal (s : List Char) : Calm (literal s) :=
  calm_of_not_mem (hole_not_mem_literal s)

theorem Calm.left (h : Calm (s ++ t)) : Calm s := by
  rintro before after rfl
  exact (h before (after ++ t) (by simp)).left

theorem Calm.right (h : Calm (s ++ t)) : Calm t := by
  rintro before after rfl
  exact h (s ++ before) after (by simp)

theorem Calm.append_line (hs : Calm s) (ht : Calm t) (line : t.head? = some (.char '\n')) :
    Calm (s ++ t) := by
  have hahead : holeAhead t = false := by
    obtain ⟨rest, rfl⟩ := List.head?_eq_some_iff.mp line
    rfl
  intro before after h
  rcases joint_of_append h with ⟨mid, hmid, rfl⟩ | ⟨mid, -, hmid⟩ | ⟨-, hhead⟩
  · rcases hs _ _ hmid with hhole | hnone
    · obtain ⟨rest, rfl⟩ := List.head?_eq_some_iff.mp hhole
      exact .inl rfl
    · refine .inr (Bool.eq_false_iff.mpr fun hboth => ?_)
      rcases holeAhead_append hboth with h | h
      · rw [h] at hnone
        cases hnone
      · rw [h] at hahead
        cases hahead
  · exact ht _ _ hmid
  · rw [line] at hhead
    cases hhead

theorem Tight.append_calm (hs : Tight s) (ht : Calm t) : Calm (s ++ t) := by
  intro before after h
  rcases joint_of_append h with ⟨mid, hmid, rfl⟩ | ⟨mid, -, hmid⟩ | ⟨hlast, -⟩
  · rcases hs _ _ hmid with ⟨slot, rest, hslot, hne⟩ | ⟨rest, hrest⟩
    · cases hslot
      exact absurd rfl hne
    · cases hrest
      exact .inl rfl
  · exact ht _ _ hmid
  · obtain ⟨init, rfl⟩ := List.getLast?_eq_some_iff.mp hlast
    rcases hs init [] rfl with ⟨slot, rest, hslot, -⟩ | ⟨rest, hrest⟩
    · cases hslot
    · cases hrest

theorem Tight.calm (h : Tight t) : Calm t := by
  have hcalm := h.append_calm (calm_literal [])
  rwa [literal, List.map_nil, List.append_nil] at hcalm

theorem tight_of_not_mem (h : Slot.char ']' ∉ t) : Tight t := by
  rintro before after rfl
  exact absurd (by simp) h

theorem Tight.append (hs : Tight s) (ht : Tight t) : Tight (s ++ t) := by
  intro before after h
  rcases List.append_eq_append_iff.mp h with ⟨mid, rfl, hmid⟩ | ⟨mid, hmid, hafter⟩
  · exact ht _ _ hmid
  · cases mid with
    | nil => exact ht [] after hafter.symm
    | cons slot mid =>
      cases hafter
      rcases hs before mid hmid with ⟨slot, rest, rfl, hne⟩ | ⟨rest, rfl⟩
      · exact .inl ⟨slot, rest ++ t, rfl, hne⟩
      · exact .inr ⟨rest ++ t, rfl⟩

theorem tight_literal {s : List Char} (h : ']' ∉ s) : Tight (literal s) :=
  tight_of_not_mem fun hmem => h (mem_literal.mp hmem)

def link (shown page : List Char) : Template :=
  literal ('[' :: shown) ++ (.char ']' :: .char '(' :: .hole :: literal (page ++ [')']))

theorem tight_link {shown page : List Char} (hshown : ']' ∉ shown) (hpage : ']' ∉ page) :
    Tight (link shown page) := by
  refine (tight_literal (by simp [hshown])).append ?_
  have hafter : Slot.char ']' ∉ Slot.char '(' :: .hole :: literal (page ++ [')']) := by
    simp [literal, hpage]
  intro before after h
  cases before with
  | nil =>
    cases h
    exact .inr ⟨_, rfl⟩
  | cons slot before =>
    have hrest := (List.cons.inj h).2
    rw [hrest] at hafter
    simp at hafter

/-- No address follows on the line of a link, whatever its page is. -/
theorem calm_link {shown : List Char} (hshown : ']' ∉ shown) (page : List Char) :
    Calm (link shown page) := by
  refine (tight_literal (by simp [hshown])).append_calm ?_
  intro before after h
  match before, h with
  | [], h =>
    cases h
    exact .inl rfl
  | [_], h => cases h
  | [_, _], h => cases h
  | _ :: _ :: _ :: before, h =>
    have hrest : literal (page ++ [')']) = before ++ .char ']' :: .char '(' :: after :=
      (List.cons.inj (List.cons.inj (List.cons.inj h).2).2).2
    exact calm_literal _ _ _ hrest

/-! Hard breaks. -/

theorem calm_cons_of_ne {slot : Slot} (h : slot ≠ .char ']') : Calm (slot :: t) ↔ Calm t := by
  constructor
  · exact fun calm => Calm.right (s := [slot]) calm
  · intro calm
    exact (tight_of_not_mem (t := [slot]) (by simpa [eq_comm] using h)).append_calm calm

theorem calm_bracket : Calm (.char ']' :: t) ↔
    (∀ rest, t = .char '(' :: rest → Settles rest) ∧ Calm t := by
  constructor
  · intro calm
    exact ⟨fun rest ht => calm [] rest (by rw [ht]; rfl), Calm.right (s := [.char ']']) calm⟩
  · rintro ⟨here, calm⟩ before after h
    cases before with
    | nil => exact here after (List.cons.inj h).2
    | cons slot before => exact calm before after (List.cons.inj h).2

/-- Breaks the lines of a template hard. -/
def hardBreaksAfter (inLine : Bool) : Template → Template
  | [] => []
  | .hole :: t => .hole :: hardBreaksAfter true t
  | .char c :: t =>
    if c = '\n' then
      if inLine && !t.isEmpty && t.head? != some (.char '\n') then
        .char ' ' :: .char ' ' :: .char '\n' :: hardBreaksAfter false t
      else .char '\n' :: hardBreaksAfter false t
    else .char c :: hardBreaksAfter true t

theorem head?_fill (t : Template) (a : Address) :
    (t.fill a.url.toList).head? = some '\n' ↔ t.head? = some (.char '\n') := by
  cases t with
  | nil => simp [fill]
  | cons slot t =>
    cases slot with
    | char c => simp [fill_cons, Slot.fill]
    | hole =>
      obtain ⟨c, rest, hurl, hc⟩ := a.exists_cons
      have hne : c ≠ '\n' := fun same => hc (same ▸ by decide)
      simp [fill_cons, Slot.fill, hurl, hne]

theorem fill_hardBreaksAfter (inLine : Bool) (t : Template) (a : Address) :
    fill a.url.toList (hardBreaksAfter inLine t)
      = Markdown.hardBreaksAfter inLine (fill a.url.toList t) := by
  induction t generalizing inLine with
  | nil => rfl
  | cons slot t ih =>
    cases slot with
    | hole =>
      rw [hardBreaksAfter, fill_cons, fill_cons, ih, Slot.fill,
        Markdown.hardBreaksAfter_append (a.not_mem (by decide)) a.url_ne]
    | char c =>
      have hempty : (fill a.url.toList t).isEmpty = t.isEmpty := by
        rw [Bool.eq_iff_iff, List.isEmpty_iff, List.isEmpty_iff, fill_eq_nil]
      have hhead : ((fill a.url.toList t).head? != some '\n') = (t.head? != some (.char '\n')) := by
        rw [Bool.eq_iff_iff, bne_iff_ne, bne_iff_ne]
        exact not_congr (head?_fill t a)
      rw [hardBreaksAfter, fill_cons, Slot.fill, List.singleton_append, Markdown.hardBreaksAfter,
        hempty, hhead, ← ih, ← ih]
      split
      · split
        · rfl
        · rfl
      · rfl

theorem holeAhead_hardBreaksAfter (inLine : Bool) (t : Template) :
    holeAhead (hardBreaksAfter inLine t) = holeAhead t := by
  induction t generalizing inLine with
  | nil => rfl
  | cons slot t ih =>
    cases slot with
    | hole => rfl
    | char c =>
      rw [hardBreaksAfter, holeAhead]
      split
      · rename_i hc
        subst hc
        split
        · rfl
        · rfl
      · rename_i hc
        rw [holeAhead, ih]

theorem settles_hardBreaksAfter (h : Settles t) (inLine : Bool) :
    Settles (hardBreaksAfter inLine t) := by
  rcases h with h | h
  · obtain ⟨rest, rfl⟩ := List.head?_eq_some_iff.mp h
    exact .inl rfl
  · exact .inr (by rw [holeAhead_hardBreaksAfter, h])

theorem eq_of_hardBreaksAfter_paren {inLine : Bool} {rest : Template}
    (h : hardBreaksAfter inLine t = .char '(' :: rest) :
    ∃ more, t = .char '(' :: more ∧ rest = hardBreaksAfter true more := by
  cases t with
  | nil => cases h
  | cons slot t =>
    cases slot with
    | hole => cases h
    | char c =>
      rw [hardBreaksAfter] at h
      split at h
      · split at h <;> cases h
      · cases h
        exact ⟨t, rfl, rfl⟩

theorem calm_hardBreaksAfter (h : Calm t) (inLine : Bool) : Calm (hardBreaksAfter inLine t) := by
  induction t generalizing inLine with
  | nil => exact h
  | cons slot t ih =>
    cases slot with
    | hole => exact (calm_cons_of_ne (by simp)).mpr (ih ((calm_cons_of_ne (by simp)).mp h) true)
    | char c =>
      have calm : Calm t := Calm.right (s := [.char c]) h
      rw [hardBreaksAfter]
      split
      · have broken : Calm (.char '\n' :: hardBreaksAfter false t) :=
          (calm_cons_of_ne (by simp)).mpr (ih calm false)
        split
        · exact (calm_cons_of_ne (by simp)).mpr ((calm_cons_of_ne (by simp)).mpr broken)
        · exact broken
      · by_cases hc : c = ']'
        · subst hc
          refine calm_bracket.mpr ⟨fun rest hrest => ?_, ih calm true⟩
          obtain ⟨more, rfl, rfl⟩ := eq_of_hardBreaksAfter_paren hrest
          exact settles_hardBreaksAfter ((calm_bracket.mp h).1 more rfl) true
        · exact (calm_cons_of_ne (by simpa using hc)).mpr (ih calm true)

end Template

end LuaStubs
