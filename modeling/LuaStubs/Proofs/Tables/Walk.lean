import LuaStubs.Proofs.Emission
import LuaStubs.Proofs.Tables.History

/-! Walks: writing the types at some sites one after the other, seen as a change of the backlog. A
walk goes through types that are no tables, passes tables whose names have been claimed, and
declares the others, which is a walk over their fields. -/

namespace LuaStubs

/-- The table is declared by these lines, its name having been claimed just before. -/
def Manual.Writes (manual : Manual) (table : NamelessTable) (lines : List Line)
    (before after : Backlog) : Prop :=
  ∃ depth, declareTable manual (manual.lowerWithin depth false) table.place table.place.link
    table.fields before = .ok (lines, after)

inductive Walk (manual : Manual) : List Site → Backlog → History → Backlog → Prop
  | done (b : Backlog) : Walk manual [] b .done b
  | through {site : Site} {rest : List Site} {b b' : Backlog} {h : History}
      (noTable : ∀ shape, site.type ≠ .table shape)
      (walk : Walk manual (manual.parts site ++ rest) b h b') :
      Walk manual (site :: rest) b h b'
  | again (table : NamelessTable) {rest : List Site} {b b' : Backlog} {h : History}
      (claimed : table.name ∈ b.names) (walk : Walk manual rest b h b') :
      Walk manual (table.site :: rest) b (.again table h) b'
  | first (table : NamelessTable) {rest : List Site} {b b₁ b' : Backlog} {lines : List Line}
      {inner later : History} (unclaimed : table.name ∉ b.names)
      (writes : manual.Writes table lines (b.claim table.name).2 b₁)
      (inside : Walk manual (fieldSites table.place table.fields) (b.claim table.name).2 inner b₁)
      (walk : Walk manual rest (b₁.defer (lines ++ [.blank])) later b') :
      Walk manual (table.site :: rest) b (.first table lines inner later) b'

namespace Walk

variable {manual : Manual}

theorem append {xs ys : List Site} {b b₁ b' : Backlog} {h h' : History}
    (hx : Walk manual xs b h b₁) (hy : Walk manual ys b₁ h' b') :
    Walk manual (xs ++ ys) b (h.append h') b' := by
  induction hx with
  | done b => exact hy
  | through noTable _ ih =>
    have walk := ih hy
    rw [List.append_assoc] at walk
    exact .through noTable walk
  | again table claimed _ ih => exact .again table claimed (ih hy)
  | first table unclaimed writes inside _ _ ih =>
    exact .first table unclaimed writes inside (ih hy)

/-- The names are claimed in the order in which the tables are reached first. -/
theorem names_eq {sites : List Site} {b b' : Backlog} {h : History}
    (walk : Walk manual sites b h b') : b'.names = b.names ++ h.claimed.map (·.name) := by
  induction walk with
  | done b => simp [History.claimed]
  | through _ _ ih => exact ih
  | again _ _ _ ih => exact ih
  | @first table _ b _ _ _ _ _ unclaimed _ _ _ hi hl =>
    have hclaim : (b.claim table.name).2.names = b.names ++ [table.name] := by
      simp [Backlog.claim, unclaimed]
    rw [hl, Backlog.defer, hi, hclaim]
    simp [History.claimed]

/-- The blocks are finished in the order of the declarations. -/
theorem blocks_eq {sites : List Site} {b b' : Backlog} {h : History}
    (walk : Walk manual sites b h b') :
    b'.blocks = b.blocks ++ h.declared.map fun (_, lines) => lines ++ [.blank] := by
  induction walk with
  | done b => simp [History.declared]
  | through _ _ ih => exact ih
  | again _ _ _ ih => exact ih
  | @first table _ b _ _ _ _ _ unclaimed _ _ _ hi hl =>
    have hclaim : (b.claim table.name).2.blocks = b.blocks := by
      simp [Backlog.claim, unclaimed]
    rw [hl, Backlog.defer, hi, hclaim]
    simp [History.declared]

theorem nodup_names {sites : List Site} {b b' : Backlog} {h : History}
    (walk : Walk manual sites b h b') (distinct : b.names.Nodup) : b'.names.Nodup := by
  induction walk with
  | done b => exact distinct
  | through _ _ ih => exact ih distinct
  | again _ _ _ ih => exact ih distinct
  | first _ _ _ _ _ hi hl => exact hl (hi (Backlog.nodup_names_claim distinct _))

theorem mem_names {sites : List Site} {b b' : Backlog} {h : History}
    (walk : Walk manual sites b h b') {name : String} (claimed : name ∈ b.names) :
    name ∈ b'.names := by
  rw [walk.names_eq]
  exact List.mem_append_left _ claimed

theorem name_mem_of_reached {sites : List Site} {b b' : Backlog} {h : History}
    (walk : Walk manual sites b h b') {table : NamelessTable} (reached : table ∈ h.reached) :
    table.name ∈ b'.names := by
  induction walk with
  | done b => cases reached
  | through _ _ ih => exact ih reached
  | again table' claimed walk ih =>
    rcases List.mem_cons.mp reached with rfl | reached
    · exact walk.mem_names claimed
    · exact ih reached
  | @first table' _ b _ _ _ _ _ _ _ inside walk hi hl =>
    rcases List.mem_cons.mp reached with rfl | reached
    · have own := (Backlog.mem_names_claim table.name table.name b).mpr (.inl rfl)
      exact walk.mem_names (inside.mem_names own)
    · rcases List.mem_append.mp reached with reached | reached
      · exact walk.mem_names (hi reached)
      · exact hl reached

theorem writes_of_declared {sites : List Site} {b b' : Backlog} {h : History}
    (walk : Walk manual sites b h b') {table : NamelessTable} {lines : List Line}
    (declared : (table, lines) ∈ h.declared) :
    ∃ before after, table.name ∈ before.names ∧ manual.Writes table lines before after := by
  induction walk with
  | done b => cases declared
  | through _ _ ih => exact ih declared
  | again _ _ _ ih => exact ih declared
  | @first table' _ _ b₁ _ _ _ _ _ writes _ _ hi hl =>
    rcases List.mem_append.mp declared with declared | declared
    · exact hi declared
    · rcases List.mem_cons.mp declared with same | declared
      · cases same
        exact ⟨_, b₁, (Backlog.mem_names_claim _ _ _).mpr (.inl rfl), writes⟩
      · exact hl declared

end Walk

namespace Emission

variable {manual : Manual} {α β : Type}

/-- A step, if it succeeds, changes the backlog as a walk over the sites does. -/
def Walks (manual : Manual) (x : Emission α) (sites : List Site) : Prop :=
  ∀ b a b', x b = .ok (a, b') → ∃ h, Walk manual sites b h b'

theorem walks_pure (a : α) : Walks manual (pure a) [] := by
  intro b a' b' h
  cases pure_eq_ok.mp h
  exact ⟨.done, .done b⟩

theorem walks_lift (e : Except StubError α) : Walks manual (liftM e) [] := by
  intro b a b' h
  obtain ⟨_, _, h⟩ := liftM_eq_ok.mp h
  cases h
  exact ⟨.done, .done b⟩

theorem walks_bind {x : Emission α} {f : α → Emission β} {xs ys : List Site}
    (hx : Walks manual x xs) (hf : ∀ a, Walks manual (f a) ys) :
    Walks manual (x >>= f) (xs ++ ys) := by
  intro b c b' h
  obtain ⟨a, b₁, hxa, hfa⟩ := bind_eq_ok.mp h
  obtain ⟨h₁, first⟩ := hx b a b₁ hxa
  obtain ⟨h₂, second⟩ := hf a b₁ c b' hfa
  exact ⟨h₁.append h₂, first.append second⟩

theorem walks_lift_bind {e : Except StubError α} {f : α → Emission β} {sites : List Site}
    (hf : ∀ a, e = .ok a → Walks manual (f a) sites) : Walks manual (liftM e >>= f) sites := by
  intro b c b' h
  obtain ⟨a, b₁, he, hfa⟩ := bind_eq_ok.mp h
  obtain ⟨_, ha, hb⟩ := liftM_eq_ok.mp he
  cases hb
  exact hf a ha b c b' hfa

theorem walks_site_bind {x : Emission α} {f : α → Emission β} {site : Site} {rest : List Site}
    (hx : Walks manual x [site]) (hf : ∀ a, Walks manual (f a) rest) :
    Walks manual (x >>= f) (site :: rest) :=
  walks_bind hx hf

theorem walks_bind_pure {x : Emission α} {f : α → β} {sites : List Site}
    (hx : Walks manual x sites) : Walks manual (x >>= fun a => pure (f a)) sites := by
  rw [← List.append_nil sites]
  exact walks_bind hx fun a => walks_pure (f a)

theorem walks_linesOf {step : α → Emission (List Line)} {sites : α → List Site}
    (hstep : ∀ a, Walks manual (step a) (sites a)) (xs : List α) :
    Walks manual (linesOf step xs) (xs.flatMap sites) := by
  induction xs with
  | nil => exact walks_pure []
  | cons a rest ih =>
    rw [List.flatMap_cons]
    exact walks_bind (hstep a) fun lines => walks_bind_pure ih

theorem walks_each {step : α → Emission β} {sites : α → List Site}
    (hstep : ∀ a, Walks manual (step a) (sites a)) (index : Nat) (xs : List α) :
    Walks manual (eachFrom (fun _ => step) index xs) (xs.flatMap sites) := by
  induction xs generalizing index with
  | nil => exact walks_pure []
  | cons a rest ih =>
    rw [List.flatMap_cons]
    exact walks_bind (hstep a) fun b => walks_bind_pure (ih (index + 1))

/-- A step for a type that is no table is a walk over the parts of the type. -/
theorem walks_through {x : Emission α} {site : Site} (noTable : ∀ shape, site.type ≠ .table shape)
    (hx : Walks manual x (manual.parts site)) : Walks manual x [site] := by
  intro b a b' h
  obtain ⟨history, walk⟩ := hx b a b' h
  rw [← List.append_nil (manual.parts site)] at walk
  exact ⟨history, .through noTable walk⟩

end Emission

end LuaStubs
