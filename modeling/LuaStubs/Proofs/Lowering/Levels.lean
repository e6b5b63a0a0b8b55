import LuaStubs.Proofs.Lowering.Form

/-! What is put together of steps, or of several runs of each of them at once, inherits their
properties; so a type that is no table inherits those of its parts, and a declaration those of the
fields. -/

namespace LuaStubs

/-! Texts and links have nothing to say about types. -/

section

variable {α β : Type} {e : Except StubError α}

theorem bind_ne_endless {f : α → Except StubError β} (he : e ≠ .error .endlessType)
    (hf : ∀ a, f a ≠ .error .endlessType) : (e >>= f) ≠ .error .endlessType := by
  intro h
  cases e with
  | error other =>
    cases h
    exact he rfl
  | ok a => exact hf a h

theorem map_ne_endless {f : α → β} (he : e ≠ .error .endlessType) :
    e.map f ≠ .error .endlessType := by
  intro h
  cases e with
  | error other =>
    cases h
    exact he rfl
  | ok a => cases h

end

namespace Manual

variable {manual : Manual}

theorem link_ne_endless (reference shown : String) :
    manual.link reference shown ≠ .error .endlessType := by
  have hpage : manual.page reference ≠ .error .endlessType := by
    unfold page
    cases manual.catalog.page? reference with
    | none => intro h; cases h
    | some page => intro h; cases h
  refine bind_ne_endless (bind_ne_endless hpage fun page => ?_) fun url => ?_
  · intro h; cases h
  · intro h; cases h

theorem typeName_ne_endless (linked : Bool) (name : String) :
    manual.typeName linked name ≠ .error .endlessType := by
  cases linked with
  | true => exact link_ne_endless name name
  | false => intro h; cases h

theorem typeNames_ne_endless (linked : Bool) (names : List String) :
    manual.typeNames linked names ≠ .error .endlessType := by
  induction names with
  | nil => intro h; cases h
  | cons name rest ih =>
    rw [typeNames, List.mapM_cons]
    refine bind_ne_endless (typeName_ne_endless linked name) fun text => bind_ne_endless ih fun others => ?_
    intro h
    cases h

theorem relinkPieces_ne_endless (ps : List Markdown.Piece) :
    manual.relinkPieces ps ≠ .error .endlessType := by
  induction ps with
  | nil => intro h; cases h
  | cons piece rest ih =>
    cases piece with
    | char c =>
      apply bind_ne_endless ih
      intro text h
      cases h
    | link display target =>
      have hlink : manual.relinked display target ≠ .error .endlessType := by
        unfold relinked
        split
        · intro h; cases h
        · split
          · intro h; cases h
          · exact map_ne_endless (link_ne_endless _ _)
      apply bind_ne_endless hlink
      intro link
      apply bind_ne_endless ih
      intro text h
      cases h

theorem prepareStretches_ne_endless (parts : List Markdown.Stretch) :
    manual.prepareStretches parts ≠ .error .endlessType := by
  induction parts with
  | nil => intro h; cases h
  | cons part rest ih =>
    cases part with
    | prose text =>
      apply bind_ne_endless (relinkPieces_ne_endless _)
      intro text
      apply bind_ne_endless ih
      intro others h
      cases h
    | code text =>
      apply bind_ne_endless ih
      intro others h
      cases h

theorem comment_ne_endless (text : String) : manual.comment text ≠ .error .endlessType := by
  unfold comment
  split
  · intro h; cases h
  · exact map_ne_endless (prepareStretches_ne_endless _)

end Manual

namespace Emission

/-- A property of the runs of a step, one for each index, that is kept when steps are put together.
The steps that do not write types are the same in all runs, and do not say that a type has no
end. -/
structure Closed {ι : Type} (P : ∀ α : Type, (ι → Emission α) → Prop) : Prop where
  pure {α : Type} (a : α) : P α fun _ => Pure.pure a
  lift {α : Type} {e : Except StubError α} (he : e ≠ .error .endlessType) : P α fun _ => liftM e
  bind {α β : Type} {x : ι → Emission α} {f : ι → α → Emission β} (hx : P α x)
    (hf : ∀ a, P β fun i => f i a) : P β fun i => x i >>= f i

namespace Closed

variable {ι α β : Type} {P : ∀ α : Type, (ι → Emission α) → Prop} (closed : Closed P)
include closed

theorem bind_pure {x : ι → Emission α} (hx : P α x) (f : α → β) :
    P β fun i => x i >>= fun a => Pure.pure (f a) :=
  closed.bind hx fun a => closed.pure (f a)

theorem lift_bind {e : Except StubError α} {f : ι → α → Emission β} (he : e ≠ .error .endlessType)
    (hf : ∀ a, e = .ok a → P β fun i => f i a) : P β fun i => liftM e >>= f i := by
  cases e with
  | error other =>
    have fails : (.error other : Except StubError β) ≠ .error .endlessType := by
      rintro ⟨⟩
      exact he rfl
    exact closed.lift fails
  | ok a => exact hf a rfl

theorem eachFrom {step : ι → Nat → α → Emission β} {index : Nat} {xs : List α}
    (hstep : ∀ entry ∈ xs.zipIdx index, P β fun i => step i entry.2 entry.1) :
    P (List β) fun i => Emission.eachFrom (step i) index xs := by
  induction xs generalizing index with
  | nil => exact closed.pure []
  | cons a rest ih =>
    rw [List.zipIdx_cons] at hstep
    obtain ⟨hfirst, hrest⟩ := List.forall_mem_cons.mp hstep
    exact closed.bind hfirst fun b => closed.bind_pure (ih hrest) _

theorem linesOf {step : ι → α → Emission (List Line)} {xs : List α}
    (hstep : ∀ a ∈ xs, P (List Line) fun i => step i a) :
    P (List Line) fun i => Emission.linesOf (step i) xs := by
  induction xs with
  | nil => exact closed.pure []
  | cons a rest ih =>
    obtain ⟨hfirst, hrest⟩ := List.forall_mem_cons.mp hstep
    exact closed.bind hfirst fun lines => closed.bind_pure (ih hrest) _

theorem declareTable {manual : Manual} {fieldType : ι → FieldType} {table : Place} {header : String}
    {fields : NameMap TableField}
    (hfields : ∀ site ∈ fieldSites table fields,
      P String fun i => fieldType i site.type site.place) :
    P (List Line) fun i => LuaStubs.declareTable manual (fieldType i) table header fields := by
  refine closed.lift_bind (Manual.comment_ne_endless _) fun comment _ =>
    closed.bind_pure (closed.linesOf fun entry hentry => ?_) _
  exact closed.lift_bind (Manual.comment_ne_endless _) fun comment _ =>
    closed.bind_pure (hfields _ (List.mem_map_of_mem hentry)) _

theorem lowerWithin {manual : Manual} {depth : ι → Nat} {linked : Bool} {type : Api.TypeExpr}
    {place : Place} (noTable : ∀ shape, type ≠ .table shape)
    (hparts : ∀ inner ∈ manual.parts ⟨type, place⟩,
      P String fun i => manual.lowerWithin (depth i) false inner.type inner.place) :
    P String fun i => manual.lowerWithin (depth i + 1) linked type place := by
  cases type.kind manual.catalog.elements with
  | table shape => exact absurd rfl (noTable shape)
  | concept found =>
    simp only [Manual.lowerWithin_concept found]
    refine closed.lift_bind (Manual.link_ne_endless _ _) fun link hlink => ?_
    rw [Manual.parts_concept found, List.forall_mem_singleton, Manual.linkTo_eq hlink] at hparts
    exact closed.bind hparts fun text =>
      closed.lift_bind (Manual.typeNames_ne_endless _ _) fun names _ => closed.pure _
  | composed composed =>
    simp only [Manual.lowerWithin_composed composed]
    rw [Manual.parts_composed composed, List.forall_mem_map] at hparts
    refine closed.lift_bind (Manual.typeNames_ne_endless _ _) fun names _ =>
      closed.bind_pure (closed.eachFrom fun entry hentry => ?_) _
    exact hparts _ (List.fst_mem_of_mem_zipIdx hentry)

end Closed

end Emission

end LuaStubs
