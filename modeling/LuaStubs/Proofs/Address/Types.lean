import LuaStubs.Proofs.Address.Comments
import LuaStubs.Proofs.Lowering.Form

/-! Types at all addresses of a manual. A type is the same text at each address, unless its
outermost name is written as a link. -/

namespace LuaStubs

open Template

/-- Names and references do not end the text that a link shows. -/
def Word.Unbracketed : Word → Prop
  | .name text => ']' ∉ text.toList
  | .reference text => ']' ∉ text.toList
  | .label _ => True
  | .prose _ => True

instance : DecidablePred Word.Unbracketed
  | .name text => inferInstanceAs (Decidable (']' ∉ text.toList))
  | .reference text => inferInstanceAs (Decidable (']' ∉ text.toList))
  | .label _ => .isTrue trivial
  | .prose _ => .isTrue trivial

/-- Places with the same name, and links that are a calm template filled. -/
structure CalmPlace (place : Address → Place) : Prop where
  name : Fixed fun a => (place a).name
  link : CalmText fun a => (place a).link

theorem calmPlace_of_name (name : String) {link : Address → String} (h : CalmText link) :
    CalmPlace fun a => ⟨name, link a⟩ :=
  ⟨fixed_const name, h⟩

theorem CalmPlace.rename {place : Address → Place} (h : CalmPlace place) (f : String → String) :
    CalmPlace fun a => ⟨f (place a).name, (place a).link⟩ := by
  obtain ⟨name, hname⟩ := h.name
  exact ⟨⟨f name, funext fun a => congrArg f (congrFun hname a)⟩, h.link⟩

/-! Names of types, and the types that are written with them. -/

def Named : Bool → (Address → String) → Prop
  | true, x => TightText x
  | false, x => Fixed x

/-- What a type is written as: the same text at each address, perhaps behind links. -/
def Written : Bool → (Address → String) → Prop
  | true, x => ∃ front rest, TightText front ∧ x = fun a => front a ++ rest
  | false, x => Fixed x

theorem written_const (linked : Bool) (text : String) : Written linked fun _ => text := by
  cases linked with
  | false => exact fixed_const text
  | true => exact ⟨fun _ => "", text, tightText_const (by simp), by simp⟩

theorem Named.written {linked : Bool} {x : Address → String} (h : Named linked x) (rest : String) :
    Written linked fun a => x a ++ rest := by
  cases linked with
  | false =>
    obtain ⟨name, rfl⟩ := h
    exact fixed_const (name ++ rest)
  | true => exact ⟨x, rest, h, rfl⟩

theorem Named.append {linked : Bool} {x y : Address → String} (hx : Named linked x) (sep : String)
    (hsep : ']' ∉ sep.toList) (hy : Named linked y) : Named linked fun a => x a ++ sep ++ y a := by
  cases linked with
  | false =>
    obtain ⟨name, rfl⟩ := hx
    obtain ⟨other, rfl⟩ := hy
    exact fixed_const (name ++ sep ++ other)
  | true => exact (TightText.append hx (tightText_const hsep)).append hy

theorem named_empty (linked : Bool) : Named linked fun _ => "" := by
  cases linked with
  | false => exact fixed_const ""
  | true => exact tightText_const (by simp)

/-- What names in front of a type are written as. -/
def AllNamed (linked : Bool) (names : Address → List String) : Prop :=
  ∃ xs : List (Address → String), (∀ x ∈ xs, Named linked x) ∧ names = fun a => xs.map (· a)

theorem AllNamed.intercalate {linked : Bool} {names : Address → List String}
    (h : AllNamed linked names) : Named linked fun a => "<".intercalate (names a) := by
  obtain ⟨xs, hxs, rfl⟩ := h
  induction xs with
  | nil => exact named_empty linked
  | cons x rest ih =>
    obtain ⟨hx, hrest⟩ := List.forall_mem_cons.mp hxs
    cases rest with
    | nil => simpa using hx
    | cons y rest => simpa using hx.append "<" (by decide) (ih hrest)

namespace Catalog

variable (catalog : Catalog)

theorem agree_typeName (linked : Bool) (name : String) (h : linked = true → ']' ∉ name.toList) :
    Agree (Named linked) fun a => (catalog.manualAt a).typeName linked name := by
  cases linked with
  | false => exact .ok (fixed_const name)
  | true => exact agree_link_name catalog (h rfl)

theorem agree_typeNames (linked : Bool) (names : List String)
    (h : linked = true → ∀ name ∈ names, ']' ∉ name.toList) :
    Emission.Agree (AllNamed linked) fun a => liftM ((catalog.manualAt a).typeNames linked names) := by
  apply Emission.Agree.lift
  induction names with
  | nil => exact .ok ⟨[], List.forall_mem_nil _, rfl⟩
  | cons name rest ih =>
    simp only [Manual.typeNames, List.mapM_cons]
    apply (agree_typeName catalog linked name fun hlinked => h hlinked _ List.mem_cons_self).bind
    intro x hx
    apply (ih fun hlinked other hother => h hlinked other (List.mem_cons_of_mem _ hother)).bind
    rintro _ ⟨xs, hxs, rfl⟩
    exact .ok ⟨x :: xs, List.forall_mem_cons.mpr ⟨hx, hxs⟩, rfl⟩

/-! Tables. -/

section

variable {fieldType : Address → FieldType}
  (hType : ∀ type place, CalmPlace place →
    Emission.Agree Fixed fun a => fieldType a type (place a))
include hType

theorem agree_declareTable {table : Address → Place} (htable : CalmPlace table)
    {header : Address → String} (hheader : CalmText header) (fields : NameMap TableField) :
    Emission.Agree FilledLines fun a =>
      declareTable (catalog.manualAt a) (fieldType a) (table a) (header a) fields := by
  have hfield (entry : String × TableField) : Emission.Agree FilledLines fun a =>
      declareField (catalog.manualAt a) (fieldType a) (table a) entry := by
    obtain ⟨name, field⟩ := entry
    apply (Emission.Agree.lift (agree_brief catalog htable.link field.description)).bind
    intro comment hcomment
    apply (hType field.type _ (htable.rename (· ++ "." ++ name))).bind_pure
    rintro _ ⟨type, rfl⟩
    exact hcomment.above _
  obtain ⟨name, hname⟩ := htable.name
  have same (a : Address) : (table a).name = name := congrFun hname a
  unfold declareTable
  simp only [same]
  apply (Emission.Agree.lift (agree_comment catalog hheader)).bind
  intro comment hcomment
  apply (Emission.agree_linesOf fun entry _ => hfield entry).bind_pure
  intro lines hlines
  exact hcomment.append (hlines.below _)

theorem agree_lowerTable (shape : Api.Shape) {place : Address → Place} (hplace : CalmPlace place) :
    Emission.Agree Fixed fun a =>
      (catalog.manualAt a).lowerTable (fieldType a) shape (place a) := by
  obtain ⟨name, hname⟩ := hplace.name
  have same (a : Address) : (place a).name = name := congrFun hname a
  unfold Manual.lowerTable
  simp only [same]
  apply (Emission.agree_claim name).bind
  rintro _ ⟨claimed, rfl⟩
  cases claimed with
  | false => exact .pure (fixed_const name)
  | true =>
    apply (agree_declareTable catalog hType hplace hplace.link _).bind
    intro lines hlines
    apply (Emission.agree_defer (hlines.above [.blank])).bind_pure
    intro _ _
    exact fixed_const name

end

/-! Types. -/

theorem agree_lowerWithin (depth : Nat) (linked : Bool) (type : Api.TypeExpr)
    (words : linked = true → ∀ word ∈ type.words, word.Unbracketed) {place : Address → Place}
    (hplace : CalmPlace place) :
    Emission.Agree (Written linked) fun a =>
      (catalog.manualAt a).lowerWithin depth linked type (place a) := by
  induction depth generalizing linked type place with
  | zero => exact .throw .endlessType
  | succ depth ih =>
    have inner (type : Api.TypeExpr) (place : Address → Place) (hplace : CalmPlace place) :
        Emission.Agree Fixed fun a => (catalog.manualAt a).lowerWithin depth false type (place a) :=
      ih false type (by simp) hplace
    cases type.kind catalog.elements with
    | table shape =>
      apply (agree_lowerTable catalog inner shape hplace).imp
      rintro _ ⟨name, rfl⟩
      exact written_const linked name
    | @concept name element found =>
      have level (a : Address) :=
        @Manual.lowerWithin_concept (catalog.manualAt a) linked (place a) depth name element found
      have hnames (hlinked : linked = true) : ∀ other ∈ [name, "int"], ']' ∉ other.toList := by
        have hname : ']' ∉ name.toList := words hlinked _ List.mem_cons_self
        simpa using hname
      simp only [level]
      apply (Emission.Agree.lift (agree_view catalog name)).bind
      intro link hlink
      apply (inner element _ (calmPlace_of_name (name ++ "_elem") hlink)).bind
      rintro _ ⟨text, rfl⟩
      apply (agree_typeNames catalog linked _ hnames).bind_pure
      intro names hnames
      exact hnames.intercalate.written ("," ++ text ++ ">")
    | composed composed =>
      have level (a : Address) :=
        @Manual.lowerWithin_composed (catalog.manualAt a) linked type (place a) depth composed
      have hfront (hlinked : linked = true) (name : String) (hname : name ∈ type.front) :
          ']' ∉ name.toList := by
        rcases Api.TypeExpr.mem_front hname with rfl | hgeneric
        · exact words hlinked _ List.mem_cons_self
        · exact not_mem_genericNames (by decide) name hgeneric
      simp only [level]
      apply (agree_typeNames catalog linked _ hfront).bind
      intro names hnames
      apply (Emission.agree_eachFrom 0 fun _ entry _ =>
        inner entry.1 _ (hplace.rename (· ++ entry.2))).bind_pure
      rintro _ ⟨written, hwritten, rfl⟩
      obtain ⟨texts, htexts⟩ := fixed_each hwritten
      simp only [congrFun htexts]
      exact hnames.intercalate.written (type.frame texts)

theorem agree_lower (linked : Bool) (type : Api.TypeExpr)
    (words : linked = true → ∀ word ∈ type.words, word.Unbracketed) {place : Address → Place}
    (hplace : CalmPlace place) :
    Emission.Agree (Written linked) fun a => (catalog.manualAt a).lower linked type (place a) :=
  agree_lowerWithin catalog (catalog.depthFor type) linked type words hplace

theorem agree_lower_plain (type : Api.TypeExpr) {place : Address → Place}
    (hplace : CalmPlace place) :
    Emission.Agree Fixed fun a => (catalog.manualAt a).lower false type (place a) :=
  agree_lower catalog false type (by simp) hplace

end Catalog

end LuaStubs
