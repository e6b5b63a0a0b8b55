import LuaStubs.Proofs.Emission
import LuaStubs.Proofs.Tables.Sites
import LuaStubs.Proofs.Texts
import LuaStubs.Proofs.Vocabulary
import Mathlib.Data.List.Forall2

/-! The form of a written type. A table is called after its place; a name that stands for elements
is followed by the type of the elements; every other type is names, which may be links, and a frame
around the texts of the types inside. What all written types have in common is proved along these
three. -/

namespace LuaStubs

open Emission Text

namespace Api.TypeExpr

/-- The names in front of a type that does not stand for elements. -/
def front : TypeExpr → List String
  | .named name => [name]
  | .array _ => []
  | .dictionary _ _ => ["table"]
  | .variant _ => []
  | .lazyLoaded _ => ["LuaLazyLoadedValue"]
  | .customTable _ _ => ["LuaCustomTable"]
  | .table _ => []
  | .function _ => []

/-- The types inside a type, each with what its place adds to the name. -/
def inside : TypeExpr → List (TypeExpr × String)
  | .named _ => []
  | .array value => [(value, "")]
  | .dictionary key value => [(key, "_key"), (value, "_value")]
  | .variant options => options.zipIdx.map fun (option, index) => (option, "." ++ toString index)
  | .lazyLoaded value => [(value, "")]
  | .customTable key value => [(key, "_key"), (value, "_value")]
  | .table _ => []
  | .function parameters =>
    parameters.zipIdx.map fun (type, index) => (type, "_param" ++ toString (index + 1))

/-- The text behind the names, made of the texts of the types inside. -/
def frame : TypeExpr → List String → String
  | .named _, _ => ""
  | .array _, texts => ",".intercalate texts ++ "[]"
  | .dictionary _ _, texts => "<" ++ ",".intercalate texts ++ ">"
  | .variant _, texts => "|".intercalate texts
  | .lazyLoaded _, texts => "<" ++ ",".intercalate texts ++ ",nil>"
  | .customTable _ _, texts => "<" ++ ",".intercalate texts ++ ">"
  | .table _, _ => ""
  | .function _, texts => "fun(" ++ ",".intercalate
      (texts.zipIdx.map fun (text, index) => "param" ++ toString (index + 1) ++ ":" ++ text) ++ ")"

theorem front_cases (type : TypeExpr) : type.front = [] ∨ ∃ name, type.front = [name] := by
  cases type with
  | array | variant | table | function => exact .inl rfl
  | named | dictionary | lazyLoaded | customTable => exact .inr ⟨_, rfl⟩

theorem head?_frame {type : TypeExpr} (h : type.front ≠ []) (texts : List String) :
    (type.frame texts).toList.head? ≠ some '(' := by
  cases type with
  | array | variant | table | function => exact absurd rfl h
  | named | dictionary | lazyLoaded | customTable => simp [frame]

/-- A type that is written as its names and the types inside. -/
structure Composed (elements : NameMap TypeExpr) (type : TypeExpr) : Prop where
  noTable : ∀ shape, type ≠ .table shape
  noConcept : ∀ name, type = .named name → elements.get? name = none

inductive Kind (elements : NameMap TypeExpr) : TypeExpr → Prop
  | table (shape : Shape) : Kind elements (.table shape)
  | concept {name : String} {element : TypeExpr} (found : elements.get? name = some element) :
    Kind elements (.named name)
  | composed {type : TypeExpr} (composed : type.Composed elements) : Kind elements type

theorem kind (elements : NameMap TypeExpr) (type : TypeExpr) : type.Kind elements := by
  cases type with
  | named name =>
    cases found : elements.get? name with
    | none => exact .composed ⟨nofun, fun _ same => TypeExpr.named.inj same ▸ found⟩
    | some element => exact .concept found
  | table shape => exact .table shape
  | _ => exact .composed ⟨nofun, nofun⟩

/-- A change of types that changes the tables in them, and nothing else. -/
structure Reshapes (f : TypeExpr → TypeExpr) (g : Shape → Shape) : Prop where
  named (name : String) : f (.named name) = .named name
  array (value : TypeExpr) : f (.array value) = .array (f value)
  dictionary (key value : TypeExpr) : f (.dictionary key value) = .dictionary (f key) (f value)
  variant (options : List TypeExpr) : f (.variant options) = .variant (options.map f)
  lazyLoaded (value : TypeExpr) : f (.lazyLoaded value) = .lazyLoaded (f value)
  customTable (key value : TypeExpr) : f (.customTable key value) = .customTable (f key) (f value)
  table (shape : Shape) : f (.table shape) = .table (g shape)
  function (parameters : List TypeExpr) : f (.function parameters) = .function (parameters.map f)

namespace Reshapes

variable {f : TypeExpr → TypeExpr} {g : Shape → Shape} (reshapes : Reshapes f g)
  {elements elements' : NameMap TypeExpr}
include reshapes

theorem equations (type : TypeExpr) :
    (f type).front = type.front ∧ (f type).frame = type.frame ∧
      (f type).inside = type.inside.map fun (inner, mark) => (f inner, mark) := by
  have numbered (types : List TypeExpr) (mark : Nat → String) :
      ((types.map f).zipIdx.map fun (type, index) => (type, mark index)) =
        (types.zipIdx.map fun (type, index) => (type, mark index)).map
          fun (inner, mark) => (f inner, mark) := by
    rw [List.zipIdx_map, List.map_map, List.map_map]
    rfl
  cases type with
  | named name => rw [reshapes.named]; exact ⟨rfl, rfl, rfl⟩
  | array value => rw [reshapes.array]; exact ⟨rfl, rfl, rfl⟩
  | dictionary key value => rw [reshapes.dictionary]; exact ⟨rfl, rfl, rfl⟩
  | variant options => rw [reshapes.variant]; exact ⟨rfl, rfl, numbered options ("." ++ toString ·)⟩
  | lazyLoaded value => rw [reshapes.lazyLoaded]; exact ⟨rfl, rfl, rfl⟩
  | customTable key value => rw [reshapes.customTable]; exact ⟨rfl, rfl, rfl⟩
  | table shape => rw [reshapes.table]; exact ⟨rfl, rfl, rfl⟩
  | function parameters =>
    rw [reshapes.function]
    exact ⟨rfl, rfl, numbered parameters fun index => "_param" ++ toString (index + 1)⟩

theorem front (type : TypeExpr) : (f type).front = type.front := (reshapes.equations type).1

theorem frame (type : TypeExpr) : (f type).frame = type.frame := (reshapes.equations type).2.1

theorem inside (type : TypeExpr) :
    (f type).inside = type.inside.map fun (inner, mark) => (f inner, mark) :=
  (reshapes.equations type).2.2

theorem eq_named {type : TypeExpr} {name : String} (h : f type = .named name) :
    type = .named name := by
  cases type with
  | named other => rwa [reshapes.named] at h
  | _ => simp [reshapes.array, reshapes.dictionary, reshapes.variant, reshapes.lazyLoaded,
      reshapes.customTable, reshapes.table, reshapes.function] at h

theorem eq_table {type : TypeExpr} {shape : Shape} (h : f type = .table shape) :
    ∃ shape', type = .table shape' ∧ g shape' = shape := by
  cases type with
  | table shape' => exact ⟨shape', rfl, TypeExpr.table.inj ((reshapes.table shape').symm.trans h)⟩
  | _ => simp [reshapes.array, reshapes.dictionary, reshapes.variant, reshapes.lazyLoaded,
      reshapes.customTable, reshapes.named, reshapes.function] at h

theorem composed {type : TypeExpr} (composed : type.Composed elements)
    (same : ∀ name, elements.get? name = none → elements'.get? name = none) :
    (f type).Composed elements' where
  noTable shape is := by
    obtain ⟨shape', is, -⟩ := reshapes.eq_table is
    exact composed.noTable shape' is
  noConcept name is := same name (composed.noConcept name (reshapes.eq_named is))

theorem of_composed {type : TypeExpr} (composed : (f type).Composed elements) :
    type.Composed elements where
  noTable shape is := composed.noTable (g shape) (is ▸ reshapes.table shape)
  noConcept name is := composed.noConcept name (is ▸ reshapes.named name)

end Reshapes

end Api.TypeExpr

def Place.extend (place : Place) (mark : String) : Place :=
  ⟨place.name ++ mark, place.link⟩

namespace Place

variable (place : Place)

theorem extend_empty : place.extend "" = place := by
  rw [extend, String.append_empty]

theorem extend_key : place.extend "_key" = place.key := rfl

theorem extend_value : place.extend "_value" = place.value := rfl

theorem extend_option (index : Nat) : place.extend ("." ++ toString index) = place.option index := by
  rw [extend, option, String.append_assoc]

theorem extend_parameter (number : Nat) :
    place.extend ("_param" ++ toString number) = place.parameter number := by
  rw [extend, parameter, String.append_assoc]

end Place

namespace Emission

variable {α β γ : Type}

theorem eachFrom_map {f : α → β} {step : Nat → α → Emission γ} {step' : Nat → β → Emission γ}
    (h : ∀ index a, step' index (f a) = step index a) (index : Nat) (xs : List α) :
    eachFrom step' index (xs.map f) = eachFrom step index xs := by
  induction xs generalizing index with
  | nil => rfl
  | cons a rest ih => rw [List.map_cons, eachFrom, eachFrom, h, ih]

/-- The index that a step is given may stand beside the item. -/
theorem eachFrom_zipIdx (step : Nat → α → Emission β) (index start : Nat) (xs : List α) :
    eachFrom (fun _ (a, i) => step i a) start (xs.zipIdx index) = eachFrom step index xs := by
  induction xs generalizing index start with
  | nil => rfl
  | cons a rest ih => rw [List.zipIdx_cons, eachFrom, eachFrom, ih]

theorem eachFrom_eq_pure {step : Nat → α → Emission β} {f : α → β} {xs : List α}
    (h : ∀ index, ∀ a ∈ xs, step index a = pure (f a)) (index : Nat) :
    eachFrom step index xs = pure (xs.map f) := by
  induction xs generalizing index with
  | nil => rfl
  | cons a rest ih =>
    rw [eachFrom, h index a List.mem_cons_self, ih fun index a ha => h index a (List.mem_cons_of_mem _ ha)]
    rfl

theorem eachFrom_bind_pure (step : Nat → α → Emission β) (f : Nat → β → γ) (index : Nat)
    (xs : List α) :
    eachFrom (fun i a => step i a >>= fun b => pure (f i b)) index xs =
      eachFrom step index xs >>= fun bs => pure ((bs.zipIdx index).map fun (b, i) => f i b) := by
  induction xs generalizing index with
  | nil => rfl
  | cons a rest ih =>
    simp only [eachFrom, ih, bind_assoc, pure_bind]
    rfl

end Emission

namespace Manual

variable {manual : Manual} {linked : Bool} {type : Api.TypeExpr} {place : Place} {depth : Nat}
  {fieldType : FieldType}

/-- The names in front of a type as they are written. -/
def typeNames (manual : Manual) (linked : Bool) (names : List String) :
    Except StubError (List String) :=
  names.mapM (manual.typeName linked)

/-- The types inside another one, as they are written at its place. -/
def eachInside (fieldType : FieldType) (place : Place) (inside : List (Api.TypeExpr × String)) :
    Emission (List String) :=
  eachFrom (fun _ (inner, mark) => fieldType inner (place.extend mark)) 0 inside

theorem typeNames_nil : (liftM (manual.typeNames linked []) : Emission (List String)) = pure [] :=
  rfl

theorem typeNames_singleton (name : String) :
    (liftM (manual.typeNames linked [name]) : Emission (List String)) =
      liftM (manual.typeName linked name) >>= fun text => pure [text] := by
  simp only [typeNames, List.mapM_cons, List.mapM_nil]
  cases manual.typeName linked name <;> rfl

theorem typeNames_pair (name other : String) :
    (liftM (manual.typeNames linked [name, other]) : Emission (List String)) =
      liftM (manual.typeName linked name) >>= fun text =>
        liftM (manual.typeName linked other) >>= fun text' => pure [text, text'] := by
  simp only [typeNames, List.mapM_cons, List.mapM_nil]
  cases manual.typeName linked name <;> cases manual.typeName linked other <;> rfl

theorem eachInside_nil : eachInside fieldType place [] = pure [] := rfl

theorem eachInside_one (value : Api.TypeExpr) :
    eachInside fieldType place [(value, "")] = fieldType value place >>= fun text => pure [text] := by
  simp only [eachInside, eachFrom, Place.extend_empty, pure_bind]

theorem eachInside_pair (key value : Api.TypeExpr) :
    eachInside fieldType place [(key, "_key"), (value, "_value")] =
      fieldType key place.key >>= fun first =>
        fieldType value place.value >>= fun second => pure [first, second] := by
  simp only [eachInside, eachFrom, Place.extend_key, Place.extend_value, pure_bind, bind_assoc]

theorem eachInside_options (options : List Api.TypeExpr) :
    eachInside fieldType place (options.zipIdx.map fun (option, i) => (option, "." ++ toString i)) =
      eachFrom (fun i option => fieldType option (place.option i)) 0 options := by
  rw [← eachFrom_zipIdx _ 0 0]
  exact eachFrom_map (fun _ (_, _) => by simp only [Place.extend_option]) 0 options.zipIdx

theorem eachInside_parameters (parameters : List Api.TypeExpr) :
    eachInside fieldType place
        (parameters.zipIdx.map fun (type, i) => (type, "_param" ++ toString (i + 1))) =
      eachFrom (fun i type => fieldType type (place.parameter (i + 1))) 0 parameters := by
  rw [← eachFrom_zipIdx _ 0 0]
  exact eachFrom_map (fun _ (_, _) => by simp only [Place.extend_parameter]) 0 parameters.zipIdx

theorem lowerWithin_composed (composed : type.Composed manual.catalog.elements) :
    manual.lowerWithin (depth + 1) linked type place =
      (liftM (manual.typeNames linked type.front) >>= fun names =>
        eachInside (manual.lowerWithin depth false) place type.inside >>= fun texts =>
          pure ("<".intercalate names ++ type.frame texts)) := by
  cases type with
  | named name =>
    simp [lowerWithin, composed.noConcept name rfl, Api.TypeExpr.front, Api.TypeExpr.inside,
      Api.TypeExpr.frame, typeNames_singleton, eachInside_nil]
  | array value =>
    simp [lowerWithin, Api.TypeExpr.front, Api.TypeExpr.inside, Api.TypeExpr.frame, typeNames_nil,
      eachInside_one]
  | dictionary key value =>
    simp [lowerWithin, Api.TypeExpr.front, Api.TypeExpr.inside, Api.TypeExpr.frame,
      typeNames_singleton, eachInside_pair, String.append_assoc]
  | variant options =>
    simp only [lowerWithin, Api.TypeExpr.front, Api.TypeExpr.inside, Api.TypeExpr.frame,
      typeNames_nil, eachInside_options, pure_bind, String.intercalate_nil, String.empty_append]
  | lazyLoaded value =>
    simp [lowerWithin, Api.TypeExpr.front, Api.TypeExpr.inside, Api.TypeExpr.frame,
      typeNames_singleton, eachInside_one, String.append_assoc]
  | customTable key value =>
    simp [lowerWithin, Api.TypeExpr.front, Api.TypeExpr.inside, Api.TypeExpr.frame,
      typeNames_singleton, eachInside_pair, String.append_assoc]
  | table shape => exact absurd rfl (composed.noTable shape)
  | function parameters =>
    simp only [lowerWithin, Api.TypeExpr.front, Api.TypeExpr.inside, Api.TypeExpr.frame,
      typeNames_nil, eachInside_parameters, eachFrom_bind_pure, bind_assoc, pure_bind,
      String.intercalate_nil, String.empty_append]

theorem lowerWithin_concept {name : String} {element : Api.TypeExpr}
    (found : manual.catalog.elements.get? name = some element) :
    manual.lowerWithin (depth + 1) linked (.named name) place =
      (liftM (manual.view name) >>= fun link =>
        manual.lowerWithin depth false element (.element name link) >>= fun text =>
          liftM (manual.typeNames linked [name, "int"]) >>= fun names =>
            pure ("<".intercalate names ++ ("," ++ text ++ ">"))) := by
  simp [lowerWithin, found, typeNames_pair, String.append_assoc]

theorem typeNames_plain (names : List String) : manual.typeNames false names = .ok names := by
  induction names with
  | nil => rfl
  | cons name rest ih =>
    rw [typeNames, List.mapM_cons]
    exact Outcome.bind_eq_ok.mpr ⟨name, rfl, Outcome.bind_eq_ok.mpr ⟨rest, ih, rfl⟩⟩

theorem eachInside_map {fieldType' : FieldType} {f : Api.TypeExpr → Api.TypeExpr}
    (h : ∀ type place, fieldType' (f type) place = fieldType type place)
    (inside : List (Api.TypeExpr × String)) :
    eachInside fieldType' place (inside.map fun (inner, mark) => (f inner, mark)) =
      eachInside fieldType place inside :=
  eachFrom_map (fun _ (_, _) => h _ _) 0 inside

theorem forall₂_typeNames {names texts : List String} (h : manual.typeNames linked names = .ok texts) :
    List.Forall₂ (fun name text => manual.typeName linked name = .ok text) names texts := by
  induction names generalizing texts with
  | nil =>
    cases h
    exact .nil
  | cons name rest ih =>
    rw [typeNames, List.mapM_cons] at h
    obtain ⟨text, htext, h⟩ := Outcome.bind_eq_ok.mp h
    obtain ⟨others, hothers, h⟩ := Outcome.bind_eq_ok.mp h
    cases h
    exact .cons htext (ih hothers)

/-! The types inside another one are its parts. -/

theorem parts_concept {name : String} {element : Api.TypeExpr}
    (found : manual.catalog.elements.get? name = some element) :
    manual.parts ⟨.named name, place⟩ = [⟨element, .element name (manual.linkTo name)⟩] := by
  simp only [parts, found]

theorem parts_composed (composed : type.Composed manual.catalog.elements) :
    manual.parts ⟨type, place⟩ =
      type.inside.map fun (inner, mark) => ⟨inner, place.extend mark⟩ := by
  cases type with
  | named name => simp [parts, composed.noConcept name rfl, Api.TypeExpr.inside]
  | array value => simp [parts, Api.TypeExpr.inside, Place.extend_empty]
  | dictionary key value => rfl
  | variant options => simp [parts, Api.TypeExpr.inside, ← Place.extend_option]
  | lazyLoaded value => simp [parts, Api.TypeExpr.inside, Place.extend_empty]
  | customTable key value => rfl
  | table shape => rfl
  | function parameters => simp [parts, Api.TypeExpr.inside, ← Place.extend_parameter]

end Manual

/-! What all places of types, and all written types, have in common. -/

/-- What the name of a place is made of, besides names and numbers. -/
def placeMarks : List String :=
  ["_elem", "_key", "_value", "_param", "."]

def genericNames : List String :=
  ["table", "LuaLazyLoadedValue", "LuaCustomTable"]

theorem isAlpha_genericNames : ∀ name ∈ genericNames, ∀ c ∈ name.toList, c.isAlpha = true := by
  simp [genericNames]

theorem not_mem_genericNames {c : Char} (hc : c.isAlpha = false) :
    ∀ name ∈ genericNames, c ∉ name.toList :=
  fun name hname hmem => by simp [isAlpha_genericNames name hname c hmem] at hc

/-- What a written type is made of, besides names and numbers. -/
def typeMarks : List String :=
  ["table", "LuaLazyLoadedValue", "LuaCustomTable", "int", "fun(", "param", ":", ")", "<", ",", ">",
    ",nil>", "[]", "|"]

/-- A property of texts that places inside a type have if the place of the type has it. -/
structure SpellsPlaces (P : List Char → Prop) : Prop extends JoinsApart P where
  placeMarks : ∀ mark ∈ placeMarks, P mark.toList
  digits : ∀ n : Nat, P (toString n).toList

/-- A property of texts that written types have if their names have it. -/
structure SpellsTypes (P : List Char → Prop) : Prop extends SpellsPlaces P where
  typeMarks : ∀ mark ∈ typeMarks, P mark.toList

theorem Api.TypeExpr.mem_front {type : TypeExpr} {name : String} (h : name ∈ type.front) :
    type = .named name ∨ name ∈ genericNames := by
  cases type with
  | named => exact .inl (congrArg _ (List.mem_singleton.mp h).symm)
  | array | variant | table | function => cases h
  | dictionary | lazyLoaded | customTable =>
    rw [List.mem_singleton.mp h]
    exact .inr (by decide)

theorem Api.TypeExpr.words_inside {type : TypeExpr} {entry : TypeExpr × String}
    (h : entry ∈ type.inside) : entry.1.words ⊆ type.words := by
  have among {types : List TypeExpr} {inner : TypeExpr} (hmem : inner ∈ types) :
      inner.words ⊆ Api.wordsOfTypes types := by
    rw [Api.wordsOfTypes_eq]
    exact fun word hword => List.mem_flatMap.mpr ⟨inner, hmem, hword⟩
  cases type with
  | named | table => cases h
  | array | lazyLoaded =>
    rw [List.mem_singleton.mp h]
    exact List.Subset.refl _
  | dictionary | customTable =>
    rcases List.mem_pair.mp h with rfl | rfl
    · exact List.subset_append_left _ _
    · exact List.subset_append_right _ _
  | variant | function =>
    obtain ⟨_, hmem, rfl⟩ := List.mem_map.mp h
    exact among (List.fst_mem_of_mem_zipIdx hmem)

namespace SpellsPlaces

variable {P : List Char → Prop} (spells : SpellsPlaces P)
include spells

theorem add {text mark : String} (htext : P text.toList) (hmark : mark ∈ LuaStubs.placeMarks) :
    P (text ++ mark).toList :=
  spells.before htext (spells.placeMarks mark hmark) (by revert mark; decide)

theorem number {text : String} (htext : P text.toList) (n : Nat) : P (text ++ toString n).toList := by
  refine spells.before htext (spells.digits n) fun hopen => ?_
  exact not_mem_toDigits (show '('.isDigit = false by decide) n
    (by simpa using List.mem_of_mem_head? hopen)

theorem extend {place : Place} (hplace : P place.name.toList) {type : Api.TypeExpr}
    {entry : Api.TypeExpr × String} (h : entry ∈ type.inside) : P (place.extend entry.2).name.toList := by
  cases type with
  | named | table => cases h
  | array | lazyLoaded =>
    rwa [List.mem_singleton.mp h, Place.extend_empty]
  | dictionary | customTable =>
    rcases List.mem_pair.mp h with rfl | rfl
    · exact spells.add hplace (show "_key" ∈ LuaStubs.placeMarks by decide)
    · exact spells.add hplace (show "_value" ∈ LuaStubs.placeMarks by decide)
  | variant =>
    obtain ⟨⟨_, index⟩, -, rfl⟩ := List.mem_map.mp h
    rw [Place.extend_option]
    exact spells.number (spells.add hplace (by decide)) index
  | function =>
    obtain ⟨⟨_, index⟩, -, rfl⟩ := List.mem_map.mp h
    rw [Place.extend_parameter]
    exact spells.number (spells.add hplace (by decide)) (index + 1)

end SpellsPlaces

theorem spellsPlaces_not_mem {c : Char} (hmarks : ∀ mark ∈ placeMarks, c ∉ mark.toList)
    (hdigit : c.isDigit = false) : SpellsPlaces (c ∉ ·) where
  toJoinsApart := (joins_not_mem c).apart
  placeMarks := hmarks
  digits n := by simpa using not_mem_toDigits hdigit n

namespace SpellsTypes

variable {P : List Char → Prop} (spells : SpellsTypes P) {type : Api.TypeExpr} {names texts : List String}
include spells

theorem close {text mark : String} (htext : P text.toList) (hmark : mark ∈ LuaStubs.typeMarks) :
    P (text ++ mark).toList :=
  spells.before htext (spells.typeMarks mark hmark) (by revert mark; decide)

theorem lead {text mark : String} (hmark : mark ∈ LuaStubs.typeMarks) (hlast : mark ≠ "[]")
    (htext : P text.toList) : P (mark ++ text).toList :=
  spells.after (spells.typeMarks mark hmark) (by revert mark; decide) htext

theorem between {mark : String} (hmark : mark ∈ LuaStubs.typeMarks) (hlast : mark ≠ "[]")
    (htexts : ∀ text ∈ texts, P text.toList) : P (mark.intercalate texts).toList :=
  spells.intercalate (spells.typeMarks mark hmark) (by revert mark; decide) (by revert mark; decide)
    (by revert mark; decide) htexts

theorem labelled (number : Nat) {text : String} (htext : P text.toList) :
    P ("param" ++ toString number ++ ":" ++ text).toList := by
  have hcolon : P (":" ++ text).toList := spells.lead (by decide) (by decide) htext
  rw [String.append_assoc, String.append_assoc]
  exact spells.lead (by decide) (by decide) (spells.before (spells.digits number) hcolon (by simp))

theorem frame (htexts : ∀ text ∈ texts, P text.toList) : P (type.frame texts).toList := by
  have list : P (",".intercalate texts).toList := spells.between (by decide) (by decide) htexts
  cases type with
  | named | table => exact spells.nil
  | array => exact spells.close list (by decide)
  | dictionary | customTable => exact spells.close (spells.lead (by decide) (by decide) list) (by decide)
  | lazyLoaded => exact spells.close (spells.lead (by decide) (by decide) list) (by decide)
  | variant => exact spells.between (by decide) (by decide) htexts
  | function =>
    refine spells.close (spells.lead (by decide) (by decide) (spells.between (by decide) (by decide) ?_))
      (by decide)
    intro part hpart
    obtain ⟨⟨text, index⟩, hmem, rfl⟩ := List.mem_map.mp hpart
    exact spells.labelled (index + 1) (htexts text (List.fst_mem_of_mem_zipIdx hmem))

theorem composed (hlength : names.length = type.front.length) (hnames : ∀ name ∈ names, P name.toList)
    (htexts : ∀ text ∈ texts, P text.toList) : P ("<".intercalate names ++ type.frame texts).toList := by
  have hframe : P (type.frame texts).toList := spells.frame htexts
  by_cases none : type.front = []
  · rw [none] at hlength
    rw [List.length_eq_zero_iff.mp hlength]
    simpa using hframe
  · exact spells.before (spells.between (by decide) (by decide) hnames) hframe
      (Api.TypeExpr.head?_frame none texts)

theorem concept {text : String} (hnames : ∀ name ∈ names, P name.toList) (htext : P text.toList) :
    P ("<".intercalate names ++ ("," ++ text ++ ">")).toList := by
  have hback : P ("," ++ text ++ ">").toList :=
    spells.close (spells.lead (by decide) (by decide) htext) (by decide)
  exact spells.before (spells.between (by decide) (by decide) hnames) hback (by simp)

end SpellsTypes

theorem spellsTypes_not_mem {c : Char} (hplaces : ∀ mark ∈ placeMarks, c ∉ mark.toList)
    (htypes : ∀ mark ∈ typeMarks, c ∉ mark.toList) (hdigit : c.isDigit = false) :
    SpellsTypes (c ∉ ·) where
  toSpellsPlaces := spellsPlaces_not_mem hplaces hdigit
  typeMarks := htypes

end LuaStubs
