import LuaStubs.Proofs.Spelling.Meaning
import LuaStubs.Proofs.Spelling.Single

/-! What is written for types without tables, and what it can be taken for. Without links it is the
annotation; with links, the name in front may be a link, and the annotation can still be told from
the text. Types with equal texts are the same up to variants inside variants, unless there are
arrays of several alternatives in them. -/

namespace LuaStubs

namespace Api.TypeExpr

variable {type : Api.TypeExpr} {elements : NameMap Api.TypeExpr}

/-- What is written behind the name of a type. -/
def behind (type : Api.TypeExpr) : String :=
  type.frame (type.inside.map (·.1.spelling))

theorem spellingsOfTypes_eq (types : List Api.TypeExpr) (index : Nat) (mark : Nat → String) :
    spellingsOfTypes types =
      (types.zipIdx index |>.map fun (type, i) => (type, mark i)).map (·.1.spelling) := by
  induction types generalizing index with
  | nil => rfl
  | cons type rest ih => rw [spellingsOfTypes, ih (index + 1), List.zipIdx_cons]; rfl

theorem spellingsOfParameters_eq (types : List Api.TypeExpr) (index : Nat) :
    spellingsOfParameters index types = ((spellingsOfTypes types).zipIdx index).map
      fun (text, i) => "param" ++ toString (i + 1) ++ ":" ++ text := by
  induction types generalizing index with
  | nil => rfl
  | cons type rest ih => rw [spellingsOfParameters, ih (index + 1), spellingsOfTypes]; rfl

theorem spelling_eq (type : Api.TypeExpr) : type.spelling = "<".intercalate type.front ++ type.behind := by
  cases type with
  | named | array => simp [spelling, front, behind, frame, inside]
  | dictionary | customTable =>
    simp [spelling, Spelling.generic, Spelling.inside, front, behind, frame, inside, String.append_assoc]
  | variant options =>
    rw [spelling, spellingsOfTypes_eq options 0 ("." ++ toString ·)]
    exact String.empty_append.symm
  | lazyLoaded value =>
    have last : ",nil>" = "," ++ ("nil" ++ ">") := rfl
    simp [spelling, Spelling.generic, Spelling.inside, front, behind, frame, inside,
      String.append_assoc, last]
  | table => rfl
  | function parameters =>
    rw [spelling, spellingsOfParameters_eq,
      spellingsOfTypes_eq parameters 0 fun i => "_param" ++ toString (i + 1)]
    exact String.empty_append.symm

theorem simple_of_mem {types : List Api.TypeExpr} (h : simpleTypes elements types)
    (hmem : type ∈ types) : type.Simple elements := by
  induction types with
  | nil => cases hmem
  | cons first rest ih =>
    rcases List.mem_cons.mp hmem with rfl | hmem
    · exact h.1
    · exact ih h.2 hmem

namespace Simple

variable (simple : type.Simple elements)
include simple

theorem composed : type.Composed elements where
  noTable shape is := by
    subst is
    exact simple
  noConcept name is := by
    subst is
    exact simple.2.2

theorem inside {entry : Api.TypeExpr × String} (h : entry ∈ type.inside) :
    entry.1.Simple elements := by
  cases type with
  | named | table => cases h
  | array | lazyLoaded =>
    rw [List.mem_singleton.mp h]
    exact simple
  | dictionary | customTable =>
    rcases List.mem_pair.mp h with rfl | rfl
    · exact simple.1
    · exact simple.2
  | variant =>
    obtain ⟨_, hmem, rfl⟩ := List.mem_map.mp h
    exact simple_of_mem simple.2 (List.fst_mem_of_mem_zipIdx hmem)
  | function =>
    obtain ⟨_, hmem, rfl⟩ := List.mem_map.mp h
    exact simple_of_mem simple (List.fst_mem_of_mem_zipIdx hmem)

theorem plain_of_front {name : String} (h : name ∈ type.front) :
    ∀ c ∈ name.toList, c ∉ Spelling.marks := by
  rcases mem_front h with rfl | hgeneric
  · exact simple.2.1
  · intro c hc hmark
    have marks : ∀ mark ∈ Spelling.marks, mark.isAlpha = false := by simp [Spelling.marks]
    exact not_mem_genericNames (marks c hmark) name hgeneric hc

theorem spelling_ne_bracket (s : List Char) :
    type.spelling.toList ≠ '[' :: s := by
  intro bracket
  have hread := read_spelling simple
  rw [Spelling.read, bracket] at hread
  simp [Spelling.readAlternatives, Spelling.readPrimary, Spelling.isPlain,
    Spelling.marks] at hread

end Simple

end Api.TypeExpr

theorem Catalog.height_le_depthFor (catalog : Catalog) (type : Api.TypeExpr) :
    type.height ≤ catalog.depthFor type := by
  have hmax : type.height ≤ max type.height (heightOfTypes catalog.elementTypes) + 1 := by omega
  refine Nat.le_trans hmax (Nat.le_mul_of_pos_left _ ?_)
  exact Nat.mul_pos (Nat.succ_pos _) (Nat.succ_pos _)

namespace Manual

variable {manual : Manual}

/-- Inside another type there are no links, and everything is as it is spelled. -/
theorem eachInside_of_simple {fieldType : FieldType} {type : Api.TypeExpr} {place : Place}
    (h : ∀ entry ∈ type.inside, ∀ place, fieldType entry.1 place = pure entry.1.spelling) :
    eachInside fieldType place type.inside = pure (type.inside.map (·.1.spelling)) :=
  Emission.eachFrom_eq_pure (fun _ entry hentry => h entry hentry _) 0

theorem lowerWithin_of_simple {type : Api.TypeExpr} (h : type.Simple manual.catalog.elements)
    {depth : Nat} (enough : type.height ≤ depth) (place : Place) :
    manual.lowerWithin depth false type place = pure type.spelling := by
  induction depth generalizing type place with
  | zero => cases type <;> simp [Api.TypeExpr.height] at enough
  | succ depth ih =>
    have hinside (entry : Api.TypeExpr × String) (hentry : entry ∈ type.inside) (place : Place) :
        manual.lowerWithin depth false entry.1 place = pure entry.1.spelling := by
      have less : entry.1.height < type.height := (inside_less place hentry).2.2
      exact ih (h.inside hentry) (by omega) place
    rw [lowerWithin_composed h.composed, typeNames_plain, eachInside_of_simple hinside,
      type.spelling_eq]
    rfl

theorem lower_of_simple {type : Api.TypeExpr} (h : type.Simple manual.catalog.elements)
    (place : Place) : manual.lower false type place = pure type.spelling :=
  lowerWithin_of_simple h (Catalog.height_le_depthFor _ type) place

theorem lower_linked_of_simple {type : Api.TypeExpr} (h : type.Simple manual.catalog.elements)
    (place : Place) :
    manual.lower true type place =
      liftM (manual.typeNames true type.front) >>= fun names =>
        pure ("<".intercalate names ++ type.behind) := by
  have enough := manual.catalog.height_le_depthFor type
  unfold lower
  generalize manual.catalog.depthFor type = depth at enough ⊢
  cases depth with
  | zero => cases type <;> simp [Api.TypeExpr.height] at enough
  | succ depth =>
    have hinside (entry : Api.TypeExpr × String) (hentry : entry ∈ type.inside) (place : Place) :
        manual.lowerWithin depth false entry.1 place = pure entry.1.spelling := by
      have less : entry.1.height < type.height := (inside_less place hentry).2.2
      exact lowerWithin_of_simple (h.inside hentry) (by omega) place
    rw [lowerWithin_composed h.composed, eachInside_of_simple hinside]
    rfl

theorem lower_cases {linked : Bool} {type : Api.TypeExpr}
    (simple : type.Simple manual.catalog.elements) {place : Place} {b b' : Backlog} {text : String}
    (h : manual.lower linked type place b = .ok (text, b')) :
    text = type.spelling ∨
      ∃ name ∈ type.front, ∃ url, type.spelling = name ++ type.behind ∧ manual.url name = .ok url ∧
        text = "[" ++ name ++ "](" ++ url ++ ")" ++ type.behind := by
  cases linked with
  | false =>
    rw [lower_of_simple simple] at h
    cases h
    exact .inl rfl
  | true =>
    rw [lower_linked_of_simple simple] at h
    obtain ⟨names, _, hlifted, h⟩ := Emission.bind_eq_ok.mp h
    obtain ⟨_, hnames, hsame⟩ := Emission.liftM_eq_ok.mp hlifted
    clear hlifted
    cases hsame
    cases h
    have spelled := type.spelling_eq
    rcases type.front_cases with hfront | ⟨name, hfront⟩
    · rw [hfront] at hnames spelled
      cases hnames
      exact .inl spelled.symm
    · rw [hfront] at hnames spelled ⊢
      cases forall₂_typeNames hnames with
      | cons hname none =>
        cases none
        obtain ⟨url, hurl, hlink⟩ := Outcome.bind_eq_ok.mp hname
        cases hlink
        refine .inr ⟨name, List.mem_singleton_self name, url, ?_, hurl, ?_⟩
        · rw [spelled, String.intercalate_singleton]
        · rw [String.intercalate_singleton]

/-- Equal texts are written for equal annotations only. -/
theorem spelling_of_same_text {first second : Api.TypeExpr}
    (hfirst : first.Simple manual.catalog.elements)
    (hsecond : second.Simple manual.catalog.elements) {linked linked' : Bool}
    {place place' : Place} {b b' c c' : Backlog} {text : String}
    (h : manual.lower linked first place b = .ok (text, c))
    (h' : manual.lower linked' second place' b' = .ok (text, c')) :
    first.spelling = second.spelling := by
  obtain hplain | ⟨name, hfront, url, spelled, hurl, hlink⟩ := lower_cases hfirst h
  · obtain hplain' | ⟨name', hfront', url', spelled', -, hlink'⟩ := lower_cases hsecond h'
    · exact hplain.symm.trans hplain'
    · refine absurd ?_ (hfirst.spelling_ne_bracket (name' ++ "](" ++ url' ++ ")" ++ second.behind).toList)
      rw [← hplain, hlink']
      simp
  · obtain hplain' | ⟨name', hfront', url', spelled', hurl', hlink'⟩ := lower_cases hsecond h'
    · refine absurd ?_ (hsecond.spelling_ne_bracket (name ++ "](" ++ url ++ ")" ++ first.behind).toList)
      rw [← hplain', hlink]
      simp
    · have marked (t : List Char) : ∀ c ∈ (']' :: t).head?, c ∈ Spelling.marks := by
        rintro c ⟨⟩
        decide
      have same := congrArg String.toList (hlink.symm.trans hlink')
      simp only [String.toList_append, List.append_assoc] at same
      obtain ⟨hname, hrest⟩ := Spelling.eq_of_append_mark (hfirst.plain_of_front hfront)
        (hsecond.plain_of_front hfront') (marked _) (marked _) (List.append_cancel_left same)
      cases String.toList_inj.mp hname
      cases hurl.symm.trans hurl'
      have hafter : first.behind.toList = second.behind.toList := by simpa using hrest
      rw [spelled, spelled', String.toList_inj.mp hafter]

/-- The text of a type without tables is read as the alternatives that it says, and those are the
ones of the type itself exactly if no array has several alternatives. Types with equal texts are
read as the same type, whether there are links in the texts or not. -/
theorem lower_keeps_meaning {first second : Api.TypeExpr}
    (hfirst : first.Simple manual.catalog.elements)
    (hsecond : second.Simple manual.catalog.elements) :
    (∀ place backlog, ∃ text, manual.lower false first place backlog = .ok (text, backlog) ∧
      Spelling.read text = some first.asRead ∧
      (Spelling.read text = some first.meaning ↔ first.ArraysOfOne)) ∧
    ∀ linked linked' place place' b b' c c' text,
      manual.lower linked first place b = .ok (text, c) →
      manual.lower linked' second place' b' = .ok (text, c') →
      first.asRead = second.asRead ∧
        (first.ArraysOfOne → second.ArraysOfOne → first.meaning = second.meaning) := by
  have hread := read_spelling hfirst
  constructor
  · intro place backlog
    refine ⟨first.spelling, by rw [lower_of_simple hfirst]; rfl, hread, ?_⟩
    rw [hread, Option.some.injEq]
    exact asRead_eq_meaning_iff hfirst
  · intro linked linked' place place' b b' c c' text h h'
    have same := spelling_of_same_text hfirst hsecond h h'
    have hread' := read_spelling hsecond
    rw [same, hread', Option.some.injEq] at hread
    refine ⟨hread.symm, fun single single' => ?_⟩
    rw [← (asRead_eq_meaning_iff hfirst).mpr single, ← (asRead_eq_meaning_iff hsecond).mpr single',
      hread]

def plainNames : Manual where
  catalog := .ofEntries ⟨[], [], [], [⟨"int", 0, ""⟩, ⟨"string", 1, ""⟩], [], []⟩ []
  baseUrl := "/"

def nested : Api.TypeExpr :=
  .variant [.array (.function [.variant [.named "int"]]),
    .variant [.named "string", .lazyLoaded (.named "int")]]

def flat : Api.TypeExpr :=
  .variant [.array (.function [.named "int"]), .named "string", .lazyLoaded (.named "int")]

theorem plain_name {name : String} (hname : name = "int" ∨ name = "string") :
    (Api.TypeExpr.named name).Simple plainNames.catalog.elements := by
  rcases hname with rfl | rfl
  · exact ⟨by decide, by simp [Spelling.marks], by decide⟩
  · exact ⟨by decide, by simp [Spelling.marks], by decide⟩

theorem nested_simple : nested.Simple plainNames.catalog.elements :=
  ⟨by simp, ⟨⟨by simp, plain_name (.inl rfl), trivial⟩, trivial⟩,
    ⟨by simp, plain_name (.inr rfl), plain_name (.inl rfl), trivial⟩, trivial⟩

theorem flat_simple : flat.Simple plainNames.catalog.elements :=
  ⟨by simp, ⟨plain_name (.inl rfl), trivial⟩, plain_name (.inr rfl), plain_name (.inl rfl), trivial⟩

theorem lower_keeps_meaning_nested :
    nested.Simple plainNames.catalog.elements ∧ flat.Simple plainNames.catalog.elements ∧
      nested ≠ flat ∧ nested.meaning = flat.meaning ∧
      ∃ text, plainNames.lower false nested ⟨"A.a", ""⟩ ⟨[], []⟩ = .ok (text, ⟨[], []⟩) ∧
        text = "fun(param1:int)[]|string|LuaLazyLoadedValue<int,nil>" ∧
        Spelling.read text = some nested.meaning := by
  obtain ⟨reading, texts⟩ := lower_keeps_meaning nested_simple flat_simple
  have ones : nested.ArraysOfOne :=
    ⟨⟨rfl, ⟨trivial, trivial⟩, trivial⟩, ⟨trivial, trivial, trivial⟩, trivial⟩
  have ones' : flat.ArraysOfOne := ⟨⟨rfl, trivial, trivial⟩, trivial, trivial, trivial⟩
  have same : nested.spelling = flat.spelling := by decide
  have hnested : plainNames.lower false nested ⟨"A.a", ""⟩ ⟨[], []⟩
      = .ok (flat.spelling, ⟨[], []⟩) := by
    rw [lower_of_simple nested_simple, same]
    rfl
  have hflat : plainNames.lower false flat ⟨"A.b", ""⟩ ⟨[], []⟩
      = .ok (flat.spelling, ⟨[], []⟩) := by
    rw [lower_of_simple flat_simple]
    rfl
  obtain ⟨text, htext, -, hread⟩ := reading ⟨"A.a", ""⟩ ⟨[], []⟩
  cases hnested.symm.trans htext
  exact ⟨nested_simple, flat_simple, by simp [nested, flat],
    (texts _ _ _ _ _ _ _ _ _ hnested hflat).2 ones ones', _, htext, by decide, hread.mpr ones⟩

/-- An array of two alternatives is written like two alternatives of which the second is an array. -/
theorem lower_merges_array_of_alternatives :
    let each : Api.TypeExpr := .array (.variant [.named "int", .named "string"])
    let last : Api.TypeExpr := .variant [.named "int", .array (.named "string")]
    each.Simple plainNames.catalog.elements ∧ last.Simple plainNames.catalog.elements ∧
      (∀ place b, plainNames.lower false each place b = .ok ("int|string[]", b)) ∧
      (∀ place b, plainNames.lower false last place b = .ok ("int|string[]", b)) ∧
      each.meaning ≠ last.meaning := by
  intro each last
  have heach : each.Simple plainNames.catalog.elements :=
    ⟨by simp, plain_name (.inl rfl), plain_name (.inr rfl), trivial⟩
  have hlast : last.Simple plainNames.catalog.elements :=
    ⟨by simp, plain_name (.inl rfl), plain_name (.inr rfl), trivial⟩
  refine ⟨heach, hlast, fun place b => ?_, fun place b => ?_, nofun⟩
  · rw [lower_of_simple heach]
    rfl
  · rw [lower_of_simple hlast]
    rfl

end Manual

end LuaStubs
