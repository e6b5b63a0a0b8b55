import LuaStubs.Proofs.Spelling.Reading
import LuaStubs.Proofs.Success.Lowering

/-! How annotations are read: each one has an end that reading finds, whatever stands behind it, and
brackets behind several alternatives bind to the last one only. -/

namespace LuaStubs

namespace Spelling

/-! What is read, whatever there is of fuel above a bound. -/

def Reads (s : List Char) (r : List Api.TypeExpr × List Char) : Prop :=
  ∀ fuel, 2 * s.length + 2 ≤ fuel → readAlternatives fuel s = some r

def Resumes (first : Api.TypeExpr) (s : List Char) (r : List Api.TypeExpr × List Char) : Prop :=
  ∀ fuel, 2 * s.length + 1 ≤ fuel → resume fuel first s = some r

def ReadsPrimary (s : List Char) (r : Api.TypeExpr × List Char) : Prop :=
  ∀ fuel, 2 * s.length + 1 ≤ fuel → readPrimary fuel s = some r

def ReadsParameters (index : Nat) (s : List Char) (r : List Api.TypeExpr × List Char) : Prop :=
  ∀ fuel, 2 * s.length + 1 ≤ fuel → readParameters fuel index s = some r

def Follows (s : List Char) : Prop :=
  ∀ c ∈ s.head?, c ∈ [',', '>', ')', '|', '[']

/-- What may stand behind all alternatives of a type. -/
def Stops (s : List Char) : Prop :=
  ∀ c ∈ s.head?, c ∈ [',', '>', ')']

theorem Stops.follows {s : List Char} (h : Stops s) : Follows s := by
  intro c hc
  have hmem := h c hc
  grind

theorem exists_succ_of_le {bound fuel : Nat} (h : bound + 1 ≤ fuel) :
    ∃ less, fuel = less + 1 ∧ bound ≤ less :=
  ⟨fuel - 1, by omega, by omega⟩

section

variable {first : Api.TypeExpr} {s rest : List Char} {r : List Api.TypeExpr × List Char}

theorem reads_of_primary (h : ReadsPrimary s (first, rest)) (shorter : rest.length < s.length)
    (more : Resumes first rest r) : Reads s r := by
  intro fuel enough
  obtain ⟨less, rfl, hless⟩ := exists_succ_of_le enough
  rw [readAlternatives, h less hless]
  exact more less (by omega)

theorem readSuffixes_of_stops (h : Stops s) : readSuffixes first s = (first, s) := by
  cases s with
  | nil => rfl
  | cons c s =>
    have hc : c ≠ '[' := by
      rintro rfl
      exact absurd (h '[' rfl) (by decide)
    rw [readSuffixes]
    intro rest same
    exact hc (List.cons.inj same).1

theorem resumes_stop (h : Stops s) : Resumes first s ([first], s) := by
  intro fuel enough
  obtain ⟨less, rfl, -⟩ := exists_succ_of_le enough
  rw [resume, readSuffixes_of_stops h]
  cases s with
  | nil => rfl
  | cons c s =>
    have hc : c ≠ '|' := by
      rintro rfl
      exact absurd (h '|' rfl) (by decide)
    simp [hc]

theorem resumes_array (h : Resumes (.array first) s r) : Resumes first ('[' :: ']' :: s) r := by
  intro fuel enough
  have same : resume fuel first ('[' :: ']' :: s) = resume fuel (.array first) s := by
    cases fuel with
    | zero => rfl
    | succ fuel => rw [resume, resume, readSuffixes]
  rw [same]
  exact h fuel (by simp only [List.length_cons] at enough; omega)

theorem resumes_more (first : Api.TypeExpr) (h : Reads s r) :
    Resumes first ('|' :: s) (first :: r.1, r.2) := by
  intro fuel enough
  obtain ⟨less, rfl, hless⟩ := exists_succ_of_le enough
  have hread := h less (by simp only [List.length_cons] at enough; omega)
  rw [resume]
  simp [readSuffixes, hread]

end

theorem span_name {name : List Char} (rest : List Char) (plain : ∀ c ∈ name, c ∉ marks)
    (h : ∀ c ∈ rest.head?, c ∈ marks) :
    (name ++ rest).takeWhile isPlain = name ∧ (name ++ rest).dropWhile isPlain = rest := by
  have hname : ∀ c ∈ name, isPlain c = true := by simpa [isPlain] using plain
  have hrest : rest.takeWhile isPlain = [] ∧ rest.dropWhile isPlain = rest := by
    cases rest with
    | nil => exact ⟨rfl, rfl⟩
    | cons c rest =>
      have own : isPlain c = false := by simpa [isPlain] using h c rfl
      simp [own]
  rw [List.takeWhile_append_of_pos hname, List.dropWhile_append_of_pos hname, hrest.1, hrest.2]
  exact ⟨List.append_nil _, rfl⟩

theorem eq_of_append_mark {name name' rest rest' : List Char} (plain : ∀ c ∈ name, c ∉ marks)
    (plain' : ∀ c ∈ name', c ∉ marks) (h : ∀ c ∈ rest.head?, c ∈ marks)
    (h' : ∀ c ∈ rest'.head?, c ∈ marks) (same : name ++ rest = name' ++ rest') :
    name = name' ∧ rest = rest' := by
  obtain ⟨taken, left⟩ := span_name rest plain h
  obtain ⟨taken', left'⟩ := span_name rest' plain' h'
  rw [same] at taken left
  exact ⟨taken.symm.trans taken', left.symm.trans left'⟩

theorem Follows.mark {s : List Char} (h : Follows s) : ∀ c ∈ s.head?, c ∈ marks := by
  intro c hc
  have hmem := h c hc
  unfold marks
  grind

theorem readsPrimary_name {name rest : List Char} (hname : name ≠ [])
    (plain : ∀ c ∈ name, c ∉ marks) (h : Follows rest) :
    ReadsPrimary (name ++ rest) (.named (String.ofList name), rest) := by
  intro fuel enough
  obtain ⟨less, rfl, -⟩ := exists_succ_of_le enough
  obtain ⟨taken, left⟩ := span_name rest plain h.mark
  rw [readPrimary, taken, left]
  cases rest with
  | nil => simp [hname]
  | cons c rest =>
    have notOpen : c ≠ '<' := by
      rintro rfl
      exact absurd (h '<' rfl) (by decide)
    have noCall : c ≠ '(' := by
      rintro rfl
      exact absurd (h '(' rfl) (by decide)
    simp [notOpen, noCall, hname]

/-! Types with two others inside, and functions. -/

section

variable {first second rest : List Char} {a b : List Api.TypeExpr}

theorem readsPrimary_generic {name : List Char} (plain : ∀ c ∈ name, c ∉ marks)
    (hfirst : Reads (first ++ ',' :: (second ++ '>' :: rest)) (a, ',' :: (second ++ '>' :: rest)))
    (hsecond : Reads (second ++ '>' :: rest) (b, '>' :: rest)) {type : Api.TypeExpr}
    (htype : generic? (String.ofList name) (oneOf a) (oneOf b) = some type) :
    ReadsPrimary (name ++ '<' :: (first ++ ',' :: (second ++ '>' :: rest))) (type, rest) := by
  intro fuel enough
  obtain ⟨less, rfl, hless⟩ := exists_succ_of_le enough
  obtain ⟨taken, left⟩ := span_name ('<' :: (first ++ ',' :: (second ++ '>' :: rest))) plain
    (by simp [marks])
  simp only [List.length_append, List.length_cons] at hless
  have hfirst := hfirst less (by simp only [List.length_append, List.length_cons]; omega)
  have hsecond := hsecond less (by simp only [List.length_append, List.length_cons]; omega)
  rw [readPrimary, taken, left]
  simp [hfirst, hsecond, htype, behind?]

theorem readsPrimary_function (h : ReadsParameters 0 first (a, rest)) :
    ReadsPrimary ("fun(".toList ++ first) (.function a, rest) := by
  intro fuel enough
  obtain ⟨less, rfl, hless⟩ := exists_succ_of_le enough
  have plain : ∀ c ∈ "fun".toList, c ∉ marks := by simp [marks]
  obtain ⟨taken, left⟩ := span_name ('(' :: first) plain (by simp [marks])
  have opened : "fun(".toList ++ first = "fun".toList ++ '(' :: first := rfl
  rw [opened, List.length_append, List.length_cons] at hless
  have hparameters := h less (by omega)
  rw [opened, readPrimary, taken, left]
  simp [hparameters]

theorem readsParameters_none : ReadsParameters 0 (')' :: rest) ([], rest) := by
  intro fuel enough
  obtain ⟨less, rfl, -⟩ := exists_succ_of_le enough
  rw [readParameters]

theorem behind?_append (start s : List Char) : behind? start (start ++ s) = some s := by
  have hprefix : start.isPrefixOf (start ++ s) = true :=
    List.isPrefixOf_iff_prefix.mpr (List.prefix_append start s)
  rw [behind?, if_pos hprefix, List.drop_left]

theorem label_cons (index : Nat) : ∃ rest, label index = 'p' :: rest :=
  ⟨("aram" ++ toString (index + 1) ++ ":").toList, by simp [label]⟩

theorem readsParameters_last {index : Nat} (h : Reads (first ++ ')' :: rest) (a, ')' :: rest)) :
    ReadsParameters index (label index ++ (first ++ ')' :: rest)) ([oneOf a], rest) := by
  intro fuel enough
  obtain ⟨less, rfl, hless⟩ := exists_succ_of_le enough
  obtain ⟨tail, hlabel⟩ := label_cons index
  have hbehind := behind?_append (label index) (first ++ ')' :: rest)
  rw [List.length_append, hlabel, List.length_cons] at hless
  have hread := h less (by omega)
  rw [hlabel, List.cons_append] at hbehind ⊢
  cases index <;> simp [readParameters, hlabel, hbehind, hread]

theorem readsParameters_more {index : Nat} (h : Reads (first ++ ',' :: second) (a, ',' :: second))
    (hmore : ReadsParameters (index + 1) second (b, rest)) :
    ReadsParameters index (label index ++ (first ++ ',' :: second)) (oneOf a :: b, rest) := by
  intro fuel enough
  obtain ⟨less, rfl, hless⟩ := exists_succ_of_le enough
  obtain ⟨tail, hlabel⟩ := label_cons index
  have hbehind := behind?_append (label index) (first ++ ',' :: second)
  rw [List.length_append, hlabel, List.length_cons] at hless
  have hread := h less (by omega)
  simp only [List.length_append, List.length_cons] at hless
  have hparameters := hmore less (by omega)
  rw [hlabel, List.cons_append] at hbehind ⊢
  cases index <;> simp [readParameters, hlabel, hbehind, hread, hparameters]

end

/-! The texts of types, in front of whatever may follow. -/

/-- A text is read as the alternatives. What follows may go on with the last one, since suffixes
bind to it. -/
def Says (s : List Char) (alternatives : List Api.TypeExpr) : Prop :=
  ∃ front last, alternatives = front ++ [last] ∧
    ∀ rest r, Follows rest → Resumes last rest r → Reads (s ++ rest) (front ++ r.1, r.2)

/-- A text that is read as the types of parameters from an index on. -/
def SaysParameters (index : Nat) (s : List Char) (types : List Api.TypeExpr) : Prop :=
  ∀ rest, ReadsParameters index (s ++ ')' :: rest) (types, rest)

theorem arrayOfLast_append (front : List Api.TypeExpr) (last : Api.TypeExpr) :
    arrayOfLast (front ++ [last]) = front ++ [.array last] := by
  induction front with
  | nil => rfl
  | cons first front ih =>
    rw [List.cons_append, arrayOfLast, ih, List.cons_append]
    simp

section

variable {s s' : List Char} {a b : List Api.TypeExpr}

theorem Says.reads (h : Says s a) (rest : List Char) (stop : Stops rest) :
    Reads (s ++ rest) (a, rest) := by
  obtain ⟨front, last, rfl, hread⟩ := h
  exact hread rest ([last], rest) stop.follows (resumes_stop stop)

theorem Says.primary {type : Api.TypeExpr} (hs : s ≠ [])
    (h : ∀ rest, Follows rest → ReadsPrimary (s ++ rest) (type, rest)) : Says s [type] := by
  refine ⟨[], type, rfl, fun rest r hrest more => ?_⟩
  have hlength := List.length_pos_iff.mpr hs
  exact reads_of_primary (h rest hrest) (by rw [List.length_append]; omega) more

theorem Says.array (h : Says s a) : Says (s ++ ['[', ']']) (arrayOfLast a) := by
  obtain ⟨front, last, rfl, hread⟩ := h
  refine ⟨front, .array last, arrayOfLast_append front last, fun rest r _ more => ?_⟩
  rw [List.append_assoc]
  exact hread ('[' :: ']' :: rest) r (by simp [Follows]) (resumes_array more)

theorem Says.or (h : Says s a) (h' : Says s' b) : Says (s ++ '|' :: s') (a ++ b) := by
  obtain ⟨front, last, rfl, hread⟩ := h
  obtain ⟨front', last', rfl, hread'⟩ := h'
  refine ⟨front ++ last :: front', last', by simp, fun rest r hrest more => ?_⟩
  have hmore := resumes_more last (hread' rest r hrest more)
  have hboth := hread ('|' :: (s' ++ rest)) _ (by simp [Follows]) hmore
  simpa using hboth

theorem Says.generic {name first second : String} (plain : ∀ c ∈ name.toList, c ∉ marks)
    (h : Says first.toList a) (h' : Says second.toList b) {type : Api.TypeExpr}
    (htype : generic? name (oneOf a) (oneOf b) = some type) :
    Says (Spelling.generic name first second).toList [type] := by
  refine Says.primary (by simp [Spelling.generic, inside]) fun rest _ => ?_
  have hfirst := h.reads (',' :: (second.toList ++ '>' :: rest)) (by simp [Stops])
  have hsecond := h'.reads ('>' :: rest) (by simp [Stops])
  simpa [Spelling.generic, inside] using
    readsPrimary_generic plain hfirst hsecond (by rwa [String.ofList_toList])

theorem Says.last (h : Says s a) (index : Nat) :
    SaysParameters index (label index ++ s) [oneOf a] := by
  intro rest
  have hread := h.reads (')' :: rest) (by simp [Stops])
  simpa using readsParameters_last hread

theorem Says.more {index : Nat} (h : Says s a) (h' : SaysParameters (index + 1) s' b) :
    SaysParameters index (label index ++ s ++ ',' :: s') (oneOf a :: b) := by
  intro rest
  have hread := h.reads (',' :: (s' ++ ')' :: rest)) (by simp [Stops])
  simpa using readsParameters_more hread (h' rest)

theorem SaysParameters.function (h : SaysParameters 0 s a) :
    Says ("fun(".toList ++ s ++ [')']) [.function a] := by
  refine Says.primary (by simp) fun rest _ => ?_
  simpa using readsPrimary_function (h rest)

theorem saysParameters_none : SaysParameters 0 [] [] :=
  fun _ => readsParameters_none

theorem says_name {name : String} (hname : name.toList ≠ [])
    (plain : ∀ c ∈ name.toList, c ∉ marks) : Says name.toList [.named name] := by
  refine Says.primary hname fun rest hrest => ?_
  simpa using readsPrimary_name hname plain hrest

/-! The names that types with two others inside have. -/

theorem generic?_dictionary (key value : Api.TypeExpr) :
    generic? "table" key value = some (.dictionary key value) := by
  simp [generic?]

theorem generic?_customTable (key value : Api.TypeExpr) :
    generic? "LuaCustomTable" key value = some (.customTable key value) := by
  simp [generic?]

theorem generic?_lazyLoaded (value : Api.TypeExpr) :
    generic? "LuaLazyLoadedValue" value (oneOf [.named "nil"]) = some (.lazyLoaded value) := by
  simp [generic?, oneOf]

end

end Spelling

/-! Each annotation says what is to be read. -/

section

open Spelling

variable {elements : NameMap Api.TypeExpr}

theorem spellingsOfTypes_ne_nil {types : List Api.TypeExpr} (h : types ≠ []) :
    spellingsOfTypes types ≠ [] := by
  cases types with
  | nil => exact absurd rfl h
  | cons => simp [spellingsOfTypes]

theorem spellingsOfParameters_ne_nil {types : List Api.TypeExpr} (h : types ≠ [])
    (index : Nat) : spellingsOfParameters index types ≠ [] := by
  cases types with
  | nil => exact absurd rfl h
  | cons => simp [spellingsOfParameters]

mutual

theorem says_spelling (type : Api.TypeExpr) (h : type.Simple elements) :
    Says type.spelling.toList (type.alternatives arrayOfLast) := by
  cases type with
  | named name =>
    have hlist : name.toList ≠ [] := by simpa using h.1
    rw [Api.TypeExpr.alternatives]
    exact says_name hlist h.2.1
  | array value =>
    rw [Api.TypeExpr.spelling, Api.TypeExpr.alternatives, String.toList_append]
    exact (says_spelling value h).array
  | dictionary key value =>
    have hkey := says_spelling key h.1
    have hvalue := says_spelling value h.2
    rw [Api.TypeExpr.spelling, Api.TypeExpr.alternatives]
    exact Says.generic (by simp [marks]) hkey hvalue (generic?_dictionary _ _)
  | variant options => exact says_options h.1 h.2
  | lazyLoaded value =>
    have hvalue := says_spelling value h
    rw [Api.TypeExpr.spelling, Api.TypeExpr.alternatives]
    exact Says.generic (by simp [marks]) hvalue (says_name (by decide) (by simp [marks]))
      (generic?_lazyLoaded _)
  | customTable key value =>
    have hkey := says_spelling key h.1
    have hvalue := says_spelling value h.2
    rw [Api.TypeExpr.spelling, Api.TypeExpr.alternatives]
    exact Says.generic (by simp [marks]) hkey hvalue (generic?_customTable _ _)
  | table shape => exact False.elim h
  | function parameters =>
    have hparameters :
        SaysParameters 0 (",".intercalate (spellingsOfParameters 0 parameters)).toList
          (eachOfTypes arrayOfLast parameters) := by
      by_cases hnone : parameters = []
      · subst hnone
        exact saysParameters_none
      · exact says_parameters hnone h 0
    rw [Api.TypeExpr.alternatives]
    simpa [Api.TypeExpr.spelling] using hparameters.function

theorem says_options {options : List Api.TypeExpr} (hsome : options ≠ [])
    (h : simpleTypes elements options) :
    Says ("|".intercalate (spellingsOfTypes options)).toList
      (alternativesOfTypes arrayOfLast options) := by
  cases options with
  | nil => exact absurd rfl hsome
  | cons option options =>
    have hoption := says_spelling option h.1
    by_cases hlast : options = []
    · subst hlast
      simpa [spellingsOfTypes, alternativesOfTypes] using hoption
    · have hmore := hoption.or (says_options hlast h.2)
      rw [spellingsOfTypes, toList_intercalate_cons _ _ (spellingsOfTypes_ne_nil hlast)]
      exact hmore

theorem says_parameters {parameters : List Api.TypeExpr} (hsome : parameters ≠ [])
    (h : simpleTypes elements parameters) (index : Nat) :
    SaysParameters index (",".intercalate (spellingsOfParameters index parameters)).toList
      (eachOfTypes arrayOfLast parameters) := by
  cases parameters with
  | nil => exact absurd rfl hsome
  | cons parameter parameters =>
    have hparameter := says_spelling parameter h.1
    by_cases hlast : parameters = []
    · subst hlast
      simpa [spellingsOfParameters, eachOfTypes, label] using hparameter.last index
    · have hmore := hparameter.more (says_parameters hlast h.2 (index + 1))
      rw [spellingsOfParameters,
        toList_intercalate_cons _ _ (spellingsOfParameters_ne_nil hlast (index + 1))]
      simpa [label, eachOfTypes] using hmore

end

theorem read_spelling {type : Api.TypeExpr} (h : type.Simple elements) :
    Spelling.read type.spelling = some type.asRead := by
  have hread := (says_spelling type h).reads [] (by simp [Stops])
  rw [List.append_nil] at hread
  rw [Spelling.read, hread _ (Nat.le_refl _)]
  rfl

end

end LuaStubs
