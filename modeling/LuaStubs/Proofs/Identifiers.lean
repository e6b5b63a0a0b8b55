import LuaStubs.Stub.Line

/-! Names as identifiers. Whatever a name is made of, what stands for it is an identifier, and none
of the three steps on the way undoes what another one has done: a name gets at most one of the two
marks, and an identifier gets neither. -/

namespace LuaStubs.Identifier

/-- What a name has to be in order to name a variable or a field: its letters and digits are ASCII. -/
structure Valid (name : String) : Prop where
  nonempty : name ≠ ""
  words : ∀ c ∈ name.toList, c.isAlphanum = true ∨ c = '_'
  start : ∀ c ∈ name.toList.head?, c.isDigit = false
  unreserved : name ∉ keywords

/-! Keywords. -/

theorem start_of_mem_keywords : ∀ keyword ∈ keywords,
    ∀ c ∈ keyword.toList.head?, c.isDigit = false ∧ c ≠ '_' := by simp [keywords]

theorem marked_not_mem_keywords : ∀ keyword ∈ keywords, keyword ++ "_" ∉ keywords := by decide

/-! Characters. -/

theorem isWord_symbol (c : Char) : (symbol c).isAlphanum = true ∨ symbol c = '_' := by
  unfold symbol
  split
  · rename_i word
    exact .inl word
  · exact .inr rfl

theorem symbol_of_isWord {c : Char} (h : c.isAlphanum = true ∨ c = '_') : symbol c = c := by
  rcases h with word | rfl
  · exact if_pos word
  · rfl

theorem symbols_of_words {s : List Char} (h : ∀ c ∈ s, c.isAlphanum = true ∨ c = '_') :
    s.map symbol = s := by
  have same : s.map symbol = s.map id :=
    List.map_congr_left fun c hc => symbol_of_isWord (h c hc)
  rw [same, List.map_id]

theorem guardDigit_cases (s : List Char) :
    (guardDigit s = s ∧ ∀ c ∈ s.head?, c.isDigit = false) ∨
      (guardDigit s = '_' :: s ∧ ∃ c ∈ s.head?, c.isDigit = true) := by
  cases s with
  | nil => exact .inl ⟨rfl, nofun⟩
  | cons c s =>
    rw [guardDigit]
    split
    · rename_i digit
      exact .inr ⟨rfl, c, rfl, digit⟩
    · rename_i other
      refine .inl ⟨rfl, ?_⟩
      rintro _ ⟨⟩
      exact Bool.eq_false_iff.mpr other

/-! What becomes of a name. -/

/-- The marks that the symbols of a name may get: one before a digit, one behind a keyword, or none. -/
inductive Marked (s : List Char) : String → Prop
  | bare (start : ∀ c ∈ s.head?, c.isDigit = false) (unreserved : String.ofList s ∉ keywords) :
      Marked s (String.ofList s)
  | before (start : ∃ c ∈ s.head?, c.isDigit = true) : Marked s (String.ofList ('_' :: s))
  | behind (reserved : String.ofList s ∈ keywords) : Marked s (String.ofList s ++ "_")

theorem marked_ofName (name : String) : Marked (name.toList.map symbol) (ofName name) := by
  generalize hs : name.toList.map symbol = s
  rw [ofName, hs, escapeKeyword]
  rcases guardDigit_cases s with ⟨guarded, start⟩ | ⟨guarded, start⟩
  · rw [guarded]
    split
    · rename_i reserved
      exact .behind reserved
    · rename_i unreserved
      exact .bare start unreserved
  · have unreserved : String.ofList ('_' :: s) ∉ keywords := by
      intro reserved
      exact (start_of_mem_keywords _ reserved '_' (by simp)).2 rfl
    rw [guarded, if_neg unreserved]
    exact .before start

namespace Marked

variable {s : List Char} {marked : String}

theorem words (h : Marked s marked) (symbols : ∀ c ∈ s, c.isAlphanum = true ∨ c = '_') :
    ∀ c ∈ marked.toList, c.isAlphanum = true ∨ c = '_' := by
  intro c hc
  cases h with
  | bare start unreserved =>
    rw [String.toList_ofList] at hc
    exact symbols c hc
  | before start =>
    rw [String.toList_ofList] at hc
    rcases List.mem_cons.mp hc with rfl | hc
    · exact .inr rfl
    · exact symbols c hc
  | behind reserved =>
    rw [String.toList_append, String.toList_ofList] at hc
    rcases List.mem_append.mp hc with hc | hc
    · exact symbols c hc
    · exact .inr (List.mem_singleton.mp hc)

theorem eq_empty_iff (h : Marked s marked) : marked = "" ↔ s = [] := by
  cases h with
  | bare start unreserved => exact String.ofList_eq_empty_iff
  | before start =>
    obtain ⟨c, hc, -⟩ := start
    constructor
    · simp
    · rintro rfl
      cases hc
  | behind reserved =>
    -- No keyword is empty.
    constructor
    · simp
    · rintro rfl
      exact absurd reserved (by decide)

theorem start (h : Marked s marked) : ∀ c ∈ marked.toList.head?, c.isDigit = false := by
  intro c hc
  cases h with
  | bare start unreserved =>
    rw [String.toList_ofList] at hc
    exact start c hc
  | before start =>
    rw [String.toList_ofList] at hc
    cases hc
    rfl
  | behind reserved =>
    have keyword := start_of_mem_keywords _ reserved c
    cases s with
    | nil => exact absurd reserved (by decide)
    | cons first rest =>
      simp only [String.toList_append, String.toList_ofList, List.cons_append, List.head?_cons] at hc keyword
      exact (keyword hc).1

theorem unreserved (h : Marked s marked) : marked ∉ keywords := by
  cases h with
  | bare start unreserved => exact unreserved
  | before start =>
    intro reserved
    exact (start_of_mem_keywords _ reserved '_' (by simp)).2 rfl
  | behind reserved => exact marked_not_mem_keywords _ reserved

theorem length (h : Marked s marked) :
    marked.length = s.length ∨ marked.length = s.length + 1 := by
  cases h with
  | bare start unreserved => exact .inl String.length_ofList
  | before start => exact .inr String.length_ofList
  | behind reserved =>
    right
    rw [String.length_append, String.length_ofList]
    rfl

end Marked

theorem isWord_of_mem_ofName {name : String} {c : Char} (h : c ∈ (ofName name).toList) :
    c.isAlphanum = true ∨ c = '_' := by
  refine (marked_ofName name).words ?_ c h
  intro c hc
  obtain ⟨d, -, rfl⟩ := List.mem_map.mp hc
  exact isWord_symbol d

theorem not_mem_ofName {c : Char} (alphanum : c.isAlphanum = false) (underscore : c ≠ '_')
    (name : String) : c ∉ (ofName name).toList := by
  intro h
  rcases isWord_of_mem_ofName h with h | h
  · rw [alphanum] at h
    cases h
  · exact underscore h

theorem ofName_eq_empty_iff {name : String} : ofName name = "" ↔ name = "" := by
  rw [(marked_ofName name).eq_empty_iff, List.map_eq_nil_iff, String.toList_eq_nil_iff]

theorem valid_ofName {name : String} (h : name ≠ "") : Valid (ofName name) where
  nonempty := mt ofName_eq_empty_iff.mp h
  words _ := isWord_of_mem_ofName
  start := (marked_ofName name).start
  unreserved := (marked_ofName name).unreserved

theorem ofName_of_valid {name : String} (h : Valid name) : ofName name = name := by
  have marked := marked_ofName name
  rw [symbols_of_words h.words] at marked
  generalize ofName name = result at marked
  cases marked with
  | bare start unreserved => exact String.ofList_toList
  | before start =>
    obtain ⟨c, hc, digit⟩ := start
    rw [h.start c hc] at digit
    cases digit
  | behind reserved =>
    rw [String.ofList_toList] at reserved
    exact absurd reserved h.unreserved

theorem ofName_ofName (name : String) : ofName (ofName name) = ofName name := by
  by_cases h : name = ""
  · rw [h]
    rfl
  · exact ofName_of_valid (valid_ofName h)

theorem length_ofName (name : String) :
    (ofName name).length = name.length ∨ (ofName name).length = name.length + 1 := by
  have length := (marked_ofName name).length
  rwa [List.length_map, String.length_toList] at length

/-- What stands for a name is an identifier, unless the name is empty; identifiers stand for
themselves, and no name gets more than one character longer. -/
theorem ofName_is_identifier (name : String) :
    (ofName name = "" ↔ name = "") ∧ (Valid (ofName name) ↔ name ≠ "") ∧
      (ofName name = name ↔ Valid name ∨ name = "") ∧ ofName (ofName name) = ofName name ∧
      ((ofName name).length = name.length ∨ (ofName name).length = name.length + 1) := by
  refine ⟨ofName_eq_empty_iff, ⟨fun h => mt ofName_eq_empty_iff.mpr h.nonempty, valid_ofName⟩, ?_,
    ofName_ofName name, length_ofName name⟩
  constructor
  · intro same
    by_cases empty : name = ""
    · exact .inr empty
    · exact .inl (same ▸ valid_ofName empty)
  · rintro (valid | rfl)
    · exact ofName_of_valid valid
    · rfl

example : ofName "2x2" = "_2x2" ∧ ofName "end" = "end_" ∧ ofName "a.b c" = "a_b_c" := by decide

end LuaStubs.Identifier
