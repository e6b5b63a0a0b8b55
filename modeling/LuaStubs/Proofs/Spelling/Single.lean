import LuaStubs.Proofs.Spelling.Reading

/-! Brackets bind to the last alternative only. What is read from an annotation is the type that it
was written for, up to variants inside variants, exactly if the values of all arrays have a single
alternative. -/

namespace LuaStubs

/-! Single alternatives are enough. -/

theorem arrayOfLast_of_single {alternatives : List Api.TypeExpr} (h : alternatives.length = 1) :
    arrayOfLast alternatives = arrayOfAny alternatives := by
  obtain ⟨only, rfl⟩ := List.length_eq_one_iff.mp h
  rfl

mutual

theorem alternatives_of_arraysOfOne (type : Api.TypeExpr) (h : type.ArraysOfOne) :
    type.alternatives arrayOfLast = type.alternatives arrayOfAny := by
  cases type with
  | named name => rfl
  | array value =>
    rw [Api.TypeExpr.alternatives, alternatives_of_arraysOfOne value h.2, arrayOfLast_of_single h.1,
      Api.TypeExpr.alternatives]
  | dictionary key value =>
    simp only [Api.TypeExpr.alternatives, alternatives_of_arraysOfOne key h.1,
      alternatives_of_arraysOfOne value h.2]
  | variant options => exact alternativesOfTypes_of_arraysOfOne h
  | lazyLoaded value =>
    simp only [Api.TypeExpr.alternatives, alternatives_of_arraysOfOne value h]
  | customTable key value =>
    simp only [Api.TypeExpr.alternatives, alternatives_of_arraysOfOne key h.1,
      alternatives_of_arraysOfOne value h.2]
  | table shape => rfl
  | function parameters =>
    simp only [Api.TypeExpr.alternatives, eachOfTypes_of_arraysOfOne parameters h]

theorem alternativesOfTypes_of_arraysOfOne {types : List Api.TypeExpr}
    (h : arraysOfOneInTypes types) :
    alternativesOfTypes arrayOfLast types = alternativesOfTypes arrayOfAny types := by
  cases types with
  | nil => rfl
  | cons type types =>
    rw [alternativesOfTypes, alternativesOfTypes, alternatives_of_arraysOfOne type h.1,
      alternativesOfTypes_of_arraysOfOne h.2]

theorem eachOfTypes_of_arraysOfOne (types : List Api.TypeExpr)
    (h : arraysOfOneInTypes types) :
    eachOfTypes arrayOfLast types = eachOfTypes arrayOfAny types := by
  cases types with
  | nil => rfl
  | cons type types =>
    rw [eachOfTypes, eachOfTypes, alternatives_of_arraysOfOne type h.1,
      eachOfTypes_of_arraysOfOne types h.2]

end

/-! Single alternatives are needed. -/

def Api.TypeExpr.IsVariant : Api.TypeExpr → Prop
  | .variant _ => True
  | _ => False

theorem oneOf_inj {a b : List Api.TypeExpr} (ha : ∀ type ∈ a, ¬type.IsVariant)
    (hb : ∀ type ∈ b, ¬type.IsVariant) (h : oneOf a = oneOf b) : a = b := by
  have single {only : Api.TypeExpr} {options : List Api.TypeExpr} (hone : ¬only.IsVariant)
      (same : only = .variant options) : False := by
    subst same
    exact hone trivial
  match a, b with
  | [x], [y] => exact congrArg (fun type => [type]) h
  | [x], [] => exact (single (ha x List.mem_cons_self) h).elim
  | [x], y :: z :: b => exact (single (ha x List.mem_cons_self) h).elim
  | [], [y] => exact (single (hb y List.mem_cons_self) h.symm).elim
  | x :: z :: a, [y] => exact (single (hb y List.mem_cons_self) h.symm).elim
  | [], [] => rfl
  | [], y :: z :: b => cases h
  | x :: z :: a, [] => cases h
  | x :: z :: a, y :: w :: b => cases h; rfl

theorem not_isVariant_arrayOfLast {alternatives : List Api.TypeExpr}
    (h : ∀ type ∈ alternatives, ¬type.IsVariant) :
    ∀ type ∈ arrayOfLast alternatives, ¬type.IsVariant := by
  induction alternatives with
  | nil => exact h
  | cons first rest ih =>
    cases rest with
    | nil => simp [arrayOfLast, Api.TypeExpr.IsVariant]
    | cons second rest =>
      rw [arrayOfLast]
      · rw [List.forall_mem_cons] at h ⊢
        exact ⟨h.1, ih h.2⟩
      · simp

theorem length_arrayOfLast (alternatives : List Api.TypeExpr) :
    (arrayOfLast alternatives).length = alternatives.length := by
  fun_induction arrayOfLast with
  | case1 => rfl
  | case2 => rfl
  | case3 first rest _ ih => simp [ih]

theorem not_isVariant_arrayOfAny (alternatives : List Api.TypeExpr) :
    ∀ type ∈ arrayOfAny alternatives, ¬type.IsVariant := by
  simp [arrayOfAny, Api.TypeExpr.IsVariant]

section

variable {arrayOf : List Api.TypeExpr → List Api.TypeExpr}

mutual

theorem not_isVariant_alternatives
    (harray : ∀ alternatives : List Api.TypeExpr, (∀ type ∈ alternatives, ¬type.IsVariant) →
      ∀ type ∈ arrayOf alternatives, ¬type.IsVariant) (type : Api.TypeExpr) :
    ∀ alternative ∈ type.alternatives arrayOf, ¬alternative.IsVariant := by
  cases type with
  | array value => exact harray _ (not_isVariant_alternatives harray value)
  | variant options => exact not_isVariant_alternativesOfTypes harray options
  | named | dictionary | lazyLoaded | customTable | table | function =>
    rintro _ (_ | ⟨_, ⟨⟩⟩)
    exact id

theorem not_isVariant_alternativesOfTypes
    (harray : ∀ alternatives : List Api.TypeExpr, (∀ type ∈ alternatives, ¬type.IsVariant) →
      ∀ type ∈ arrayOf alternatives, ¬type.IsVariant) (types : List Api.TypeExpr) :
    ∀ alternative ∈ alternativesOfTypes arrayOf types, ¬alternative.IsVariant := by
  cases types with
  | nil => exact List.forall_mem_nil _
  | cons type types =>
    exact List.forall_mem_append.mpr ⟨not_isVariant_alternatives harray type,
      not_isVariant_alternativesOfTypes harray types⟩

end

end

theorem alternatives_of_oneOf {type : Api.TypeExpr}
    (h : oneOf (type.alternatives arrayOfLast) = oneOf (type.alternatives arrayOfAny)) :
    type.alternatives arrayOfLast = type.alternatives arrayOfAny :=
  oneOf_inj (not_isVariant_alternatives (fun _ => not_isVariant_arrayOfLast) type)
    (not_isVariant_alternatives (fun alternatives _ => not_isVariant_arrayOfAny alternatives) type) h

section

variable {elements : NameMap Api.TypeExpr}

mutual

/-- Brackets that bind to the last alternative only can give more alternatives, but not less. -/
theorem length_alternatives (type : Api.TypeExpr) (h : type.Simple elements) :
    1 ≤ (type.alternatives arrayOfAny).length ∧
      (type.alternatives arrayOfAny).length ≤ (type.alternatives arrayOfLast).length := by
  cases type with
  | array value =>
    obtain ⟨hsome, hle⟩ := length_alternatives value h
    simp only [Api.TypeExpr.alternatives, length_arrayOfLast, arrayOfAny, List.length_singleton]
    omega
  | variant options =>
    obtain ⟨hsome, hle⟩ := length_alternativesOfTypes h.2
    exact ⟨hsome h.1, hle⟩
  | table => exact False.elim h
  | named | dictionary | lazyLoaded | customTable | function => exact ⟨Nat.le_refl _, Nat.le_refl _⟩

theorem length_alternativesOfTypes {types : List Api.TypeExpr} (h : simpleTypes elements types) :
    (types ≠ [] → 1 ≤ (alternativesOfTypes arrayOfAny types).length) ∧
      (alternativesOfTypes arrayOfAny types).length
        ≤ (alternativesOfTypes arrayOfLast types).length := by
  cases types with
  | nil => exact ⟨fun hsome => absurd rfl hsome, Nat.le_refl _⟩
  | cons type types =>
    have hfirst := length_alternatives type h.1
    have hrest := length_alternativesOfTypes h.2
    simp only [alternativesOfTypes, List.length_append]
    omega

end

mutual

theorem arraysOfOne_of_alternatives (type : Api.TypeExpr) (simple : type.Simple elements)
    (h : type.alternatives arrayOfLast = type.alternatives arrayOfAny) : type.ArraysOfOne := by
  cases type with
  | named => trivial
  | array value =>
    have hlength := length_alternatives value simple
    simp only [Api.TypeExpr.alternatives, arrayOfAny] at h
    have hone : (value.alternatives arrayOfLast).length = 1 := by
      rw [← length_arrayOfLast, h]
      rfl
    obtain ⟨last, hlast⟩ := List.length_eq_one_iff.mp hone
    have hvalue : oneOf (value.alternatives arrayOfLast) = oneOf (value.alternatives arrayOfAny) := by
      rw [hlast] at h ⊢
      simpa [arrayOfLast, oneOf] using h
    exact ⟨by omega, arraysOfOne_of_alternatives value simple (alternatives_of_oneOf hvalue)⟩
  | dictionary key value =>
    simp only [Api.TypeExpr.alternatives, List.cons.injEq, Api.TypeExpr.dictionary.injEq,
      and_true] at h
    exact ⟨arraysOfOne_of_alternatives key simple.1 (alternatives_of_oneOf h.1),
      arraysOfOne_of_alternatives value simple.2 (alternatives_of_oneOf h.2)⟩
  | variant options => exact arraysOfOneInTypes_of_alternatives simple.2 h
  | lazyLoaded value =>
    simp only [Api.TypeExpr.alternatives, List.cons.injEq, Api.TypeExpr.lazyLoaded.injEq,
      and_true] at h
    exact arraysOfOne_of_alternatives value simple (alternatives_of_oneOf h)
  | customTable key value =>
    simp only [Api.TypeExpr.alternatives, List.cons.injEq, Api.TypeExpr.customTable.injEq,
      and_true] at h
    exact ⟨arraysOfOne_of_alternatives key simple.1 (alternatives_of_oneOf h.1),
      arraysOfOne_of_alternatives value simple.2 (alternatives_of_oneOf h.2)⟩
  | table => exact False.elim simple
  | function parameters =>
    simp only [Api.TypeExpr.alternatives, List.cons.injEq, Api.TypeExpr.function.injEq,
      and_true] at h
    exact arraysOfOneInTypes_of_each parameters simple h

theorem arraysOfOneInTypes_of_alternatives {types : List Api.TypeExpr}
    (simple : simpleTypes elements types)
    (h : alternativesOfTypes arrayOfLast types = alternativesOfTypes arrayOfAny types) :
    arraysOfOneInTypes types := by
  cases types with
  | nil => trivial
  | cons type types =>
    have hfirst := length_alternatives type simple.1
    have hrest := length_alternativesOfTypes simple.2
    have hlength := congrArg List.length h
    simp only [alternativesOfTypes, List.length_append] at h hlength
    obtain ⟨htype, htypes⟩ := List.append_inj h (by omega)
    exact ⟨arraysOfOne_of_alternatives type simple.1 htype,
      arraysOfOneInTypes_of_alternatives simple.2 htypes⟩

theorem arraysOfOneInTypes_of_each (types : List Api.TypeExpr)
    (simple : simpleTypes elements types)
    (h : eachOfTypes arrayOfLast types = eachOfTypes arrayOfAny types) :
    arraysOfOneInTypes types := by
  cases types with
  | nil => trivial
  | cons type types =>
    simp only [eachOfTypes, List.cons.injEq] at h
    exact ⟨arraysOfOne_of_alternatives type simple.1 (alternatives_of_oneOf h.1),
      arraysOfOneInTypes_of_each types simple.2 h.2⟩

end

theorem asRead_eq_meaning_iff {type : Api.TypeExpr} (simple : type.Simple elements) :
    type.asRead = type.meaning ↔ type.ArraysOfOne := by
  constructor
  · intro h
    exact arraysOfOne_of_alternatives type simple (alternatives_of_oneOf h)
  · intro h
    exact congrArg oneOf (alternatives_of_arraysOfOne type h)

end

end LuaStubs
