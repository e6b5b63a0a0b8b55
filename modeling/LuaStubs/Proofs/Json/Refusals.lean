import LuaStubs.Proofs.Json.Slots

/-! What is wrong with the members of an object: each field has a check for the value under its key,
and a record whose fields may all be absent is refused for the first member that fails its check.
Members under other keys count for nothing. -/

namespace LuaStubs.Json

open Outcome

/-- A key and the reason for which a value under it is refused, if it is. -/
abbrev Check : Type := String × (Value → Option Reason)

namespace Decoder

variable {α : Type} {decoder : Decoder α} {origin : Origin} {v : Value}

/-- The reason for which a decoder refuses a value, if it does. -/
def refusal? (origin : Origin) (decoder : Decoder α) (v : Value) : Option Reason :=
  match decoder.ofValue origin v with
  | .ok _ => none
  | .error reason => some reason

theorem refusal?_eq_none : decoder.refusal? origin v = none ↔ ∃ a, decoder.ofValue origin v = .ok a := by
  unfold refusal?
  cases decoder.ofValue origin v with
  | ok a => exact iff_of_true rfl ⟨a, rfl⟩
  | error reason => simp

theorem refusal?_eq_some {reason : Reason} :
    decoder.refusal? origin v = some reason ↔ decoder.ofValue origin v = .error reason := by
  unfold refusal?
  cases decoder.ofValue origin v with
  | ok a => simp
  | error reason' => simp

end Decoder

def Check.of {α : Type} (origin : Origin) (key : String) (decoder : Decoder α) : Check :=
  (key, decoder.refusal? origin)

/-- The reason for which a member fails the check of its key. -/
def refusal? (checks : List Check) (member : String × Value) : Option Reason :=
  (checks.lookup member.1).bind (· member.2)

namespace Fields

variable {αs : List Type} {origin : Origin}

def checks {αs : List Type} (origin : Origin) : Fields αs → List Check
  | .nil => []
  | .cons key decoder _ others => .of origin key decoder :: others.checks origin

def optional {αs : List Type} : Fields αs → Bool
  | .nil => true
  | .cons _ _ absent others => absent.isSome && others.optional

def Vacant {αs : List Type} (key : String) : Fields αs → Slots αs → Prop
  | .nil, _ => True
  | .cons own _ _ others, (slot, slots) => (key = own → slot = none) ∧ others.Vacant key slots

theorem vacant_vacant (key : String) (fields : Fields αs) : fields.Vacant key fields.vacant := by
  induction fields with
  | nil => trivial
  | cons own decoder absent others ih => exact ⟨fun _ => rfl, ih⟩

theorem has_iff {key : String} {fields : Fields αs} :
    fields.has key = true ↔ key ∈ (fields.checks origin).map (·.1) := by
  induction fields with
  | nil => exact iff_of_false Bool.false_ne_true List.not_mem_nil
  | cons own decoder absent others ih =>
    rw [has, checks, List.map_cons, List.mem_cons, Bool.or_eq_true, ih, decide_eq_true_iff]
    rfl

theorem refusal?_of_not_has {fields : Fields αs} {member : String × Value}
    (h : fields.has member.1 = false) : refusal? (fields.checks origin) member = none := by
  have hnone : (fields.checks origin).lookup member.1 = none := by
    rw [List.lookup_eq_none_iff]
    intro check hcheck
    have hkey : member.1 ≠ check.1 := by
      intro same
      have known : fields.has member.1 = true := has_iff.mpr (List.mem_map.mpr ⟨check, hcheck, same.symm⟩)
      cases h.symm.trans known
    simpa using hkey
  rw [refusal?, hnone]
  rfl

section

variable {α : Type} {own : String} {decoder : Decoder α} {absent : Option α} {others : Fields αs}

theorem refusal?_own {v : Value} :
    refusal? ((cons own decoder absent others).checks origin) (own, v)
      = decoder.refusal? origin v := by
  rw [refusal?, checks, Check.of, List.lookup_cons_self]
  rfl

theorem refusal?_other {member : String × Value} (h : member.1 ≠ own) :
    refusal? ((cons own decoder absent others).checks origin) member
      = refusal? (others.checks origin) member := by
  rw [refusal?, checks, Check.of, List.lookup_cons, beq_false_of_ne h]
  rfl

end

/-! Putting members into vacant slots. -/

theorem put_of_refusal {key : String} {v : Value} {fields : Fields αs} {slots : Slots αs}
    (vacant : fields.Vacant key slots) {reason : Reason}
    (h : refusal? (fields.checks origin) (key, v) = some reason) :
    fields.put origin key v slots = .error reason := by
  induction fields with
  | nil => cases h
  | cons own decoder absent others ih =>
    obtain ⟨slot, slots⟩ := slots
    obtain ⟨hslot, hslots⟩ := vacant
    by_cases hkey : key = own
    · subst hkey
      rw [refusal?_own, Decoder.refusal?_eq_some] at h
      simp only [put, if_true, hslot rfl, h]
      rfl
    · rw [refusal?_other hkey] at h
      simp only [put, if_neg hkey, ih hslots h]
      rfl

theorem put_of_passed {key : String} {v : Value} {fields : Fields αs} {slots : Slots αs}
    (vacant : fields.Vacant key slots) (h : refusal? (fields.checks origin) (key, v) = none) :
    ∃ next, fields.put origin key v slots = .ok next ∧
      ∀ other, other ≠ key → fields.Vacant other slots → fields.Vacant other next := by
  induction fields with
  | nil => exact ⟨slots, rfl, fun _ _ h => h⟩
  | cons own decoder absent others ih =>
    obtain ⟨slot, slots⟩ := slots
    obtain ⟨hslot, hslots⟩ := vacant
    by_cases hkey : key = own
    · subst hkey
      rw [refusal?_own, Decoder.refusal?_eq_none] at h
      obtain ⟨a, ha⟩ := h
      refine ⟨_, put_own.mpr ⟨hslot rfl, a, ha, rfl⟩, ?_⟩
      exact fun other hother hvacant => ⟨fun same => absurd same hother, hvacant.2⟩
    · rw [refusal?_other hkey] at h
      obtain ⟨next, hnext, hkeeps⟩ := ih hslots h
      refine ⟨_, (put_other hkey).mpr ⟨next, hnext, rfl⟩, ?_⟩
      exact fun other hother hvacant => ⟨hvacant.1, hkeeps other hother hvacant.2⟩

theorem putAll_of_refusal {fields : Fields αs} {members : List (String × Value)}
    (nodup : (members.map (·.1)).Nodup) {slots : Slots αs}
    (vacant : ∀ m ∈ members, fields.Vacant m.1 slots) {reason : Reason}
    (h : members.findSome? (refusal? (fields.checks origin)) = some reason) :
    fields.putAll origin members slots = .error reason := by
  induction members generalizing slots with
  | nil => cases h
  | cons m members ih =>
    obtain ⟨key, v⟩ := m
    obtain ⟨unique, nodup⟩ := List.nodup_cons.mp nodup
    obtain ⟨own, others⟩ := List.forall_mem_cons.mp vacant
    rw [List.findSome?_cons] at h
    cases hfirst : refusal? (fields.checks origin) (key, v) with
    | some first =>
      rw [hfirst] at h
      cases h
      rw [putAll, put_of_refusal own hfirst]
      rfl
    | none =>
      rw [hfirst] at h
      obtain ⟨next, hnext, hkeeps⟩ := put_of_passed own hfirst
      have hrest : ∀ m ∈ members, fields.Vacant m.1 next := by
        intro m hm
        have hother : m.1 ≠ key := by
          rintro rfl
          exact unique (List.mem_map.mpr ⟨m, hm, rfl⟩)
        exact hkeeps _ hother (others m hm)
      rw [putAll, hnext]
      exact ih nodup hrest h

theorem fits_of_passed {fields : Fields αs} {members : List (String × Value)}
    (distinct : fields.distinct = true) (optional : fields.optional = true)
    (h : ∀ m ∈ members, refusal? (fields.checks origin) m = none) :
    ∃ values, fields.Fits origin members values := by
  induction fields with
  | nil => exact ⟨(), trivial⟩
  | cons own decoder absent others ih =>
    obtain ⟨alone, distinct⟩ := Bool.and_eq_true_iff.mp distinct
    have alone : others.has own = false := Bool.not_eq_true' _ ▸ alone
    obtain ⟨hown, optional⟩ := Bool.and_eq_true_iff.mp optional
    have hothers : ∀ m ∈ members, refusal? (others.checks origin) m = none := by
      intro m hm
      by_cases hkey : m.1 = own
      · exact refusal?_of_not_has (hkey ▸ alone)
      · rw [← refusal?_other hkey]
        exact h m hm
    obtain ⟨values, fits⟩ := ih distinct optional hothers
    by_cases present : ∃ v, (own, v) ∈ members
    · obtain ⟨v, hv⟩ := present
      have passed := h _ hv
      rw [refusal?_own, Decoder.refusal?_eq_none] at passed
      obtain ⟨a, ha⟩ := passed
      exact ⟨(a, values), .inl ⟨v, hv, ha⟩, fits⟩
    · obtain ⟨usual, rfl⟩ := Option.isSome_iff_exists.mp hown
      exact ⟨(usual, values), .inr ⟨rfl, not_exists.mp present⟩, fits⟩

theorem putAll_filter {fields : Fields αs} (members : List (String × Value)) (slots : Slots αs) :
    fields.putAll origin (members.filter fun m => fields.has m.1) slots
      = fields.putAll origin members slots := by
  induction members generalizing slots with
  | nil => rfl
  | cons m members ih =>
    cases hm : fields.has m.1 with
    | true =>
      rw [List.filter_cons, if_pos hm, putAll, putAll]
      congr 1
      funext next
      exact ih next
    | false =>
      rw [List.filter_cons, hm, putAll, put_of_not_has hm]
      exact ih slots

end Fields

namespace Record

variable {ρ : Type} (r : Record ρ) {origin : Origin} {members : List (String × Value)}

/-- A record whose fields may be absent is refused for the first member that fails its check, and for
nothing else. -/
theorem ofMembers_eq_error (nodup : (members.map (·.1)).Nodup) (distinct : r.fields.distinct = true)
    (optional : r.fields.optional = true) {reason : Reason} :
    r.ofMembers origin members = .error reason ↔
      members.findSome? (refusal? (r.fields.checks origin)) = some reason := by
  have refused : ∀ {reason}, members.findSome? (refusal? (r.fields.checks origin)) = some reason →
      r.ofMembers origin members = .error reason := by
    intro reason h
    rw [ofMembers, Fields.putAll_of_refusal nodup (fun m _ => Fields.vacant_vacant m.1 _) h]
    rfl
  refine ⟨fun h => ?_, refused⟩
  cases hfirst : members.findSome? (refusal? (r.fields.checks origin)) with
  | some first =>
    cases h.symm.trans (refused hfirst)
    rfl
  | none =>
    obtain ⟨values, fits⟩ := Fields.fits_of_passed distinct optional (List.findSome?_eq_none_iff.mp hfirst)
    cases h.symm.trans (r.ofMembers_of_fits nodup distinct values fits)

theorem ofMembers_eq_ok (nodup : (members.map (·.1)).Nodup) (distinct : r.fields.distinct = true)
    (optional : r.fields.optional = true) {a : ρ} :
    r.ofMembers origin members = .ok a ↔
      ∃ values, r.fields.Fits origin members values ∧ r.build values = a := by
  constructor
  · intro h
    have passed : members.findSome? (refusal? (r.fields.checks origin)) = none := by
      cases hfirst : members.findSome? (refusal? (r.fields.checks origin)) with
      | none => rfl
      | some reason => cases h.symm.trans ((r.ofMembers_eq_error nodup distinct optional).mpr hfirst)
    obtain ⟨values, fits⟩ := Fields.fits_of_passed distinct optional (List.findSome?_eq_none_iff.mp passed)
    cases h.symm.trans (r.ofMembers_of_fits nodup distinct values fits)
    exact ⟨values, fits, rfl⟩
  · rintro ⟨values, fits, rfl⟩
    exact r.ofMembers_of_fits nodup distinct values fits

/-- Members under other keys than those of the fields change nothing. -/
theorem ofMembers_congr {others : List (String × Value)}
    (h : (others.filter fun m => r.fields.has m.1) = members.filter fun m => r.fields.has m.1) :
    r.ofMembers origin others = r.ofMembers origin members := by
  rw [ofMembers, ofMembers, ← Fields.putAll_filter others, h, Fields.putAll_filter]

end Record

end LuaStubs.Json
