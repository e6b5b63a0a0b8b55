import LuaStubs.Json.Record
import LuaStubs.Proofs.Outcomes
import Mathlib.Algebra.Group.Nat.Defs
import Mathlib.Data.List.Forall2
import Mathlib.Data.List.Nodup
import Mathlib.Data.List.Perm.Basic

/-! What an object says under which keys, in any order and among members that nobody asks for, and
what a record takes out of such an object. -/

namespace LuaStubs.Json

/-- What stands under a key, and when the key may be missing. -/
structure Entry where
  key : String
  value : Value → Prop
  omissible : Prop

namespace Entry

def required (key : String) (value : Value → Prop) : Entry :=
  ⟨key, value, False⟩

def In (e : Entry) (members : List (String × Value)) : Prop :=
  (∃ v, (e.key, v) ∈ members ∧ e.value v) ∨ (e.omissible ∧ ∀ v, (e.key, v) ∉ members)

variable {e : Entry} {members : List (String × Value)}

theorem In.filter (h : e.In members) {p : String → Bool} (hkey : p e.key = true) :
    e.In (members.filter fun m => p m.1) := by
  rcases h with ⟨v, hv, holds⟩ | ⟨omissible, missing⟩
  · exact .inl ⟨v, List.mem_filter.mpr ⟨hv, hkey⟩, holds⟩
  · exact .inr ⟨omissible, fun v hv => missing v (List.mem_filter.mp hv).1⟩

theorem In.perm (h : e.In members) {others : List (String × Value)} (perm : others.Perm members) :
    e.In others := by
  rcases h with ⟨v, hv, holds⟩ | ⟨omissible, missing⟩
  · exact .inl ⟨v, perm.mem_iff.mpr hv, holds⟩
  · exact .inr ⟨omissible, fun v hv => missing v (perm.mem_iff.mp hv)⟩

end Entry

theorem Entry.in_filter {entries : List Entry} {members : List (String × Value)} {p : String → Bool}
    (h : ∀ e ∈ entries, e.In members) (kept : (entries.map (·.key)).all p = true) :
    ∀ e ∈ entries, e.In (members.filter fun m => p m.1) :=
  fun e he => (h e he).filter (List.all_eq_true.mp kept _ (List.mem_map_of_mem he))

/-! Encodings: which values stand for something. -/

namespace Value

def Text (text : String) (v : Value) : Prop :=
  v = .string text

def Flag (b : Bool) (v : Value) : Prop :=
  v = .bool b

def Natural (bits n : Nat) (v : Value) : Prop :=
  v = .number (.integer n) ∧ n < 2 ^ bits

def Nullable {α : Type} (encoded : α → Value → Prop) : Option α → Value → Prop
  | none, v => v = .null
  | some a, v => encoded a v

def Array (items : List Value → Prop) : Value → Prop
  | .array values => items values
  | _ => False

def ListOf {α : Type} (encoded : α → Value → Prop) (xs : List α) : Value → Prop :=
  Array (List.Forall₂ encoded xs)

/-- An object with some entries, each key only once. -/
def Object (entries : List Entry) : Value → Prop
  | .object members => (members.map (·.1)).Nodup ∧ ∀ e ∈ entries, e.In members
  | _ => False

end Value

/-! Normal forms have the same entries, if these hold of normal forms too. -/

def Persists (value : Value → Prop) : Prop :=
  ∀ v, value v → value v.normal

theorem normalItems_eq_map (items : List Value) : normalItems items = items.map Value.normal := by
  induction items with
  | nil => rfl
  | cons v items ih => rw [normalItems, ih, List.map_cons]

theorem normalMembers_eq_map (members : List (String × Value)) :
    normalMembers members = members.map fun m => (m.1, m.2.normal) := by
  induction members with
  | nil => rfl
  | cons m members ih =>
    obtain ⟨key, v⟩ := m
    rw [normalMembers, ih, List.map_cons]

theorem keys_normalMembers (members : List (String × Value)) :
    (normalMembers members).map (·.1) = members.map (·.1) := by
  rw [normalMembers_eq_map, List.map_map]
  rfl

theorem assign_perm {α : Type} {key : String} {value : α} {members : List (String × α)}
    (h : key ∉ members.map (·.1)) : (assign key value members).Perm ((key, value) :: members) := by
  induction members with
  | nil => exact .refl _
  | cons m members ih =>
    obtain ⟨other, old⟩ := m
    obtain ⟨hother, hrest⟩ := not_or.mp (fun hkey => h (List.mem_cons.mpr hkey))
    rw [assign, if_neg hother]
    split
    · exact .refl _
    · exact ((ih hrest).cons _).trans (.swap ..)

theorem assignAll_perm {α : Type} {members : List (String × α)} (h : (members.map (·.1)).Nodup) :
    (assignAll members).Perm members := by
  -- Along the way, the members met so far are in place already.
  have run : ∀ rest done : List (String × α), ((rest ++ done).map (·.1)).Nodup →
      (rest.foldl (fun done m => assign m.1 m.2 done) done).Perm (rest ++ done) := by
    intro rest
    induction rest with
    | nil => exact fun done _ => .refl _
    | cons m rest ih =>
      intro done nodup
      obtain ⟨key, value⟩ := m
      rw [List.cons_append, List.map_cons, List.nodup_cons] at nodup
      have new : key ∉ done.map (·.1) := fun hkey =>
        nodup.1 (by rw [List.map_append]; exact List.mem_append_right _ hkey)
      have placed : (rest ++ assign key value done).Perm ((key, value) :: (rest ++ done)) :=
        ((assign_perm new).append_left rest).trans List.perm_middle
      have unique : ((rest ++ assign key value done).map (·.1)).Nodup :=
        (placed.map (·.1)).nodup_iff.mpr (List.nodup_cons.mpr nodup)
      exact (ih _ unique).trans placed
  have all := run members [] (by rwa [List.append_nil])
  rwa [List.append_nil] at all

theorem Entry.In.normalMembers {e : Entry} {members : List (String × Value)} (h : e.In members)
    (persists : Persists e.value) : e.In (normalMembers members) := by
  rw [normalMembers_eq_map]
  rcases h with ⟨v, hv, holds⟩ | ⟨omissible, missing⟩
  · exact .inl ⟨v.normal, List.mem_map.mpr ⟨_, hv, rfl⟩, persists v holds⟩
  · refine .inr ⟨omissible, fun v hv => ?_⟩
    obtain ⟨⟨key, w⟩, hw, heq⟩ := List.mem_map.mp hv
    cases heq
    exact missing w hw

/-- The normal form of the members of an object. -/
theorem normalForm_nodup {members : List (String × Value)} (h : (members.map (·.1)).Nodup) :
    ((assignAll (normalMembers members)).map (·.1)).Nodup := by
  have nodup : ((normalMembers members).map (·.1)).Nodup := by rwa [keys_normalMembers]
  exact ((assignAll_perm nodup).map (·.1)).nodup_iff.mpr nodup

theorem Entry.In.normalForm {e : Entry} {members : List (String × Value)} (h : e.In members)
    (persists : Persists e.value) (nodup : (members.map (·.1)).Nodup) :
    e.In (assignAll (Json.normalMembers members)) :=
  (h.normalMembers persists).perm (assignAll_perm (by rwa [keys_normalMembers]))

namespace Value

theorem persists_text (text : String) : Persists (Text text) := by
  rintro _ rfl
  rfl

theorem persists_flag (b : Bool) : Persists (Flag b) := by
  rintro _ rfl
  rfl

theorem persists_natural (bits n : Nat) : Persists (Natural bits n) := by
  rintro _ ⟨rfl, below⟩
  exact ⟨rfl, below⟩

variable {α : Type} {encoded : α → Value → Prop}

theorem persists_nullable {x : Option α} (h : ∀ a ∈ x, Persists (encoded a)) :
    Persists (Nullable encoded x) := by
  cases x with
  | none =>
    rintro _ rfl
    rfl
  | some a => exact h a rfl

theorem persists_array {items : List Value → Prop}
    (h : ∀ values, items values → items (normalItems values)) : Persists (Array items) := by
  intro v array
  cases v with
  | array values => exact h values array
  | _ => cases array

theorem persists_listOf {xs : List α} (h : ∀ x ∈ xs, Persists (encoded x)) :
    Persists (ListOf encoded xs) := by
  refine persists_array fun values items => ?_
  rw [normalItems_eq_map]
  induction items with
  | nil => exact .nil
  | cons own _ ih =>
    exact .cons (h _ List.mem_cons_self _ own) (ih fun x hx => h x (List.mem_cons_of_mem _ hx))

theorem persists_object {entries : List Entry} (h : ∀ e ∈ entries, Persists e.value) :
    Persists (Object entries) := by
  intro v object
  cases v with
  | object members =>
    obtain ⟨nodup, holds⟩ := object
    exact ⟨normalForm_nodup nodup, fun e he => (holds e he).normalForm (h e he) nodup⟩
  | _ => cases object

end Value

end LuaStubs.Json
