import LuaStubs.Json.Record
import LuaStubs.Proofs.Json.Entries
import LuaStubs.Proofs.Outcomes

/-! What a record takes out of an object: each field finds its own member, wherever it stands, and
the others are passed over. -/

namespace LuaStubs.Json

open Outcome

/-- A field finds a value, or is absent and has one then. -/
def Finds {α : Type} (origin : Origin) (members : List (String × Value)) (key : String)
    (decoder : Decoder α) (absent : Option α) (a : α) : Prop :=
  (∃ v, (key, v) ∈ members ∧ decoder.ofValue origin v = .ok a) ∨
    (absent = some a ∧ ∀ v, (key, v) ∉ members)

namespace Fields

variable {αs : List Type} {origin : Origin} {members : List (String × Value)}

def distinct {αs : List Type} : Fields αs → Bool
  | .nil => true
  | .cons key _ _ others => !others.has key && others.distinct

def Fits {αs : List Type} (origin : Origin) (members : List (String × Value)) :
    Fields αs → Values αs → Prop
  | .nil, _ => True
  | .cons key decoder absent others, (a, values) =>
    Finds origin members key decoder absent a ∧ others.Fits origin members values

theorem put_own {α : Type} {own : String} {v : Value} {decoder : Decoder α}
    {absent : Option α} {others : Fields αs} {slot : Option α} {slots : Slots αs}
    {next : Slots (α :: αs)} :
    (cons own decoder absent others).put origin own v (slot, slots) = .ok next ↔
      slot = none ∧ ∃ a, decoder.ofValue origin v = .ok a ∧ next = (some a, slots) := by
  cases slot with
  | none => simp only [put, if_true, bind_eq_ok, pure_eq_ok, true_and]
  | some a => simp [put]

theorem put_other {α : Type} {key own : String} (h : key ≠ own) {v : Value}
    {decoder : Decoder α} {absent : Option α} {others : Fields αs} {slot : Option α}
    {slots : Slots αs} {next : Slots (α :: αs)} :
    (cons own decoder absent others).put origin key v (slot, slots) = .ok next ↔
      ∃ slots', others.put origin key v slots = .ok slots' ∧ next = (slot, slots') := by
  cases slot with
  | none => simp only [put, if_neg h, bind_eq_ok, pure_eq_ok]
  | some a => simp only [put, if_neg h, bind_eq_ok, pure_eq_ok]

theorem put_of_not_has {key : String} {v : Value} {fields : Fields αs}
    (h : fields.has key = false) (slots : Slots αs) : fields.put origin key v slots = .ok slots := by
  induction fields with
  | nil => rfl
  | cons own decoder absent others ih =>
    obtain ⟨slot, slots⟩ := slots
    obtain ⟨hown, hothers⟩ := Bool.or_eq_false_iff.mp h
    exact (put_other (of_decide_eq_false hown)).mpr ⟨_, ih hothers slots, rfl⟩

section

variable {α : Type} {own : String} {decoder : Decoder α} {absent : Option α} {others : Fields αs}
  {slots last : Slots αs}

theorem putAll_missing (missing : ∀ v, (own, v) ∉ members)
    (h : others.putAll origin members slots = .ok last) (slot : Option α) :
    (cons own decoder absent others).putAll origin members (slot, slots) = .ok (slot, last) := by
  induction members generalizing slots with
  | nil =>
    cases h
    rfl
  | cons m members ih =>
    obtain ⟨key, v⟩ := m
    obtain ⟨next, hnext, h⟩ := bind_eq_ok.mp h
    have hkey : key ≠ own := by
      rintro rfl
      exact missing v List.mem_cons_self
    exact bind_eq_ok.mpr ⟨_, (put_other hkey).mpr ⟨next, hnext, rfl⟩,
      ih (fun v hv => missing v (List.mem_cons_of_mem _ hv)) h⟩

theorem putAll_present (nodup : (members.map (·.1)).Nodup) {v : Value} (hv : (own, v) ∈ members)
    {a : α} (ha : decoder.ofValue origin v = .ok a) (distinct : others.has own = false)
    (h : others.putAll origin members slots = .ok last) :
    (cons own decoder absent others).putAll origin members (none, slots) = .ok (some a, last) := by
  induction members generalizing slots with
  | nil => cases hv
  | cons m members ih =>
    obtain ⟨key, w⟩ := m
    obtain ⟨next, hnext, h⟩ := bind_eq_ok.mp h
    obtain ⟨unique, nodup⟩ := List.nodup_cons.mp nodup
    rcases List.mem_cons.mp hv with heq | hv
    · cases heq
      -- The other fields pass this member over.
      rw [put_of_not_has distinct] at hnext
      cases hnext
      have missing : ∀ v, (own, v) ∉ members := fun v hv => unique (List.mem_map.mpr ⟨_, hv, rfl⟩)
      exact bind_eq_ok.mpr ⟨_, put_own.mpr ⟨rfl, a, ha, rfl⟩, putAll_missing missing h _⟩
    · have hkey : key ≠ own := by
        rintro rfl
        exact unique (List.mem_map.mpr ⟨_, hv, rfl⟩)
      exact bind_eq_ok.mpr ⟨_, (put_other hkey).mpr ⟨next, hnext, rfl⟩, ih nodup hv h⟩

end

/-- The members fill the slots, and from there all values are completed. -/
theorem Fits.complete {fields : Fields αs} {values : Values αs}
    (h : fields.Fits origin members values) (distinct : fields.distinct = true)
    (nodup : (members.map (·.1)).Nodup) :
    ∃ slots, fields.putAll origin members fields.vacant = .ok slots ∧
      fields.complete slots = .ok values := by
  induction fields with
  | nil =>
    refine ⟨(), ?_, rfl⟩
    clear nodup
    induction members with
    | nil => rfl
    | cons m members ih => exact ih trivial
  | cons key decoder absent others ih =>
    obtain ⟨a, values⟩ := values
    obtain ⟨found, fits⟩ := h
    obtain ⟨alone, distinct⟩ := Bool.and_eq_true_iff.mp distinct
    have alone : others.has key = false := Bool.not_eq_true' _ ▸ alone
    obtain ⟨slots, hput, hcomplete⟩ := ih fits distinct
    rcases found with ⟨v, hv, ha⟩ | ⟨rfl, missing⟩
    · refine ⟨_, putAll_present nodup hv ha alone hput, ?_⟩
      simp only [Fields.complete, Option.some_or, hcomplete]
      rfl
    · refine ⟨_, putAll_missing missing hput none, ?_⟩
      simp only [Fields.complete, Option.none_or, hcomplete]
      rfl

end Fields

theorem height_le_of_mem {key : String} {v : Value} {members : List (String × Value)}
    (h : (key, v) ∈ members) : v.height ≤ heightOfMembers members := by
  induction members with
  | nil => cases h
  | cons m members ih =>
    obtain ⟨other, w⟩ := m
    rw [heightOfMembers]
    rcases List.mem_cons.mp h with heq | h
    · cases heq
      exact Nat.le_max_left _ _
    · exact Nat.le_trans (ih h) (Nat.le_max_right _ _)

theorem heightOfMembers_filter (p : String × Value → Bool) (members : List (String × Value)) :
    heightOfMembers (members.filter p) ≤ heightOfMembers members := by
  induction members with
  | nil => exact Nat.le_refl _
  | cons m members ih =>
    rw [List.filter_cons]
    split
    · rw [heightOfMembers, heightOfMembers]
      omega
    · rw [heightOfMembers]
      omega

theorem Record.ofMembers_of_fits {ρ : Type} (r : Record ρ) {origin : Origin}
    {members : List (String × Value)} (nodup : (members.map (·.1)).Nodup)
    (distinct : r.fields.distinct = true) (values : Values r.types)
    (fits : r.fields.Fits origin members values) :
    r.ofMembers origin members = .ok (r.build values) := by
  obtain ⟨slots, hput, hcomplete⟩ := fits.complete distinct nodup
  exact bind_eq_ok.mpr ⟨_, hput, bind_eq_ok.mpr ⟨_, hcomplete, rfl⟩⟩

theorem Record.ofValue_of_object {ρ : Type} (r : Record ρ) {origin : Origin} {height : Nat} {a : ρ}
    {entries : List Entry} {v : Value} (object : Value.Object entries v) (hheight : v.height ≤ height)
    (distinct : r.fields.distinct = true) (values : Values r.types) (build : r.build values = a)
    (fits : ∀ members, heightOfMembers members ≤ height → (∀ e ∈ entries, e.In members) →
      r.fields.Fits origin members values) : r.ofValue origin v = .ok a := by
  cases v with
  | object members =>
    obtain ⟨nodup, holds⟩ := object
    rw [← build]
    exact r.ofMembers_of_fits nodup distinct values (fits members (Nat.le_of_succ_le hheight) holds)
  | _ => cases object

theorem OpenRecord.ofValue_of_fits {ρ : Type} (r : OpenRecord ρ) {origin : Origin}
    {members : List (String × Value)} (nodup : (members.map (·.1)).Nodup)
    (distinct : r.fields.distinct = true) (values : Values r.types)
    (fits : r.fields.Fits origin members values) {rest : r.Rest}
    (hrest : r.rest (members.filter fun m => !r.fields.has m.1) = .ok rest) :
    r.ofValue origin (.object members) = .ok (r.build values rest) := by
  obtain ⟨slots, hput, hcomplete⟩ := fits.complete distinct nodup
  exact bind_eq_ok.mpr ⟨_, hput, bind_eq_ok.mpr ⟨_, hcomplete, bind_eq_ok.mpr ⟨_, hrest, rfl⟩⟩⟩

theorem OpenRecord.ofValue_of_object {ρ : Type} (r : OpenRecord ρ) {origin : Origin} {height : Nat}
    {a : ρ} {own outer : List Entry} {v : Value} (object : Value.Object (own ++ outer) v)
    (hheight : v.height ≤ height) (distinct : r.fields.distinct = true)
    (kept : (outer.map (·.key)).all (!r.fields.has ·) = true) (values : Values r.types)
    (rest : r.Rest) (build : r.build values rest = a)
    (fits : ∀ members, heightOfMembers members ≤ height → (∀ e ∈ own, e.In members) →
      r.fields.Fits origin members values)
    (hrest : ∀ others, heightOfMembers others ≤ height → (others.map (·.1)).Nodup →
      (∀ e ∈ outer, e.In others) → r.rest others = .ok rest) : r.ofValue origin v = .ok a := by
  cases v with
  | object members =>
    obtain ⟨nodup, holds⟩ := object
    obtain ⟨hown, houter⟩ := List.forall_mem_append.mp holds
    have hheight : heightOfMembers members ≤ height := Nat.le_of_succ_le hheight
    rw [← build]
    refine r.ofValue_of_fits nodup distinct values (fits members hheight hown) ?_
    exact hrest _ (Nat.le_trans (heightOfMembers_filter _ _) hheight)
      (nodup.sublist ((List.filter_sublist).map _)) (Entry.in_filter houter kept)
  | _ => cases object

/-! Decoders that take the elements of a type out of the values that encode them. -/

theorem Value.height_pos (v : Value) : 0 < v.height := by
  cases v <;> simp [height]

namespace Decoder

variable {α : Type} {origin : Origin} {height : Nat} {encoded : α → Value → Prop} {d : Decoder α}

/-- The decoder understands an encoding, as far as the values are not too high. -/
def Accepts (origin : Origin) (height : Nat) (d : Decoder α) (encoded : α → Value → Prop) : Prop :=
  ∀ a v, v.height ≤ height → encoded a v → d.ofValue origin v = .ok a

theorem accepts_text : text.Accepts origin height Value.Text := by
  rintro a _ _ rfl
  rfl

theorem accepts_flag : flag.Accepts origin height Value.Flag := by
  rintro a _ _ rfl
  rfl

theorem accepts_natural {bits : Nat} {expected : String} :
    (scalar expected (acceptNatural bits expected)).Accepts origin height (Value.Natural bits) := by
  rintro n _ _ ⟨rfl, below⟩
  have range : 0 ≤ (n : Int) ∧ (n : Int) < Nat.pow 2 bits :=
    ⟨Int.natCast_nonneg n, Int.ofNat_lt.mpr below⟩
  simp only [scalar, acceptNatural, if_pos range, Int.toNat_natCast]

theorem Accepts.list (h : d.Accepts origin height encoded) :
    d.list.Accepts origin height (Value.ListOf encoded) := by
  intro xs v hheight list
  cases v with
  | array items =>
    have items : List.Forall₂ encoded xs items := list
    replace hheight : heightOfItems _ ≤ height := Nat.le_of_succ_le hheight
    show allOf (d.ofValue origin) _ = .ok xs
    clear list
    induction items with
    | nil => rfl
    | cons own _ ih =>
      rw [heightOfItems] at hheight
      exact bind_eq_ok.mpr ⟨_, h _ _ (by omega) own, bind_eq_ok.mpr ⟨_, ih (by omega), rfl⟩⟩
  | _ => cases list

theorem Accepts.optional (h : d.Accepts origin height encoded) (hnull : ∀ a, ¬ encoded a .null) :
    d.optional.Accepts origin height (Value.Nullable encoded) := by
  intro x v hheight own
  cases x with
  | none =>
    cases own
    rfl
  | some a =>
    have some := h a v hheight own
    cases v with
    | null => exact absurd own (hnull a)
    | _ => exact map_eq_ok.mpr ⟨_, some, rfl⟩

end Decoder

namespace Entry

variable {α : Type} {origin : Origin} {height : Nat} {members : List (String × Value)} {key : String}
  {encoded : α → Value → Prop} {a : α} {d : Decoder α}

theorem In.found (h : (required key (encoded a)).In members)
    (below : heightOfMembers members ≤ height) (accepts : d.Accepts origin height encoded) :
    Finds origin members key d none a := by
  rcases h with ⟨v, hv, own⟩ | ⟨omissible, -⟩
  · exact .inl ⟨v, hv, accepts a v (Nat.le_trans (height_le_of_mem hv) below) own⟩
  · cases omissible

theorem In.found_default {usual : α} (h : (mk key (encoded a) (a = usual)).In members)
    (below : heightOfMembers members ≤ height) (accepts : d.Accepts origin height encoded) :
    Finds origin members key d (some usual) a := by
  rcases h with ⟨v, hv, own⟩ | ⟨rfl, missing⟩
  · exact .inl ⟨v, hv, accepts a v (Nat.le_trans (height_le_of_mem hv) below) own⟩
  · exact .inr ⟨rfl, missing⟩

end Entry

end LuaStubs.Json
