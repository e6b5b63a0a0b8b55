import LuaStubs.NameMap

/-! What is found in a table of names: what has been put in under a name, and where names are not
used twice, all of it in any order. -/

namespace LuaStubs

/-! Names without repetition. -/

theorem distinctAfter_congr {seen seen' names : List String}
    (same : ∀ name, name ∈ seen ↔ name ∈ seen') :
    distinctAfter seen names = distinctAfter seen' names := by
  induction names generalizing seen seen' with
  | nil => rfl
  | cons name rest ih =>
    have next : ∀ other, other ∈ name :: seen ↔ other ∈ name :: seen' := by simp [same]
    simp only [distinctAfter, same, ih same, ih next]

/-- Names that have been seen are left out, whether they are known from the start or not. -/
theorem distinctAfter_append (seen more names : List String) :
    distinctAfter (seen ++ more) names = (distinctAfter more names).filter (· ∉ seen) := by
  induction names generalizing more with
  | nil => rfl
  | cons name rest ih =>
    have next : ∀ other, other ∈ name :: (seen ++ more) ↔ other ∈ seen ++ name :: more := by
      simp [or_left_comm]
    have inside := ih (name :: more)
    by_cases hmore : name ∈ more
    · simp [distinctAfter, hmore, ih]
    · by_cases hseen : name ∈ seen
      · have known : ∀ other, other ∈ seen ++ more ↔ other ∈ seen ++ name :: more := by
          simp only [List.mem_append, List.mem_cons]
          grind
        rw [distinctAfter, if_pos (List.mem_append_left _ hseen), distinctAfter, if_neg hmore,
          List.filter_cons_of_neg (by simpa using hseen), distinctAfter_congr known, inside]
      · have fresh : name ∉ seen ++ more := fun h => (List.mem_append.mp h).elim hseen hmore
        rw [distinctAfter, if_neg fresh, distinctAfter, if_neg hmore,
          List.filter_cons_of_pos (by simpa using hseen), distinctAfter_congr next, inside]

theorem mem_distinctAfter_iff {seen names : List String} {name : String} (hseen : name ∉ seen) :
    name ∈ distinctAfter seen names ↔ name ∈ names := by
  induction names generalizing seen with
  | nil => rfl
  | cons other rest ih =>
    rw [distinctAfter, List.mem_cons]
    split
    · rename_i known
      have hother : name ≠ other := fun h => hseen (h ▸ known)
      rw [ih hseen]
      exact (or_iff_right hother).symm
    · rw [List.mem_cons]
      by_cases same : name = other
      · exact iff_of_true (.inl same) (.inl same)
      · rw [or_iff_right same, or_iff_right same]
        exact ih fun h => (List.mem_cons.mp h).elim same hseen

theorem mem_distinct_iff {names : List String} {name : String} :
    name ∈ distinct names ↔ name ∈ names :=
  mem_distinctAfter_iff (by simp)

theorem nodup_distinctAfter (seen names : List String) : (distinctAfter seen names).Nodup := by
  induction names generalizing seen with
  | nil => exact .nil
  | cons name rest ih =>
    rw [distinctAfter]
    split
    · exact ih seen
    · have split : distinctAfter (name :: seen) rest = (distinctAfter seen rest).filter (· ∉ [name]) :=
        distinctAfter_append [name] seen rest
      refine List.nodup_cons.mpr ⟨?_, ih _⟩
      rw [split]
      simp

theorem distinctAfter_eq_eraseDups (seen names : List String) :
    distinctAfter seen names = (names.filter (· ∉ seen)).eraseDups := by
  induction names generalizing seen with
  | nil => rfl
  | cons name rest ih =>
    by_cases known : name ∈ seen
    · rw [distinctAfter, if_pos known, ih, List.filter_cons_of_neg (by simpa using known)]
    · have later : rest.filter (· ∉ name :: seen)
          = (rest.filter (· ∉ seen)).filter (fun other => !other == name) := by
        rw [List.filter_filter]
        apply List.filter_congr
        intro other _
        rw [Bool.beq_eq_decide_eq]
        simp [not_or]
      rw [distinctAfter, if_neg known, ih, List.filter_cons_of_pos (by simpa using known),
        List.eraseDups_cons, later]

theorem distinct_eq_eraseDups (names : List String) : distinct names = names.eraseDups := by
  rw [distinct, distinctAfter_eq_eraseDups, List.filter_eq_self.mpr (by simp)]

namespace NameMap

variable {α β : Type}

theorem mem_of_get? {name : String} {a : α} {map : NameMap α} (h : map.get? name = some a) :
    (name, a) ∈ map := by
  induction map with
  | nil => cases h
  | cons entry rest ih =>
    obtain ⟨other, b⟩ := entry
    rw [get?] at h
    by_cases hname : name = other
    · rw [if_pos hname] at h
      cases h
      rw [hname]
      exact List.mem_cons_self
    · rw [if_neg hname] at h
      exact List.mem_cons_of_mem _ (ih h)

theorem mem_of_mem_put {name : String} {a : α} {map : NameMap α} {entry : String × α}
    (h : entry ∈ map.put name a) : entry = (name, a) ∨ entry ∈ map := by
  induction map with
  | nil => exact .inl (List.mem_singleton.mp h)
  | cons first rest ih =>
    obtain ⟨other, b⟩ := first
    rw [put] at h
    by_cases hname : name = other
    · rw [if_pos hname, ← hname] at h
      rcases List.mem_cons.mp h with h | h
      · exact .inl h
      · exact .inr (List.mem_cons_of_mem _ h)
    · rw [if_neg hname] at h
      rcases List.mem_cons.mp h with h | h
      · exact .inr (by simp [h])
      · rcases ih h with h | h
        · exact .inl h
        · exact .inr (List.mem_cons_of_mem _ h)

theorem mem_of_mem_putAll {entries : List (String × α)} {map : NameMap α} {entry : String × α}
    (h : entry ∈ putAll entries map) : entry ∈ entries ∨ entry ∈ map := by
  induction entries generalizing map with
  | nil => exact .inr h
  | cons first rest ih =>
    rcases ih h with h | h
    · exact .inl (List.mem_cons_of_mem _ h)
    · rcases mem_of_mem_put h with rfl | h
      · exact .inl List.mem_cons_self
      · exact .inr h

theorem mem_of_mem_ofList {entries : List (String × α)} {entry : String × α}
    (h : entry ∈ ofList entries) : entry ∈ entries := by
  rcases mem_of_mem_putAll h with h | h
  · exact h
  · cases h

theorem has_of_mem_putAll {entries : List (String × α)} {map : NameMap α} {name : String}
    (h : (∃ a, (name, a) ∈ entries) ∨ map.has name = true) :
    (putAll entries map).has name = true := by
  induction entries generalizing map with
  | nil =>
    rcases h with ⟨a, h⟩ | h
    · cases h
    · exact h
  | cons entry rest ih =>
    obtain ⟨other, b⟩ := entry
    apply ih
    rcases h with ⟨a, h⟩ | h
    · rcases List.mem_cons.mp h with h | h
      · cases h
        exact .inr (by simp [has, get?_put])
      · exact .inl ⟨a, h⟩
    · apply Or.inr
      rw [has, get?_put]
      split
      · rfl
      · exact h

theorem has_ofList {entries : List (String × α)} {name : String} {a : α}
    (h : (name, a) ∈ entries) : (ofList entries).has name = true :=
  has_of_mem_putAll (.inl ⟨a, h⟩)

theorem mem_of_get?_ofList {entries : List (String × α)} {name : String} {a : α}
    (h : (ofList entries).get? name = some a) : (name, a) ∈ entries :=
  mem_of_mem_ofList (mem_of_get? h)

theorem mem_of_has_ofList {entries : List (String × α)} {name : String}
    (h : (ofList entries).has name = true) : ∃ a, (name, a) ∈ entries := by
  obtain ⟨a, ha⟩ := Option.isSome_iff_exists.mp h
  exact ⟨a, mem_of_get?_ofList ha⟩

theorem has_ofList_iff {name : α → String} {xs : List α} {n : String} :
    (ofList (xs.map fun a => (name a, a))).has n = true ↔ n ∈ xs.map name := by
  constructor
  · intro h
    obtain ⟨a, ha⟩ := mem_of_has_ofList h
    obtain ⟨a, hmem, hentry⟩ := List.mem_map.mp ha
    cases hentry
    exact List.mem_map_of_mem hmem
  · intro h
    obtain ⟨a, ha, rfl⟩ := List.mem_map.mp h
    exact has_ofList (List.mem_map_of_mem ha)

theorem has_ofList_perm {name : α → String} {name' : β → String} {xs : List α} {ys : List β}
    (h : (ys.map name').Perm (xs.map name)) (n : String) :
    (ofList (xs.map fun a => (name a, a))).has n = (ofList (ys.map fun b => (name' b, b))).has n :=
  Bool.eq_iff_iff.mpr (has_ofList_iff.trans (h.mem_iff.symm.trans has_ofList_iff.symm))

theorem get?_putAll (name : String) (entries : List (String × α)) (map : NameMap α) :
    (putAll entries map).get? name =
      ((entries.reverse.find? (·.1 == name)).map (·.2)).or (map.get? name) := by
  induction entries generalizing map with
  | nil => rfl
  | cons entry rest ih =>
    obtain ⟨other, a⟩ := entry
    change (putAll rest (map.put other a)).get? name = _
    rw [ih, get?_put, List.reverse_cons, List.find?_append]
    cases rest.reverse.find? (·.1 == name) with
    | some found => rfl
    | none => by_cases h : name = other <;> simp [h, Ne.symm]

theorem keys_put (name : String) (a : α) (map : NameMap α) :
    (map.put name a).map (·.1) =
      if name ∈ map.map (·.1) then map.map (·.1) else map.map (·.1) ++ [name] := by
  induction map with
  | nil => simp [put]
  | cons entry rest ih =>
    obtain ⟨other, b⟩ := entry
    by_cases same : name = other
    · simp [put, same]
    · rw [put, if_neg same, List.map_cons, List.map_cons, ih]
      by_cases hrest : name ∈ rest.map (·.1)
      · rw [if_pos hrest, if_pos (List.mem_cons_of_mem _ hrest)]
      · rw [if_neg hrest, if_neg fun h => (List.mem_cons.mp h).elim same hrest, List.cons_append]

theorem keys_foldl {step : NameMap α → β → NameMap α} {name : β → String}
    (hstep : ∀ map b, ∃ a, step map b = map.put (name b) a) (bs : List β) (map : NameMap α) :
    (bs.foldl step map).map (·.1) =
      map.map (·.1) ++ distinctAfter (map.map (·.1)) (bs.map name) := by
  induction bs generalizing map with
  | nil => simp [distinctAfter]
  | cons b rest ih =>
    obtain ⟨a, put⟩ := hstep map b
    rw [List.foldl_cons, ih, put, keys_put, List.map_cons, distinctAfter]
    split
    · rfl
    · have seen : ∀ other, other ∈ map.map (·.1) ++ [name b] ↔ other ∈ name b :: map.map (·.1) := by
        simp [or_comm]
      rw [distinctAfter_congr seen, List.append_assoc, List.singleton_append]

theorem keys_ofList (entries : List (String × α)) :
    (ofList entries).map (·.1) = distinct (entries.map (·.1)) :=
  keys_foldl (fun _ entry => ⟨entry.2, rfl⟩) entries []

/-! Tables in which no name comes twice. -/

theorem put_of_not_mem {name : String} {a : α} {map : NameMap α}
    (h : name ∉ map.map (·.1)) : map.put name a = map ++ [(name, a)] := by
  induction map with
  | nil => rfl
  | cons entry rest ih =>
    obtain ⟨other, b⟩ := entry
    have hother : name ≠ other := fun same => h (same ▸ List.mem_cons_self)
    rw [put, if_neg hother, ih fun hrest => h (List.mem_cons_of_mem _ hrest), List.cons_append]

theorem putAll_of_nodup {entries : List (String × α)} {map : NameMap α}
    (h : ((map ++ entries).map (·.1)).Nodup) : putAll entries map = map ++ entries := by
  induction entries generalizing map with
  | nil => rw [List.append_nil]; rfl
  | cons entry rest ih =>
    obtain ⟨name, a⟩ := entry
    have hname : name ∉ map.map (·.1) := by
      rw [List.map_append, List.nodup_append] at h
      exact fun hmem => h.2.2 name hmem name List.mem_cons_self rfl
    change putAll rest (map.put name a) = _
    rw [put_of_not_mem hname, ih, List.append_assoc, List.singleton_append]
    rw [List.append_assoc, List.singleton_append]
    exact h

theorem ofList_of_nodup {entries : List (String × α)} (h : (entries.map (·.1)).Nodup) :
    ofList entries = entries :=
  putAll_of_nodup h

theorem get?_of_mem {map : NameMap α} (nodup : (map.map (·.1)).Nodup) {name : String} {a : α}
    (h : (name, a) ∈ map) : map.get? name = some a := by
  induction map with
  | nil => cases h
  | cons entry rest ih =>
    obtain ⟨other, b⟩ := entry
    obtain ⟨hother, hrest⟩ := List.nodup_cons.mp nodup
    rw [get?]
    rcases List.mem_cons.mp h with h | h
    · cases h
      exact if_pos rfl
    · have hname : name ≠ other := by
        intro same
        apply hother
        exact List.mem_map.mpr ⟨(name, a), h, same⟩
      rw [if_neg hname, ih hrest h]

/-- Where names are not used twice, the order of the entries does not matter. -/
theorem get?_perm {first second : NameMap α} (h : first.Perm second)
    (nodup : (first.map (·.1)).Nodup) (name : String) : second.get? name = first.get? name := by
  have nodup' : (second.map (·.1)).Nodup := (h.map (·.1)).nodup_iff.mp nodup
  apply Option.ext
  intro a
  constructor
  · intro found
    exact get?_of_mem nodup (h.mem_iff.mpr (mem_of_get? found))
  · intro found
    exact get?_of_mem nodup' (h.mem_iff.mp (mem_of_get? found))

/-! Changing all values. -/

section

variable (f : α → β)

def mapValues (map : NameMap α) : NameMap β :=
  map.map fun (name, a) => (name, f a)

theorem mapValues_cons (name : String) (a : α) (rest : NameMap α) :
    mapValues f ((name, a) :: rest) = (name, f a) :: mapValues f rest := rfl

theorem get?_mapValues (name : String) (map : NameMap α) :
    (map.mapValues f).get? name = (map.get? name).map f := by
  induction map with
  | nil => rfl
  | cons entry rest ih =>
    obtain ⟨other, a⟩ := entry
    rw [mapValues_cons, get?, ih, get?]
    split
    · rfl
    · rfl

theorem put_mapValues (name : String) (a : α) (map : NameMap α) :
    (map.put name a).mapValues f = (map.mapValues f).put name (f a) := by
  induction map with
  | nil => rfl
  | cons entry rest ih =>
    obtain ⟨other, b⟩ := entry
    rw [mapValues_cons, put, put, ← ih]
    split
    · rfl
    · rfl

theorem putAll_mapValues (entries : List (String × α)) (map : NameMap α) :
    (putAll entries map).mapValues f = putAll (mapValues f entries) (map.mapValues f) := by
  induction entries generalizing map with
  | nil => rfl
  | cons entry rest ih =>
    obtain ⟨name, a⟩ := entry
    change (putAll rest (map.put name a)).mapValues f
      = putAll (mapValues f rest) ((map.mapValues f).put name (f a))
    rw [ih, put_mapValues]

theorem ofList_mapValues (entries : List (String × α)) :
    (ofList entries).mapValues f = ofList (mapValues f entries) :=
  putAll_mapValues f entries []

end

end NameMap

end LuaStubs
