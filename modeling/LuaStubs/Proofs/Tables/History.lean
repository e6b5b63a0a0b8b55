import LuaStubs.Proofs.Tables.Sites

/-! The history of the tables without a name: which were reached again after their names had been
claimed, and which were declared, with all that happened in between. -/

namespace LuaStubs

/-- What happened to tables without a name, the first thing first. -/
inductive History where
  | done
  /-- A table was reached whose name had been claimed. -/
  | again (table : NamelessTable) (later : History)
  /-- A table was declared by some lines. The inner history happened meanwhile. -/
  | first (table : NamelessTable) (lines : List Line) (inner later : History)

namespace History

def append : History → History → History
  | done, other => other
  | again table later, other => again table (later.append other)
  | first table lines inner later, other => first table lines inner (later.append other)

def reached : History → List NamelessTable
  | done => []
  | again table later => table :: later.reached
  | first table _ inner later => table :: inner.reached ++ later.reached

/-- The tables whose names were claimed, in this order. -/
def claimed : History → List NamelessTable
  | done => []
  | again _ later => later.claimed
  | first table _ inner later => table :: inner.claimed ++ later.claimed

/-- The tables whose declarations were finished, in this order, and the declarations. -/
def declared : History → List (NamelessTable × List Line)
  | done => []
  | again _ later => later.declared
  | first table lines inner later => inner.declared ++ (table, lines) :: later.declared

/-- Says of two tables that the second was reached first while the first was being declared. -/
inductive During (outer inside : NamelessTable) : History → Prop
  | here {lines : List Line} {inner later : History} (h : inside ∈ inner.claimed) :
      During outer inside (first outer lines inner later)
  | inner {table : NamelessTable} {lines : List Line} {inner later : History}
      (h : During outer inside inner) : During outer inside (first table lines inner later)
  | later {table : NamelessTable} {lines : List Line} {inner later : History}
      (h : During outer inside later) : During outer inside (first table lines inner later)
  | again {table : NamelessTable} {later : History} (h : During outer inside later) :
      During outer inside (again table later)

/-- Each claimed table has been declared in the end, and no other. -/
theorem declared_perm_claimed (h : History) : (h.declared.map (·.1)).Perm h.claimed := by
  induction h with
  | done => exact .refl _
  | again table later ih => exact ih
  | first table lines inner later hi hl =>
    simp only [declared, claimed, List.map_append, List.map_cons]
    exact List.perm_middle.trans (.cons table (hi.append hl))

theorem claimed_subset_reached (h : History) : h.claimed ⊆ h.reached := by
  induction h with
  | done => exact List.Subset.refl _
  | again table later ih => exact List.subset_cons_of_subset _ ih
  | first table lines inner later hi hl =>
    exact List.cons_subset_cons _ (List.append_subset.mpr
      ⟨List.subset_append_of_subset_left _ hi, List.subset_append_of_subset_right _ hl⟩)

theorem sublist_of_during {outer inside : NamelessTable} {h : History}
    (d : During outer inside h) :
    [outer, inside].Sublist h.claimed ∧ [inside, outer].Sublist (h.declared.map (·.1)) := by
  induction d with
  | @here lines inner later hmem =>
    have hdeclared : inside ∈ inner.declared.map (·.1) :=
      inner.declared_perm_claimed.mem_iff.mpr hmem
    constructor
    · apply List.Sublist.cons_cons
      exact (List.singleton_sublist.mpr hmem).trans (List.sublist_append_left _ _)
    · simp only [declared, List.map_append, List.map_cons]
      exact List.Sublist.append (List.singleton_sublist.mpr hdeclared)
        (List.Sublist.cons_cons outer (List.nil_sublist _))
  | @inner table lines inner later _ ih =>
    constructor
    · exact .cons _ (ih.1.trans (List.sublist_append_left _ _))
    · simp only [declared, List.map_append]
      exact ih.2.trans (List.sublist_append_left _ _)
  | @later table lines inner later _ ih =>
    constructor
    · exact .cons _ (ih.1.trans (List.sublist_append_right _ _))
    · simp only [declared, List.map_append, List.map_cons]
      exact (ih.2.cons _).trans (List.sublist_append_right _ _)
  | again _ ih => exact ih

end History

end LuaStubs
