import LuaStubs.Api.Basic
import LuaStubs.NameMap
import Mathlib.Data.List.Sort

/-! Listing entries by their order keys. Two lists are put in the same order exactly if for each key
they have the same entries in the same order. -/

namespace LuaStubs

variable {α β : Type} {key : α → Nat} {key' : β → Nat}

def NotAbove (key : α → Nat) (a b : α) : Prop :=
  key a ≤ key b

instance : DecidableRel (NotAbove key) :=
  fun a b => Nat.decLe (key a) (key b)

instance : Std.Total (NotAbove key) :=
  ⟨fun a b => Nat.le_total (key a) (key b)⟩

instance : IsTrans α (NotAbove key) :=
  ⟨fun _ _ _ => Nat.le_trans⟩

theorem insertOn_eq (a : α) (xs : List α) :
    insertOn key a xs = xs.orderedInsert (NotAbove key) a := by
  induction xs with
  | nil => rfl
  | cons b rest ih =>
    rw [insertOn, List.orderedInsert_cons, ih]
    rfl

theorem sortOn_eq (key : α → Nat) (xs : List α) :
    sortOn key xs = xs.insertionSort (NotAbove key) := by
  induction xs with
  | nil => rfl
  | cons a rest ih => rw [sortOn, ih, insertOn_eq, List.insertionSort_cons]

theorem sortOn_perm (key : α → Nat) (xs : List α) : (sortOn key xs).Perm xs := by
  rw [sortOn_eq]
  exact List.perm_insertionSort _ xs

theorem mem_sortOn (key : α → Nat) (b : α) (xs : List α) : b ∈ sortOn key xs ↔ b ∈ xs :=
  (sortOn_perm key xs).mem_iff

theorem pairwise_sortOn (key : α → Nat) (xs : List α) : (sortOn key xs).Pairwise (NotAbove key) := by
  rw [sortOn_eq]
  exact List.pairwise_insertionSort _ xs

theorem sortOn_sortOn (key : α → Nat) (xs : List α) : sortOn key (sortOn key xs) = sortOn key xs := by
  rw [sortOn_eq key (sortOn key xs), (pairwise_sortOn key xs).insertionSort_eq]

/-! What keeps the keys keeps the order. -/

theorem sortOn_map {f : α → β} (same : ∀ a, key' (f a) = key a) (xs : List α) :
    sortOn key' (xs.map f) = (sortOn key xs).map f := by
  rw [sortOn_eq, sortOn_eq, ← List.map_insertionSort (NotAbove key) (NotAbove key') f xs]
  intro a _ b _
  rw [NotAbove, NotAbove, same, same]

theorem sortOn_sortOn_map {f : α → β} (same : ∀ a, key' (f a) = key a) (xs : List α) :
    sortOn key' (sortOn key' (xs.map f)) = (sortOn key xs).map f := by
  rw [sortOn_sortOn, sortOn_map same]

/-! The entries of one key. -/

/-- The entries of one key are in order, so that a stable sorting leaves them as they stand. -/
theorem filter_sortOn (key : α → Nat) (k : Nat) (xs : List α) :
    (sortOn key xs).filter (key · = k) = xs.filter (key · = k) := by
  have ordered : (xs.filter (key · = k)).Pairwise (NotAbove key) := by
    apply List.pairwise_of_forall_mem_list
    intro a ha b hb
    have hkey : key a = k := by simpa using (List.mem_filter.mp ha).2
    have hkey' : key b = k := by simpa using (List.mem_filter.mp hb).2
    exact Nat.le_of_eq (hkey.trans hkey'.symm)
  have stays : (xs.filter (key · = k)).Sublist (sortOn key xs) := by
    rw [sortOn_eq]
    exact List.sublist_insertionSort ordered List.filter_sublist
  have inside := stays.filter (key · = k)
  rw [List.filter_filter] at inside
  simp only [Bool.and_self] at inside
  exact (inside.eq_of_length ((sortOn_perm key xs).filter _).length_eq.symm).symm

/-- Lists in order are the same if they have the same entries for each key. -/
theorem eq_of_filter_eq {xs ys : List α} (hx : xs.Pairwise (NotAbove key))
    (hy : ys.Pairwise (NotAbove key))
    (same : ∀ k, xs.filter (key · = k) = ys.filter (key · = k)) : xs = ys := by
  have mem (a : α) : a ∈ xs ↔ a ∈ ys := by
    have h := congrArg (a ∈ ·) (same (key a))
    simpa using h
  induction xs generalizing ys with
  | nil =>
    cases ys with
    | nil => rfl
    | cons b ys => exact absurd ((mem b).mpr List.mem_cons_self) (by simp)
  | cons a xs ih =>
    cases ys with
    | nil => exact absurd ((mem a).mp List.mem_cons_self) (by simp)
    | cons b ys =>
      obtain ⟨leastx, hx'⟩ := List.pairwise_cons.mp hx
      obtain ⟨leasty, hy'⟩ := List.pairwise_cons.mp hy
      -- Each head is the least of its list, and the lists have the same members.
      have hab : key a = key b := by
        have hb : key b ≤ key a := by
          rcases List.mem_cons.mp ((mem a).mp List.mem_cons_self) with rfl | h
          · exact Nat.le_refl _
          · exact leasty a h
        have ha : key a ≤ key b := by
          rcases List.mem_cons.mp ((mem b).mpr List.mem_cons_self) with rfl | h
          · exact Nat.le_refl _
          · exact leastx b h
        omega
      have hfirst := same (key a)
      simp only [List.filter_cons, hab, decide_true, if_true] at hfirst
      obtain ⟨rfl, -⟩ := List.cons.inj hfirst
      have same' (k : Nat) : xs.filter (key · = k) = ys.filter (key · = k) := by
        have h := same k
        rw [List.filter_cons, List.filter_cons] at h
        split at h
        · exact (List.cons.inj h).2
        · exact h
      have mem' (c : α) : c ∈ xs ↔ c ∈ ys := by
        have h := congrArg (c ∈ ·) (same' (key c))
        simpa using h
      rw [ih hx' hy' same' mem']

theorem sortOn_eq_iff {xs ys : List α} :
    sortOn key xs = sortOn key ys ↔ ∀ k, xs.filter (key · = k) = ys.filter (key · = k) := by
  constructor
  · intro h k
    rw [← filter_sortOn, h, filter_sortOn]
  · intro h
    apply eq_of_filter_eq (pairwise_sortOn key xs) (pairwise_sortOn key ys)
    intro k
    rw [filter_sortOn, filter_sortOn, h]

/-! The operator that says how a class is called is found wherever it stands, if it is the only
one. -/

/-- A class can be called in one way at most. -/
def Api.Class.CalledOnce (c : Api.Class) : Prop :=
  (c.operators.filter (·.name = "call")).length ≤ 1

theorem find?_eq_of_perm {α : Type} {p : α → Bool} {xs ys : List α} (h : xs.Perm ys)
    (once : (xs.filter p).length ≤ 1) : ys.find? p = xs.find? p := by
  have hfilter : (xs.filter p).Perm (ys.filter p) := h.filter p
  rw [← List.head?_filter, ← List.head?_filter]
  cases hfound : xs.filter p with
  | nil =>
    rw [hfound] at hfilter
    rw [List.nil_perm.mp hfilter]
  | cons a rest =>
    rw [hfound] at hfilter once
    cases rest with
    | nil => rw [List.singleton_perm.mp hfilter]
    | cons b rest => simp at once

theorem Api.Class.find?_call {c : Api.Class} (once : c.CalledOnce) {o : Api.Operator}
    (ho : o ∈ c.operators) (hcall : o.name = "call") :
    c.operators.find? (·.name = "call") = some o := by
  obtain ⟨before, after, hops⟩ := List.append_of_mem ho
  have hperm : (o :: (before ++ after)).Perm c.operators := by
    rw [hops]
    exact List.perm_middle.symm
  have once' := once
  rw [CalledOnce, ← (hperm.filter _).length_eq] at once'
  rw [find?_eq_of_perm hperm once', List.find?_cons_of_pos (by simp [hcall])]

end LuaStubs
