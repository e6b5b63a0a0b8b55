import LuaStubs.Proofs.Tables.Chronicle
import Mathlib.Data.List.Nodup

/-! The tables that a site leads to, also through other tables. When certain names have been
claimed, tables of these names are passed and what is inside of them is not looked at. A walk
reaches exactly these tables, in whatever order it takes the sites, provided that no two of them
share a name. -/

namespace LuaStubs

namespace Manual

/-- The tables that are reached from a site while some names are claimed. -/
inductive Reaches (manual : Manual) (claimed : List String) : Site → NamelessTable → Prop
  | here (table : NamelessTable) : Reaches manual claimed table.site table
  | part {site inner : Site} {table : NamelessTable} (noTable : ∀ shape, site.type ≠ .table shape)
      (isPart : inner ∈ manual.parts site) (reaches : Reaches manual claimed inner table) :
      Reaches manual claimed site table
  | field (outer : NamelessTable) {site : Site} {table : NamelessTable}
      (unclaimed : outer.name ∉ claimed) (isField : site ∈ fieldSites outer.place outer.fields)
      (reaches : Reaches manual claimed site table) : Reaches manual claimed outer.site table

/-- Tables that are reached from some sites under one name have the same shape and link. -/
def Coherent (manual : Manual) (claimed : List String) (sites : List Site) : Prop :=
  ∀ site ∈ sites, ∀ table, manual.Reaches claimed site table →
    ∀ site' ∈ sites, ∀ table', manual.Reaches claimed site' table' →
      table.name = table'.name → table.shape = table'.shape ∧ table.place.link = table'.place.link

variable {manual : Manual} {claimed claimed' : List String} {site : Site} {table : NamelessTable}

theorem Reaches.mono (more : claimed ⊆ claimed') (reaches : manual.Reaches claimed' site table) :
    manual.Reaches claimed site table := by
  induction reaches with
  | here table => exact .here table
  | part noTable isPart _ ih => exact .part noTable isPart ih
  | field outer unclaimed isField _ ih =>
    exact .field outer (fun hclaimed => unclaimed (more hclaimed)) isField ih

/-- What is reached from sites that are closed under parts and fields is among these sites. -/
theorem Reaches.mem_of_closed {sites : List Site}
    (parts : ∀ site ∈ sites, ∀ inner ∈ manual.parts site, inner ∈ sites)
    (fields : ∀ outer : NamelessTable, outer.site ∈ sites →
      ∀ inner ∈ fieldSites outer.place outer.fields, inner ∈ sites)
    (isSite : site ∈ sites) (reaches : manual.Reaches claimed site table) : table.site ∈ sites := by
  induction reaches with
  | here table => exact isSite
  | part _ isPart _ ih => exact ih (parts _ isSite _ isPart)
  | field outer _ isField _ ih => exact ih (fields outer isSite _ isField)

theorem Coherent.unique {sites : List Site} (coherent : manual.Coherent claimed sites)
    {site site' : Site} (isSite : site ∈ sites) (isSite' : site' ∈ sites)
    {table table' : NamelessTable} (reaches : manual.Reaches claimed site table)
    (reaches' : manual.Reaches claimed site' table') (same : table.name = table'.name) :
    table = table' := by
  obtain ⟨hshape, hlink⟩ := coherent site isSite table reaches site' isSite' table' reaches' same
  obtain ⟨shape, name, link⟩ := table
  obtain ⟨shape', name', link'⟩ := table'
  cases same
  cases hshape
  cases hlink
  rfl

theorem Coherent.congr {sites sites' : List Site} (coherent : manual.Coherent claimed sites)
    (same : sites' ⊆ sites) : manual.Coherent claimed sites' :=
  fun site isSite table reaches site' isSite' table' reaches' =>
    coherent site (same isSite) table reaches site' (same isSite') table' reaches'

end Manual

namespace Walk

variable {manual : Manual} {sites : List Site} {b b' : Backlog} {h : History}

/-- A walk only reaches what its sites lead to. -/
theorem reaches_of_reached (walk : Walk manual sites b h b') {table : NamelessTable}
    (reached : table ∈ h.reached) : ∃ site ∈ sites, manual.Reaches b.names site table := by
  induction walk with
  | done b => cases reached
  | @through own rest _ _ _ noTable _ ih =>
    obtain ⟨site, isSite, reaches⟩ := ih reached
    rcases List.mem_append.mp isSite with isPart | isSite
    · exact ⟨own, List.mem_cons_self, .part noTable isPart reaches⟩
    · exact ⟨site, List.mem_cons_of_mem _ isSite, reaches⟩
  | again own _ _ ih =>
    rcases List.mem_cons.mp reached with rfl | reached
    · exact ⟨_, List.mem_cons_self, .here _⟩
    · obtain ⟨site, isSite, reaches⟩ := ih reached
      exact ⟨site, List.mem_cons_of_mem _ isSite, reaches⟩
  | @first own rest b b₁ _ _ _ _ unclaimed _ inside _ hi hl =>
    have claim : b.names ⊆ (b.claim own.name).2.names := fun name hname =>
      (Backlog.mem_names_claim own.name name b).mpr (.inr hname)
    rcases List.mem_cons.mp reached with rfl | reached
    · exact ⟨_, List.mem_cons_self, .here _⟩
    rcases List.mem_append.mp reached with reached | reached
    · obtain ⟨site, isField, reaches⟩ := hi reached
      exact ⟨own.site, List.mem_cons_self, .field own unclaimed isField (reaches.mono claim)⟩
    · obtain ⟨site, isSite, reaches⟩ := hl reached
      have grows : b.names ⊆ b₁.names := fun name hname => inside.mem_names (claim hname)
      exact ⟨site, List.mem_cons_of_mem _ isSite, reaches.mono grows⟩

theorem mem_claimed_of_reached (walk : Walk manual sites b h b') {table : NamelessTable}
    (reached : table ∈ h.reached) (unclaimed : table.name ∉ b.names) :
    ∃ own ∈ h.claimed, own.name = table.name := by
  have claimed := walk.name_mem_of_reached reached
  rw [walk.names_eq] at claimed
  rcases List.mem_append.mp claimed with claimed | claimed
  · exact absurd claimed unclaimed
  · exact List.mem_map.mp claimed

theorem nodup_claimed (walk : Walk manual sites b h b') :
    (h.claimed.map (·.name)).Nodup ∧ ∀ name ∈ h.claimed.map (·.name), name ∉ b.names := by
  induction walk with
  | done b => exact ⟨.nil, List.forall_mem_nil _⟩
  | through _ _ ih => exact ih
  | again _ _ _ ih => exact ih
  | @first own rest b b₁ _ lines inner later unclaimed _ inside _ hi hl =>
    have own_mem : own.name ∈ (b.claim own.name).2.names :=
      (Backlog.mem_names_claim own.name own.name b).mpr (.inl rfl)
    have claim {name : String} (hname : name ∈ b.names) : name ∈ (b.claim own.name).2.names :=
      (Backlog.mem_names_claim own.name name b).mpr (.inr hname)
    -- What comes later finds the names claimed that were claimed inside.
    have apart : ∀ name ∈ inner.claimed.map (·.name), name ∉ later.claimed.map (·.name) := by
      intro name hname hlater
      refine hl.2 name hlater ?_
      change name ∈ b₁.names
      rw [inside.names_eq]
      exact List.mem_append_right _ hname
    have fresh : own.name ∉ inner.claimed.map (·.name) ++ later.claimed.map (·.name) := by
      intro hname
      rcases List.mem_append.mp hname with hname | hname
      · exact hi.2 _ hname own_mem
      · exact hl.2 _ hname (inside.mem_names own_mem)
    have split : (History.first own lines inner later).claimed.map (·.name) =
        own.name :: (inner.claimed.map (·.name) ++ later.claimed.map (·.name)) := by
      simp [History.claimed]
    rw [split]
    constructor
    · exact List.nodup_cons.mpr ⟨fresh, List.nodup_append'.mpr ⟨hi.1, hl.1, apart⟩⟩
    · refine List.forall_mem_cons.mpr ⟨unclaimed, fun name hname before => ?_⟩
      rcases List.mem_append.mp hname with hname | hname
      · exact hi.2 _ hname (claim before)
      · exact hl.2 _ hname (inside.mem_names (claim before))

section

variable (walk : Walk manual sites b h b') (coherent : manual.Coherent b.names sites)
include walk coherent

/-- A table that is reached is declared itself, if its name has not been claimed before. -/
theorem mem_claimed {table : NamelessTable} (reached : table ∈ h.reached)
    (unclaimed : table.name ∉ b.names) : table ∈ h.claimed := by
  obtain ⟨own, claimed, same⟩ := walk.mem_claimed_of_reached reached unclaimed
  obtain ⟨site, isSite, reaches⟩ := walk.reaches_of_reached (h.claimed_subset_reached claimed)
  obtain ⟨site', isSite', reaches'⟩ := walk.reaches_of_reached reached
  rwa [← coherent.unique isSite isSite' reaches reaches' same]

theorem reached_of_reaches {site : Site} (isSite : site ∈ sites) {table : NamelessTable}
    (reaches : manual.Reaches b.names site table) : table ∈ h.reached := by
  have start : ∀ table, manual.Passes site table → table ∈ h.reached :=
    fun table passes => walk.reached_of_passes isSite passes
  clear isSite
  induction reaches with
  | here table => exact start table (.here table)
  | part noTable isPart _ ih => exact ih fun table passes => start table (.part noTable isPart passes)
  | field outer unclaimed isField _ ih =>
    have claimed := walk.mem_claimed coherent (start outer (.here outer)) unclaimed
    obtain ⟨⟨_, lines⟩, declared, rfl⟩ :=
      List.mem_map.mp (h.declared_perm_claimed.mem_iff.mpr claimed)
    exact ih fun table passes => walk.reached_of_field declared isField passes

theorem mem_claimed_iff {table : NamelessTable} :
    table ∈ h.claimed ↔
      table.name ∉ b.names ∧ ∃ site ∈ sites, manual.Reaches b.names site table := by
  constructor
  · intro claimed
    exact ⟨walk.nodup_claimed.2 _ (List.mem_map_of_mem claimed),
      walk.reaches_of_reached (h.claimed_subset_reached claimed)⟩
  · rintro ⟨unclaimed, site, isSite, reaches⟩
    exact walk.mem_claimed coherent (walk.reached_of_reaches coherent isSite reaches) unclaimed

end

end Walk

end LuaStubs
