import LuaStubs.Proofs.Lowering.Again
import LuaStubs.Proofs.Lowering.Elsewhere

/-! Two types written in either order. Whoever reaches a table first declares it, and the
declaration is the same in both orders, although the tables inside of it may have been declared
before in one of them only. -/

namespace LuaStubs

open Emission

namespace Emission

variable {α β : Type}

def forth (x : Emission α) (y : Emission β) : Emission (α × β) := do
  let a ← x
  let b ← y
  return (a, b)

def back (x : Emission α) (y : Emission β) : Emission (α × β) := do
  let b ← y
  let a ← x
  return (a, b)

theorem back_eq_ok {x : Emission α} {y : Emission β} {b c : Backlog} {s : α} {t : β} :
    back x y b = .ok ((s, t), c) ↔ forth y x b = .ok ((t, s), c) := by
  unfold forth back
  simp only [bind_eq_ok, pure_eq_ok, Prod.mk.injEq]
  constructor
  · rintro ⟨t', b₁, hy, s', c', hx, ⟨rfl, rfl⟩, rfl⟩
    exact ⟨t, b₁, hy, s, c, hx, ⟨rfl, rfl⟩, rfl⟩
  · rintro ⟨t', b₁, hy, s', c', hx, ⟨rfl, rfl⟩, rfl⟩
    exact ⟨t, b₁, hy, s, c, hx, ⟨rfl, rfl⟩, rfl⟩

/-- Outcomes of runs that add the same to a backlog in different orders, or that both fail. -/
inductive Exchanged (b : Backlog) :
    Except StubError (α × Backlog) → Except StubError (α × Backlog) → Prop
  | ok (a : α) {names names' : List String} {blocks blocks' : List (List Line)}
      (names_perm : names.Perm names') (blocks_perm : blocks.Perm blocks') :
      Exchanged b (.ok (a, ⟨b.names ++ names, b.blocks ++ blocks⟩))
        (.ok (a, ⟨b.names ++ names', b.blocks ++ blocks'⟩))
  | error (e e' : StubError) : Exchanged b (.error e) (.error e')

end Emission

variable {manual : Manual}

/-- There is one declaration for a table. -/
theorem Manual.Writes.unique {table : NamelessTable} {lines lines' : List Line}
    {before after before' after' : Backlog} (h : manual.Writes table lines before after)
    (h' : manual.Writes table lines' before' after') : lines = lines' := by
  obtain ⟨depth, h⟩ := h
  obtain ⟨depth', h'⟩ := h'
  have concur := @Closed.declareTable Bool _ closed_concur manual
    (fun i => manual.lowerWithin (cond i depth depth') false) table.place table.place.link table.fields
    fun site _ => Manual.concur_lowerWithin depth depth' false site.type site.place
  exact concur before before' _ _ h h'

namespace Walk

variable {sites sites' : List Site} {b c c' : Backlog} {h h' : History}

theorem nodup_declared (walk : Walk manual sites b h c) : h.declared.Nodup := by
  have claimed : h.claimed.Nodup := .of_map _ walk.nodup_claimed.1
  exact .of_map _ (h.declared_perm_claimed.nodup_iff.mpr claimed)

theorem declared_subset (same : sites ⊆ sites') (walk : Walk manual sites b h c)
    (walk' : Walk manual sites' b h' c') (coherent : manual.Coherent b.names sites') :
    h.declared ⊆ h'.declared := by
  rintro ⟨table, lines⟩ declared
  have claimed : table ∈ h.claimed :=
    h.declared_perm_claimed.mem_iff.mp (List.mem_map_of_mem declared)
  obtain ⟨unclaimed, site, isSite, reaches⟩ :=
    (walk.mem_claimed_iff (coherent.congr same)).mp claimed
  have claimed' : table ∈ h'.claimed :=
    (walk'.mem_claimed_iff coherent).mpr ⟨unclaimed, site, same isSite, reaches⟩
  obtain ⟨⟨_, lines'⟩, declared', rfl⟩ :=
    List.mem_map.mp (h'.declared_perm_claimed.mem_iff.mpr claimed')
  obtain ⟨_, _, -, writes⟩ := walk.writes_of_declared declared
  obtain ⟨_, _, -, writes'⟩ := walk'.writes_of_declared declared'
  rwa [writes.unique writes']

/-- Walks over the same sites make the same declarations. -/
theorem declared_perm (walk : Walk manual sites b h c) (walk' : Walk manual sites' b h' c')
    (same : sites ⊆ sites') (same' : sites' ⊆ sites) (coherent : manual.Coherent b.names sites) :
    h.declared.Perm h'.declared := by
  rw [List.perm_ext_iff_of_nodup walk.nodup_declared walk'.nodup_declared]
  intro entry
  exact ⟨fun declared => declared_subset same walk walk' (coherent.congr same') declared,
    fun declared => declared_subset same' walk' walk coherent declared⟩

theorem claimed_perm (walk : Walk manual sites b h c) (walk' : Walk manual sites' b h' c')
    (same : sites ⊆ sites') (same' : sites' ⊆ sites) (coherent : manual.Coherent b.names sites) :
    h.claimed.Perm h'.claimed :=
  h.declared_perm_claimed.symm.trans
    (((walk.declared_perm walk' same same' coherent).map _).trans h'.declared_perm_claimed)

/-- What a walk can declare from its sites on has been declared in it. -/
theorem declarable (walk : Walk manual sites b h c) (coherent : manual.Coherent b.names sites)
    {site : Site} (isSite : site ∈ sites) :
    manual.Declarable (h.claimed.map (·.name)) b.names site := by
  intro table reaches unclaimed
  have claimed := (walk.mem_claimed_iff coherent).mpr ⟨unclaimed, site, isSite, reaches⟩
  obtain ⟨⟨_, lines⟩, declared, rfl⟩ :=
    List.mem_map.mp (h.declared_perm_claimed.mem_iff.mpr claimed)
  obtain ⟨before, after, -, writes⟩ := walk.writes_of_declared declared
  exact ⟨List.mem_map_of_mem claimed, lines, before, after, writes⟩

theorem after_eq (walk : Walk manual sites b h c) :
    c = ⟨b.names ++ h.claimed.map (·.name),
      b.blocks ++ h.declared.map fun (_, lines) => lines ++ [.blank]⟩ := by
  rw [← walk.names_eq, ← walk.blocks_eq]

theorem exchanged {α : Type} (a : α) (walk : Walk manual sites b h c)
    (walk' : Walk manual sites' b h' c') (same : sites ⊆ sites') (same' : sites' ⊆ sites)
    (coherent : manual.Coherent b.names sites) : Exchanged b (.ok (a, c)) (.ok (a, c')) := by
  rw [walk.after_eq, walk'.after_eq]
  exact .ok a ((walk.claimed_perm walk' same same' coherent).map _)
    ((walk.declared_perm walk' same same' coherent).map _)

end Walk

namespace Manual

variable {linked linked' : Bool} {site site' : Site} {b c : Backlog}

theorem Declarable.mono {names base more : List String} (h : manual.Declarable names base site)
    (subset : base ⊆ more) : manual.Declarable names more site :=
  fun table reaches unclaimed => h table (reaches.mono subset) fun hname => unclaimed (subset hname)

theorem walks_forth : Walks manual (forth (manual.lower linked site.type site.place)
    (manual.lower linked' site'.type site'.place)) [site, site'] :=
  walks_site_bind (walks_lower linked _ _) fun _ => walks_bind_pure (walks_lower linked' _ _)

theorem walks_back : Walks manual (back (manual.lower linked site.type site.place)
    (manual.lower linked' site'.type site'.place)) [site', site] :=
  walks_site_bind (walks_lower linked' _ _) fun _ => walks_bind_pure (walks_lower linked _ _)

/-- What can be written in one order can be written in the other. -/
theorem back_of_forth (coherent : manual.Coherent b.names [site, site']) {texts : String × String}
    (h : forth (manual.lower linked site.type site.place)
      (manual.lower linked' site'.type site'.place) b = .ok (texts, c)) :
    ∃ c', back (manual.lower linked site.type site.place)
      (manual.lower linked' site'.type site'.place) b = .ok (texts, c') := by
  obtain ⟨history, walk⟩ := walks_forth b texts c h
  obtain ⟨text, b₁, first, h⟩ := bind_eq_ok.mp h
  obtain ⟨text', c₁, second, h⟩ := bind_eq_ok.mp h
  cases pure_eq_ok.mp h
  have declarable := walk.declarable coherent (List.mem_cons_self : site ∈ [site, site'])
  have declarable' := walk.declarable coherent
    (List.mem_cons_of_mem _ List.mem_cons_self : site' ∈ [site, site'])
  obtain ⟨b₂, second'⟩ := exists_lower_of_lower second declarable'
  obtain ⟨_, own⟩ := walks_lower linked' site'.type site'.place b text' b₂ second'
  have grows : b.names ⊆ b₂.names := fun name hname => own.mem_names hname
  obtain ⟨c', first'⟩ := exists_lower_of_lower first (declarable.mono grows)
  exact ⟨c', (bind_of_ok second').trans (bind_of_ok first')⟩

/-- Two types are written alike in either order: both orders fail, or both give the same two texts,
claim the same names and make the same declarations. -/
theorem lower_either_order (manual : Manual) (b : Backlog) (linked linked' : Bool) (site site' : Site)
    (coherent : manual.Coherent b.names [site, site']) :
    Exchanged b
      (forth (manual.lower linked site.type site.place)
        (manual.lower linked' site'.type site'.place) b)
      (back (manual.lower linked site.type site.place)
        (manual.lower linked' site'.type site'.place) b) := by
  have same : [site, site'] ⊆ [site', site] := by simp
  have same' : [site', site] ⊆ [site, site'] := by simp
  cases hforth : forth (manual.lower linked site.type site.place)
      (manual.lower linked' site'.type site'.place) b with
  | ok r =>
    obtain ⟨texts, c⟩ := r
    obtain ⟨c', hback⟩ := back_of_forth coherent hforth
    obtain ⟨_, walk⟩ := walks_forth b texts c hforth
    obtain ⟨_, walk'⟩ := walks_back b texts c' hback
    rw [hback]
    exact walk.exchanged texts walk' same same' coherent
  | error e =>
    cases hback : back (manual.lower linked site.type site.place)
        (manual.lower linked' site'.type site'.place) b with
    | error e' => exact .error e e'
    | ok r =>
      obtain ⟨⟨text, text'⟩, c⟩ := r
      obtain ⟨c', again⟩ := back_of_forth (coherent.congr same') (back_eq_ok.mp hback)
      rw [back_eq_ok.mp again] at hforth
      cases hforth

/-! Two sites that lead to the same tables, which refer back to each other. -/

def sharedList : Site := ⟨.array (.named "C"), ⟨"e.t", ""⟩⟩

def sharedTable : NamelessTable where
  shape := ⟨[⟨"u", 0, "", .named "C", false⟩], [], none⟩
  place := ⟨"e.u", ""⟩

/-- The element of the concept, which refers back to the concept. -/
def sharedElement : NamelessTable where
  shape := ⟨[⟨"g", 0, "", .array (.named "C"), false⟩,
    ⟨"h", 1, "", .table ⟨[], [], none⟩, false⟩], [], none⟩
  place := .element "C" (sharedManual.linkTo "C")

def sharedInside : NamelessTable where
  shape := ⟨[], [], none⟩
  place := .member sharedElement.name "h" sharedElement.place.link

/-- All sites that the two lead to. -/
def sharedSites : List Site :=
  [sharedList, ⟨.named "C", sharedList.place⟩, sharedTable.site,
    ⟨.named "C", .member sharedTable.name "u" sharedTable.place.link⟩, sharedElement.site,
    ⟨.array (.named "C"), .member sharedElement.name "g" sharedElement.place.link⟩,
    ⟨.named "C", .member sharedElement.name "g" sharedElement.place.link⟩, sharedInside.site]

theorem parts_sharedSites :
    ∀ site ∈ sharedSites, ∀ inner ∈ sharedManual.parts site, inner ∈ sharedSites := by
  have element : sharedManual.catalog.elements.get? "C" = some (.table sharedElement.shape) := rfl
  simp [sharedSites, sharedList, parts, element, NamelessTable.site, sharedElement]

theorem tables_sharedSites {table : NamelessTable} (h : table.site ∈ sharedSites) :
    table ∈ [sharedTable, sharedElement, sharedInside] := by
  cases table
  simpa [sharedSites, sharedList, NamelessTable.site, sharedElement, sharedTable, sharedInside] using h

theorem fields_sharedSites : ∀ outer : NamelessTable, outer.site ∈ sharedSites →
    ∀ inner ∈ fieldSites outer.place outer.fields, inner ∈ sharedSites := by
  have table : fieldSites sharedTable.place sharedTable.fields =
      [⟨.named "C", .member sharedTable.name "u" sharedTable.place.link⟩] := rfl
  have element : fieldSites sharedElement.place sharedElement.fields =
      [⟨.array (.named "C"), .member sharedElement.name "g" sharedElement.place.link⟩,
        sharedInside.site] := rfl
  have inside : fieldSites sharedInside.place sharedInside.fields = [] := rfl
  intro outer houter
  have houter := tables_sharedSites houter
  simp only [List.mem_cons, List.not_mem_nil, or_false] at houter
  rcases houter with rfl | rfl | rfl
  · rw [table]
    simp [sharedSites]
  · rw [element]
    simp [sharedSites]
  · rw [inside]
    exact List.forall_mem_nil _

theorem coherent_sharedSites : sharedManual.Coherent [] [sharedList, sharedTable.site] := by
  have start : ∀ site ∈ [sharedList, sharedTable.site], site ∈ sharedSites := by simp [sharedSites]
  have among {site : Site} (isSite : site ∈ [sharedList, sharedTable.site]) {table : NamelessTable}
      (reaches : sharedManual.Reaches [] site table) :
      table ∈ [sharedTable, sharedElement, sharedInside] :=
    tables_sharedSites (reaches.mem_of_closed parts_sharedSites fields_sharedSites (start site isSite))
  have names : ([sharedTable, sharedElement, sharedInside].map (·.name)).Nodup := by decide +kernel
  intro site isSite table reaches site' isSite' table' reaches' same
  cases List.inj_on_of_nodup_map names (among isSite reaches) (among isSite' reaches') same
  exact ⟨rfl, rfl⟩

theorem lower_either_order_sharedSites :
    sharedManual.Coherent [] [sharedList, sharedTable.site] ∧
      Exchanged .empty
        (forth (sharedManual.lower false sharedList.type sharedList.place)
          (sharedManual.lower false sharedTable.site.type sharedTable.place) .empty)
        (back (sharedManual.lower false sharedList.type sharedList.place)
          (sharedManual.lower false sharedTable.site.type sharedTable.place) .empty) ∧
      (forth (sharedManual.lower false sharedList.type sharedList.place)
        (sharedManual.lower false sharedTable.site.type sharedTable.place) .empty).toOption.map
          (fun r => (r.1, r.2.names))
        = some (("C<int,C_elem>[]", "e.u"), ["C_elem", "C_elem.h", "e.u"]) ∧
      (back (sharedManual.lower false sharedList.type sharedList.place)
        (sharedManual.lower false sharedTable.site.type sharedTable.place) .empty).toOption.map
          (fun r => (r.1, r.2.names))
        = some (("C<int,C_elem>[]", "e.u"), ["e.u", "C_elem", "C_elem.h"]) :=
  ⟨coherent_sharedSites,
    lower_either_order sharedManual .empty false false sharedList sharedTable.site coherent_sharedSites,
    by decide +kernel, by decide +kernel⟩

end Manual

end LuaStubs
