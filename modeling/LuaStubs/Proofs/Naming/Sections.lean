import LuaStubs.Proofs.Naming.Marks
import LuaStubs.Proofs.Outline.Runs
import Mathlib.Data.List.Perm.Subperm

/-! The names of the classes that the sections of a file declare: those of entries, paths of
constants, and for each method that takes a table the name of that table. -/

namespace LuaStubs

namespace Api

/-- The tables that methods of a class take, by their names. -/
def Class.takenTables (c : Class) : List String :=
  (c.methods.filter (·.signature.takesTable)).map fun m => c.name ++ "." ++ m.name ++ "_param"

namespace Document

def entryNames (document : Document) : List String :=
  document.builtins.map (·.name) ++ document.events.map (·.name) ++ document.classes.map (·.name)
    ++ document.concepts.map (·.name)

def constantNames (document : Document) : List String :=
  constantRoot :: document.nodes.map (·.1)

/-- The names of entries and constants in the order of the sections. -/
def sectionNames (document : Document) : List String :=
  document.builtins.map (·.name) ++ document.constantNames ++ document.events.map (·.name)
    ++ document.classes.map (·.name) ++ document.concepts.map (·.name)

/-- Entries have different names without dots, and so have the methods of a class that take a table. -/
structure Distinct (document : Document) : Prop where
  sections : document.sectionNames.Nodup
  methods : ∀ c ∈ document.classes, (c.attributes.map (·.name) ++ c.methods.map (·.name)).Nodup
  dotless : ∀ name ∈ document.entryNames, '.' ∉ name.toList
  dotlessMethods : ∀ c ∈ document.classes, ∀ m ∈ c.methods, m.signature.takesTable = true →
    '.' ∉ m.name.toList

end Document

/-! The heads of the sections have these names. -/

theorem Class.map_heads_perm (c : Class) :
    (((sortOn (·.order) c.methods).flatMap (Method.heads c.name)).map (·.1)).Perm c.takenTables := by
  have heads : (Method.heads c.name) = fun m => if m.signature.takesTable then
      [(c.name ++ "." ++ m.name ++ "_param", ([] : List String))] else [] := rfl
  have names : ((sortOn (·.order) c.methods).flatMap (Method.heads c.name)).map (·.1) =
      ((sortOn (·.order) c.methods).filter (·.signature.takesTable)).map
        fun m => c.name ++ "." ++ m.name ++ "_param" := by
    rw [heads]
    induction sortOn (·.order) c.methods with
    | nil => rfl
    | cons m rest ih =>
      rw [List.flatMap_cons, List.map_append, ih, List.filter_cons]
      split <;> rfl
  rw [names]
  exact ((sortOn_perm _ _).filter _).map _

theorem Concept.map_heads_sublist (concepts : List Concept) :
    ((concepts.flatMap Concept.heads).map (·.1)).Sublist (concepts.map (·.name)) := by
  induction concepts with
  | nil => exact .slnil
  | cons c rest ih =>
    rw [List.flatMap_cons, List.map_append, List.map_cons]
    unfold heads
    split
    · exact ih.cons _
    · exact ih.cons_cons _

theorem Class.map_heads_subperm (classes : List Class) :
    ((classes.flatMap Class.heads).map (·.1)).Subperm
      (classes.map (·.name) ++ classes.flatMap Class.takenTables) := by
  have names : ((classes.flatMap Class.heads).map (·.1)) = classes.flatMap fun c =>
      c.name :: ((sortOn (·.order) c.methods).flatMap (Method.heads c.name)).map (·.1) := by
    rw [List.map_flatMap]
    rfl
  have tables : (classes.flatMap fun c =>
      ((sortOn (·.order) c.methods).flatMap (Method.heads c.name)).map (·.1)).Perm
        (classes.flatMap Class.takenTables) :=
    List.Perm.flatMap_left _ fun c _ => c.map_heads_perm
  rw [names]
  exact ((List.map_append_flatMap_perm _ _ _).symm.trans (tables.append_left _)).subperm

theorem Document.map_heads_subperm (document : Document) (settings : Settings) :
    ((document.heads settings).map (·.1)).Subperm
      (document.sectionNames ++ document.classes.flatMap Class.takenTables) := by
  have builtins : ((document.builtinHeads settings).map (·.1)).Subperm
      (document.builtins.map (·.name)) := by
    rw [builtinHeads, List.map_map]
    exact ((List.filter_sublist.map _).subperm).trans ((sortOn_perm _ _).map _).subperm
  have constants : document.constantHeads.map (·.1) = document.constantNames := by
    simp [constantHeads, constantNames]
  have events : (((sortOn (·.order) document.events).map fun e =>
      (e.name, ([] : List String))).map (·.1)).Subperm (document.events.map (·.name)) := by
    rw [List.map_map]
    exact ((sortOn_perm _ _).map _).subperm
  have classes : (((sortOn (·.order) document.classes).flatMap Class.heads).map (·.1)).Subperm
      (document.classes.map (·.name) ++ document.classes.flatMap Class.takenTables) :=
    (Class.map_heads_subperm _).trans
      (((sortOn_perm _ _).map _).append ((sortOn_perm _ _).flatMap_right _)).subperm
  have concepts : (((sortOn (·.order) document.concepts).flatMap Concept.heads).map (·.1)).Subperm
      (document.concepts.map (·.name)) :=
    (Concept.map_heads_sublist _).subperm.trans ((sortOn_perm _ _).map _).subperm
  have all := (((builtins.append (List.Subperm.refl document.constantNames)).append events).append
    classes).append concepts
  rw [heads, List.map_append, List.map_append, List.map_append, List.map_append, constants]
  apply all.trans
  apply List.Perm.subperm
  rw [sectionNames, ← List.append_assoc, List.append_assoc _ _ (document.concepts.map _)]
  rw [List.append_assoc _ (document.concepts.map _)]
  exact List.perm_append_comm.append_left _

/-! They are told apart. -/

theorem takenTable_toList (c m : String) :
    (c ++ "." ++ m ++ "_param").toList = c.toList ++ '.' :: (m.toList ++ "_param".toList) := by
  simp

theorem mem_takenTables {c : Class} {name : String} :
    name ∈ c.takenTables ↔ ∃ m ∈ c.methods, m.signature.takesTable = true ∧
      name = c.name ++ "." ++ m.name ++ "_param" := by
  rw [Class.takenTables, List.mem_map]
  constructor
  · rintro ⟨m, hm, rfl⟩
    exact ⟨m, (List.mem_filter.mp hm).1, (List.mem_filter.mp hm).2, rfl⟩
  · rintro ⟨m, hm, takes, rfl⟩
    exact ⟨m, List.mem_filter.mpr ⟨hm, takes⟩, rfl⟩

namespace Document

variable {document : Document}

theorem constantName_starts {name : String} (h : name ∈ document.constantNames) :
    ∃ rest, name.toList = constantRoot.toList ++ rest ∧ Starts '.' rest := by
  rcases List.mem_cons.mp h with rfl | h
  · exact ⟨[], (List.append_nil _).symm, .inl rfl⟩
  · obtain ⟨entry, hentry, rfl⟩ := List.mem_map.mp h
    obtain ⟨rest, hpath⟩ := path_of_mem_nodes hentry
    exact ⟨'.' :: rest.toList, by rw [hpath]; simp, .inr ⟨_, rfl⟩⟩

namespace Distinct

variable (distinct : document.Distinct)
include distinct

theorem dotless_class {c : Class} (hc : c ∈ document.classes) : '.' ∉ c.name.toList := by
  apply distinct.dotless
  apply List.mem_append_left
  apply List.mem_append_right
  exact List.mem_map_of_mem hc

theorem classes : (document.classes.map (·.name)).Nodup :=
  (List.nodup_append.mp (List.nodup_append.mp distinct.sections).1).2.1

theorem class_ne {c : Class} (hc : c ∈ document.classes) {name : String}
    (hname : name ∈ document.builtins.map (·.name) ++ document.constantNames
      ++ document.events.map (·.name)) : name ≠ c.name :=
  (List.nodup_append.mp (List.nodup_append.mp distinct.sections).1).2.2 name hname c.name
    (List.mem_map_of_mem hc)

theorem concept_ne {k : Concept} (hk : k ∈ document.concepts) {name : String}
    (hname : name ∈ document.builtins.map (·.name) ++ document.constantNames
      ++ document.events.map (·.name) ++ document.classes.map (·.name)) : name ≠ k.name :=
  (List.nodup_append.mp distinct.sections).2.2 name hname k.name (List.mem_map_of_mem hk)

theorem event_ne {e : Event} (he : e ∈ document.events) {name : String}
    (hname : name ∈ document.builtins.map (·.name) ++ document.constantNames) : name ≠ e.name :=
  (List.nodup_append.mp (List.nodup_append.mp (List.nodup_append.mp distinct.sections).1).1).2.2 name
    hname e.name (List.mem_map_of_mem he)

theorem nodup_takenTables : (document.classes.flatMap Class.takenTables).Nodup := by
  rw [List.nodup_flatMap]
  constructor
  · intro c hc
    have hmethods := (List.nodup_append.mp (distinct.methods c hc)).2.1
    apply List.Nodup.map_on _ (List.Nodup.filter _ (List.Nodup.of_map _ hmethods))
    intro m hm m' hm' same
    have hlists := congrArg String.toList same
    rw [takenTable_toList, takenTable_toList] at hlists
    have hname : m.name = m'.name := by
      have hrest := List.append_cancel_left hlists
      exact String.toList_inj.mp (List.append_cancel_right (List.cons.inj hrest).2)
    exact List.inj_on_of_nodup_map hmethods (List.mem_filter.mp hm).1 (List.mem_filter.mp hm').1 hname
  · have apart : document.classes.Pairwise (·.name ≠ ·.name) := List.pairwise_map.mp distinct.classes
    apply apart.imp_of_mem
    intro c c' hc hc' differ name h h'
    obtain ⟨m, -, -, rfl⟩ := mem_takenTables.mp h
    obtain ⟨m', -, -, same⟩ := mem_takenTables.mp h'
    rw [← String.toList_inj, takenTable_toList, takenTable_toList] at same
    have hnames := eq_of_append_starts (distinct.dotless_class hc) (distinct.dotless_class hc')
      (.inr ⟨_, rfl⟩) (.inr ⟨_, rfl⟩) same
    exact differ (String.toList_inj.mp hnames.1)

theorem takenTable_not_mem {c : Class} (hc : c ∈ document.classes) {name : String}
    (hname : name ∈ c.takenTables) : name ∉ document.sectionNames := by
  obtain ⟨m, -, -, rfl⟩ := mem_takenTables.mp hname
  intro h
  have dotted : '.' ∈ (c.name ++ "." ++ m.name ++ "_param").toList := by
    rw [takenTable_toList]
    exact List.mem_append_right _ List.mem_cons_self
  have entry (h : c.name ++ "." ++ m.name ++ "_param" ∈ document.entryNames) : False :=
    distinct.dotless _ h dotted
  rw [sectionNames] at h
  simp only [List.mem_append] at h
  rcases h with (((h | h) | h) | h) | h
  · exact entry (by simp only [entryNames, List.mem_append]; tauto)
  · -- A class would have to be called like the root of all constants.
    obtain ⟨rest, hpath, hrest⟩ := constantName_starts h
    rw [takenTable_toList] at hpath
    have hroot := eq_of_append_starts (distinct.dotless_class hc) (by decide) (.inr ⟨_, rfl⟩) hrest hpath
    apply distinct.class_ne hc _ (String.toList_inj.mp hroot.1.symm)
    exact List.mem_append_left _ (List.mem_append_right _ List.mem_cons_self)
  · exact entry (by simp only [entryNames, List.mem_append]; tauto)
  · exact entry (by simp only [entryNames, List.mem_append]; tauto)
  · exact entry (by simp only [entryNames, List.mem_append]; tauto)

/-- The sections declare no class twice. -/
theorem nodup_heads (settings : Settings) : ((document.heads settings).map (·.1)).Nodup := by
  obtain ⟨names, hperm, hsub⟩ := document.map_heads_subperm settings
  rw [← hperm.nodup_iff]
  apply List.Nodup.sublist hsub
  rw [List.nodup_append]
  refine ⟨distinct.sections, distinct.nodup_takenTables, ?_⟩
  intro name hname other hother same
  obtain ⟨c, hc, hother⟩ := List.mem_flatMap.mp hother
  exact distinct.takenTable_not_mem hc hother (same ▸ hname)

end Distinct

end Document

end Api

end LuaStubs
