import LuaStubs.Proofs.Run
import LuaStubs.Proofs.Tables.Runs
import Mathlib.Data.List.Forall2

/-! What a finished file says about the tables without a name. The last part of the file consists of
their declarations, one for each name, and a table that is reached during the declaration of another
comes before it there. -/

namespace LuaStubs

theorem Line.renderAll_blocks (blocks : List (List Line)) :
    renderAll (blocks.map (· ++ [.blank])).flatten
      = String.join (blocks.map fun lines => renderAll lines ++ "\n") := by
  induction blocks with
  | nil => rfl
  | cons lines rest ih =>
    simp [renderAll_append, renderAll, render, text, ih, String.append_assoc]

namespace Manual

/-- A field of a declaration: its comment, and one line with its type. -/
def FieldLines (manual : Manual) (table : Place) (entry : String × TableField)
    (lines : List Line) : Prop :=
  ∃ comment type, manual.brief entry.2.description table.link = .ok comment ∧
    (∃ depth before after, manual.lowerWithin depth false entry.2.type
      (.member table.name entry.1 table.link) before = .ok (type, after)) ∧
    lines = comment ++ [.field entry.1 type entry.2.optional]

/-- A declaration: the header comment, one line with the name of the table, and its fields. -/
def Declares (manual : Manual) (table : NamelessTable) (lines : List Line) : Prop :=
  ∃ header fields, manual.comment table.place.link = .ok header ∧
    List.Forall₂ (manual.FieldLines table.place) table.fields fields ∧
    lines = header ++ .declaration table.name [] :: fields.flatten

/-- The tables that a site leads to without another table in between. -/
inductive Passes (manual : Manual) : Site → NamelessTable → Prop
  | here (table : NamelessTable) : Passes manual table.site table
  | part {site inner : Site} {table : NamelessTable} (noTable : ∀ shape, site.type ≠ .table shape)
      (isPart : inner ∈ manual.parts site) (passes : Passes manual inner table) :
      Passes manual site table

theorem Passes.eq_of_table {manual : Manual} {own table : NamelessTable}
    (passes : manual.Passes own.site table) : table = own := by
  generalize hsite : own.site = site at passes
  cases passes with
  | here =>
    cases own
    cases table
    cases hsite
    rfl
  | part noTable _ _ => exact absurd (congrArg Site.type hsite.symm) (noTable own.shape)

end Manual

open Emission

theorem fieldLines_of_declareField {manual : Manual} {depth : Nat} {table : Place}
    {entries : NameMap TableField} {lines : List Line} {b b' : Backlog}
    (h : Emission.linesOf (declareField manual (manual.lowerWithin depth false) table) entries b
      = .ok (lines, b')) :
    ∃ fields, List.Forall₂ (manual.FieldLines table) entries fields ∧ lines = fields.flatten := by
  induction entries generalizing b lines with
  | nil =>
    cases pure_eq_ok.mp h
    exact ⟨[], .nil, rfl⟩
  | cons entry rest ih =>
    obtain ⟨own, b₁, hown, h⟩ := bind_eq_ok.mp h
    obtain ⟨others, b₂, hothers, h⟩ := bind_eq_ok.mp h
    cases pure_eq_ok.mp h
    obtain ⟨fields, hfields, rfl⟩ := ih hothers
    obtain ⟨comment, b₃, hlift, hown⟩ := bind_eq_ok.mp hown
    obtain ⟨_, hcomment, hb⟩ := liftM_eq_ok.mp hlift
    cases hb
    obtain ⟨type, b₄, htype, hown⟩ := bind_eq_ok.mp hown
    cases pure_eq_ok.mp hown
    exact ⟨_ :: fields, .cons ⟨comment, type, hcomment, ⟨depth, b, _, htype⟩, rfl⟩ hfields, rfl⟩

theorem Manual.declares_of_writes {manual : Manual} {table : NamelessTable} {lines : List Line}
    {before after : Backlog} (h : manual.Writes table lines before after) :
    manual.Declares table lines := by
  obtain ⟨depth, h⟩ := h
  obtain ⟨header, b₁, hlift, h⟩ := bind_eq_ok.mp h
  obtain ⟨_, hheader, hb⟩ := liftM_eq_ok.mp hlift
  cases hb
  obtain ⟨_, b₂, hlines, h⟩ := bind_eq_ok.mp h
  cases pure_eq_ok.mp h
  obtain ⟨fields, hfields, rfl⟩ := fieldLines_of_declareField hlines
  exact ⟨header, fields, hheader, hfields, rfl⟩

namespace Walk

variable {manual : Manual} {sites : List Site} {b b' : Backlog} {h : History}

theorem reached_of_passes (walk : Walk manual sites b h b') {site : Site} {table : NamelessTable}
    (isSite : site ∈ sites) (passes : manual.Passes site table) : table ∈ h.reached := by
  induction walk generalizing site with
  | done b => cases isSite
  | through noTable _ ih =>
    rcases List.mem_cons.mp isSite with rfl | isSite
    · cases passes with
      | here => exact absurd rfl (noTable table.shape)
      | part _ isPart passes => exact ih (List.mem_append_left _ isPart) passes
    · exact ih (List.mem_append_right _ isSite) passes
  | again own _ _ ih =>
    rcases List.mem_cons.mp isSite with rfl | isSite
    · rw [passes.eq_of_table]
      exact List.mem_cons_self
    · exact List.mem_cons_of_mem _ (ih isSite passes)
  | first own _ _ _ _ _ ih =>
    rcases List.mem_cons.mp isSite with rfl | isSite
    · rw [passes.eq_of_table]
      exact List.mem_cons_self
    · exact List.mem_cons_of_mem _ (List.mem_append_right _ (ih isSite passes))

theorem reached_of_field (walk : Walk manual sites b h b') {outer table : NamelessTable}
    {lines : List Line} (declared : (outer, lines) ∈ h.declared) {site : Site}
    (isField : site ∈ fieldSites outer.place outer.fields) (passes : manual.Passes site table) :
    table ∈ h.reached := by
  induction walk with
  | done b => cases declared
  | through _ _ ih => exact ih declared
  | again _ _ _ ih => exact List.mem_cons_of_mem _ (ih declared)
  | first own _ _ inside _ hi hl =>
    apply List.mem_cons_of_mem
    rcases List.mem_append.mp declared with declared | declared
    · exact List.mem_append_left _ (hi declared)
    · rcases List.mem_cons.mp declared with same | declared
      · cases same
        exact List.mem_append_left _ (inside.reached_of_passes isField passes)
      · exact List.mem_append_right _ (hl declared)

end Walk

/-- What the file that a job writes says about its tables without a name. -/
structure Job.Chronicle (job : Job) (stubs : Stubs) (main : List Line) (history : History) :
    Prop where
  /-- The history is that of the run, which is a walk over all sites. -/
  walk : ∃ backlog, job.mainLines .empty = .ok (main, backlog) ∧
    Walk job.manual job.sites .empty history backlog
  names : stubs.names = history.claimed.map (·.name)
  distinct : stubs.names.Nodup
  /-- The last part of the file consists of the declarations, each with an empty line behind it. -/
  text : stubs.text = Line.renderAll main ++ job.appendix ++ "\n"
    ++ String.join (history.declared.map fun (_, lines) => Line.renderAll lines ++ "\n") ++ "\n"
  /-- There is one declaration for each name. -/
  blocks : (history.declared.map (·.1.name)).Perm stubs.names
  /-- A declaration is what is written for its table, whose name has been claimed. -/
  written : ∀ table lines, (table, lines) ∈ history.declared → job.manual.Declares table lines ∧
    ∃ before after, table.name ∈ before.names ∧ job.manual.Writes table lines before after
  /-- A table that is reached is declared, also if its name had been claimed before. -/
  reached : ∀ table ∈ history.reached, table.name ∈ history.declared.map (·.1.name)
  sites : ∀ site ∈ job.sites, ∀ table, job.manual.Passes site table → table ∈ history.reached
  fields : ∀ outer lines, (outer, lines) ∈ history.declared →
    ∀ site ∈ fieldSites outer.place outer.fields, ∀ table, job.manual.Passes site table →
      table ∈ history.reached
  /-- What is reached first during a declaration is claimed later and declared earlier. -/
  nested : ∀ outer inside, history.During outer inside →
    [outer.name, inside.name].Sublist stubs.names ∧
      [inside.name, outer.name].Sublist (history.declared.map (·.1.name))

theorem Job.chronicle_of_run {job : Job} {stubs : Stubs} (h : job.run = .ok stubs) :
    ∃ main history, job.Chronicle stubs main history := by
  obtain ⟨main, backlog, hmain, rfl⟩ := Job.run_eq_ok.mp h
  obtain ⟨history, walk⟩ := walks_mainLines job _ _ _ hmain
  have hnames : backlog.names = history.claimed.map (·.name) := walk.names_eq
  have hdeferred : backlog.text
      = String.join (history.declared.map fun (_, lines) => Line.renderAll lines ++ "\n") := by
    have hblocks : backlog.blocks = (history.declared.map (·.2)).map (· ++ [.blank]) := by
      rw [walk.blocks_eq, List.map_map]
      rfl
    rw [Backlog.text, hblocks, Line.renderAll_blocks, List.map_map]
    rfl
  have hperm : (history.declared.map (·.1.name)).Perm backlog.names := by
    rw [hnames]
    simpa [Function.comp_def] using history.declared_perm_claimed.map (·.name)
  refine ⟨main, history, {
    walk := ⟨backlog, hmain, walk⟩
    names := hnames
    distinct := walk.nodup_names .nil
    text := by rw [Job.finish, hdeferred]
    blocks := hperm
    written := ?_
    reached := fun table reached => hperm.mem_iff.mpr (walk.name_mem_of_reached reached)
    sites := fun site isSite table => walk.reached_of_passes isSite
    fields := fun outer lines declared site isField table => walk.reached_of_field declared isField
    nested := ?_ }⟩
  · intro table lines declared
    obtain ⟨before, after, own, writes⟩ := walk.writes_of_declared declared
    exact ⟨Manual.declares_of_writes writes, before, after, own, writes⟩
  · intro outer inside during
    have order := History.sublist_of_during during
    constructor
    · rw [Job.finish, hnames]
      exact order.1.map (·.name)
    · simpa [Function.comp_def] using order.2.map (·.name)

/-- Every file that is written declares all its tables without a name, each once. -/
theorem stubsOf_chronicle (document : Api.Document) (settings : Settings) (appendix : String)
    (stubs : Stubs) (h : stubsOf document settings appendix = .ok stubs) :
    ∃ job main history, Job.ofDocument document settings appendix = .ok job ∧
      job.Chronicle stubs main history := by
  obtain ⟨job, hjob, hrun⟩ := stubsOf_eq_ok.mp h
  obtain ⟨main, history, chronicle⟩ := Job.chronicle_of_run hrun
  exact ⟨job, main, history, hjob, chronicle⟩

/-- An event whose fields share the elements of a concept, which in turn refer to the concept. -/
def sharedElements : Api.Document where
  classes := []
  events := [⟨"e", 0, ⟨"", [], [], [], []⟩, [
    ⟨"t", 0, "", .named "C", false⟩,
    ⟨"u", 1, "", .array (.named "C"), true⟩]⟩]
  concepts := [⟨"C", 0, ⟨"", [], [], [], []⟩, .tableOrArray ⟨[
    ⟨"f", 0, "", .table ⟨[
      ⟨"g", 0, "", .array (.named "C"), false⟩,
      ⟨"h", 1, "", .table ⟨[], [], none⟩, false⟩], [], none⟩, false⟩], [], none⟩⟩]
  builtins := []
  globals := []
  constants := []

theorem stubsOf_chronicle_sharedElements :
    ∃ stubs, stubsOf sharedElements ⟨"/", []⟩ "" = .ok stubs ∧
      stubs.names = ["C_elem", "C_elem.h", "C.f", "C.f.h"] ∧
      ∃ job main history, Job.ofDocument sharedElements ⟨"/", []⟩ "" = .ok job ∧
        job.Chronicle stubs main history := by
  have names : (stubsOf sharedElements ⟨"/", []⟩ "").toOption.map (·.names)
      = some ["C_elem", "C_elem.h", "C.f", "C.f.h"] := by decide +kernel
  obtain ⟨stubs, h, hnames⟩ := exists_stubs_of_names names
  exact ⟨stubs, h, hnames, stubsOf_chronicle sharedElements ⟨"/", []⟩ "" stubs h⟩

end LuaStubs
