import LuaStubs.Proofs.Naming.Sites

/-! Where names and positions are told apart, tables without a name that share a name are one table,
and the declaration under the name is that of the table. -/

namespace LuaStubs

open Api

/-- A property of the tables that sites lead to, and that fields of such tables lead to, is one of all
tables that a walk over the sites reaches. -/
theorem Walk.forall_reached {manual : Manual} {P : NamelessTable → Prop}
    (field : ∀ outer table : NamelessTable, ∀ site ∈ fieldSites outer.place outer.fields,
      P outer → manual.Passes site table → P table)
    {sites : List Site} {b b' : Backlog} {h : History} (walk : Walk manual sites b h b')
    (start : ∀ site ∈ sites, ∀ table, manual.Passes site table → P table) :
    ∀ table ∈ h.reached, P table := by
  induction walk with
  | done b => simp [History.reached]
  | @through site rest _ _ _ noTable _ ih =>
    apply ih
    intro inner hinner table passes
    rcases List.mem_append.mp hinner with isPart | hinner
    · exact start _ List.mem_cons_self table (.part noTable isPart passes)
    · exact start inner (List.mem_cons_of_mem _ hinner) table passes
  | again own _ _ ih =>
    intro table reached
    rcases List.mem_cons.mp reached with rfl | reached
    · exact start _ List.mem_cons_self table (.here table)
    · exact ih (fun site hsite => start site (List.mem_cons_of_mem _ hsite)) table reached
  | first own _ _ _ _ hi hl =>
    have hown : P own := start _ List.mem_cons_self own (.here own)
    intro table reached
    rcases List.mem_cons.mp reached with rfl | reached
    · exact hown
    rcases List.mem_append.mp reached with reached | reached
    · exact hi (fun site hsite table => field own table site hsite hown) table reached
    · exact hl (fun site hsite => start site (List.mem_cons_of_mem _ hsite)) table reached

namespace Job

variable {job : Job}

theorem Chronicle.occurs {stubs : Stubs} {main : List Line} {history : History}
    (chronicle : job.Chronicle stubs main history) {table : NamelessTable} {lines : List Line}
    (h : (table, lines) ∈ history.declared) : job.Occurs table := by
  obtain ⟨backlog, -, walk⟩ := chronicle.walk
  have hclaimed : table ∈ history.claimed :=
    history.declared_perm_claimed.mem_iff.mp (List.mem_map.mpr ⟨_, h, rfl⟩)
  have occurs := walk.forall_reached (P := job.Occurs)
    (fun _ _ _ isField occurs passes => .field occurs isField passes)
    (fun _ isSite _ passes => .site isSite passes)
  exact occurs table (history.claimed_subset_reached hclaimed)

theorem Occurs.unique (knows : job.manual.KnowsElements job.document) (spread : job.document.Spread)
    {table table' : NamelessTable} (h : job.Occurs table) (h' : job.Occurs table')
    (same : table.name = table'.name) : table = table' := by
  obtain ⟨hplace, hholder⟩ := Stands.unique spread (h.stands knows) (h'.stands knows) same
  cases table
  cases table'
  cases hplace
  cases hholder
  rfl

/-- A table of the description is declared itself, not another one under its name. -/
theorem Occurs.declared (knows : job.manual.KnowsElements job.document)
    (spread : job.document.Spread) {stubs : Stubs} {main : List Line} {history : History}
    (chronicle : job.Chronicle stubs main history) {table : NamelessTable} (h : job.Occurs table) :
    ∃ lines, (table, lines) ∈ history.declared := by
  have declared {table : NamelessTable} (occurs : job.Occurs table)
      (reached : table ∈ history.reached) : ∃ lines, (table, lines) ∈ history.declared := by
    obtain ⟨⟨other, lines⟩, hother, same⟩ := List.mem_map.mp (chronicle.reached table reached)
    cases Occurs.unique knows spread (chronicle.occurs hother) occurs same
    exact ⟨lines, hother⟩
  induction h with
  | site isSite passes => exact declared (.site isSite passes) (chronicle.sites _ isSite _ passes)
  | field occurs isField passes ih =>
    obtain ⟨lines, houter⟩ := ih
    exact declared (.field occurs isField passes) (chronicle.fields _ lines houter _ isField _ passes)

end Job

theorem Job.knowsElements {document : Document} {settings : Settings} {appendix : String}
    {job : Job} (h : Job.ofDocument document settings appendix = .ok job) :
    job.document = document ∧ job.manual.KnowsElements document := by
  obtain ⟨catalog, hcatalog, rfl⟩ := Job.ofDocument_eq_ok.mp h
  obtain ⟨globals, -, rfl⟩ := Catalog.ofDocument_eq_ok.mp hcatalog
  exact ⟨rfl, Catalog.knowsElements document globals settings.baseUrl⟩

/-- In a description whose names and positions are told apart, a name of a table stands for one table
only, and the file declares that table under it. -/
theorem stubsOf_namesakes (document : Document) (spread : document.Spread) (settings : Settings)
    (appendix : String) (stubs : Stubs) (h : stubsOf document settings appendix = .ok stubs) :
    ∃ job main history, Job.ofDocument document settings appendix = .ok job ∧
      job.Chronicle stubs main history ∧
      (∀ table table', job.Occurs table → job.Occurs table' → table.name = table'.name →
        table = table') ∧
      ∀ table, job.Occurs table → ∃ lines, (table, lines) ∈ history.declared := by
  obtain ⟨job, hjob, hrun⟩ := stubsOf_eq_ok.mp h
  obtain ⟨main, history, chronicle⟩ := Job.chronicle_of_run hrun
  obtain ⟨rfl, knows⟩ := Job.knowsElements hjob
  exact ⟨job, main, history, hjob, chronicle, fun _ _ => Job.Occurs.unique knows spread,
    fun _ => Job.Occurs.declared knows spread chronicle⟩

def tableOf (field : String) (type : TypeExpr) : TypeExpr :=
  .table ⟨[⟨field, 0, "", type, false⟩], [], none⟩

def bare : Documentation := ⟨"", [], [], [], []⟩

/-- Tables in a key, in an alternative, in parameters and in what they are made of. -/
def nested : Document where
  classes := [⟨"A", 0, bare,
    [⟨"m", 0, bare, ⟨[⟨"p", 0, "", .function [tableOf "x" (.named "int")], false⟩], [], none,
        some (tableOf "x" (.named "int")), none, false, false, some (.array (.named "V")), none⟩⟩,
     ⟨"t", 1, bare, ⟨[⟨"p", 0, "", tableOf "x" (tableOf "y" (.named "int")), false⟩], [], none, none,
        none, true, false, none, none⟩⟩],
    [⟨"a", 0, bare, .dictionary (tableOf "x" (.named "int"))
      (.variant [.named "int", tableOf "y" (.named "int")]), true, false⟩], [], []⟩]
  events := []
  concepts := [⟨"V", 0, bare, .tableOrArray ⟨[⟨"x", 0, "", tableOf "y" (.named "int"), false⟩], [], none⟩⟩]
  builtins := [⟨"int", 0, ""⟩]
  globals := []
  constants := []

theorem nested_spread : nested.Spread := by
  have below : nested.throughout Holder.Separate 5 = true := by decide +kernel
  exact ⟨by decide +kernel, Document.throughout_sound below⟩

theorem stubsOf_namesakes_nested :
    nested.Spread ∧ ∃ stubs, stubsOf nested ⟨"/", []⟩ "" = .ok stubs ∧
      stubs.names = ["A.a_key", "A.a_value.1", "A.m.p_param1", "A.m_vararg", "V_elem", "A.t_param.p",
        "A.t_param.p.x", "V.x"] ∧
      ∃ job main history, Job.ofDocument nested ⟨"/", []⟩ "" = .ok job ∧
        job.Chronicle stubs main history ∧
        (∀ table table', job.Occurs table → job.Occurs table' → table.name = table'.name →
          table = table') ∧
        ∀ table, job.Occurs table → ∃ lines, (table, lines) ∈ history.declared := by
  have names : (stubsOf nested ⟨"/", []⟩ "").toOption.map (·.names) = some ["A.a_key", "A.a_value.1",
      "A.m.p_param1", "A.m_vararg", "V_elem", "A.t_param.p", "A.t_param.p.x", "V.x"] := by
    decide +kernel
  obtain ⟨stubs, h, hnames⟩ := exists_stubs_of_names names
  exact ⟨nested_spread, stubs, h, hnames, stubsOf_namesakes nested nested_spread ⟨"/", []⟩ "" stubs h⟩

/-! Names that are told apart within each owner only may still be spelled alike. -/

/-- The names of the members, parameters or fields of an owner. -/
def Api.Holder.names : Holder → List String
  | .type (.table shape) =>
    shape.parameters.map (·.name) ++ shape.groups.flatMap (·.parameters.map (·.name))
  | .class c => c.attributes.map (·.name) ++ c.methods.map (·.name) ++ c.operators.map (·.name)
  | .event e => e.data.map (·.name)
  | .method m => m.signature.parameters.map (·.name)
  | .methodTable m => m.signature.parameters.map (·.name)
      ++ m.signature.groups.flatMap (·.parameters.map (·.name))
  | .concept c => match c.kind with
    | .struct attributes => attributes.map (·.name)
    | .table shape | .tableOrArray shape | .filter shape =>
      shape.parameters.map (·.name) ++ shape.groups.flatMap (·.parameters.map (·.name))
    | _ => []
  | .type _ => []

/-- The names of the entries of each kind. Constants are named by their paths. -/
def Api.Document.names (document : Document) : List (List String) :=
  [document.builtins.map (·.name), document.events.map (·.name), document.classes.map (·.name),
    document.concepts.map (·.name), constantPaths constantRoot document.constants,
    document.globals.map (·.name)]

/-- Entries of a kind have different names, and so have the members, parameters and fields of an
owner. -/
structure Api.Document.NamesDistinct (document : Document) : Prop where
  entries : ∀ names ∈ document.names, names.Nodup
  below : document.Throughout fun holder => holder.names.Nodup

def Api.Document.namesDistinct (document : Document) (depth : Nat) : Bool :=
  decide (∀ names ∈ document.names, names.Nodup)
    && document.throughout (fun holder => holder.names.Nodup) depth

theorem Api.Document.namesDistinct_sound {document : Document} {depth : Nat}
    (h : document.namesDistinct depth = true) : document.NamesDistinct := by
  obtain ⟨entries, below⟩ := Bool.and_eq_true_iff.mp h
  exact ⟨of_decide_eq_true entries, Document.throughout_sound below⟩

/-- Two tables of the file share a name, but not their fields. -/
def Api.Document.Confuses (document : Document) : Prop :=
  ∃ stubs job table table', stubsOf document ⟨"/", []⟩ "" = .ok stubs ∧
    Job.ofDocument document ⟨"/", []⟩ "" = .ok job ∧ job.Occurs table ∧ job.Occurs table' ∧
    table.name = table'.name ∧ table.fields.map (·.1) ≠ table'.fields.map (·.1)

/-- A description that refers to one builtin. -/
def describing (classes : List Api.Class) (events : List Event) (concepts : List Concept) : Document :=
  ⟨classes, events, concepts, [⟨"int", 0, ""⟩], [], []⟩

def classOf (name : String) (attributes : List (String × TypeExpr)) (operators : List Operator) :
    Api.Class :=
  ⟨name, 0, bare, [], attributes.map fun (name, type) => ⟨name, 0, bare, type, true, true⟩, operators, []⟩

/-- An attribute that is called like the keys of another one. -/
def likeKey : Document :=
  describing [classOf "A" [("a", .dictionary (tableOf "x" (.named "int")) (.named "int")),
    ("a_key", tableOf "y" (.named "int"))] []] [] []

/-- A class and an attribute that have a dot between them, but not the same one. -/
def likeDotted : Document :=
  describing [classOf "A" [("b.c", tableOf "x" (.named "int"))] [],
    classOf "A.b" [("c", tableOf "y" (.named "int"))] []] [] []

/-- Two options with the same order key. -/
def likeOption : Document :=
  describing [] [] [⟨"S", 0, bare,
    .identification [⟨0, "", tableOf "x" (.named "int")⟩, ⟨0, "", tableOf "y" (.named "int")⟩]⟩]

def likeClass : Document :=
  describing [classOf "A" [("a", tableOf "x" (.named "int"))] []]
    [⟨"A", 0, bare, [⟨"a", 0, "", tableOf "y" (.named "int"), false⟩]⟩] []

/-- An attribute that is called as an operator is written. -/
def likeOperator : Document :=
  describing [classOf "A" [("__index", tableOf "x" (.named "int"))]
    [⟨"index", 0, bare, some (tableOf "y" (.named "int")), true, true,
      ⟨[], [], none, none, none, false, false, none, none⟩⟩]] [] []

def jobOf (document : Document) : Job :=
  ⟨document, Catalog.ofEntries document [], ⟨"/", []⟩, ""⟩

theorem Job.Occurs.of_table {job : Job} {shape : Shape} {place : Place}
    (h : ⟨.table shape, place⟩ ∈ job.sites) : job.Occurs ⟨shape, place⟩ :=
  .site h (.here ⟨shape, place⟩)

theorem Job.Occurs.of_key {job : Job} {shape : Shape} {value : TypeExpr} {place : Place}
    (h : ⟨.dictionary (.table shape) value, place⟩ ∈ job.sites) : job.Occurs ⟨shape, place.key⟩ :=
  .site h (.part nofun List.mem_cons_self (.here ⟨shape, place.key⟩))

theorem Api.Document.confuses_of_occurs {document : Document} {names : List String}
    {table table' : NamelessTable} (globals : document.globals = [])
    (run : (stubsOf document ⟨"/", []⟩ "").toOption.map (·.names) = some names)
    (first : (jobOf document).Occurs table) (second : (jobOf document).Occurs table')
    (same : table.name = table'.name) (differ : table.fields.map (·.1) ≠ table'.fields.map (·.1)) :
    document.Confuses := by
  obtain ⟨stubs, h, -⟩ := exists_stubs_of_names run
  have hglobals : Catalog.exposed document.globals = .ok [] := by rw [globals, Catalog.exposed]
  have hjob : Job.ofDocument document ⟨"/", []⟩ "" = .ok (jobOf document) :=
    Job.ofDocument_eq_ok.mpr ⟨_, Catalog.ofDocument_eq_ok.mpr ⟨[], hglobals, rfl⟩, rfl⟩
  exact ⟨stubs, jobOf document, table, table', h, hjob, first, second, same, differ⟩

theorem likeKey_confuses : likeKey.Confuses := by
  have run : (stubsOf likeKey ⟨"/", []⟩ "").toOption.map (·.names) = some ["A.a_key"] := by
    decide +kernel
  exact Document.confuses_of_occurs rfl run (.of_key List.mem_cons_self)
    (.of_table (List.mem_cons_of_mem _ List.mem_cons_self)) rfl (by decide)

theorem likeDotted_confuses : likeDotted.Confuses := by
  have run : (stubsOf likeDotted ⟨"/", []⟩ "").toOption.map (·.names) = some ["A.b.c"] := by
    decide +kernel
  exact Document.confuses_of_occurs rfl run (.of_table List.mem_cons_self)
    (.of_table (List.mem_cons_of_mem _ List.mem_cons_self)) rfl (by decide)

theorem likeOption_confuses : likeOption.Confuses := by
  have run : (stubsOf likeOption ⟨"/", []⟩ "").toOption.map (·.names) = some ["S.0"] := by
    decide +kernel
  exact Document.confuses_of_occurs rfl run (.of_table List.mem_cons_self)
    (.of_table (List.mem_cons_of_mem _ (List.mem_cons_of_mem _ List.mem_cons_self))) rfl (by decide)

theorem likeClass_confuses : likeClass.Confuses := by
  have run : (stubsOf likeClass ⟨"/", []⟩ "").toOption.map (·.names) = some ["A.a"] := by
    decide +kernel
  exact Document.confuses_of_occurs rfl run (.of_table List.mem_cons_self)
    (.of_table (List.mem_cons_of_mem _ List.mem_cons_self)) rfl (by decide)

theorem likeOperator_confuses : likeOperator.Confuses := by
  have run : (stubsOf likeOperator ⟨"/", []⟩ "").toOption.map (·.names) = some ["A.__index"] := by
    decide +kernel
  exact Document.confuses_of_occurs rfl run (.of_table List.mem_cons_self)
    (.of_table (List.mem_cons_of_mem _ List.mem_cons_self)) rfl (by decide)

/-- Names that differ within their owners may be spelled alike in all these ways. -/
theorem stubsOf_namesakes_alike :
    (likeKey.NamesDistinct ∧ likeKey.Confuses) ∧ (likeDotted.NamesDistinct ∧ likeDotted.Confuses) ∧
      (likeOption.NamesDistinct ∧ likeOption.Confuses) ∧
      (likeClass.NamesDistinct ∧ likeClass.Confuses) ∧
      likeOperator.NamesDistinct ∧ likeOperator.Confuses := by
  have distinct : ∀ document ∈ [likeKey, likeDotted, likeOption, likeClass, likeOperator],
      document.namesDistinct 3 = true := by decide +kernel
  simp only [List.forall_mem_cons] at distinct
  obtain ⟨key, dotted, option, sameClass, operator, -⟩ := distinct
  exact ⟨⟨Document.namesDistinct_sound key, likeKey_confuses⟩,
    ⟨Document.namesDistinct_sound dotted, likeDotted_confuses⟩,
    ⟨Document.namesDistinct_sound option, likeOption_confuses⟩,
    ⟨Document.namesDistinct_sound sameClass, likeClass_confuses⟩,
    Document.namesDistinct_sound operator, likeOperator_confuses⟩

end LuaStubs
