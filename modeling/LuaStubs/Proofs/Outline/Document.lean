import LuaStubs.Proofs.Outline.Runs
import LuaStubs.Proofs.Prose.Document
import LuaStubs.Proofs.Tables.Chronicle

/-! The outline of a stub file is read off its description: its code and the classes that its
sections declare, and behind them the tables without a name. No documentation gets out of its
comments. -/

namespace LuaStubs

open Text Emission

/-- A description whose names are on one line, and in which no name looks like a comment in code. -/
structure Api.Document.Clear (document : Document) (baseUrl : String) : Prop where
  words : ∀ word ∈ document.words, word.Clear
  base : '\n' ∉ baseUrl.toList
  methods : ∀ c ∈ document.classes, ∀ m ∈ c.methods, ¬ "---".toList <+: m.name.toList
  globals : ∀ g ∈ document.globals, ¬ "---".toList <+: g.name.toList

theorem prefix_of_prefix_append_cons {s t u : List Char} {c : Char} (hc : c ∉ s)
    (h : s <+: t ++ c :: u) : s <+: t := by
  rcases List.prefix_or_prefix_of_prefix h (List.prefix_append t (c :: u)) with hs | ⟨w, rfl⟩
  · exact hs
  · have hw : w <+: c :: u := (List.prefix_append_right_inj t).mp h
    rcases List.prefix_cons_iff.mp hw with rfl | ⟨rest, rfl, -⟩
    · simp
    · exact absurd (List.mem_append_right t List.mem_cons_self) hc

/-- A text that does not look like a comment. -/
def NoComment (text : String) : Prop :=
  ¬ "---".toList <+: text.toList

theorem NoComment.set {target code : String} (h : NoComment target) (rest : List Char)
    (hcode : code.toList = target.toList ++ '=' :: rest) : NoComment code := by
  intro front
  rw [hcode] at front
  exact h (prefix_of_prefix_append_cons (by decide) front)

theorem noComment_ofName (name : String) : NoComment (Identifier.ofName name) :=
  fun front => Identifier.not_mem_ofName (c := '-') (by decide) (by decide) name
    (front.subset (by decide))

theorem noComment_local (name : String) : NoComment ("local " ++ name) := by
  rintro ⟨rest, hrest⟩
  simp at hrest

theorem noComment_function {name : String} (h : NoComment name) (arguments : List String) :
    NoComment (functionCode name arguments) :=
  h.set ("function(" ++ ",".intercalate arguments ++ ")end,").toList (by simp [functionCode])

theorem noComment_node (path : String) (values : List Api.ConstantValue) :
    ∀ text ∈ Api.nodeCode (constantRoot ++ "." ++ path) values, NoComment text := by
  have hpath : NoComment (constantRoot ++ "." ++ path) := by
    rintro ⟨rest, hrest⟩
    simp [constantRoot] at hrest
  intro text h
  simp only [Api.nodeCode, List.mem_append, List.mem_cons, List.mem_map, List.not_mem_nil,
    or_false] at h
  rcases h with (rfl | ⟨value, -, rfl⟩) | rfl
  · exact hpath.set "\x7b".toList (by simp)
  · exact (noComment_ofName value.name).set "0,".toList (by simp [Api.ConstantValue.code])
  · exact show ¬ "---".toList <+: "\x7d".toList by decide

namespace Api.Document.Clear

variable {document : Api.Document} {baseUrl : String} (clear : document.Clear baseUrl)
include clear

theorem noComment_class {c : Class} (hc : c ∈ document.classes) :
    ∀ text ∈ c.code document.globals, NoComment text := by
  have hvariable : NoComment (c.variable document.globals) := by
    unfold Class.variable
    split
    · rename_i g found
      exact clear.globals g (List.mem_reverse.mp (List.mem_of_find?_eq_some found))
    · exact noComment_local _
  have hmethod (m : Method) (hm : m ∈ sortOn (·.order) c.methods) : NoComment m.code :=
    noComment_function (clear.methods c hc m ((mem_sortOn _ m _).mp hm)) _
  intro text h
  simp only [Class.code, List.mem_append, List.mem_cons, List.mem_map, List.not_mem_nil,
    or_false] at h
  rcases h with ((rfl | ⟨m, hm, rfl⟩) | ⟨o, -, rfl⟩) | rfl
  · exact hvariable.set "\x7b".toList (by simp)
  · exact hmethod m hm
  · exact noComment_function (show ¬ "---".toList <+: "__call".toList by decide) _
  · exact show ¬ "---".toList <+: "\x7d".toList by decide

theorem noComment : ∀ text ∈ document.code, NoComment text := by
  intro text h
  simp only [code, List.mem_append, List.mem_cons, List.mem_flatMap] at h
  rcases h with (rfl | ⟨⟨path, values⟩, hnode, h⟩) | ⟨c, hc, h⟩
  · exact show ¬ "---".toList <+: (constantRoot ++ "=\x7b\x7d").toList by decide
  · obtain ⟨rest, rfl⟩ := path_of_mem_nodes hnode
    exact noComment_node rest values text h
  · exact clear.noComment_class ((mem_sortOn _ c _).mp hc) text h

end Api.Document.Clear

/-! The whole file. -/

/-- The declaration of a table without a name is the declaration of its name. -/
theorem Manual.outlined_of_declares {quiet : Prop} {manual : Manual} {table : NamelessTable}
    {lines : List Line} (declaring : Declaring quiet (lines ++ [.blank]))
    (h : manual.Declares table lines) :
    Outlined quiet [] [(table.name, [])] (lines ++ [.blank]) := by
  obtain ⟨name, marked⟩ := declaring
  obtain ⟨header, fields, -, -, rfl⟩ := h
  have hline : Line.declaration table.name [] ∈
      header ++ .declaration table.name [] :: fields.flatten ++ [.blank] := by simp
  have hmark : Mark.head table.name [] ∈ [Mark.head name []] := by
    rw [← marked.marks]
    exact List.mem_filterMap.mpr ⟨_, hline, rfl⟩
  cases List.mem_singleton.mp hmark
  exact marked.outlined

theorem Manual.outlined_tables {quiet : Prop} {manual : Manual}
    {declared : List (NamelessTable × List Line)}
    (declaring : ∀ block ∈ declared.map fun (_, lines) => lines ++ [.blank], Declaring quiet block)
    (h : ∀ table lines, (table, lines) ∈ declared → manual.Declares table lines) :
    Outlined quiet [] (declared.map fun (table, _) => (table.name, []))
      (declared.map fun (_, lines) => lines ++ [.blank]).flatten := by
  induction declared with
  | nil => exact .nil
  | cons entry rest ih =>
    obtain ⟨table, lines⟩ := entry
    obtain ⟨own, others⟩ := List.forall_mem_cons.mp declaring
    have block := outlined_of_declares own (h table lines List.mem_cons_self)
    exact block.append (ih others fun table lines hmem => h table lines (List.mem_cons_of_mem _ hmem))

/-- A file without an appendix is the text of outlined lines, the tables without a name coming last. -/
theorem exists_outline {document : Api.Document} {settings : Settings} {stubs : Stubs}
    (clear : document.Clear settings.baseUrl) (h : stubsOf document settings "" = .ok stubs) :
    ∃ (lines : List Line) (names : List String), stubs.text = Line.renderAll lines ∧
      names.Perm stubs.names ∧
      Outlined (document.Tidy settings.baseUrl) document.code
        (document.heads settings ++ names.map fun name => (name, [])) lines := by
  obtain ⟨entries, job, main, backlog, hentries, hjob, hmain, hstubs⟩ := stubsOf_eq_finish.mp h
  obtain ⟨history, walk⟩ := walks_mainLines job _ _ _ hmain
  have hblocks : backlog.blocks = history.declared.map fun (_, lines) => lines ++ [.blank] :=
    walk.blocks_eq
  have words (word : Word) (h : word ∈ document.words) : word.Fits (document.Tidy settings.baseUrl) :=
    ⟨clear.words word h, fun tidy => tidy.words word h⟩
  obtain ⟨outlined, hdeclaring⟩ : Outlined (document.Tidy settings.baseUrl) document.code
      (document.heads settings) main ∧
      ∀ block ∈ backlog.blocks, Declaring (document.Tidy settings.baseUrl) block := by
    rw [hjob] at hmain
    exact Job.gives_mainLines words clear.base hentries .empty (List.forall_mem_nil _) _ hmain
  have tables : Outlined (document.Tidy settings.baseUrl) []
      (history.declared.map fun (table, _) => (table.name, [])) backlog.blocks.flatten := by
    rw [hblocks]
    apply Manual.outlined_tables (hblocks ▸ hdeclaring)
    intro table lines declared
    obtain ⟨_, _, -, writes⟩ := walk.writes_of_declared declared
    exact Manual.declares_of_writes writes
  -- The tables are declared in another order than their names are claimed in.
  refine ⟨main ++ .blank :: backlog.blocks.flatten ++ [.blank], history.declared.map (·.1.name), ?_, ?_,
    ?_⟩
  · rw [hstubs, Job.finish, hjob]
    simp [Line.renderAll_append, Line.renderAll, Line.render, Line.text, Backlog.text,
      String.append_assoc]
  · have hnames : stubs.names = history.claimed.map (·.name) := by
      rw [hstubs]
      exact walk.names_eq
    rw [hnames]
    simpa [Function.comp_def] using history.declared_perm_claimed.map (·.name)
  · have all := (outlined.append (tables.cons .blank trivial)).append (.single .blank trivial)
    simpa [Line.code?, Line.head?, Line.mark?, Function.comp_def] using all

/-- Whatever is documented, the code of a file is that of its description. If no line of the
documentation begins with the mark of an annotation, its classes are those of the description as
well, and behind them one for each name given to a table. -/
theorem stubsOf_outline {document : Api.Document} {settings : Settings}
    (clear : document.Clear settings.baseUrl) (stubs : Stubs)
    (h : stubsOf document settings "" = .ok stubs) :
    codeOf stubs.text = document.code ∧
      (document.Tidy settings.baseUrl → ∃ names : List String, names.Perm stubs.names ∧
        headsOf stubs.text = (document.heads settings ++ names.map fun name => (name, [])).map
          fun (name, bases) => headLine name bases) := by
  obtain ⟨lines, names, htext, hnames, outlined⟩ := exists_outline clear h
  refine ⟨?_, fun tidy => ⟨names, hnames, ?_⟩⟩
  · rw [htext]
    exact outlined.codeOf_renderAll clear.noComment
  · rw [htext]
    exact outlined.headsOf_renderAll clear.noComment tidy

/-- Constants in two levels, a global class that can be called, and a class that nothing exposes. -/
def mixed : Api.Document where
  classes := [
    ⟨"end", 1, ⟨"", [], [], [], []⟩, [⟨"find", 0, ⟨"", [], [], [], []⟩,
      ⟨[⟨"where", 0, "", .named "int", false⟩], [], none, some (.named "int"), none, false, false, none,
        none⟩⟩], [], [], []⟩,
    ⟨"Game", 0, ⟨"The game.\nfunction game() end\n\n--[[", [], [], [], []⟩, [
      ⟨"stop", 1, ⟨"", [], [], [], []⟩, ⟨[], [], none, none, none, false, false, none, none⟩⟩,
      ⟨"make", 0, ⟨"", ["game.make = nil"], [], [], []⟩, ⟨[⟨"parts", 0, "", .table ⟨[], [], none⟩, true⟩],
        [], none, none, none, true, false, some (.table ⟨[], [], none⟩), none⟩⟩], [], [
      ⟨"call", 0, ⟨"", [], [], [], []⟩, none, true, false,
        ⟨[⟨"y", 1, "", .named "int", false⟩, ⟨"then", 0, "", .named "int", false⟩], [], none, none, none,
          false, false, none, none⟩⟩], ["end"]⟩]
  events := []
  concepts := []
  builtins := [⟨"int", 0, ""⟩]
  globals := [⟨"game", 0, "", .named "Game"⟩]
  constants := [
    ⟨"late", 1, "", [], []⟩,
    ⟨"early", 0, "", [⟨"b-c", 1, ""⟩, ⟨"a", 0, ""⟩], [⟨"inner", 0, "", [⟨"not", 0, ""⟩], []⟩]⟩]

theorem stubsOf_mixed :
    ∃ stubs, stubsOf mixed ⟨"/", []⟩ "" = .ok stubs ∧
      stubs.names = ["Game.make_param.parts", "Game.make_return"] ∧
      codeOf stubs.text = [
        "defines=\x7b\x7d",
        "defines.early=\x7b", "a=0,", "b_c=0,", "\x7d",
        "defines.early.inner=\x7b", "not_=0,", "\x7d",
        "defines.late=\x7b", "\x7d",
        "game=\x7b", "make=function(param)end,", "stop=function()end,",
        "__call=function(then_,y)end,", "\x7d",
        "local end_=\x7b", "find=function(where,...)end,", "\x7d"] ∧
      ∃ names : List String, names.Perm stubs.names ∧ headsOf stubs.text = [
        "---@class int:number", "---@class defines", "---@class defines.early",
        "---@class defines.early.inner", "---@class defines.late", "---@class Game:end",
        "---@class Game.make_param", "---@class end"] ++ names.map fun name => headLine name [] := by
  have names : (stubsOf mixed ⟨"/", []⟩ "").toOption.map (·.names) =
      some ["Game.make_param.parts", "Game.make_return"] := by
    decide +kernel
  obtain ⟨stubs, h, hnames⟩ := exists_stubs_of_names names
  have clear : mixed.Clear "/" := ⟨by decide +kernel, by decide, by decide, by decide⟩
  have tidy : mixed.Tidy "/" := ⟨by decide +kernel, by decide⟩
  obtain ⟨hcode, hheads⟩ := stubsOf_outline clear stubs h
  obtain ⟨tables, htables, hheads⟩ := hheads tidy
  refine ⟨stubs, h, hnames, ?_, tables, htables, ?_⟩
  · rw [hcode]
    decide +kernel
  · rw [hheads, List.map_append, List.map_map]
    exact congrArg (· ++ _) (by decide +kernel)

end LuaStubs
