import LuaStubs.Proofs.Arrangement.Entries
import LuaStubs.Proofs.Catalogs
import LuaStubs.Proofs.Outline.Entries
import LuaStubs.Stub.Document

/-! The main part of a stub file consists of lines that fit, with the code and the heads that are
read off the description. -/

namespace LuaStubs

open Text Emission

variable {quiet : Prop}

/-! Builtins and constants. -/

namespace Manual

variable {manual : Manual} (fits : manual.WordsFit quiet) {lines : List Line}
include fits

theorem outlined_builtinsLines {settings : Settings} {builtins : List Api.Builtin}
    (words : ∀ b ∈ builtins, ∀ word ∈ b.words, word.Fits quiet)
    (h : manual.builtinsLines settings builtins = .ok lines) :
    Outlined quiet []
      ((builtins.filter fun b => !settings.knows b.name).map fun b => (b.name, ["number"])) lines := by
  induction builtins generalizing lines with
  | nil =>
    cases h
    exact .nil
  | cons b rest ih =>
    obtain ⟨hb, hrest⟩ := List.forall_mem_cons.mp words
    have hname : '\n' ∉ b.name.toList := (hb (.name b.name) List.mem_cons_self).1
    have hprose := (hb _ (List.mem_cons_of_mem _ List.mem_cons_self)).prose
    unfold builtinsLines at h
    split at h
    · rename_i known
      obtain ⟨own, hown, h⟩ := Outcome.bind_eq_ok.mp h
      obtain ⟨others, hothers, h⟩ := Outcome.bind_eq_ok.mp h
      cases hown
      cases h
      simpa [known] using ih hrest hothers
    · rename_i unknown
      obtain ⟨own, hown, h⟩ := Outcome.bind_eq_ok.mp h
      obtain ⟨others, hothers, h⟩ := Outcome.bind_eq_ok.mp h
      cases h
      obtain ⟨link, hlink, hown⟩ := Outcome.bind_eq_ok.mp hown
      obtain ⟨comment, hcomment, hown⟩ := Outcome.bind_eq_ok.mp hown
      cases hown
      have silent := silent_brief fits.base hprose (quiet_view fits.base hname hlink) hcomment
      have hbases : ∀ base ∈ ["number"], '\n' ∉ base.toList := List.forall_mem_singleton.mpr (by decide)
      have own := silent.append (.single (.declaration b.name ["number"]) ⟨hname, hbases⟩)
      have all := own.outlined.append (ih hrest hothers)
      simpa [unknown, List.filterMap_cons, Line.mark?, Mark.code?, Mark.head?] using all

theorem outlined_valuesLines {node : String} (hnode : '\n' ∉ node.toList)
    {values : List Api.ConstantValue}
    (words : ∀ word ∈ values.flatMap Api.ConstantValue.words, word.Fits quiet)
    (h : manual.valuesLines node values = .ok lines) :
    Outlined quiet (values.map Api.ConstantValue.code) [] lines := by
  induction values generalizing lines with
  | nil =>
    cases h
    exact .nil
  | cons value rest ih =>
    have own (word : Word) (h : word ∈ value.words) : word.Fits quiet :=
      words word (List.mem_append_left _ h)
    have hname : '\n' ∉ value.name.toList := (own (.name value.name) List.mem_cons_self).1
    have hprose := (own _ (List.mem_cons_of_mem _ List.mem_cons_self)).prose
    have hpath : '\n' ∉ (node ++ "." ++ value.name).toList := by simp [hnode, hname]
    obtain ⟨lines, hlines, h⟩ := Outcome.bind_eq_ok.mp h
    obtain ⟨others, hothers, h⟩ := Outcome.bind_eq_ok.mp h
    cases h
    obtain ⟨link, hlink, hlines⟩ := Outcome.bind_eq_ok.mp hlines
    obtain ⟨comment, hcomment, hlines⟩ := Outcome.bind_eq_ok.mp hlines
    cases hlines
    have silent := silent_brief fits.base hprose (quiet_view fits.base hpath hlink) hcomment
    have hconstant : '\n' ∉ (Identifier.ofName value.name).toList :=
      Identifier.not_mem_ofName (by decide) (by decide) value.name
    exact (silent.append (.single (.constant _) hconstant)).outlined.append
      (ih (fun word h => words word (List.mem_append_right _ h)) hothers)

end Manual

theorem inOrder_nodesOfConstants (parent : String) (nodes : List Api.Constant) :
    inOrder (Api.nodesOfConstants parent nodes) =
      (sortOn (·.order) nodes).flatMap (Api.Constant.nodes parent) := by
  have blocks : Api.nodesOfConstants parent nodes =
      nodes.map fun node => (node.order, node.nodes parent) := by
    induction nodes with
    | nil => rfl
    | cons node rest ih => rw [Api.nodesOfConstants, ih, List.map_cons]
  have order (node : Api.Constant) : (node.order, node.nodes parent).1 = node.order := rfl
  rw [inOrder, blocks, sortOn_map order, List.flatMap_map]

namespace Api

mutual

theorem Constant.path_of_mem_nodes (parent : String) : ∀ node : Constant,
    ∀ entry ∈ node.nodes parent, ∃ rest, entry.1 = parent ++ "." ++ rest
  | ⟨name, _, _, _, subkeys⟩, entry, h => by
    rcases List.mem_cons.mp h with rfl | h
    · exact ⟨name, rfl⟩
    · obtain ⟨block, hblock, h⟩ := List.mem_flatMap.mp h
      obtain ⟨rest, hrest⟩ := path_of_mem_nodesOfConstants (parent ++ "." ++ name) subkeys block
        ((mem_sortOn _ block _).mp hblock) entry h
      exact ⟨name ++ "." ++ rest, by rw [hrest]; simp only [String.append_assoc]⟩

theorem path_of_mem_nodesOfConstants (parent : String) : ∀ nodes : List Constant,
    ∀ block ∈ nodesOfConstants parent nodes, ∀ entry ∈ block.2,
      ∃ rest, entry.1 = parent ++ "." ++ rest
  | [], _, h, _, _ => nomatch h
  | node :: rest, block, h, entry, hentry => by
    rcases List.mem_cons.mp h with rfl | h
    · exact node.path_of_mem_nodes parent entry hentry
    · exact path_of_mem_nodesOfConstants parent rest block h entry hentry

end

theorem Document.path_of_mem_nodes {document : Document} {entry : String × List ConstantValue}
    (h : entry ∈ document.nodes) : ∃ rest, entry.1 = constantRoot ++ "." ++ rest := by
  obtain ⟨block, hblock, hentry⟩ := List.mem_flatMap.mp h
  exact path_of_mem_nodesOfConstants constantRoot document.constants block
    ((mem_sortOn _ block _).mp hblock) entry hentry

end Api

abbrev OutlinedNodes (quiet : Prop) (nodes : List (String × List Api.ConstantValue)) :
    List Line → Prop :=
  Outlined quiet (nodes.flatMap fun (path, values) => Api.nodeCode path values)
    (nodes.map fun (path, _) => (path, []))

theorem OutlinedNodes.append {nodes nodes' : List (String × List Api.ConstantValue)}
    {lines lines' : List Line} (h : OutlinedNodes quiet nodes lines)
    (h' : OutlinedNodes quiet nodes' lines') :
    OutlinedNodes quiet (nodes ++ nodes') (lines ++ lines') := by
  unfold OutlinedNodes
  rw [List.flatMap_append, List.map_append]
  exact Outlined.append h h'

namespace Manual

variable {manual : Manual} {lines : List Line}

theorem outlined_treesLines {parent : String} {nodes : List Api.Constant}
    (hnodes : ∀ node ∈ nodes, ∀ lines, manual.treeLines parent node.sorted = .ok lines →
      OutlinedNodes quiet (node.nodes parent) lines)
    (h : manual.treesLines parent (nodes.map Api.Constant.sorted) = .ok lines) :
    OutlinedNodes quiet (nodes.flatMap (Api.Constant.nodes parent)) lines := by
  induction nodes generalizing lines with
  | nil =>
    cases h
    exact .nil
  | cons node rest ih =>
    obtain ⟨hnode, hrest⟩ := List.forall_mem_cons.mp hnodes
    rw [List.map_cons, treesLines] at h
    obtain ⟨own, hown, h⟩ := Outcome.bind_eq_ok.mp h
    obtain ⟨others, hothers, h⟩ := Outcome.bind_eq_ok.mp h
    cases h
    exact (hnode own hown).append (ih hrest hothers)

theorem outlined_sortedTrees {parent : String} {nodes : List Api.Constant}
    (hnodes : ∀ node ∈ nodes, ∀ lines, manual.treeLines parent node.sorted = .ok lines →
      OutlinedNodes quiet (node.nodes parent) lines)
    (h : manual.treesLines parent (sortOn (·.order) (sortedConstants nodes)) = .ok lines) :
    OutlinedNodes quiet (inOrder (Api.nodesOfConstants parent nodes)) lines := by
  rw [sortedConstants_eq, sortOn_map Api.Constant.order_sorted] at h
  rw [inOrder_nodesOfConstants]
  exact outlined_treesLines (fun node hnode => hnodes node ((mem_sortOn _ node _).mp hnode)) h

end Manual

mutual

theorem Manual.outlined_treeLines {manual : Manual} (fits : manual.WordsFit quiet) {parent : String}
    (hparent : '\n' ∉ parent.toList) :
    ∀ node : Api.Constant, (∀ word ∈ node.words, word.Fits quiet) → ∀ lines,
      manual.treeLines parent node.sorted = .ok lines → OutlinedNodes quiet (node.nodes parent) lines
  | ⟨name, order, description, values, subkeys⟩, words, lines, h => by
    have hname : '\n' ∉ name.toList := (words (.name name) List.mem_cons_self).1
    have hprose := (words _ (List.mem_cons_of_mem _ List.mem_cons_self)).prose
    have hpath : '\n' ∉ (parent ++ "." ++ name).toList := by simp [hparent, hname]
    have hvalues (word : Word)
        (h : word ∈ (sortOn (·.order) values).flatMap Api.ConstantValue.words) : word.Fits quiet := by
      obtain ⟨value, hvalue, hword⟩ := List.mem_flatMap.mp h
      have hmem := List.mem_flatMap.mpr ⟨value, (mem_sortOn _ value _).mp hvalue, hword⟩
      exact words word (by simp [Api.Constant.words, hmem])
    rw [Api.Constant.sorted, treeLines] at h
    obtain ⟨link, hlink, h⟩ := Outcome.bind_eq_ok.mp h
    obtain ⟨comment, hcomment, h⟩ := Outcome.bind_eq_ok.mp h
    obtain ⟨constants, hconstants, h⟩ := Outcome.bind_eq_ok.mp h
    obtain ⟨trees, htrees, h⟩ := Outcome.bind_eq_ok.mp h
    cases h
    have silent := silent_brief fits.base hprose (quiet_view fits.base hpath hlink) hcomment
    have below := outlined_sortedTrees (outlined_trees fits hpath subkeys fun word hword =>
      words word (by simp [Api.Constant.words, hword])) htrees
    have table := (outlined_valuesLines fits hpath hvalues hconstants).cons
      (.openTable (parent ++ "." ++ name)) hpath
    have node := table.cons (.declaration (parent ++ "." ++ name) []) ⟨hpath, List.forall_mem_nil _⟩
    have all := (silent.outlined.append node).append (below.cons .closeTable trivial)
    simpa [OutlinedNodes, Api.Constant.nodes, Api.nodeCode, Line.code?, Line.head?, Line.mark?,
      Mark.code?, Mark.head?] using all

theorem Manual.outlined_trees {manual : Manual} (fits : manual.WordsFit quiet) {parent : String}
    (hparent : '\n' ∉ parent.toList) :
    ∀ nodes : List Api.Constant, (∀ word ∈ Api.wordsOfConstants nodes, word.Fits quiet) →
      ∀ node ∈ nodes, ∀ lines, manual.treeLines parent node.sorted = .ok lines →
        OutlinedNodes quiet (node.nodes parent) lines
  | [], _, _, hmem, _, _ => absurd hmem List.not_mem_nil
  | first :: rest, words, node, hmem, lines, h => by
    rcases List.mem_cons.mp hmem with same | hmem
    · rw [same] at h ⊢
      exact outlined_treeLines fits hparent first
        (fun word hword => words word (List.mem_append_left _ hword)) lines h
    · exact outlined_trees fits hparent rest
        (fun word hword => words word (List.mem_append_right _ hword)) node hmem lines h

end

theorem Manual.outlined_constantLines {manual : Manual} (fits : manual.WordsFit quiet)
    {document : Api.Document}
    (words : ∀ word ∈ Api.wordsOfConstants document.constants, word.Fits quiet) {lines : List Line}
    (h : manual.constantLines document.constants = .ok lines) :
    Outlined quiet ((constantRoot ++ "=\x7b\x7d") :: document.nodes.flatMap fun (path, values) =>
      Api.nodeCode path values) document.constantHeads lines := by
  have hroot : '\n' ∉ constantRoot.toList := by decide
  obtain ⟨link, hlink, h⟩ := Outcome.bind_eq_ok.mp h
  obtain ⟨comment, hcomment, h⟩ := Outcome.bind_eq_ok.mp h
  obtain ⟨nodes, hnodes, h⟩ := Outcome.bind_eq_ok.mp h
  cases h
  have silent : Silent quiet comment :=
    silent_comment fits.base (fun _ => quiet_view fits.base hroot hlink) hcomment
  have trees := outlined_sortedTrees (outlined_trees fits hroot document.constants words) hnodes
  have table := trees.cons (.emptyTable constantRoot) hroot
  exact silent.outlined.append
    (table.cons (.declaration constantRoot []) ⟨hroot, List.forall_mem_nil _⟩)

/-! Globals. -/

theorem Catalog.get?_exposed {document : Api.Document} {entries : List (String × Api.Global)}
    (h : Catalog.exposed document.globals = .ok entries) (name : String) :
    (Catalog.ofEntries document entries).globals.get? name =
      document.globals.reverse.find? (Api.Global.exposes name) := by
  have find (globals : List Api.Global) (entries : List (String × Api.Global))
      (h : Catalog.exposed globals = .ok entries) :
      (entries.reverse.find? (·.1 == name)).map (·.2) =
        globals.reverse.find? (Api.Global.exposes name) := by
    induction globals generalizing entries with
    | nil =>
      cases h
      rfl
    | cons g rest ih =>
      obtain ⟨type, others, htype, hothers, rfl⟩ := Catalog.exposed_cons.mp h
      have hexposes : Api.Global.exposes name g = (type == name) := by
        rw [Api.Global.exposes, htype]
      rw [List.reverse_cons, List.reverse_cons, List.find?_append, List.find?_append,
        Option.map_or, ih others hothers, List.find?_singleton, List.find?_singleton, hexposes]
      cases type == name <;> rfl
  change (NameMap.putAll entries []).get? name = _
  rw [NameMap.get?_putAll, find document.globals entries h]
  exact Option.or_none

/-! The main part. -/

theorem Manual.fits_of_document {document : Api.Document} {baseUrl : String}
    (words : ∀ word ∈ document.words, word.Fits quiet) (base : '\n' ∉ baseUrl.toList)
    {entries : List (String × Api.Global)}
    (hentries : Catalog.exposed document.globals = .ok entries) :
    (Manual.mk (Catalog.ofEntries document entries) baseUrl).WordsFit quiet where
  base := base
  elements _ _ h word hword := words word (Catalog.words_of_element h hword)
  globals _ _ h := by
    have own := Catalog.words_of_global hentries h
    exact ⟨(words _ (own List.mem_cons_self)).1,
      (words _ (own (List.mem_cons_of_mem _ List.mem_cons_self))).prose⟩

namespace Job

variable {document : Api.Document} {entries : List (String × Api.Global)} {settings : Settings}
  {appendix : String}

abbrev ofEntries (document : Api.Document) (entries : List (String × Api.Global))
    (settings : Settings) (appendix : String) : Job :=
  ⟨document, .ofEntries document entries, settings, appendix⟩

theorem silent_header : Silent quiet header := by
  have hmeta : (Line.directive "meta").Fits quiet := ⟨by decide, by decide⟩
  have hdiagnostic : (Line.directive "diagnostic disable").Fits quiet := ⟨by decide, by decide⟩
  exact ((Marked.single .blank trivial).cons _ hdiagnostic).cons _ hmeta

theorem gives_mainLines (words : ∀ word ∈ document.words, word.Fits quiet)
    (base : '\n' ∉ settings.baseUrl.toList)
    (hentries : Catalog.exposed document.globals = .ok entries) :
    Gives (Declaring quiet) (Outlined quiet document.code (document.heads settings))
      (ofEntries document entries settings appendix).mainLines := by
  let job := ofEntries document entries settings appendix
  have fits : job.manual.WordsFit quiet := Manual.fits_of_document words base hentries
  have keeps : ∀ block, Declaring quiet block → Declaring quiet block := fun _ => id
  have part {own : List Word} (h : own ⊆ document.words) : ∀ word ∈ own, word.Fits quiet :=
    fun word hword => words word (h hword)
  have hbuiltin (b : Api.Builtin) (hb : b ∈ sortOn (·.order) document.builtins) :=
    part (Api.Document.words_of_builtin ((mem_sortOn _ b _).mp hb))
  have hevent (e : Api.Event) (he : e ∈ sortOn (·.order) document.events) :
      Gives (Declaring quiet) (Outlined quiet [] [(e.name, [])]) (job.manual.eventLines e) :=
    (Manual.gives_eventLines fits keeps
      (part (Api.Document.words_of_event ((mem_sortOn _ e _).mp he)))).imp fun _ => Marked.outlined
  have hclass (c : Api.Class) (hc : c ∈ sortOn (·.order) document.classes) :
      Gives (Declaring quiet) (Outlined quiet (c.code document.globals) c.heads)
        (job.manual.classLines c) := by
    have words := part (Api.Document.words_of_class ((mem_sortOn _ c _).mp hc))
    have known : job.manual.classVariable c.name = c.variable document.globals := by
      have hfound := Catalog.get?_exposed hentries c.name
      unfold Manual.classVariable Api.Class.variable
      rw [← hfound]
      rfl
    have hvariable : '\n' ∉ (c.variable document.globals).toList := by
      unfold Api.Class.variable
      split
      · rename_i g found
        have hg : g ∈ document.globals := List.mem_reverse.mp (List.mem_of_find?_eq_some found)
        exact (part (Api.Document.words_of_global hg) (.name g.name) List.mem_cons_self).1
      · have hlocal := Identifier.not_mem_ofName (c := '\n') (by decide) (by decide) c.name
        simp [hlocal]
    exact Manual.gives_classLines fits keeps words known hvariable
  have hconcept (c : Api.Concept) (hc : c ∈ sortOn (·.order) document.concepts) :=
    Manual.gives_conceptLines fits keeps
      (part (Api.Document.words_of_concept ((mem_sortOn _ c _).mp hc)))
  apply (Gives.lift fun _ => Manual.outlined_builtinsLines fits hbuiltin).bind
  intro builtins hbuiltins
  apply (Gives.lift fun _ => Manual.outlined_constantLines fits
    (part Api.Document.words_of_constant)).bind
  intro constants hconstants
  apply (Manual.gives_linesOf_outlined hevent).bind
  intro events hevents
  apply (Manual.gives_linesOf_outlined hclass).bind
  intro classes hclasses
  apply (Manual.gives_linesOf_outlined hconcept).bind_pure
  intro concepts hconcepts
  have hfront := (silent_header.outlined.append hbuiltins).append (hconstants.cons .blank trivial)
  have hentries := (hfront.append (hevents.cons .blank trivial)).append (hclasses.cons .blank trivial)
  have all := (hentries.append (hconcepts.cons .blank trivial)).append (.single .blank trivial)
  have noCode {α : Type} (xs : List α) : xs.flatMap (fun _ => ([] : List String)) = [] := by simp
  rw [noCode, noCode] at all
  simpa [Line.code?, Line.head?, Line.mark?, Api.Document.code, Api.Document.heads,
    Api.Document.builtinHeads, List.map_eq_flatMap] using all

end Job

end LuaStubs
