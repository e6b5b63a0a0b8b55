import LuaStubs.Proofs.Constants.Chains
import LuaStubs.Proofs.Success.Texts

/-! What writing the constants looks up in the manual. The writing is stated for any way to look
something up and to write a comment, so that one run can note the references that another asks
for. -/

namespace LuaStubs

open Api (Constant ConstantValue)

/-- How references are looked up and comments written. -/
structure ConstantWriter (m : Type → Type) where
  view : String → m String
  comment : String → m (List Line)

namespace ConstantWriter

variable {m : Type → Type} [Monad m]

def brief (writer : ConstantWriter m) (description link : String) : m (List Line) :=
  writer.comment (Text.framed "" description "\n\n" ++ link)

def valueLines (writer : ConstantWriter m) (node : String) (value : ConstantValue) :
    m (List Line) := do
  let link ← writer.view (node ++ "." ++ value.name)
  let comment ← writer.brief value.description link
  return comment ++ [.constant (Identifier.ofName value.name)]

def valuesLines (writer : ConstantWriter m) (node : String) :
    List ConstantValue → m (List Line)
  | [] => pure []
  | value :: rest => do
    let lines ← writer.valueLines node value
    let others ← valuesLines writer node rest
    return lines ++ others

mutual

def treeLines (writer : ConstantWriter m) (parent : String) : Constant → m (List Line)
  | ⟨name, _, description, values, subkeys⟩ => do
    let path := parent ++ "." ++ name
    let link ← writer.view path
    let comment ← writer.brief description link
    let values ← writer.valuesLines path values
    let subkeys ← treesLines writer path subkeys
    return comment ++ .declaration path [] :: .openTable path :: values ++ .closeTable :: subkeys

def treesLines (writer : ConstantWriter m) (parent : String) : List Constant → m (List Line)
  | [] => pure []
  | node :: rest => do
    let lines ← treeLines writer parent node
    let others ← treesLines writer parent rest
    return lines ++ others

end

def constantLines (writer : ConstantWriter m) (trees : List Constant) : m (List Line) := do
  let link ← writer.view constantRoot
  let comment ← writer.comment link
  let nodes ← writer.treesLines constantRoot (sortOn (·.order) (sortedConstants trees))
  return comment ++ .declaration constantRoot [] :: .emptyTable constantRoot :: nodes

end ConstantWriter

/-! A manual writes constants in this way. -/

namespace Manual

def constantWriter (manual : Manual) : ConstantWriter (Except StubError) where
  view := manual.view
  comment := manual.comment

variable (manual : Manual)

theorem valuesLines_constantWriter (node : String) (values : List ConstantValue) :
    manual.constantWriter.valuesLines node values = manual.valuesLines node values := by
  induction values with
  | nil => rfl
  | cons value rest ih =>
    rw [ConstantWriter.valuesLines, ih]
    rfl

mutual

theorem treeLines_constantWriter (parent : String) :
    ∀ node : Constant, manual.constantWriter.treeLines parent node = manual.treeLines parent node
  | ⟨name, order, description, values, subkeys⟩ => by
    simp only [ConstantWriter.treeLines, treeLines, valuesLines_constantWriter,
      treesLines_constantWriter (parent ++ "." ++ name) subkeys]
    rfl

theorem treesLines_constantWriter (parent : String) :
    ∀ nodes : List Constant,
      manual.constantWriter.treesLines parent nodes = manual.treesLines parent nodes
  | [] => rfl
  | node :: rest => by
    rw [ConstantWriter.treesLines, treesLines, treeLines_constantWriter parent node,
      treesLines_constantWriter parent rest]

end

theorem constantLines_constantWriter (trees : List Constant) :
    manual.constantWriter.constantLines trees = manual.constantLines trees := by
  simp only [ConstantWriter.constantLines, constantLines, treesLines_constantWriter]
  rfl

end Manual

/-! Runs that note what they look up. -/

/-- A run that can fail, with the references it has looked up until then. -/
abbrev Noting : Type → Type := ExceptT StubError (StateM (List String))

theorem Noting.bind_of_ok {α β : Type} {run : Noting α} {f : α → Noting β} {a : α}
    {noted noted' : List String} (h : run noted = (.ok a, noted')) :
    (run >>= f) noted = f a noted' := by
  simp only [Bind.bind, ExceptT.bind, ExceptT.mk, StateT.bind, h, ExceptT.bindCont]

theorem Noting.bind_of_error {α β : Type} {run : Noting α} {f : α → Noting β} {e : StubError}
    {noted noted' : List String} (h : run noted = (.error e, noted')) :
    (run >>= f) noted = (.error e, noted') := by
  simp only [Bind.bind, ExceptT.bind, ExceptT.mk, StateT.bind, h, ExceptT.bindCont]
  rfl

namespace ConstantWriter

/-- Looks references up as a writer does, and notes each of them before. -/
def noting (writer : ConstantWriter (Except StubError)) : ConstantWriter Noting where
  view reference := fun noted => (writer.view reference, noted ++ [reference])
  comment text := fun noted => (writer.comment text, noted)

end ConstantWriter

/-- What a run of a writer looks up: the references of a list in turn, up to where the run fails,
and the run fails only where looking one up or writing a comment fails. -/
structure LooksUp {α : Type} (writer : ConstantWriter (Except StubError)) (run : Noting α)
    (result : Except StubError α) (references : List String) : Prop where
  notes : ∀ noted, ∃ seen, run noted = (result, noted ++ seen) ∧ seen <+: references ∧
    ((∃ a, result = .ok a) → seen = references)
  fails : ∀ e, result = .error e →
    (∃ text, writer.comment text = .error e) ∨ ∃ reference ∈ references, writer.view reference = .error e

namespace LooksUp

variable {α β : Type} {writer : ConstantWriter (Except StubError)} {run : Noting α}
  {result : Except StubError α} {references others : List String}

theorem pure (a : α) : LooksUp writer (Pure.pure a) (.ok a) [] where
  notes _ := ⟨[], by rw [List.append_nil]; rfl, List.prefix_rfl, fun _ => rfl⟩
  fails _ h := by cases h

theorem view (reference : String) :
    LooksUp writer (writer.noting.view reference) (writer.view reference) [reference] where
  notes _ := ⟨[reference], rfl, List.prefix_rfl, fun _ => rfl⟩
  fails _ h := .inr ⟨reference, List.mem_singleton_self _, h⟩

theorem comment (text : String) :
    LooksUp writer (writer.noting.comment text) (writer.comment text) [] where
  notes _ := ⟨[], by rw [List.append_nil]; rfl, List.prefix_rfl, fun _ => rfl⟩
  fails _ h := .inl ⟨text, h⟩

theorem bind {f : α → Noting β} {g : α → Except StubError β}
    (first : LooksUp writer run result references)
    (second : ∀ a, LooksUp writer (f a) (g a) others) :
    LooksUp writer (run >>= f) (result >>= g) (references ++ others) where
  notes noted := by
    obtain ⟨seen, hrun, hseen, hall⟩ := first.notes noted
    cases result with
    | error e =>
      refine ⟨seen, ?_, hseen.trans (List.prefix_append _ _), fun ⟨_, h⟩ => by cases h⟩
      exact Noting.bind_of_error hrun
    | ok a =>
      obtain rfl := hall ⟨a, rfl⟩
      obtain ⟨more, hf, hmore, hrest⟩ := (second a).notes (noted ++ seen)
      refine ⟨seen ++ more, ?_, (List.prefix_append_right_inj _).mpr hmore, fun h => ?_⟩
      · rw [Noting.bind_of_ok hrun, hf, List.append_assoc]
        rfl
      · rw [hrest h]
  fails e h := by
    cases result with
    | error e' =>
      cases h
      rcases first.fails _ rfl with htext | ⟨reference, hmem, href⟩
      · exact .inl htext
      · exact .inr ⟨reference, List.mem_append_left _ hmem, href⟩
    | ok a =>
      rcases (second a).fails e h with htext | ⟨reference, hmem, href⟩
      · exact .inl htext
      · exact .inr ⟨reference, List.mem_append_right _ hmem, href⟩

theorem map {f : α → β} (first : LooksUp writer run result references) :
    LooksUp writer (run >>= fun a => Pure.pure (f a)) (result >>= fun a => Pure.pure (f a))
      references := by
  rw [← List.append_nil references]
  exact first.bind fun a => .pure (f a)

end LooksUp

namespace ConstantWriter

variable (writer : ConstantWriter (Except StubError))

theorem looksUp_brief (description link : String) :
    LooksUp writer (writer.noting.brief description link) (writer.brief description link) [] :=
  .comment _

theorem looksUp_valuesLines (node : String) (values : List ConstantValue) :
    LooksUp writer (writer.noting.valuesLines node values) (writer.valuesLines node values)
      (values.map fun value => node ++ "." ++ value.name) := by
  induction values with
  | nil => exact .pure []
  | cons value rest ih =>
    have first : LooksUp writer (writer.noting.valueLines node value)
        (writer.valueLines node value) ([node ++ "." ++ value.name] ++ []) :=
      (LooksUp.view _).bind fun link => (writer.looksUp_brief value.description link).map
    exact first.bind fun lines => ih.map

mutual

theorem looksUp_treeLines (parent : String) :
    ∀ node : Constant,
      LooksUp writer (writer.noting.treeLines parent node) (writer.treeLines parent node)
        (node.paths parent)
  | ⟨name, order, description, values, subkeys⟩ => by
    have hvalues := writer.looksUp_valuesLines (parent ++ "." ++ name) values
    have hsubkeys := looksUp_treesLines (parent ++ "." ++ name) subkeys
    rw [Constant.paths, ConstantWriter.treeLines, ConstantWriter.treeLines]
    exact (LooksUp.view _).bind fun link => (writer.looksUp_brief description link).bind fun _ =>
      hvalues.bind fun _ => hsubkeys.map

theorem looksUp_treesLines (parent : String) :
    ∀ nodes : List Constant,
      LooksUp writer (writer.noting.treesLines parent nodes) (writer.treesLines parent nodes)
        (constantPaths parent nodes)
  | [] => .pure []
  | node :: rest =>
    (looksUp_treeLines parent node).bind fun _ => (looksUp_treesLines parent rest).map

end

/-- Writing trees of constants looks up their paths, listed from the trees in order. -/
theorem looksUp_constantLines (trees : List Constant) :
    LooksUp writer (writer.noting.constantLines trees) (writer.constantLines trees)
      (Api.listing (sortOn (·.order) (sortedConstants trees))) := by
  rw [Api.listing_eq]
  exact (LooksUp.view constantRoot).bind fun link =>
    (LooksUp.comment link).bind fun comment => (writer.looksUp_treesLines _ _).map

end ConstantWriter

/-- The paths of a catalog are the root and the chains of nodes below it, with the values of the
last node, listed downwards and each at its first place. Writing the constants looks up no other
references, and unless a comment fails all of them, so that no lookup fails. -/
theorem Catalog.paths_are_looked_up {document : Api.Document} {catalog : Catalog}
    (built : ofDocument document = .ok catalog) :
    (∀ path, path ∈ catalog.paths ↔
      path = constantRoot ∨
      ∃ above node, Api.Leads document.constants above node ∧
        (path = Api.Chain.path ⟨above, node⟩ ∨
          ∃ value ∈ node.values, path = Api.Chain.path ⟨above, node⟩ ++ "." ++ value.name)) ∧
    catalog.paths = (Api.listing document.constants).eraseDups ∧
    (∀ path, path ∈ Api.listing (sortOn (·.order) (sortedConstants document.constants)) ↔
      path ∈ catalog.paths) ∧
    ∀ baseUrl,
      let manual : Manual := ⟨catalog, baseUrl⟩
      manual.constantLines = manual.constantWriter.constantLines ∧
      ∀ comment,
      let writer : ConstantWriter (Except StubError) := ⟨manual.view, comment⟩
      ∃ seen,
        writer.noting.constantLines document.constants []
          = (writer.constantLines document.constants, seen) ∧
        seen <+: Api.listing (sortOn (·.order) (sortedConstants document.constants)) ∧
        (∀ path ∈ seen, path ∈ catalog.paths ∧ ∃ link, manual.view path = .ok link) ∧
        ((∃ lines, writer.constantLines document.constants = .ok lines) →
          seen = Api.listing (sortOn (·.order) (sortedConstants document.constants))) ∧
        ∀ e, writer.constantLines document.constants = .error e →
          ∃ text, comment text = .error e := by
  have hpaths := paths_of_ofDocument built
  have hmem : ∀ path, path ∈ catalog.paths ↔ path ∈ Api.listing document.constants := by
    intro path
    rw [hpaths, List.mem_eraseDups]
  have hsorted : ∀ path,
      path ∈ Api.listing (sortOn (·.order) (sortedConstants document.constants)) ↔
        path ∈ catalog.paths := fun path => Api.mem_listing_sorted.trans (hmem path).symm
  refine ⟨fun path => (hmem path).trans Api.mem_listing_iff, hpaths, hsorted, ?_⟩
  intro baseUrl manual
  have hview : ∀ path ∈ catalog.paths, ∃ link, manual.view path = .ok link := by
    intro path hpath
    obtain ⟨page, hpage⟩ := Option.isSome_iff_exists.mp (manual.knows_path hpath)
    exact ⟨_, by rw [Manual.view, Manual.link, Manual.url, Manual.page, hpage]; rfl⟩
  refine ⟨funext fun trees => (manual.constantLines_constantWriter trees).symm, ?_⟩
  intro comment writer
  have hruns := writer.looksUp_constantLines document.constants
  obtain ⟨seen, hrun, hseen, hall⟩ := hruns.notes []
  refine ⟨seen, hrun, hseen, ?_, hall, ?_⟩
  · intro path hpath
    have hlisted := (hsorted path).mp (hseen.subset hpath)
    exact ⟨hlisted, hview path hlisted⟩
  · intro e failed
    rcases hruns.fails e failed with htext | ⟨path, hpath, hfails⟩
    · exact htext
    · obtain ⟨link, hlink⟩ := hview path ((hsorted path).mp hpath)
      cases hlink.symm.trans hfails

/-- A description with constants only, the second of which comes first by its order. -/
def ofConstants : Api.Document :=
  ⟨[], [], [], [], [], [
    ⟨"inventory", 1, "", [], [⟨"chest", 0, "", [⟨"main", 0, ""⟩], []⟩]⟩,
    ⟨"direction", 0, "", [⟨"north", 0, ""⟩], []⟩]⟩

theorem paths_of_inventory :
    Catalog.ofDocument ofConstants = .ok (.ofEntries ofConstants []) ∧
    (Catalog.ofEntries ofConstants []).paths
      = ["defines", "defines.inventory", "defines.inventory.chest", "defines.inventory.chest.main",
        "defines.direction", "defines.direction.north"] ∧
    ∃ lines seen,
      (⟨.ofEntries ofConstants [], ""⟩ : Manual).constantWriter.noting.constantLines
        ofConstants.constants [] = (.ok lines, seen) ∧
      "defines.inventory.chest.main" ∈ seen := by
  have built : Catalog.ofDocument ofConstants = .ok (.ofEntries ofConstants []) := rfl
  obtain ⟨-, hpaths, hsorted, hruns⟩ := Catalog.paths_are_looked_up built
  have hlisted := hpaths.trans (by decide +kernel : _ = ["defines", "defines.inventory",
    "defines.inventory.chest", "defines.inventory.chest.main", "defines.direction",
    "defines.direction.north"])
  obtain ⟨hsame, hrun⟩ := hruns ""
  obtain ⟨seen, hseen, -, -, hall, -⟩ := hrun (Manual.mk (.ofEntries ofConstants []) "").comment
  obtain ⟨lines, hlines, -⟩ := Outcome.exists_of_toOption
    (by decide +kernel : ((Manual.mk (.ofEntries ofConstants []) "").constantLines
      ofConstants.constants).toOption.map (·.length) = some 19)
  rw [hsame] at hlines
  refine ⟨built, hlisted, lines, seen, hseen.trans (congrArg (·, seen) hlines), ?_⟩
  rw [hall ⟨lines, hlines⟩, hsorted, hlisted]
  simp

end LuaStubs
