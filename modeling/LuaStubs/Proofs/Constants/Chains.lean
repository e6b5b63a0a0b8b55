import LuaStubs.Proofs.Catalogs

/-! The paths of constants as chains of nodes from a root down: which paths there are, and in which
order a listing that goes down before it goes on has them. -/

namespace LuaStubs

theorem intercalate_append_singleton {sep : String} {parts : List String} (hparts : parts ≠ [])
    (last : String) :
    sep.intercalate (parts ++ [last]) = sep.intercalate parts ++ sep ++ last := by
  induction parts with
  | nil => exact absurd rfl hparts
  | cons part rest ih =>
    cases rest with
    | nil => rfl
    | cons next rest =>
      rw [List.cons_append, List.cons_append, String.intercalate_cons_cons,
        String.intercalate_cons_cons, ← List.cons_append, ih (List.cons_ne_nil _ _)]
      simp only [String.append_assoc]

namespace Api

/-- Says whether a node is reached from one of some nodes by going down from each node to one of its
subkeys, through the nodes above it in turn. -/
inductive Leads : List Constant → List Constant → Constant → Prop where
  | here {nodes : List Constant} {node : Constant} : node ∈ nodes → Leads nodes [] node
  | deeper {nodes above : List Constant} {first node : Constant} :
    first ∈ nodes → Leads first.subkeys above node → Leads nodes (first :: above) node

theorem Leads.behind {first : Constant} {nodes above : List Constant} {node : Constant}
    (h : Leads nodes above node) : Leads (first :: nodes) above node := by
  cases h with
  | here hnode => exact .here (List.mem_cons_of_mem _ hnode)
  | deeper hfirst hbelow => exact .deeper (List.mem_cons_of_mem _ hfirst) hbelow

/-- A node of constants with the nodes above it, from a root down. -/
structure Chain where
  above : List Constant
  node : Constant

namespace Chain

def path (chain : Chain) : String :=
  ".".intercalate (constantRoot :: (chain.above ++ [chain.node]).map (·.name))

def paths (chain : Chain) : List String :=
  chain.path :: chain.node.values.map fun value => chain.path ++ "." ++ value.name

theorem path_eq (above : List Constant) (node : Constant) :
    path ⟨above, node⟩
      = ".".intercalate (constantRoot :: above.map (·.name)) ++ "." ++ node.name := by
  rw [path, List.map_append, List.map_singleton, ← List.cons_append]
  exact intercalate_append_singleton (List.cons_ne_nil _ _) _

end Chain

mutual

def Constant.chains (above : List Constant) : Constant → List Chain
  | ⟨name, order, description, values, subkeys⟩ =>
    ⟨above, ⟨name, order, description, values, subkeys⟩⟩ ::
      chainsOf (above ++ [⟨name, order, description, values, subkeys⟩]) subkeys

def chainsOf (above : List Constant) : List Constant → List Chain
  | [] => []
  | node :: rest => node.chains above ++ chainsOf above rest

end

/-- All paths of trees of constants: the root, and then each node, its values and what is below it. -/
def listing (trees : List Constant) : List String :=
  constantRoot :: (chainsOf [] trees).flatMap Chain.paths

theorem Constant.chains_eq (above : List Constant) (node : Constant) :
    node.chains above = ⟨above, node⟩ :: chainsOf (above ++ [node]) node.subkeys := by
  cases node
  rw [Constant.chains]

theorem chainsOf_eq (above nodes : List Constant) :
    chainsOf above nodes = nodes.flatMap (Constant.chains above) := by
  induction nodes with
  | nil => rfl
  | cons node rest ih => rw [chainsOf, ih, List.flatMap_cons]

/-! The listing has the chains that lead down, and no others. -/

theorem Leads.mem_chainsOf {nodes rest : List Constant} {node : Constant} (h : Leads nodes rest node)
    (above : List Constant) : ⟨above ++ rest, node⟩ ∈ chainsOf above nodes := by
  induction h generalizing above with
  | here hnode =>
    rw [chainsOf_eq, List.append_nil]
    refine List.mem_flatMap.mpr ⟨_, hnode, ?_⟩
    rw [Constant.chains_eq]
    exact List.mem_cons_self
  | @deeper nodes rest first node hfirst _ ih =>
    rw [chainsOf_eq]
    refine List.mem_flatMap.mpr ⟨first, hfirst, ?_⟩
    have below := ih (above ++ [first])
    rw [List.append_assoc, List.singleton_append] at below
    rw [Constant.chains_eq]
    exact List.mem_cons_of_mem _ below

mutual

theorem Constant.leads_of_mem_chains {above : List Constant} {chain : Chain} :
    ∀ node : Constant, chain ∈ node.chains above →
      ∃ rest, Leads [node] rest chain.node ∧ chain.above = above ++ rest
  | ⟨name, order, description, values, subkeys⟩ => by
    intro h
    rw [Constant.chains] at h
    rcases List.mem_cons.mp h with rfl | h
    · exact ⟨[], .here List.mem_cons_self, (List.append_nil _).symm⟩
    · obtain ⟨rest, hleads, habove⟩ := leads_of_mem_chainsOf subkeys h
      refine ⟨⟨name, order, description, values, subkeys⟩ :: rest, .deeper List.mem_cons_self hleads, ?_⟩
      rw [habove, List.append_assoc, List.singleton_append]

theorem leads_of_mem_chainsOf {above : List Constant} {chain : Chain} :
    ∀ nodes : List Constant, chain ∈ chainsOf above nodes →
      ∃ rest, Leads nodes rest chain.node ∧ chain.above = above ++ rest
  | [] => by
    intro h
    cases h
  | node :: others => by
    intro h
    rcases List.mem_append.mp h with h | h
    · obtain ⟨rest, hleads, habove⟩ := node.leads_of_mem_chains h
      refine ⟨rest, ?_, habove⟩
      cases hleads with
      | here hnode => exact .here (List.mem_singleton.mp hnode ▸ List.mem_cons_self)
      | deeper hfirst hbelow =>
        exact .deeper (List.mem_singleton.mp hfirst ▸ List.mem_cons_self) hbelow
    · obtain ⟨rest, hleads, habove⟩ := leads_of_mem_chainsOf others h
      exact ⟨rest, hleads.behind, habove⟩

end

theorem mem_chainsOf_iff {trees : List Constant} {chain : Chain} :
    chain ∈ chainsOf [] trees ↔ Leads trees chain.above chain.node := by
  constructor
  · intro h
    obtain ⟨rest, hleads, habove⟩ := leads_of_mem_chainsOf trees h
    rw [habove]
    exact hleads
  · intro h
    exact h.mem_chainsOf []

theorem mem_listing_iff {trees : List Constant} {path : String} :
    path ∈ listing trees ↔
      path = constantRoot ∨
      ∃ above node, Leads trees above node ∧
        (path = Chain.path ⟨above, node⟩ ∨
          ∃ value ∈ node.values, path = Chain.path ⟨above, node⟩ ++ "." ++ value.name) := by
  rw [listing, List.mem_cons, List.mem_flatMap]
  apply or_congr Iff.rfl
  constructor
  · rintro ⟨chain, hchain, hpath⟩
    refine ⟨chain.above, chain.node, mem_chainsOf_iff.mp hchain, ?_⟩
    rcases List.mem_cons.mp hpath with rfl | hpath
    · exact .inl rfl
    · obtain ⟨value, hvalue, rfl⟩ := List.mem_map.mp hpath
      exact .inr ⟨value, hvalue, rfl⟩
  · rintro ⟨above, node, hleads, hpath⟩
    refine ⟨⟨above, node⟩, mem_chainsOf_iff.mpr hleads, ?_⟩
    rcases hpath with rfl | ⟨value, hvalue, rfl⟩
    · exact List.mem_cons_self
    · exact List.mem_cons_of_mem _ (List.mem_map.mpr ⟨value, hvalue, rfl⟩)

/-! What is written with the path of the parent is what the chains spell. -/

mutual

theorem Constant.paths_eq_chains (above : List Constant) :
    ∀ node : Constant,
      node.paths (".".intercalate (constantRoot :: above.map (·.name)))
        = (node.chains above).flatMap Chain.paths
  | ⟨name, order, description, values, subkeys⟩ => by
    have below := constantPaths_eq_chainsOf
      (above ++ [⟨name, order, description, values, subkeys⟩]) subkeys
    rw [List.map_append, List.map_singleton, ← List.cons_append,
      intercalate_append_singleton (List.cons_ne_nil _ _)] at below
    rw [Constant.paths, Constant.chains, List.flatMap_cons, Chain.paths, Chain.path_eq, below,
      List.cons_append]

theorem constantPaths_eq_chainsOf (above : List Constant) :
    ∀ nodes : List Constant,
      constantPaths (".".intercalate (constantRoot :: above.map (·.name))) nodes
        = (chainsOf above nodes).flatMap Chain.paths
  | [] => rfl
  | node :: rest => by
    rw [constantPaths, chainsOf, List.flatMap_append, node.paths_eq_chains above,
      constantPaths_eq_chainsOf above rest]

end

theorem listing_eq (trees : List Constant) :
    listing trees = constantRoot :: constantPaths constantRoot trees := by
  rw [listing, ← constantPaths_eq_chainsOf []]
  rfl

/-- Putting trees in order changes the order of their listing only. -/
theorem mem_listing_sorted {trees : List Constant} {path : String} :
    path ∈ listing (sortOn (·.order) (sortedConstants trees)) ↔ path ∈ listing trees := by
  rw [listing_eq, listing_eq, List.mem_cons, List.mem_cons, mem_paths_sortOn_constants]

end Api

/-- The paths in a catalog are those of the listing, each at its first place. -/
theorem Catalog.paths_of_ofDocument {document : Api.Document} {catalog : Catalog}
    (built : ofDocument document = .ok catalog) :
    catalog.paths = (Api.listing document.constants).eraseDups := by
  obtain ⟨entries, -, rfl⟩ := ofDocument_eq_ok.mp built
  rw [Api.listing_eq, ← distinct_eq_eraseDups]
  rfl

end LuaStubs
