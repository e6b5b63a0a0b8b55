import LuaStubs.Stub.Line
import LuaStubs.Prose
import LuaStubs.Settings.Basic

/-! Builtin types as kinds of numbers, and the trees of constants as nested tables, with one
declaration for each node and each constant set to zero. -/

namespace LuaStubs

mutual

/-- A node with everything below it in the order of the keys. -/
def Api.Constant.sorted : Api.Constant → Api.Constant
  | ⟨name, order, description, values, subkeys⟩ =>
    ⟨name, order, description, sortOn (·.order) values,
      sortOn (·.order) (sortedConstants subkeys)⟩

def sortedConstants : List Api.Constant → List Api.Constant
  | [] => []
  | node :: rest => node.sorted :: sortedConstants rest

end

namespace Manual

/-! Builtins. -/

def builtinLines (manual : Manual) (b : Api.Builtin) : Except StubError (List Line) := do
  let link ← manual.view b.name
  let comment ← manual.brief b.description link
  return comment ++ [.declaration b.name ["number"]]

def builtinsLines (manual : Manual) (settings : Settings) :
    List Api.Builtin → Except StubError (List Line)
  | [] => .ok []
  | b :: rest => do
    let lines ← if settings.knows b.name then pure [] else manual.builtinLines b
    let others ← builtinsLines manual settings rest
    return lines ++ others

/-! Constants. -/

def valueLines (manual : Manual) (node : String) (value : Api.ConstantValue) :
    Except StubError (List Line) := do
  let link ← manual.view (node ++ "." ++ value.name)
  let comment ← manual.brief value.description link
  return comment ++ [.constant (Identifier.ofName value.name)]

def valuesLines (manual : Manual) (node : String) :
    List Api.ConstantValue → Except StubError (List Line)
  | [] => .ok []
  | value :: rest => do
    let lines ← manual.valueLines node value
    let others ← valuesLines manual node rest
    return lines ++ others

mutual

def treeLines (manual : Manual) (parent : String) :
    Api.Constant → Except StubError (List Line)
  | ⟨name, _, description, values, subkeys⟩ => do
    let path := parent ++ "." ++ name
    let link ← manual.view path
    let comment ← manual.brief description link
    let values ← manual.valuesLines path values
    let subkeys ← treesLines manual path subkeys
    return comment ++ .declaration path [] :: .openTable path :: values ++ .closeTable :: subkeys

def treesLines (manual : Manual) (parent : String) :
    List Api.Constant → Except StubError (List Line)
  | [] => .ok []
  | node :: rest => do
    let lines ← treeLines manual parent node
    let others ← treesLines manual parent rest
    return lines ++ others

end

def constantLines (manual : Manual) (trees : List Api.Constant) : Except StubError (List Line) := do
  let link ← manual.view constantRoot
  let comment ← manual.comment link
  let nodes ← manual.treesLines constantRoot (sortOn (·.order) (sortedConstants trees))
  return comment ++ .declaration constantRoot [] :: .emptyTable constantRoot :: nodes

end Manual

end LuaStubs
