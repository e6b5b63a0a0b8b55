/-! Places in the description where a table without a name may stand. The place gives the table its
name and the link to its documentation. -/

namespace LuaStubs

structure Place where
  name : String
  link : String
  deriving Repr, DecidableEq

namespace Place

def member (owner member link : String) : Place :=
  ⟨owner ++ "." ++ member, link⟩

def methodTable (owner method link : String) : Place :=
  ⟨owner ++ "." ++ method ++ "_param", link⟩

def methodReturn (owner method link : String) : Place :=
  ⟨owner ++ "." ++ method ++ "_return", link⟩

def methodVararg (owner method link : String) : Place :=
  ⟨owner ++ "." ++ method ++ "_vararg", link⟩

def methodParameter (owner method parameter link : String) : Place :=
  ⟨owner ++ "." ++ method ++ "." ++ parameter, link⟩

/-- The element of a table-or-array concept. -/
def element (concept link : String) : Place :=
  ⟨concept ++ "_elem", link⟩

def key (p : Place) : Place := { p with name := p.name ++ "_key" }

def value (p : Place) : Place := { p with name := p.name ++ "_value" }

/-- An alternative of a variant, counted from zero. -/
def option (p : Place) (index : Nat) : Place :=
  { p with name := p.name ++ "." ++ toString index }

/-- A parameter of a function type, counted from one. -/
def parameter (p : Place) (number : Nat) : Place :=
  { p with name := p.name ++ "_param" ++ toString number }

end Place

end LuaStubs
