/-! Tables from names to values that remember the order in which the names came, where a name that
comes again keeps its place and takes the new value; and lists of entries put in the order of their
keys. -/

namespace LuaStubs

abbrev NameMap (α : Type) : Type := List (String × α)

namespace NameMap

def get? {α : Type} (name : String) : NameMap α → Option α
  | [] => none
  | (other, a) :: rest => if name = other then some a else get? name rest

def has {α : Type} (name : String) (map : NameMap α) : Bool :=
  (map.get? name).isSome

def put {α : Type} (name : String) (a : α) : NameMap α → NameMap α
  | [] => [(name, a)]
  | (other, b) :: rest =>
    if name = other then (other, a) :: rest else (other, b) :: put name a rest

def putAll {α : Type} (entries : List (String × α)) (map : NameMap α) : NameMap α :=
  entries.foldl (fun map (name, a) => map.put name a) map

def ofList {α : Type} (entries : List (String × α)) : NameMap α :=
  putAll entries []

theorem get?_put {α : Type} (name other : String) (a : α) (map : NameMap α) :
    (map.put name a).get? other = if other = name then some a else map.get? other := by
  induction map with
  | nil => simp [put, get?]
  | cons entry rest ih =>
    obtain ⟨key, b⟩ := entry
    by_cases h : name = key
    · subst h
      by_cases ho : other = name <;> simp [put, get?, ho]
    · by_cases ho : other = key
      · subst ho
        simp [put, get?, h, Ne.symm h]
      · simp [put, get?, h, ho, ih]

end NameMap

/-- Names without repetition, each at its first place, leaving out those seen before. -/
def distinctAfter (seen : List String) : List String → List String
  | [] => []
  | name :: rest =>
    if name ∈ seen then distinctAfter seen rest else name :: distinctAfter (name :: seen) rest

def distinct (names : List String) : List String :=
  distinctAfter [] names

def insertOn {α : Type} (key : α → Nat) (a : α) : List α → List α
  | [] => [a]
  | b :: rest => if key a ≤ key b then a :: b :: rest else b :: insertOn key a rest

def sortOn {α : Type} (key : α → Nat) : List α → List α
  | [] => []
  | a :: rest => insertOn key a (sortOn key rest)

end LuaStubs
