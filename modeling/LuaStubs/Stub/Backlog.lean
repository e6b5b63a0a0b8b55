import LuaStubs.Stub.Line

/-! The backlog of a run: the tables without a name that have been given one, and their
declarations, which wait for the end of the file. -/

namespace LuaStubs

structure Backlog where
  /-- The names in the order in which they were claimed. -/
  names : List String
  /-- The declarations in the order in which they were finished. -/
  blocks : List (List Line)

namespace Backlog

def empty : Backlog := ⟨[], []⟩

def claim (name : String) (b : Backlog) : Bool × Backlog :=
  if name ∈ b.names then (false, b) else (true, { b with names := b.names ++ [name] })

def defer (block : List Line) (b : Backlog) : Backlog :=
  { b with blocks := b.blocks ++ [block] }

theorem mem_names_claim (name other : String) (b : Backlog) :
    other ∈ (b.claim name).2.names ↔ other = name ∨ other ∈ b.names := by
  unfold claim
  split
  · constructor
    · exact .inr
    · rintro (rfl | h) <;> assumption
  · simp [or_comm]

theorem nodup_names_claim {b : Backlog} (h : b.names.Nodup) (name : String) :
    (b.claim name).2.names.Nodup := by
  unfold claim
  split
  · exact h
  · simp_all [List.nodup_append]
    grind

def text (b : Backlog) : String :=
  Line.renderAll b.blocks.flatten

/-- What happens to a backlog. Any text can be put off, as a block of one verbatim line. -/
inductive Step where
  | claim (name : String)
  | defer (block : List Line)
  | finish

inductive Answer where
  | claimed (isNew : Bool)
  | finished (text : String) (names : List String)
  deriving Repr, DecidableEq

/-- When a backlog is finished, it gives all that it holds, and an empty one takes its place. -/
def step (b : Backlog) : Step → Option Answer × Backlog
  | .claim name =>
    let (isNew, b) := b.claim name
    (some (.claimed isNew), b)
  | .defer block => (none, b.defer block)
  | .finish => (some (.finished b.text b.names), .empty)

end Backlog

end LuaStubs
