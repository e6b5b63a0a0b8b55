import LuaStubs.Proofs.Naming.Marks
import LuaStubs.Proofs.Tables.Sites
import LuaStubs.Proofs.Texts

/-! The positions of a description that tables without a name can be called after. An owner has
parts, each under a name and with marks for the positions inside it; what stands at a position may
be an owner again. Where the parts of all owners are told apart, so are all positions. -/

namespace LuaStubs

namespace Api

mutual

/-- The positions inside a type that share the last part of its name. The elements of an array and a
value that is loaded late stand where the type itself stands. -/
def TypeExpr.spots : TypeExpr → List (String × TypeExpr)
  | .named name => [("", .named name)]
  | .array value => value.spots
  | .dictionary key value =>
    ("", .dictionary key value) :: marked [("_key", key.spots), ("_value", value.spots)]
  | .variant options => [("", .variant options)]
  | .lazyLoaded value => value.spots
  | .customTable key value =>
    ("", .customTable key value) :: marked [("_key", key.spots), ("_value", value.spots)]
  | .table shape => [("", .table shape)]
  | .function parameters => ("", .function parameters) :: marked (spotsOfParameters 1 parameters)

def spotsOfParameters (number : Nat) : List TypeExpr → List (String × List (String × TypeExpr))
  | [] => []
  | type :: rest => ("_param" ++ toString number, type.spots) :: spotsOfParameters (number + 1) rest

end

/-- What stands at a position. -/
inductive Holder where
  | type (type : TypeExpr)
  | class (c : Class)
  | event (e : Event)
  | concept (c : Concept)
  /-- A method with its parameters. -/
  | method (m : Method)
  /-- The table that a method takes. -/
  | methodTable (m : Method)

/-- A part of an owner: its name, what its tables link to, and the positions inside it. -/
structure Part where
  name : String
  /-- The entry of the manual, if it is not that of the owner. -/
  reference : Option String
  spots : List (String × Holder)

/-- The positions inside a type, with what stands there. -/
def TypeExpr.holders (type : TypeExpr) : List (String × Holder) :=
  type.spots.map fun (marks, inner) => (marks, .type inner)

namespace Part

/-- A part that has a type. -/
def ofType (name : String) (reference : Option String) (type : TypeExpr) : Part :=
  ⟨name, reference, type.holders⟩

def ofFields (fields : NameMap TableField) : List Part :=
  fields.map fun (name, field) => ofType name none field.type

def ofParameters (parameters : List Parameter) : List Part :=
  parameters.map fun p => ofType p.name none p.type

def ofAttribute (owner : String) (a : Attribute) (name : MemberName) : Part :=
  ofType name.lua (some (owner ++ "::" ++ name.anchor)) a.type

def ofOperator (owner : String) (o : Operator) : List Part :=
  if o.name = "index" then [ofAttribute owner o.asAttribute .index]
  else if o.name = "length" then [ofAttribute owner o.asAttribute .length]
  else []

/-- The positions behind a mark in a type that may be missing. -/
def family (mark : String) (type : Option TypeExpr) : List (String × List (String × Holder)) :=
  type.toList.map fun type => (mark, type.holders)

/-- A method with parameters, and what it returns and takes besides. -/
def ofMethod (owner : String) (m : Method) (anchor : String) : Part :=
  ⟨m.name, some (owner ++ "::" ++ anchor), ("", .method m) ::
    marked (family "_vararg" m.signature.variadicType ++ family "_return" m.signature.returnType)⟩

def ofTableMethod (owner : String) (m : Method) : Part :=
  ⟨m.name, some (owner ++ "::" ++ m.name),
    marked (("_param", [("", .methodTable m)]) :: family "_return" m.signature.returnType)⟩

def ofFunction (owner : String) (m : Method) : Part :=
  if m.signature.takesTable then ofTableMethod owner m else ofMethod owner m m.name

end Part

def Class.parts (c : Class) : List Part :=
  c.attributes.map (fun a => .ofAttribute c.name a (.plain a.name))
    ++ c.operators.flatMap (Part.ofOperator c.name)
    ++ c.methods.map (Part.ofFunction c.name)
    ++ (c.operators.find? (·.name = "call")).toList.map
      fun o => .ofMethod c.name o.asMethod MemberName.call.anchor

def Concept.parts (c : Concept) : List Part :=
  match c.kind with
  | .identification options => options.map fun o => .ofType (toString o.order) none o.type
  | .struct attributes => attributes.map fun a => .ofAttribute c.name a (.plain a.name)
  | .table shape => Part.ofFields (TableField.all appliesTo shape.parameters shape.groups)
  | .tableOrArray shape => Part.ofFields (TableField.all appliesTo shape.parameters shape.groups)
  | .filter shape => Part.ofFields (TableField.all appliesToFilter shape.parameters shape.groups)
  | _ => []

/-- The parts of what stands at a position. -/
def Holder.parts : Holder → List Part
  | .type (.table shape) => Part.ofFields (TableField.all appliesTo shape.parameters shape.groups)
  | .type (.variant options) =>
    options.zipIdx.map fun (option, index) => .ofType (toString index) none option
  | .type _ => []
  | .class c => c.parts
  | .event e => Part.ofParameters e.data
  | .concept c => c.parts
  | .method m => Part.ofParameters m.signature.parameters
  | .methodTable m => Part.ofFields (TableField.all appliesTo m.signature.parameters m.signature.groups)

/-- A concept, and its elements if it may be written as an array. -/
def Concept.part (c : Concept) : Part :=
  ⟨c.name, some c.name, ("", .concept c) :: marked (Part.family "_elem" c.elementType?)⟩

/-- The entries of a description that have parts. -/
def Document.parts (document : Document) : List Part :=
  document.classes.map (fun c => ⟨c.name, some c.name, [("", .class c)]⟩)
    ++ document.events.map (fun e => ⟨e.name, some e.name, [("", .event e)]⟩)
    ++ document.concepts.map Concept.part

end Api

/-! The positions inside a part are told apart by their marks. -/

theorem isMark_key : IsMark "_key" := ⟨"key".toList, rfl, by decide, by decide⟩

theorem isMark_value : IsMark "_value" := ⟨"value".toList, rfl, by decide, by decide⟩

theorem isMark_elem : IsMark "_elem" := ⟨"elem".toList, rfl, by decide, by decide⟩

theorem isMark_vararg : IsMark "_vararg" := ⟨"vararg".toList, rfl, by decide, by decide⟩

theorem isMark_return : IsMark "_return" := ⟨"return".toList, rfl, by decide, by decide⟩

theorem isMark_table : IsMark "_param" := ⟨"param".toList, rfl, by decide, by decide⟩

theorem isMark_param (number : Nat) : IsMark ("_param" ++ toString number) := by
  have hline := not_mem_toDigits (show '_'.isDigit = false by decide) number
  have hdot := not_mem_toDigits (show '.'.isDigit = false by decide) number
  exact ⟨"param".toList ++ Nat.toDigits 10 number, by simp, by simp [hline], by simp [hdot]⟩

theorem chains_single {α : Type} (a : α) : Chains [("", a)] :=
  families_nil.chains_cons a

theorem rooted_cons {α : Type} (a : α) (spots : List (String × α)) : Rooted (("", a) :: spots) :=
  ⟨a, List.mem_cons_self⟩

namespace Api

theorem mem_spotsOfParameters {number : Nat} {types : List TypeExpr}
    {family : String × List (String × TypeExpr)} (h : family ∈ spotsOfParameters number types) :
    ∃ later, number ≤ later ∧ family.1 = "_param" ++ toString later := by
  induction types generalizing number with
  | nil => cases h
  | cons type rest ih =>
    rcases List.mem_cons.mp h with rfl | h
    · exact ⟨number, Nat.le_refl _, rfl⟩
    · obtain ⟨later, hlater, hmark⟩ := ih h
      exact ⟨later, by omega, hmark⟩

theorem families_pair {key value : List (String × TypeExpr)} (hkey : Chains key ∧ Rooted key)
    (hvalue : Chains value ∧ Rooted value) : Families [("_key", key), ("_value", value)] :=
  (families_single isMark_key hkey.1 hkey.2).append
    (families_single isMark_value hvalue.1 hvalue.2) (by simp)

mutual

theorem TypeExpr.chains_spots : ∀ type : TypeExpr, Chains type.spots ∧ Rooted type.spots
  | .named _ => ⟨chains_single _, rooted_cons _ _⟩
  | .array value => value.chains_spots
  | .dictionary key value =>
    ⟨(families_pair key.chains_spots value.chains_spots).chains_cons _, rooted_cons _ _⟩
  | .variant _ => ⟨chains_single _, rooted_cons _ _⟩
  | .lazyLoaded value => value.chains_spots
  | .customTable key value =>
    ⟨(families_pair key.chains_spots value.chains_spots).chains_cons _, rooted_cons _ _⟩
  | .table _ => ⟨chains_single _, rooted_cons _ _⟩
  | .function parameters => ⟨(families_spots 1 parameters).chains_cons _, rooted_cons _ _⟩

theorem families_spots (number : Nat) :
    ∀ types : List TypeExpr, Families (spotsOfParameters number types)
  | [] => families_nil
  | type :: rest => by
    obtain ⟨chains, rooted⟩ := type.chains_spots
    have hrest := families_spots (number + 1) rest
    apply (families_single (isMark_param number) chains rooted).append hrest
    intro family hfamily other hother same
    rw [List.mem_singleton.mp hfamily] at same
    obtain ⟨later, hlater, hmark⟩ := mem_spotsOfParameters hother
    rw [hmark, ← String.toList_inj, String.toList_append, String.toList_append] at same
    have hnumber : number = later :=
      eq_of_toString_eq (String.toList_inj.mp (List.append_cancel_left same))
    omega

end

theorem TypeExpr.chains_holders (type : TypeExpr) : Chains type.holders :=
  type.chains_spots.1.map _

theorem TypeExpr.rooted_holders (type : TypeExpr) : Rooted type.holders :=
  type.chains_spots.2.map _

namespace Part

theorem families_family {mark : String} (hmark : IsMark mark) (type : Option TypeExpr) :
    Families (family mark type) := by
  cases type with
  | none => exact families_nil
  | some type => exact families_single hmark type.chains_holders type.rooted_holders

theorem mark_of_mem_family {mark : String} {type : Option TypeExpr}
    {spots : String × List (String × Holder)} (h : spots ∈ family mark type) : spots.1 = mark := by
  obtain ⟨type, -, rfl⟩ := List.mem_map.mp h
  rfl

theorem chains_ofMethod (owner : String) (m : Method) (anchor : String) :
    Chains (ofMethod owner m anchor).spots := by
  have families := (families_family isMark_vararg m.signature.variadicType).append
    (families_family isMark_return m.signature.returnType) (by
      intro spots h other h'
      rw [mark_of_mem_family h, mark_of_mem_family h']
      decide)
  exact families.chains_cons _

theorem chains_ofFunction (owner : String) (m : Method) : Chains (ofFunction owner m).spots := by
  unfold ofFunction
  split
  · have table := families_single isMark_table (chains_single (Holder.methodTable m))
      (rooted_cons _ _)
    have families := table.append (families_family isMark_return m.signature.returnType) (by
      intro spots h other h'
      rw [List.mem_singleton.mp h, mark_of_mem_family h']
      have differ : "_param" ≠ "_return" := by decide
      exact differ)
    exact families.chains_marked
  · exact chains_ofMethod owner m m.name

theorem chains_ofFields {fields : NameMap TableField} {part : Part} (h : part ∈ ofFields fields) :
    Chains part.spots := by
  obtain ⟨entry, -, rfl⟩ := List.mem_map.mp h
  exact entry.2.type.chains_holders

theorem chains_ofParameters {parameters : List Parameter} {part : Part}
    (h : part ∈ ofParameters parameters) : Chains part.spots := by
  obtain ⟨p, -, rfl⟩ := List.mem_map.mp h
  exact p.type.chains_holders

end Part

theorem Class.chains_parts {c : Class} {part : Part} (h : part ∈ c.parts) : Chains part.spots := by
  simp only [parts, List.mem_append, List.mem_map, List.mem_flatMap] at h
  obtain ((⟨a, -, rfl⟩ | ⟨o, -, h⟩) | ⟨m, -, rfl⟩) | ⟨o, -, rfl⟩ := h
  · exact a.type.chains_holders
  · unfold Part.ofOperator at h
    split at h
    · rw [List.mem_singleton.mp h]
      exact TypeExpr.chains_holders _
    · split at h
      · rw [List.mem_singleton.mp h]
        exact TypeExpr.chains_holders _
      · cases h
  · exact Part.chains_ofFunction c.name m
  · exact Part.chains_ofMethod _ _ _

theorem Concept.chains_parts {c : Concept} {part : Part} (h : part ∈ c.parts) :
    Chains part.spots := by
  unfold parts at h
  split at h
  · obtain ⟨o, -, rfl⟩ := List.mem_map.mp h
    exact o.type.chains_holders
  · obtain ⟨a, -, rfl⟩ := List.mem_map.mp h
    exact a.type.chains_holders
  · exact Part.chains_ofFields h
  · exact Part.chains_ofFields h
  · exact Part.chains_ofFields h
  · cases h

theorem Holder.chains_parts {holder : Holder} {part : Part} (h : part ∈ holder.parts) :
    Chains part.spots := by
  unfold parts at h
  split at h
  · exact Part.chains_ofFields h
  · obtain ⟨option, -, rfl⟩ := List.mem_map.mp h
    exact TypeExpr.chains_holders _
  · cases h
  · exact Class.chains_parts h
  · exact Part.chains_ofParameters h
  · exact Concept.chains_parts h
  · exact Part.chains_ofParameters h
  · exact Part.chains_ofFields h

theorem Document.chains_parts {document : Document} {part : Part} (h : part ∈ document.parts) :
    Chains part.spots := by
  simp only [parts, List.mem_append, List.mem_map] at h
  obtain (⟨c, -, rfl⟩ | ⟨e, -, rfl⟩) | ⟨c, -, rfl⟩ := h
  · exact chains_single _
  · exact chains_single _
  · exact (Part.families_family isMark_elem c.elementType?).chains_cons _

/-- The names of parts, each with the marks for the positions inside it. -/
def spelled (parts : List Part) : List (String × List String) :=
  parts.map fun part => (part.name, part.spots.map (·.1))

theorem eq_of_spelled_eq {parts : List Part} (apart : Apart (spelled parts))
    (chains : ∀ part ∈ parts, Chains part.spots) {part other : Part} (hpart : part ∈ parts)
    (hother : other ∈ parts) {marks marks' : String} {holder holder' : Holder}
    (hspot : (marks, holder) ∈ part.spots) (hspot' : (marks', holder') ∈ other.spots)
    (h : part.name ++ marks = other.name ++ marks') : part = other ∧ holder = holder' := by
  -- The shorter name is a prefix of the longer one, and what is behind it is a position.
  have longer {part other : Part} (hpart : part ∈ parts) (hother : other ∈ parts)
      {marks marks' : String} {holder holder' : Holder} (hspot : (marks, holder) ∈ part.spots)
      (hspot' : (marks', holder') ∈ other.spots) {x : List Char}
      (hname : other.name.toList = part.name.toList ++ x) (hmarks : marks.toList = x ++ marks'.toList) :
      part = other ∧ holder = holder' := by
    have starts := (chains other hother).starts _ hspot'
    by_cases hx : x = []
    · rw [hx, List.append_nil, String.toList_inj] at hname
      rw [hx, List.nil_append, String.toList_inj] at hmarks
      have hmap : (spelled parts).map (·.1) = parts.map Part.name := by simp [spelled]
      have distinct := hmap ▸ apart.distinct
      cases List.inj_on_of_nodup_map distinct hpart hother hname.symm
      cases hmarks
      exact ⟨rfl, (chains part hpart).functional _ _ _ hspot hspot'⟩
    · have hspelled (p : Part) (hp : p ∈ parts) : (p.name, p.spots.map (·.1)) ∈ spelled parts :=
        List.mem_map.mpr ⟨p, hp, rfl⟩
      obtain ⟨inner, hinner⟩ := ((chains part hpart).closed _ hspot x _ hmarks starts).resolve_left hx
      have hmark : String.ofList x ≠ "" := by
        rw [Ne, ← String.toList_inj, String.toList_ofList]
        exact hx
      have hnames : other.name = part.name ++ String.ofList x := by
        rw [← String.toList_inj, hname, String.toList_append, String.toList_ofList]
      exact absurd hnames (apart.apart _ (hspelled part hpart) _
        (List.mem_map.mpr ⟨_, hinner, rfl⟩) hmark _ (hspelled other hother))
  have hlists := congrArg String.toList h
  rw [String.toList_append, String.toList_append] at hlists
  rcases List.append_eq_append_iff.mp hlists with ⟨x, hname, hmarks⟩ | ⟨x, hname, hmarks⟩
  · exact longer hpart hother hspot hspot' hname hmarks
  · obtain ⟨rfl, rfl⟩ := longer hother hpart hspot' hspot hname hmarks
    exact ⟨rfl, rfl⟩

end Api

end LuaStubs
