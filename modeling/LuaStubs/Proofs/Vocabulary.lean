import LuaStubs.Api.Basic
import LuaStubs.Proofs.Arrangement.Sorting

/-! The words of a description: the texts it consists of, each with what it is used for. -/

namespace LuaStubs

inductive Word where
  /-- The name of an entry, of a member or of a type. -/
  | name (text : String)
  /-- The name of a group of fields or of a choice. -/
  | label (text : String)
  /-- Prose. -/
  | prose (text : String)
  /-- An entry of what to see besides. -/
  | reference (text : String)

namespace Api

mutual

def TypeExpr.words : TypeExpr → List Word
  | .named name => [.name name]
  | .array value => value.words
  | .dictionary key value => key.words ++ value.words
  | .variant options => wordsOfTypes options
  | .lazyLoaded value => value.words
  | .customTable key value => key.words ++ value.words
  | .table shape => shape.words
  | .function parameters => wordsOfTypes parameters

def wordsOfTypes : List TypeExpr → List Word
  | [] => []
  | type :: rest => type.words ++ wordsOfTypes rest

def Shape.words : Shape → List Word
  | ⟨parameters, groups, description⟩ =>
    wordsOfParameters parameters ++ wordsOfGroups groups ++ (description.map .prose).toList

def wordsOfParameters : List Parameter → List Word
  | [] => []
  | p :: rest => p.words ++ wordsOfParameters rest

def Parameter.words : Parameter → List Word
  | ⟨name, _, description, type, _⟩ => .name name :: .prose description :: type.words

def wordsOfGroups : List Group → List Word
  | [] => []
  | g :: rest => g.words ++ wordsOfGroups rest

def Group.words : Group → List Word
  | ⟨name, _, description, parameters⟩ =>
    .label name :: .prose description :: wordsOfParameters parameters

end

def Documentation.words (doc : Documentation) : List Word :=
  .prose doc.description :: (doc.notes ++ doc.examples ++ doc.subclasses).map .prose
    ++ doc.seeAlso.map .reference

/-- The words of a type that may be missing. -/
def wordsOfType? (type : Option TypeExpr) : List Word :=
  (type.map TypeExpr.words).getD []

def Signature.words (s : Signature) : List Word :=
  wordsOfParameters s.parameters ++ wordsOfGroups s.groups
    ++ (s.groupsDescription.map Word.prose).toList
    ++ wordsOfType? s.variadicType ++ (s.variadicDescription.map Word.prose).toList
    ++ wordsOfType? s.returnType ++ (s.returnDescription.map Word.prose).toList

def Method.words (m : Method) : List Word :=
  .name m.name :: m.doc.words ++ m.signature.words

def Attribute.words (a : Attribute) : List Word :=
  .name a.name :: a.doc.words ++ a.type.words

def Operator.words (o : Operator) : List Word :=
  .name o.name :: o.doc.words ++ wordsOfType? o.type ++ o.signature.words

def Class.words (c : Class) : List Word :=
  .name c.name :: c.doc.words ++ c.methods.flatMap Method.words
    ++ c.attributes.flatMap Attribute.words ++ c.operators.flatMap Operator.words
    ++ c.baseClasses.map .name

def Event.words (e : Event) : List Word :=
  .name e.name :: e.doc.words ++ wordsOfParameters e.data

def Identification.words (o : Identification) : List Word :=
  .prose o.description :: o.type.words

def Choice.words (choice : Choice) : List Word :=
  [.label choice.name, .prose choice.description]

def ConceptKind.words : ConceptKind → List Word
  | .identification options => options.flatMap Identification.words
  | .plain => []
  | .struct attributes => attributes.flatMap Attribute.words
  | .flag options => options.flatMap Choice.words
  | .table shape => shape.words
  | .tableOrArray shape => shape.words
  | .union options => options.flatMap Choice.words
  | .filter shape => shape.words

def Concept.words (c : Concept) : List Word :=
  .name c.name :: c.doc.words ++ c.kind.words

def Builtin.words (b : Builtin) : List Word :=
  [.name b.name, .prose b.description]

def Global.words (g : Global) : List Word :=
  .name g.name :: .prose g.description :: g.type.words

def ConstantValue.words (value : ConstantValue) : List Word :=
  [.name value.name, .prose value.description]

mutual

def Constant.words : Constant → List Word
  | ⟨name, _, description, values, subkeys⟩ =>
    .name name :: .prose description :: values.flatMap ConstantValue.words ++ wordsOfConstants subkeys

def wordsOfConstants : List Constant → List Word
  | [] => []
  | node :: rest => node.words ++ wordsOfConstants rest

end

def Document.words (document : Document) : List Word :=
  document.classes.flatMap Class.words ++ document.events.flatMap Event.words
    ++ document.concepts.flatMap Concept.words ++ document.builtins.flatMap Builtin.words
    ++ document.globals.flatMap Global.words ++ wordsOfConstants document.constants

/-! The words of a list are those of its members. -/

theorem wordsOfTypes_eq (types : List TypeExpr) : wordsOfTypes types = types.flatMap TypeExpr.words := by
  induction types with
  | nil => rfl
  | cons type rest ih => rw [wordsOfTypes, ih, List.flatMap_cons]

theorem wordsOfParameters_eq (parameters : List Parameter) :
    wordsOfParameters parameters = parameters.flatMap Parameter.words := by
  induction parameters with
  | nil => rfl
  | cons p rest ih => rw [wordsOfParameters, ih, List.flatMap_cons]

theorem wordsOfGroups_eq (groups : List Group) : wordsOfGroups groups = groups.flatMap Group.words := by
  induction groups with
  | nil => rfl
  | cons g rest ih => rw [wordsOfGroups, ih, List.flatMap_cons]

theorem wordsOfConstants_eq (constants : List Constant) :
    wordsOfConstants constants = constants.flatMap Constant.words := by
  induction constants with
  | nil => rfl
  | cons node rest ih => rw [wordsOfConstants, ih, List.flatMap_cons]

theorem Shape.words_eq (shape : Shape) :
    shape.words = wordsOfParameters shape.parameters ++ wordsOfGroups shape.groups
      ++ (shape.groupsDescription.map .prose).toList := by
  cases shape
  rfl

theorem Parameter.words_eq (p : Parameter) :
    p.words = .name p.name :: .prose p.description :: p.type.words := by
  cases p
  rfl

theorem Group.words_eq (g : Group) :
    g.words = .label g.name :: .prose g.description :: wordsOfParameters g.parameters := by
  cases g
  rfl

theorem Constant.words_eq (node : Constant) :
    node.words = .name node.name :: .prose node.description
      :: node.values.flatMap ConstantValue.words ++ wordsOfConstants node.subkeys := by
  cases node
  rfl

/-! The words of a part are words of the whole. -/

theorem Signature.words_of_parameters (s : Signature) : wordsOfParameters s.parameters ⊆ s.words :=
  fun _ h => by simp only [words, List.mem_append, h, true_or]

theorem Signature.words_of_groups (s : Signature) : wordsOfGroups s.groups ⊆ s.words :=
  fun _ h => by simp only [words, List.mem_append, h, true_or, or_true]

theorem Signature.words_of_variadicType (s : Signature) : wordsOfType? s.variadicType ⊆ s.words :=
  fun _ h => by simp only [words, List.mem_append, h, true_or, or_true]

theorem Signature.words_of_variadicDescription (s : Signature) :
    (s.variadicDescription.map Word.prose).toList ⊆ s.words :=
  fun _ h => by simp only [words, List.mem_append, h, true_or, or_true]

theorem Signature.words_of_returnType (s : Signature) : wordsOfType? s.returnType ⊆ s.words :=
  fun _ h => by simp only [words, List.mem_append, h, true_or, or_true]

theorem Signature.words_of_returnDescription (s : Signature) :
    (s.returnDescription.map Word.prose).toList ⊆ s.words :=
  fun _ h => by simp only [words, List.mem_append, h, or_true]

theorem Method.words_of_doc (m : Method) : m.doc.words ⊆ m.words :=
  fun _ h => by simp [words, h]

theorem Method.words_of_signature (m : Method) : m.signature.words ⊆ m.words :=
  fun _ h => by simp [words, h]

theorem Attribute.words_of_doc (a : Attribute) : a.doc.words ⊆ a.words :=
  fun _ h => by simp [words, h]

theorem Attribute.words_of_type (a : Attribute) : a.type.words ⊆ a.words :=
  fun _ h => by simp [words, h]

theorem Operator.words_of_doc (o : Operator) : o.doc.words ⊆ o.words :=
  fun _ h => by simp [words, h]

theorem Operator.words_of_type (o : Operator) : wordsOfType? o.type ⊆ o.words :=
  fun _ h => by simp [words, h]

theorem Operator.words_of_asMethod (o : Operator) : o.asMethod.words ⊆ o.words := by
  intro word h
  simp only [Method.words, asMethod, words, List.mem_cons, List.mem_append] at h ⊢
  exact h.imp_left .inl

theorem Class.words_of_doc (c : Class) : c.doc.words ⊆ c.words :=
  fun _ h => by simp only [words, List.cons_append, List.mem_cons, List.mem_append, h, true_or, or_true]

theorem Class.words_of_methods (c : Class) : c.methods.flatMap Method.words ⊆ c.words :=
  fun _ h => by simp only [words, List.mem_append, h, true_or, or_true]

theorem Class.words_of_attributes (c : Class) : c.attributes.flatMap Attribute.words ⊆ c.words :=
  fun _ h => by simp only [words, List.mem_append, h, true_or, or_true]

theorem Class.words_of_operators (c : Class) : c.operators.flatMap Operator.words ⊆ c.words :=
  fun _ h => by simp only [words, List.mem_append, h, true_or, or_true]

theorem Event.words_of_doc (e : Event) : e.doc.words ⊆ e.words :=
  fun _ h => by simp [words, h]

theorem Event.words_of_data (e : Event) : wordsOfParameters e.data ⊆ e.words :=
  fun _ h => by simp [words, h]

theorem Concept.words_of_doc (c : Concept) : c.doc.words ⊆ c.words :=
  fun _ h => by simp [words, h]

theorem Concept.words_of_kind (c : Concept) : c.kind.words ⊆ c.words :=
  fun _ h => by simp [words, h]

section

variable {document : Document}

theorem Document.words_of_class {c : Class} (h : c ∈ document.classes) : c.words ⊆ document.words := by
  intro word hword
  simp only [words, List.mem_append, List.mem_flatMap]
  exact .inl (.inl (.inl (.inl (.inl ⟨c, h, hword⟩))))

theorem Document.words_of_event {e : Event} (h : e ∈ document.events) : e.words ⊆ document.words := by
  intro word hword
  simp only [words, List.mem_append, List.mem_flatMap]
  exact .inl (.inl (.inl (.inl (.inr ⟨e, h, hword⟩))))

theorem Document.words_of_concept {c : Concept} (h : c ∈ document.concepts) :
    c.words ⊆ document.words := by
  intro word hword
  simp only [words, List.mem_append, List.mem_flatMap]
  exact .inl (.inl (.inl (.inr ⟨c, h, hword⟩)))

theorem Document.words_of_builtin {b : Builtin} (h : b ∈ document.builtins) :
    b.words ⊆ document.words := by
  intro word hword
  simp only [words, List.mem_append, List.mem_flatMap]
  exact .inl (.inl (.inr ⟨b, h, hword⟩))

theorem Document.words_of_global {g : Global} (h : g ∈ document.globals) : g.words ⊆ document.words := by
  intro word hword
  simp only [words, List.mem_append, List.mem_flatMap]
  exact .inl (.inr ⟨g, h, hword⟩)

theorem Document.words_of_constant : wordsOfConstants document.constants ⊆ document.words :=
  fun _ hword => List.mem_append_right _ hword

theorem Shape.words_of_parameter {shape : Shape} {p : Parameter} (h : p ∈ shape.parameters) :
    p.words ⊆ shape.words := by
  intro word hword
  rw [shape.words_eq, wordsOfParameters_eq]
  exact List.mem_append_left _ (List.mem_append_left _ (List.mem_flatMap.mpr ⟨p, h, hword⟩))

end

end Api

theorem words_of_sortOn {α : Type} {key : α → Nat} {words : α → List Word} {xs : List α}
    {P : Word → Prop} (h : ∀ word ∈ xs.flatMap words, P word) :
    ∀ a ∈ sortOn key xs, ∀ word ∈ words a, P word :=
  fun a ha word hword => h word (List.mem_flatMap.mpr ⟨a, (mem_sortOn key a xs).mp ha, hword⟩)

end LuaStubs
