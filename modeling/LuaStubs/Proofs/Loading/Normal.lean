import LuaStubs.Proofs.Loading.Encoding

/-! Normal forms encode the same: the body of a concept is put into normal form before it is looked
at. -/

namespace LuaStubs.Api

open Json Value

mutual

theorem TypeExpr.persists : ∀ type : TypeExpr, Persists type.Encoded
  | .named name => persists_text name
  | .array value => by
    apply persists_object
    simp only [List.forall_mem_cons]
    exact ⟨persists_text _, value.persists, nofun⟩
  | .dictionary key value => by
    apply persists_object
    simp only [List.forall_mem_cons]
    exact ⟨persists_text _, key.persists, value.persists, nofun⟩
  | .variant options => by
    apply persists_object
    simp only [array_types, List.forall_mem_cons]
    exact ⟨persists_text _, persists_listOf (persists_types options), nofun⟩
  | .lazyLoaded value => by
    apply persists_object
    simp only [List.forall_mem_cons]
    exact ⟨persists_text _, value.persists, nofun⟩
  | .customTable key value => by
    apply persists_object
    simp only [List.forall_mem_cons]
    exact ⟨persists_text _, key.persists, value.persists, nofun⟩
  | .table shape => by
    apply persists_object
    exact List.forall_mem_cons.mpr ⟨persists_text _, shape.persists_entries⟩
  | .function parameters => by
    apply persists_object
    simp only [array_types, List.forall_mem_cons]
    exact ⟨persists_text _, persists_listOf (persists_types parameters), nofun⟩

theorem persists_types : ∀ types : List TypeExpr, ∀ type ∈ types, Persists type.Encoded
  | [] => nofun
  | type :: rest => List.forall_mem_cons.mpr ⟨type.persists, persists_types rest⟩

theorem Shape.persists_entries : ∀ shape : Shape, ∀ e ∈ shape.entries, Persists e.value
  | ⟨parameters, groups, groupsDescription⟩ => by
    simp only [Shape.entries, array_parameters, array_groups, List.forall_mem_cons]
    exact ⟨persists_listOf (persists_parameters parameters), persists_listOf (persists_groups groups),
      persists_nullable fun text _ => persists_text text, nofun⟩

theorem Parameter.persists : ∀ p : Parameter, Persists p.Encoded
  | ⟨name, order, description, type, optional⟩ => by
    apply persists_object
    simp only [List.forall_mem_cons]
    exact ⟨persists_text name, persists_natural 32 order, persists_text description, type.persists,
      persists_flag optional, nofun⟩

theorem persists_parameters : ∀ parameters : List Parameter, ∀ p ∈ parameters, Persists p.Encoded
  | [] => nofun
  | p :: rest => List.forall_mem_cons.mpr ⟨p.persists, persists_parameters rest⟩

theorem Group.persists : ∀ g : Group, Persists g.Encoded
  | ⟨name, order, description, parameters⟩ => by
    apply persists_object
    simp only [array_parameters, List.forall_mem_cons]
    exact ⟨persists_text name, persists_natural 32 order, persists_text description,
      persists_listOf (persists_parameters parameters), nofun⟩

theorem persists_groups : ∀ groups : List Group, ∀ g ∈ groups, Persists g.Encoded
  | [] => nofun
  | g :: rest => List.forall_mem_cons.mpr ⟨g.persists, persists_groups rest⟩

end

theorem Documentation.persists_entries (doc : Documentation) : ∀ e ∈ doc.entries, Persists e.value := by
  have texts (xs : List String) : Persists (ListOf Text xs) := persists_listOf fun text _ => persists_text text
  simp only [entries, List.forall_mem_cons]
  exact ⟨persists_text _, texts _, texts _, texts _, texts _, nofun⟩

theorem Attribute.persists (a : Attribute) : Persists a.Encoded := by
  refine persists_object (List.forall_mem_append.mpr ⟨?_, a.doc.persists_entries⟩)
  simp only [List.forall_mem_cons]
  exact ⟨persists_text _, persists_natural _ _, a.type.persists, persists_flag _, persists_flag _, nofun⟩

theorem Identification.persists (i : Identification) : Persists i.Encoded := by
  apply persists_object
  simp only [List.forall_mem_cons]
  exact ⟨persists_natural _ _, persists_text _, i.type.persists, nofun⟩

theorem Choice.persists (c : Choice) : Persists c.Encoded := by
  apply persists_object
  simp only [List.forall_mem_cons]
  exact ⟨persists_text _, persists_natural _ _, persists_text _, nofun⟩

theorem ConceptKind.persists_entries (kind : ConceptKind) : ∀ e ∈ kind.entries, Persists e.value := by
  cases kind with
  | identification options =>
    exact List.forall_mem_singleton.mpr (persists_listOf fun i _ => i.persists)
  | plain => exact nofun
  | struct attributes => exact List.forall_mem_singleton.mpr (persists_listOf fun a _ => a.persists)
  | flag options | union options =>
    exact List.forall_mem_singleton.mpr (persists_listOf fun c _ => c.persists)
  | table shape | tableOrArray shape | filter shape => exact shape.persists_entries

end LuaStubs.Api
