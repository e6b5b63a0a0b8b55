import LuaStubs.Api.Draft
import LuaStubs.Proofs.Json.Slots
import LuaStubs.Proofs.Loading.Encoding

/-! Every part of a description is taken out of the values that encode it, be they set aside in a
buffer or part of a concept's body. -/

namespace LuaStubs.Api

open Json Decoder Outcome

variable {origin : Origin} {height : Nat} {type : Decoder TypeExpr}

theorem accepts_optional_text :
    text.optional.Accepts origin height (Value.Nullable Value.Text) :=
  accepts_text.optional nofun

/-! Tables, if the types of their fields are understood. -/

theorem Parameter.accepts (h : type.Accepts origin height TypeExpr.Encoded) :
    (Parameter.record type).decoder.Accepts origin height Parameter.Encoded := by
  rintro ⟨name, order, description, own, optional⟩ v hheight object
  refine (record type).ofValue_of_object object hheight rfl
    (name, order, description, own, optional, ()) rfl fun members below entries => ?_
  simp only [List.forall_mem_cons] at entries
  obtain ⟨name, order, description, own, optional, -⟩ := entries
  exact ⟨name.found below accepts_text, order.found_default below accepts_natural,
    description.found_default below accepts_text, own.found below h,
    optional.found_default below accepts_flag, trivial⟩

theorem Group.accepts (h : type.Accepts origin height TypeExpr.Encoded) :
    (Group.record type).decoder.Accepts origin height Group.Encoded := by
  rintro ⟨name, order, description, parameters⟩ v hheight object
  refine (record type).ofValue_of_object object hheight rfl
    (name, order, description, parameters, ()) rfl fun members below entries => ?_
  simp only [array_parameters, List.forall_mem_cons] at entries
  obtain ⟨name, order, description, parameters, -⟩ := entries
  exact ⟨name.found below accepts_text, order.found_default below accepts_natural,
    description.found_default below accepts_text,
    parameters.found_default below (Parameter.accepts h).list, trivial⟩

theorem Shape.ofMembers_encoded (h : type.Accepts origin height TypeExpr.Encoded) (shape : Shape)
    {members : List (String × Value)} (nodup : (members.map (·.1)).Nodup)
    (below : heightOfMembers members ≤ height) (entries : ∀ e ∈ shape.entries, e.In members) :
    (Shape.record type).ofMembers origin members = .ok shape := by
  obtain ⟨parameters, groups, groupsDescription⟩ := shape
  simp only [Shape.entries, array_parameters, array_groups, List.forall_mem_cons] at entries
  obtain ⟨hparameters, hgroups, hgroupsDescription, -⟩ := entries
  exact (record type).ofMembers_of_fits nodup rfl (parameters, groups, groupsDescription, ())
    ⟨hparameters.found_default below (Parameter.accepts h).list,
      hgroups.found_default below (Group.accepts h).list,
      hgroupsDescription.found_default below accepts_optional_text, trivial⟩

/-! Types. -/

namespace TypeExpr

theorem not_encoded_null (t : TypeExpr) : ¬ t.Encoded .null := by
  cases t <;> exact nofun

theorem filter_tag {members : List (String × Value)} (nodup : (members.map (·.1)).Nodup)
    {v : Value} (h : (tagKey, v) ∈ members) : members.filter (·.1 = tagKey) = [(tagKey, v)] := by
  induction members with
  | nil => cases h
  | cons m members ih =>
    obtain ⟨key, w⟩ := m
    obtain ⟨unique, nodup⟩ := List.nodup_cons.mp nodup
    rcases List.mem_cons.mp h with heq | h
    · cases heq
      rw [List.filter_cons_of_pos (by simp), List.filter_eq_nil_iff.mpr]
      intro other hother heq
      exact unique (List.mem_map.mpr ⟨other, hother, of_decide_eq_true heq⟩)
    · rw [List.filter_cons_of_neg, ih nodup h]
      intro heq
      exact unique (List.mem_map.mpr ⟨_, h, (of_decide_eq_true heq).symm⟩)

theorem ofTree_object {tag : String} {entries : List Entry} {t : TypeExpr} {v : Value}
    (object : Value.Object (.tag tag :: entries) v) (hheight : v.height ≤ height + 1)
    (kept : (entries.map (·.key)).all (· ≠ tagKey) = true)
    {construct : Value → Except Reason TypeExpr}
    (hconstruct : (constructors (.ofTree (ofTree height))).lookup tag = some construct)
    (h : ∀ others, (others.map (·.1)).Nodup → heightOfMembers others ≤ height →
      (∀ e ∈ entries, e.In others) → construct (.object others) = .ok t) :
    ofTree (height + 1) v = .ok t := by
  cases v with
  | object members =>
    obtain ⟨nodup, holds⟩ := object
    obtain ⟨htag, hentries⟩ := List.forall_mem_cons.mp holds
    rcases htag with ⟨v, hv, rfl⟩ | ⟨omissible, -⟩
    · have split : splitTag? members = some (.string tag, members.filter (·.1 ≠ tagKey)) := by
        simp only [splitTag?, filter_tag nodup hv]
      have construct := h (members.filter (·.1 ≠ tagKey)) (nodup.sublist (List.filter_sublist.map _))
        (Nat.le_trans (heightOfMembers_filter _ _) (Nat.le_of_succ_le_succ hheight))
        (Entry.in_filter hentries kept)
      simp only [ofTree, split, constructor?, hconstruct, construct]
      rfl
    · cases omissible
  | _ => cases object

/-- A type is told from any tree that encodes it and is not higher than allowed. -/
theorem ofTree_encoded {t : TypeExpr} {v : Value} (hheight : v.height ≤ height)
    (encoded : t.Encoded v) : ofTree height v = .ok t := by
  induction height generalizing t v with
  | zero => exact absurd v.height_pos (by omega)
  | succ height ih =>
    -- The types inside stand in members, which are lower than the object.
    have accepts : (Decoder.ofTree (ofTree height)).Accepts .buffer height Encoded :=
      fun _ _ below => ih below
    cases t with
    | named name =>
      cases encoded
      rfl
    | array value =>
      refine ofTree_object encoded hheight rfl rfl fun others nodup below entries => ?_
      simp only [List.forall_mem_cons] at entries
      exact (arrayRecord _).ofMembers_of_fits nodup rfl (value, ())
        ⟨entries.1.found below accepts, trivial⟩
    | dictionary key value =>
      refine ofTree_object encoded hheight rfl rfl fun others nodup below entries => ?_
      simp only [List.forall_mem_cons] at entries
      exact (dictionaryRecord _).ofMembers_of_fits nodup rfl (key, value, ())
        ⟨entries.1.found below accepts, entries.2.1.found below accepts, trivial⟩
    | variant options =>
      refine ofTree_object encoded hheight rfl rfl fun others nodup below entries => ?_
      simp only [array_types, List.forall_mem_cons] at entries
      exact (variantRecord _).ofMembers_of_fits nodup rfl (options, ())
        ⟨entries.1.found below accepts.list, trivial⟩
    | lazyLoaded value =>
      refine ofTree_object encoded hheight rfl rfl fun others nodup below entries => ?_
      simp only [List.forall_mem_cons] at entries
      exact (lazyLoadedRecord _).ofMembers_of_fits nodup rfl (value, ())
        ⟨entries.1.found below accepts, trivial⟩
    | customTable key value =>
      refine ofTree_object encoded hheight rfl rfl fun others nodup below entries => ?_
      simp only [List.forall_mem_cons] at entries
      exact (customTableRecord _).ofMembers_of_fits nodup rfl (key, value, ())
        ⟨entries.1.found below accepts, entries.2.1.found below accepts, trivial⟩
    | table shape =>
      refine ofTree_object encoded hheight ?_ rfl fun others nodup below entries => ?_
      · rw [shape.keys_entries]
        rfl
      · exact map_eq_ok.mpr ⟨_, shape.ofMembers_encoded accepts nodup below entries, rfl⟩
    | function parameters =>
      refine ofTree_object encoded hheight rfl rfl fun others nodup below entries => ?_
      simp only [array_types, List.forall_mem_cons] at entries
      exact (functionRecord _).ofMembers_of_fits nodup rfl (parameters, ())
        ⟨entries.1.found below accepts.list, trivial⟩

theorem accepts : decoder.Accepts origin height Encoded :=
  fun _ v _ encoded => ofTree_encoded (Nat.le_refl v.height) encoded

end TypeExpr

theorem TypeExpr.accepts_optional :
    TypeExpr.decoder.optional.Accepts origin height (Value.Nullable TypeExpr.Encoded) :=
  TypeExpr.accepts.optional TypeExpr.not_encoded_null

/-! The parts that are set aside first. -/

section

variable {members : List (String × Value)}

theorem Documentation.ofMembers_encoded (nodup : (members.map (·.1)).Nodup) (doc : Documentation)
    (entries : ∀ e ∈ doc.entries, e.In members) :
    Documentation.record.ofMembers origin members = .ok doc := by
  simp only [Documentation.entries, List.forall_mem_cons] at entries
  obtain ⟨description, notes, examples, seeAlso, subclasses, -⟩ := entries
  have below : heightOfMembers members ≤ heightOfMembers members := Nat.le_refl _
  exact record.ofMembers_of_fits nodup rfl
    (doc.description, doc.notes, doc.examples, doc.seeAlso, doc.subclasses, ())
    ⟨description.found_default below accepts_text, notes.found_default below accepts_text.list,
      examples.found_default below accepts_text.list, seeAlso.found_default below accepts_text.list,
      subclasses.found_default below accepts_text.list, trivial⟩

theorem Signature.ofMembers_encoded (nodup : (members.map (·.1)).Nodup) (s : Signature)
    (entries : ∀ e ∈ s.entries, e.In members) :
    Signature.record.ofMembers origin members = .ok s := by
  simp only [Signature.entries, List.forall_mem_cons] at entries
  obtain ⟨parameters, groups, groupsDescription, variadicType, variadicDescription, takesTable,
    tableIsOptional, returnType, returnDescription, -⟩ := entries
  have below : heightOfMembers members ≤ heightOfMembers members := Nat.le_refl _
  exact record.ofMembers_of_fits nodup rfl
    (s.parameters, s.groups, s.groupsDescription, s.variadicType, s.variadicDescription,
      s.takesTable, s.tableIsOptional, s.returnType, s.returnDescription, ())
    ⟨parameters.found_default below (Parameter.accepts TypeExpr.accepts).list,
      groups.found_default below (Group.accepts TypeExpr.accepts).list,
      groupsDescription.found_default below accepts_optional_text,
      variadicType.found_default below TypeExpr.accepts_optional,
      variadicDescription.found_default below accepts_optional_text,
      takesTable.found_default below accepts_flag,
      tableIsOptional.found_default below accepts_flag,
      returnType.found_default below TypeExpr.accepts_optional,
      returnDescription.found_default below accepts_optional_text, trivial⟩

theorem documentedSignature_encoded (nodup : (members.map (·.1)).Nodup) (doc : Documentation)
    (s : Signature) (entries : ∀ e ∈ doc.entries ++ s.entries, e.In members) :
    documentedSignature members = .ok (doc, s) := by
  obtain ⟨hdoc, hsignature⟩ := List.forall_mem_append.mp entries
  exact bind_eq_ok.mpr ⟨_, doc.ofMembers_encoded nodup hdoc,
    bind_eq_ok.mpr ⟨_, s.ofMembers_encoded nodup hsignature, rfl⟩⟩

end

/-! Members of classes. -/

theorem Method.accepts : Method.record.decoder.Accepts origin height Method.Encoded := by
  intro m v hheight object
  refine record.ofValue_of_object object hheight rfl rfl (m.name, m.order, ()) (m.doc, m.signature) rfl
    (fun members below entries => ?_)
    (fun others _ nodup entries => documentedSignature_encoded nodup m.doc m.signature entries)
  simp only [List.forall_mem_cons] at entries
  obtain ⟨name, order, -⟩ := entries
  exact ⟨name.found below accepts_text, order.found_default below accepts_natural, trivial⟩

theorem Attribute.accepts : Attribute.record.decoder.Accepts origin height Attribute.Encoded := by
  intro a v hheight object
  refine record.ofValue_of_object object hheight rfl rfl
    (a.name, a.order, a.type, a.readable, a.writable, ()) a.doc rfl (fun members below entries => ?_)
    (fun others _ nodup entries => a.doc.ofMembers_encoded nodup entries)
  simp only [List.forall_mem_cons] at entries
  obtain ⟨name, order, type, readable, writable, -⟩ := entries
  exact ⟨name.found below accepts_text, order.found_default below accepts_natural,
    type.found below TypeExpr.accepts, readable.found_default below accepts_flag,
    writable.found_default below accepts_flag, trivial⟩

theorem Operator.accepts : Operator.record.decoder.Accepts origin height Operator.Encoded := by
  intro o v hheight object
  refine record.ofValue_of_object object hheight rfl rfl
    (o.name, o.order, o.type, o.readable, o.writable, ()) (o.doc, o.signature) rfl
    (fun members below entries => ?_)
    (fun others _ nodup entries => documentedSignature_encoded nodup o.doc o.signature entries)
  simp only [List.forall_mem_cons] at entries
  obtain ⟨name, order, type, readable, writable, -⟩ := entries
  exact ⟨name.found below accepts_text, order.found_default below accepts_natural,
    type.found_default below TypeExpr.accepts_optional, readable.found_default below accepts_flag,
    writable.found_default below accepts_flag, trivial⟩

/-! Entries of the description. -/

theorem Class.accepts : Class.record.decoder.Accepts origin height Class.Encoded := by
  intro c v hheight object
  refine record.ofValue_of_object object hheight rfl rfl
    (c.name, c.order, c.methods, c.attributes, c.operators, c.baseClasses, ()) c.doc rfl
    (fun members below entries => ?_)
    (fun others _ nodup entries => c.doc.ofMembers_encoded nodup entries)
  simp only [List.forall_mem_cons] at entries
  obtain ⟨name, order, methods, attributes, operators, baseClasses, -⟩ := entries
  exact ⟨name.found below accepts_text, order.found_default below accepts_natural,
    methods.found_default below Method.accepts.list,
    attributes.found_default below Attribute.accepts.list,
    operators.found_default below Operator.accepts.list,
    baseClasses.found_default below accepts_text.list, trivial⟩

theorem Event.accepts : Event.record.decoder.Accepts origin height Event.Encoded := by
  intro e v hheight object
  refine record.ofValue_of_object object hheight rfl rfl (e.name, e.order, e.data, ()) e.doc rfl
    (fun members below entries => ?_)
    (fun others _ nodup entries => e.doc.ofMembers_encoded nodup entries)
  simp only [List.forall_mem_cons] at entries
  obtain ⟨name, order, data, -⟩ := entries
  exact ⟨name.found below accepts_text, order.found_default below accepts_natural,
    data.found_default below (Parameter.accepts TypeExpr.accepts).list, trivial⟩

theorem Identification.accepts :
    Identification.record.decoder.Accepts origin height Identification.Encoded := by
  intro i v hheight object
  refine record.ofValue_of_object object hheight rfl (i.order, i.description, i.type, ()) rfl
    fun members below entries => ?_
  simp only [List.forall_mem_cons] at entries
  obtain ⟨order, description, type, -⟩ := entries
  exact ⟨order.found_default below accepts_natural, description.found_default below accepts_text,
    type.found below TypeExpr.accepts, trivial⟩

theorem Choice.fits {name description : String} {order : Nat} {members : List (String × Value)}
    (entries : ∀ e ∈ [Entry.name name, .order order, .description description], e.In members) :
    Choice.record.fields.Fits origin members (name, order, description, ()) := by
  simp only [List.forall_mem_cons] at entries
  obtain ⟨name, order, description, -⟩ := entries
  have below : heightOfMembers members ≤ heightOfMembers members := Nat.le_refl _
  exact ⟨name.found below accepts_text, order.found_default below accepts_natural,
    description.found_default below accepts_text, trivial⟩

theorem Choice.accepts : Choice.record.decoder.Accepts origin height Choice.Encoded :=
  fun c _ hheight object => record.ofValue_of_object object hheight rfl
    (c.name, c.order, c.description, ()) rfl fun _ _ entries => Choice.fits entries

theorem Builtin.accepts : Builtin.record.decoder.Accepts origin height Builtin.Encoded :=
  fun b _ hheight object => record.ofValue_of_object object hheight rfl
    (b.name, b.order, b.description, ()) rfl fun _ _ entries => Choice.fits entries

theorem ConstantValue.accepts :
    ConstantValue.record.decoder.Accepts origin height ConstantValue.Encoded :=
  fun c _ hheight object => record.ofValue_of_object object hheight rfl
    (c.name, c.order, c.description, ()) rfl fun _ _ entries => Choice.fits entries

theorem Global.accepts : Global.record.decoder.Accepts origin height Global.Encoded := by
  intro g v hheight object
  refine record.ofValue_of_object object hheight rfl (g.name, g.order, g.description, g.type, ()) rfl
    fun members below entries => ?_
  simp only [List.forall_mem_cons] at entries
  obtain ⟨name, order, description, type, -⟩ := entries
  exact ⟨name.found below accepts_text, order.found_default below accepts_natural,
    description.found_default below accepts_text, type.found below TypeExpr.accepts, trivial⟩

/-- No tree of constants is higher than the value that encodes it. -/
theorem Constant.decoderTo_accepts :
    (Constant.decoderTo height).Accepts origin height Constant.Encoded := by
  induction height with
  | zero => exact fun _ v hheight => absurd v.height_pos (by omega)
  | succ height ih =>
    rintro ⟨name, order, description, values, subkeys⟩ v hheight object
    cases v with
    | object members =>
      obtain ⟨nodup, entries⟩ := object
      have below : heightOfMembers members ≤ height := Nat.le_of_succ_le_succ hheight
      simp only [array_constants, List.forall_mem_cons] at entries
      obtain ⟨hname, horder, hdescription, hvalues, hsubkeys, -⟩ := entries
      exact (record (decoderTo height)).ofMembers_of_fits nodup rfl
        (name, order, description, values, subkeys, ())
        ⟨hname.found below accepts_text, horder.found_default below accepts_natural,
          hdescription.found_default below accepts_text,
          hvalues.found_default below ConstantValue.accepts.list,
          hsubkeys.found_default below ih.list, trivial⟩
    | _ => cases object

theorem Constant.accepts : Constant.decoder.Accepts origin (deepest + 1) Constant.Encoded :=
  Constant.decoderTo_accepts

end LuaStubs.Api
