import LuaStubs.Proofs.Arrangement.Sorting
import LuaStubs.Proofs.Catalogs

/-! The contents of a catalog. Of several entries with one name the last is found, under the place
at which the name came first; of a concept that doubles as an array the type of its first field. -/

namespace LuaStubs

variable {α β : Type}

/-- The first of the members that have a property. -/
def FirstWith (p : α → Prop) (xs : List α) (a : α) : Prop :=
  ∃ before after, xs = before ++ a :: after ∧ p a ∧ ∀ b ∈ before, ¬p b

/-- The last of the members that have a property. -/
def LastWith (p : α → Prop) (xs : List α) (a : α) : Prop :=
  ∃ before after, xs = before ++ a :: after ∧ p a ∧ ∀ b ∈ after, ¬p b

/-- The member with the least key, and of several such the one that comes first. -/
def FirstLeast (key : α → Nat) (xs : List α) (a : α) : Prop :=
  ∃ before after, xs = before ++ a :: after ∧ (∀ b ∈ before, key a < key b) ∧
    ∀ b ∈ after, key a ≤ key b

/-! The first and the last. -/

theorem find?_eq_some {p : α → Bool} {xs : List α} {a : α} :
    xs.find? p = some a ↔ FirstWith (p · = true) xs a := by
  rw [List.find?_eq_some_iff_append]
  constructor
  · rintro ⟨ha, before, after, rfl, none⟩
    exact ⟨before, after, rfl, ha, fun b hb => by simpa using none b hb⟩
  · rintro ⟨before, after, rfl, ha, none⟩
    exact ⟨ha, before, after, rfl, fun b hb => by simpa using none b hb⟩

theorem firstWith_reverse {p : α → Prop} {xs : List α} {a : α} :
    FirstWith p xs.reverse a ↔ LastWith p xs a := by
  constructor
  · rintro ⟨before, after, hxs, ha, none⟩
    refine ⟨after.reverse, before.reverse, ?_, ha, fun b hb => none b (List.mem_reverse.mp hb)⟩
    rw [← List.reverse_reverse xs, hxs]
    simp
  · rintro ⟨before, after, rfl, ha, none⟩
    exact ⟨after.reverse, before.reverse, by simp, ha, fun b hb => none b (List.mem_reverse.mp hb)⟩

theorem LastWith.congr {p q : α → Prop} (same : ∀ a, p a ↔ q a) {xs : List α} {a : α} :
    LastWith p xs a ↔ LastWith q xs a := by
  rw [funext fun a => propext (same a)]

theorem exists_firstWith {p : α → Prop} {xs : List α} (h : ∃ a ∈ xs, p a) :
    ∃ a, FirstWith p xs a := by
  classical
  obtain ⟨a, hmem, ha⟩ := h
  have found : (xs.find? (p ·)).isSome = true :=
    List.find?_isSome.mpr ⟨a, hmem, decide_eq_true ha⟩
  obtain ⟨b, hb⟩ := Option.isSome_iff_exists.mp found
  refine ⟨b, ?_⟩
  simpa using find?_eq_some.mp hb

theorem exists_lastWith {p : α → Prop} {xs : List α} (h : ∃ a ∈ xs, p a) : ∃ a, LastWith p xs a := by
  obtain ⟨a, hmem, ha⟩ := h
  obtain ⟨b, hb⟩ := exists_firstWith ⟨a, List.mem_reverse.mpr hmem, ha⟩
  exact ⟨b, firstWith_reverse.mp hb⟩

theorem LastWith.of_mem {p : α → Prop} {xs : List α} {a : α} (h : LastWith p xs a) :
    a ∈ xs ∧ p a := by
  obtain ⟨before, after, rfl, ha, -⟩ := h
  exact ⟨by simp, ha⟩

/-! The least. -/

section

variable {key : α → Nat}

theorem firstLeast_cons {x a : α} {xs : List α} :
    FirstLeast key (x :: xs) a ↔
      (a = x ∧ ∀ b ∈ xs, key x ≤ key b) ∨ (key a < key x ∧ FirstLeast key xs a) := by
  constructor
  · rintro ⟨before, after, hxs, above, least⟩
    cases before with
    | nil =>
      obtain ⟨rfl, rfl⟩ := List.cons.inj hxs
      exact .inl ⟨rfl, least⟩
    | cons first before =>
      obtain ⟨rfl, rfl⟩ := List.cons.inj hxs
      obtain ⟨hfirst, above⟩ := List.forall_mem_cons.mp above
      exact .inr ⟨hfirst, before, after, rfl, above, least⟩
  · rintro (⟨rfl, least⟩ | ⟨hfirst, before, after, rfl, above, least⟩)
    · exact ⟨[], xs, rfl, by simp, least⟩
    · exact ⟨x :: before, after, rfl, List.forall_mem_cons.mpr ⟨hfirst, above⟩, least⟩

theorem FirstLeast.le {xs : List α} {a : α} (h : FirstLeast key xs a) : ∀ b ∈ xs, key a ≤ key b := by
  obtain ⟨before, after, rfl, above, least⟩ := h
  intro b hb
  rcases List.mem_append.mp hb with hb | hb
  · exact Nat.le_of_lt (above b hb)
  · rcases List.mem_cons.mp hb with rfl | hb
    · exact Nat.le_refl _
    · exact least b hb

theorem head?_insertOn (x : α) (xs : List α) :
    (insertOn key x xs).head? =
      some (match xs.head? with
        | none => x
        | some b => if key x ≤ key b then x else b) := by
  cases xs with
  | nil => rfl
  | cons b rest =>
    rw [insertOn]
    by_cases h : key x ≤ key b <;> simp [h]

theorem head?_sortOn {xs : List α} {a : α} :
    (sortOn key xs).head? = some a ↔ FirstLeast key xs a := by
  induction xs generalizing a with
  | nil => simp [sortOn, FirstLeast]
  | cons x rest ih =>
    rw [sortOn, head?_insertOn, firstLeast_cons, Option.some_inj]
    cases hhead : (sortOn key rest).head? with
    | none =>
      have hrest : rest = [] := by
        have hlength := (sortOn_perm key rest).length_eq
        rw [List.head?_eq_none_iff.mp hhead] at hlength
        exact List.length_eq_zero_iff.mp hlength.symm
      subst hrest
      simp [FirstLeast, eq_comm]
    | some b =>
      have hb := ih.mp hhead
      have only {c : α} : FirstLeast key rest c ↔ b = c := by rw [← ih, hhead, Option.some_inj]
      rw [only]
      by_cases below : key x ≤ key b
      · have least : ∀ c ∈ rest, key x ≤ key c := fun c hc => Nat.le_trans below (hb.le c hc)
        simp only [below, if_true]
        grind
      · have hmem : b ∈ rest := by
          obtain ⟨before, after, rfl, -⟩ := hb
          simp
        simp only [below, if_false]
        grind

theorem exists_firstLeast (key : α → Nat) {xs : List α} (h : xs ≠ []) : ∃ a, FirstLeast key xs a := by
  obtain ⟨x, rest, rfl⟩ := List.exists_cons_of_ne_nil h
  exact ⟨_, head?_sortOn.mp (head?_insertOn x _)⟩

end

/-! Entries under their names. -/

namespace NameMap

theorem get?_ofList_filterMap {keyed? : β → Option (String × α)} {xs : List β} {name : String}
    {a : α} :
    (ofList (xs.filterMap keyed?)).get? name = some a ↔
      ∃ x, LastWith (fun x => ∃ b, keyed? x = some (name, b)) xs x ∧ keyed? x = some (name, a) := by
  have named (x : β) :
      ((keyed? x).any (·.1 == name) = true) ↔ ∃ b, keyed? x = some (name, b) := by
    cases keyed? x with
    | none => simp
    | some entry =>
      obtain ⟨other, b⟩ := entry
      simp
  have found : (ofList (xs.filterMap keyed?)).get? name =
      ((xs.reverse.find? fun x => (keyed? x).any (·.1 == name)).bind keyed?).map (·.2) := by
    rw [ofList, get?_putAll, ← List.filterMap_reverse, List.find?_filterMap, get?, Option.or_none]
  rw [found, Option.map_eq_some_iff]
  constructor
  · rintro ⟨entry, hentry, rfl⟩
    obtain ⟨x, hx, hentry⟩ := Option.bind_eq_some_iff.mp hentry
    have last := (LastWith.congr named).mp (firstWith_reverse.mp (find?_eq_some.mp hx))
    obtain ⟨b, hb⟩ := last.of_mem.2
    refine ⟨x, last, ?_⟩
    rw [hentry] at hb ⊢
    cases hb
    rfl
  · rintro ⟨x, last, hentry⟩
    have hx := find?_eq_some.mpr (firstWith_reverse.mpr ((LastWith.congr named).mpr last))
    exact ⟨_, Option.bind_eq_some_iff.mpr ⟨x, hx, hentry⟩, rfl⟩

/-- Entries under their names: each name once, at the place where it comes first, with the last entry
that has it. -/
structure Files (name : α → String) (xs : List α) (map : NameMap α) : Prop where
  names : map.map (·.1) = (xs.map name).eraseDups
  once : (map.map (·.1)).Nodup
  entry : ∀ n a, map.get? n = some a ↔ LastWith (name · = n) xs a

theorem files_ofList (name : α → String) (xs : List α) :
    Files name xs (ofList (xs.map fun a => (name a, a))) where
  names := by
    rw [keys_ofList, distinct_eq_eraseDups, List.map_map]
    rfl
  once := by
    rw [keys_ofList]
    exact nodup_distinctAfter [] _
  entry n a := by
    have hentries : (xs.map fun a => (name a, a)) = xs.filterMap fun a => some (name a, a) := by
      rw [List.filterMap_eq_map']
    have named (x : α) : (∃ b, some (name x, x) = some (n, b)) ↔ name x = n := by simp
    rw [hentries, get?_ofList_filterMap]
    constructor
    · rintro ⟨x, last, same⟩
      cases same
      exact (LastWith.congr named).mp last
    · intro last
      exact ⟨a, (LastWith.congr named).mpr last, by rw [last.of_mem.2]⟩

end NameMap

/-! Globals and elements. -/

/-- A global whose type is not a plain name. -/
def Api.Global.Complex (g : Api.Global) : Prop :=
  ∀ type, g.type ≠ .named type

/-- A concept that may also be written as an array and has a field. -/
def Api.Concept.Fielded (c : Api.Concept) : Prop :=
  ∃ shape, c.kind = .tableOrArray shape ∧ shape.parameters ≠ []

def Api.Global.keyed? (g : Api.Global) : Option (String × Api.Global) :=
  match g.type with
  | .named type => some (type, g)
  | _ => none

theorem Api.Global.keyed?_eq_some {g other : Api.Global} {type : String} :
    g.keyed? = some (type, other) ↔ g.type = .named type ∧ other = g := by
  unfold keyed?
  cases g.type <;> simp [eq_comm]

theorem Api.Concept.elementType?_eq_some {c : Api.Concept} {type : Api.TypeExpr} :
    c.elementType? = some type ↔ ∃ shape, c.kind = .tableOrArray shape ∧
      ∃ field, FirstLeast (·.order) shape.parameters field ∧ field.type = type := by
  unfold elementType? Api.Shape.firstType?
  simp only [← head?_sortOn]
  cases c.kind <;> simp

theorem Api.Concept.exists_elementType? {c : Api.Concept} :
    (∃ type, c.elementType? = some type) ↔ c.Fielded := by
  simp only [elementType?_eq_some, Fielded]
  constructor
  · rintro ⟨_, shape, hkind, field, ⟨before, after, hfields, -⟩, -⟩
    exact ⟨shape, hkind, by simp [hfields]⟩
  · rintro ⟨shape, hkind, hne⟩
    obtain ⟨field, hfield⟩ := exists_firstLeast (·.order) hne
    exact ⟨field.type, shape, hkind, field, hfield, rfl⟩

namespace Catalog

theorem exposed_of_complex {g : Api.Global} (h : g.Complex) (rest : List Api.Global) :
    exposed (g :: rest) = .error (.complexGlobal g.name) := by
  rw [exposed]
  cases htype : g.type with
  | named type => exact absurd htype (h type)
  | _ => rfl

theorem exposed_of_named {g : Api.Global} {type : String} (h : g.type = .named type)
    (rest : List Api.Global) :
    exposed (g :: rest) = (exposed rest).map fun others => (type, g) :: others := by
  rw [exposed, h]
  rfl

theorem exposed_eq_ok {globals : List Api.Global} {entries : List (String × Api.Global)}
    (h : exposed globals = .ok entries) : entries = globals.filterMap Api.Global.keyed? := by
  induction globals generalizing entries with
  | nil =>
    cases h
    rfl
  | cons g rest ih =>
    obtain ⟨type, others, htype, hothers, rfl⟩ := exposed_cons.mp h
    have hentry : g.keyed? = some (type, g) := Api.Global.keyed?_eq_some.mpr ⟨htype, rfl⟩
    rw [List.filterMap_cons_some hentry, ← ih hothers]

theorem exposed_eq_error {globals : List Api.Global} {g : Api.Global}
    (h : FirstWith Api.Global.Complex globals g) :
    exposed globals = .error (.complexGlobal g.name) := by
  obtain ⟨before, after, rfl, complex, plain⟩ := h
  induction before with
  | nil => exact exposed_of_complex complex after
  | cons first before ih =>
    obtain ⟨hfirst, hbefore⟩ := List.forall_mem_cons.mp plain
    obtain ⟨type, htype⟩ := Classical.not_forall_not.mp hfirst
    rw [List.cons_append, exposed_of_named htype, ih hbefore]
    rfl

/-- A catalog with the entries of a description, of each name the last, its globals by their types, and
the elements of its concepts that have any. -/
structure Holds (catalog : Catalog) (document : Api.Document) : Prop where
  classes : catalog.classes.Files (·.name) document.classes
  events : catalog.events.Files (·.name) document.events
  concepts : catalog.concepts.Files (·.name) document.concepts
  builtins : catalog.builtins.Files (·.name) document.builtins
  globals : ∀ type g, catalog.globals.get? type = some g ↔
    LastWith (·.type = .named type) document.globals g
  elements : ∀ name type, catalog.elements.get? name = some type ↔
    ∃ c shape field, LastWith (fun c => c.name = name ∧ c.Fielded) document.concepts c ∧
      c.kind = .tableOrArray shape ∧ FirstLeast (·.order) shape.parameters field ∧
        field.type = type
  others : ∀ name, catalog.elements.get? name = none ↔
    ∀ c ∈ document.concepts, c.name = name → ¬c.Fielded

theorem get?_globals (globals : List Api.Global) (type : String) (g : Api.Global) :
    (NameMap.ofList (globals.filterMap Api.Global.keyed?)).get? type = some g ↔
      LastWith (·.type = .named type) globals g := by
  have named (g : Api.Global) : (∃ other, g.keyed? = some (type, other)) ↔ g.type = .named type := by
    simp [Api.Global.keyed?_eq_some]
  rw [NameMap.get?_ofList_filterMap]
  constructor
  · rintro ⟨other, last, hentry⟩
    rw [(Api.Global.keyed?_eq_some.mp hentry).2]
    exact (LastWith.congr named).mp last
  · intro last
    exact ⟨g, (LastWith.congr named).mpr last,
      Api.Global.keyed?_eq_some.mpr ⟨last.of_mem.2, rfl⟩⟩

theorem get?_elements (concepts : List Api.Concept) (name : String) (type : Api.TypeExpr) :
    (NameMap.ofList (concepts.filterMap fun c =>
        c.elementType?.map fun type => (c.name, type))).get? name = some type ↔
      ∃ c shape field, LastWith (fun c => c.name = name ∧ c.Fielded) concepts c ∧
        c.kind = .tableOrArray shape ∧ FirstLeast (·.order) shape.parameters field ∧
          field.type = type := by
  have fielded (c : Api.Concept) :
      (∃ type, (c.elementType?.map fun type => (c.name, type)) = some (name, type)) ↔
        c.name = name ∧ c.Fielded := by
    rw [← Api.Concept.exists_elementType?]
    cases c.elementType? <;> simp
  rw [NameMap.get?_ofList_filterMap]
  constructor
  · rintro ⟨c, last, hentry⟩
    obtain ⟨found, hfound, same⟩ := Option.map_eq_some_iff.mp hentry
    cases same
    obtain ⟨shape, hkind, field, hfield⟩ := Api.Concept.elementType?_eq_some.mp hfound
    exact ⟨c, shape, field, (LastWith.congr fielded).mp last, hkind, hfield⟩
  · rintro ⟨c, shape, field, last, hkind, hfield⟩
    have hfound := Api.Concept.elementType?_eq_some.mpr ⟨shape, hkind, field, hfield⟩
    exact ⟨c, (LastWith.congr fielded).mpr last, by rw [hfound, Option.map_some, last.of_mem.2.1]⟩

theorem holds_ofEntries (document : Api.Document) :
    (ofEntries document (document.globals.filterMap Api.Global.keyed?)).Holds document where
  classes := NameMap.files_ofList (·.name) document.classes
  events := NameMap.files_ofList (·.name) document.events
  concepts := NameMap.files_ofList (·.name) document.concepts
  builtins := NameMap.files_ofList (·.name) document.builtins
  globals := get?_globals document.globals
  elements := get?_elements document.concepts
  others := by
    intro name
    constructor
    · intro none c hmem hname fielded
      have member : ∃ c ∈ document.concepts, c.name = name ∧ c.Fielded := ⟨c, hmem, hname, fielded⟩
      obtain ⟨last, hlast⟩ := exists_lastWith member
      obtain ⟨shape, hkind, hne⟩ := hlast.of_mem.2.2
      obtain ⟨field, hfield⟩ := exists_firstLeast (·.order) hne
      have found := (get?_elements document.concepts name field.type).mpr
        ⟨last, shape, field, hlast, hkind, hfield, rfl⟩
      cases none.symm.trans found
    · intro none
      refine Option.eq_none_iff_forall_ne_some.mpr fun type found => ?_
      obtain ⟨c, shape, field, hlast, -⟩ := (get?_elements document.concepts name type).mp found
      obtain ⟨hmem, hname, fielded⟩ := hlast.of_mem
      exact none c hmem hname fielded

/-- A catalog is refused for the first global whose type is not a plain name, and only for such a
global; otherwise it holds of each name the last entry, of each type the last global, and of each
concept that may be written as an array the type of its first field. -/
theorem ofDocument_contents (document : Api.Document) :
    ((∃ e, ofDocument document = .error e) ↔ ∃ g ∈ document.globals, g.Complex) ∧
    (∀ g, FirstWith Api.Global.Complex document.globals g →
      ofDocument document = .error (.complexGlobal g.name)) ∧
    ((∀ g ∈ document.globals, ¬g.Complex) →
      ∃ catalog, ofDocument document = .ok catalog ∧ catalog.Holds document) := by
  have refused : ∀ g, FirstWith Api.Global.Complex document.globals g →
      ofDocument document = .error (.complexGlobal g.name) := by
    intro g first
    rw [ofDocument, exposed_eq_error first]
    rfl
  have built (plain : ∀ g ∈ document.globals, ¬g.Complex) :
      ∃ catalog, ofDocument document = .ok catalog ∧ catalog.Holds document := by
    obtain ⟨entries, hentries⟩ := exists_exposed.mpr fun g hg =>
      Classical.not_forall_not.mp (plain g hg)
    refine ⟨_, ofDocument_eq_ok.mpr ⟨entries, hentries, rfl⟩, ?_⟩
    rw [exposed_eq_ok hentries]
    exact holds_ofEntries document
  refine ⟨⟨?_, ?_⟩, refused, built⟩
  · rintro ⟨e, he⟩
    refine Classical.byContradiction fun none => ?_
    obtain ⟨catalog, hok, -⟩ := built fun g hg complex => none ⟨g, hg, complex⟩
    cases he.symm.trans hok
  · intro complex
    obtain ⟨g, first⟩ := exists_firstWith complex
    exact ⟨_, refused g first⟩

end Catalog

/-! A description whose names come more than once. The last concept of three has no field, and of the
fields of the one before it two come first by their order. -/

def recurringClass (order : Nat) (name : String) : Api.Class :=
  ⟨name, order, ⟨"", [], [], [], []⟩, [], [], [], []⟩

def recurringConcept (fields : List Api.Parameter) : Api.Concept :=
  ⟨"Vector", 0, ⟨"", [], [], [], []⟩, .tableOrArray ⟨fields, [], none⟩⟩

def recurringFields : List Api.Parameter :=
  [⟨"z", 1, "", .named "int", true⟩, ⟨"x", 0, "", .named "double", false⟩,
    ⟨"y", 0, "", .named "float", false⟩]

def recurring (globals : List Api.Global) : Api.Document where
  classes := [recurringClass 0 "A", recurringClass 1 "B", recurringClass 2 "A"]
  events := []
  concepts := [recurringConcept [⟨"w", 0, "", .named "int", false⟩], recurringConcept recurringFields,
    recurringConcept []]
  builtins := []
  globals := [⟨"first", 0, "", .named "A"⟩, ⟨"second", 1, "", .named "A"⟩] ++ globals
  constants := []

theorem ofDocument_contents_recurring :
    (∃ catalog, Catalog.ofDocument (recurring []) = .ok catalog ∧
      catalog.classes.map (·.1) = ["A", "B"] ∧
      catalog.classes.get? "A" = some (recurringClass 2 "A") ∧
      catalog.globals.get? "A" = some ⟨"second", 1, "", .named "A"⟩ ∧
      catalog.elements.get? "Vector" = some (.named "double")) ∧
    Catalog.ofDocument (recurring [⟨"odd", 2, "", .array (.named "A")⟩, ⟨"odder", 3, "", .variant []⟩]) =
      .error (.complexGlobal "odd") := by
  have plain : ∀ g ∈ (recurring []).globals, ¬g.Complex := by
    simp [recurring, Api.Global.Complex]
  obtain ⟨catalog, built, holds⟩ := (Catalog.ofDocument_contents (recurring [])).2.2 plain
  have hclass : LastWith (·.name = "A") (recurring []).classes (recurringClass 2 "A") :=
    ⟨[recurringClass 0 "A", recurringClass 1 "B"], [], rfl, rfl, by simp⟩
  have hglobal : LastWith (·.type = .named "A") (recurring []).globals ⟨"second", 1, "", .named "A"⟩ :=
    ⟨[⟨"first", 0, "", .named "A"⟩], [], rfl, rfl, by simp⟩
  have hconcept : LastWith (fun c => c.name = "Vector" ∧ c.Fielded) (recurring []).concepts
      (recurringConcept recurringFields) := by
    refine ⟨[recurringConcept [⟨"w", 0, "", .named "int", false⟩]], [recurringConcept []], rfl,
      ⟨rfl, _, rfl, by simp [recurringFields]⟩, ?_⟩
    simp [recurringConcept, Api.Concept.Fielded]
  have hfield : FirstLeast (·.order) recurringFields ⟨"x", 0, "", .named "double", false⟩ :=
    ⟨[⟨"z", 1, "", .named "int", true⟩], [⟨"y", 0, "", .named "float", false⟩], rfl, by simp, by simp⟩
  have hodd : FirstWith Api.Global.Complex
      (recurring [⟨"odd", 2, "", .array (.named "A")⟩, ⟨"odder", 3, "", .variant []⟩]).globals
      ⟨"odd", 2, "", .array (.named "A")⟩ :=
    ⟨(recurring []).globals, [⟨"odder", 3, "", .variant []⟩], rfl, by simp [Api.Global.Complex],
      by simpa using plain⟩
  refine ⟨⟨catalog, built, ?_, (holds.classes.entry _ _).mpr hclass, (holds.globals _ _).mpr hglobal,
    (holds.elements _ _).mpr ⟨_, _, _, hconcept, rfl, hfield, rfl⟩⟩, ?_⟩
  · rw [holds.classes.names]
    decide
  · exact (Catalog.ofDocument_contents _).2.1 _ hodd

end LuaStubs
