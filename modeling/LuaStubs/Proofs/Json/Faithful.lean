import LuaStubs.Proofs.Json.Loops
import LuaStubs.Proofs.Json.Slots

/-! What a decoder takes out of a tree it also reads from each text of the tree. The combinators
keep this, so that documents can be decoded as trees in proofs. -/

namespace LuaStubs.Json

open Outcome

namespace Decoder

variable {α : Type}

def Faithful (d : Decoder α) : Prop :=
  ∀ v a, d.ofValue .buffer v = .ok a → ∀ text, v.Written text → ∀ limits : Limits,
    v.nesting ≤ limits.depth → Reads limits.length (d.read limits) text a

theorem parse_of_reads {d : Decoder α} {source : String} {before text after : List Char} {a : α}
    (hsource : source.toList = before ++ (text ++ after)) (hbefore : Blank before) (hafter : Blank after)
    (reads : Reads source.toList.length (d.read ⟨source.toList.length, deepest⟩) text a) :
    d.parse source = .ok a := by
  have read := reads before after hbefore hafter.ends_alone (Nat.le_of_eq (congrArg _ hsource.symm))
  rw [← hsource] at read
  have nothing : skipBlank after = [] := by
    rw [← List.append_nil after, skipBlank_append hafter]
    rfl
  refine mapError_eq_ok.mpr (bind_eq_ok.mpr ⟨_, read, ?_⟩)
  simp only [nothing]
  rfl

theorem faithful_scalar {expected : String} {accept : Value → Except Reason α}
    (h : ∀ v a, accept v = .ok a → v.isScalar = true) : (scalar expected accept).Faithful := by
  intro v a accepted text written limits _ before rest hbefore hrest _
  have accepted : accept v = .ok a := accepted
  have scalar := h v a accepted
  have read := readScalar_append written scalar hrest
  have skip := skipBlank_value written hbefore rest
  obtain ⟨c, others, rfl, hc⟩ := v.exists_head written
  obtain ⟨bracket, brace⟩ := v.head_of_scalar scalar hc
  rw [List.cons_append] at read skip
  simp only [Decoder.scalar, List.cons_append, skip]
  split
  next heq => exact absurd (List.cons.inj heq).1 bracket
  next heq => exact absurd (List.cons.inj heq).1 brace
  next =>
    refine bind_eq_ok.mpr ⟨_, read, ?_⟩
    simp only [accepted]
    rfl

theorem faithful_text : text.Faithful :=
  faithful_scalar fun v _ h => by cases v <;> first | rfl | cases h

theorem faithful_flag : flag.Faithful :=
  faithful_scalar fun v _ h => by cases v <;> first | rfl | cases h

theorem faithful_natural {bits : Nat} {expected : String} :
    (scalar expected (acceptNatural bits expected)).Faithful :=
  faithful_scalar fun v _ h => by cases v <;> first | rfl | cases h

theorem allOf_eq_ok {item : Value → Except Reason α} {values : List Value} {items : List α} :
    allOf item values = .ok items ↔ List.Forall₂ (fun v a => item v = .ok a) values items := by
  induction values generalizing items with
  | nil =>
    cases items with
    | nil => exact ⟨fun _ => .nil, fun _ => rfl⟩
    | cons a items => exact ⟨nofun, nofun⟩
  | cons v values ih =>
    rw [allOf]
    simp only [bind_eq_ok, pure_eq_ok]
    constructor
    · rintro ⟨a, ha, others, hothers, rfl⟩
      exact .cons ha (ih.mp hothers)
    · rintro (_ | ⟨ha, hothers⟩)
      exact ⟨_, ha, _, ih.mpr hothers, rfl⟩

theorem Faithful.items {d : Decoder α} (faithful : d.Faithful) {values : List Value} {items : List α}
    (h : List.Forall₂ (fun v a => d.ofValue .buffer v = .ok a) values items)
    {texts : List (List Char)} (written : WrittenItems values texts) {limits : Limits}
    (hdepth : nestingOfItems values ≤ limits.depth) :
    List.Forall₂ (fun a text => Begins text ∧ Reads limits.length (d.read limits) text a) items
      texts := by
  induction h generalizing texts with
  | nil =>
    cases written
    exact .nil
  | @cons v a values items own _ ih =>
    obtain ⟨text, others, hv, hothers, rfl⟩ := written
    rw [nestingOfItems] at hdepth
    exact .cons ⟨v.begins hv, faithful v a own text hv limits (by omega)⟩ (ih hothers (by omega))

theorem Faithful.list {d : Decoder α} (faithful : d.Faithful) : d.list.Faithful := by
  intro v items h text written limits hdepth before rest hbefore _ hlength
  cases v with
  | array values =>
    obtain ⟨texts, inner, hitems, joined, rfl⟩ := written
    obtain ⟨length, depth⟩ := limits
    cases depth with
    | zero => cases hdepth
    | succ depth =>
      simp only [List.length_append, List.length_cons, List.cons_append, List.append_assoc,
        List.nil_append] at hlength ⊢
      have read : readItems (d.read ⟨length, depth⟩) length true (inner ++ ']' :: rest) =
          .ok (items, ']' :: rest) := by
        have below : nestingOfItems values ≤ depth := Nat.le_of_succ_le_succ hdepth
        apply readItems_joined (faithful.items (allOf_eq_ok.mp h) hitems below) joined
        · simp only [List.length_append, List.length_cons]
          omega
        · simp only [List.length_append, List.length_cons]
          omega
      simp only [Decoder.list, skipBlank_append hbefore]
      exact insideList_eq_ok read
  | _ => cases h

theorem null_of_starts {v : Value} (h : v.starts 'n' = true) : v = .null := by
  cases v with
  | null => rfl
  | bool b => cases b <;> cases h
  | _ => cases h

theorem Faithful.optional {d : Decoder α} (faithful : d.Faithful) : d.optional.Faithful := by
  intro v a h text written limits hdepth before rest hbefore hrest hlength
  have skip := skipBlank_value written hbefore rest
  obtain ⟨c, others, rfl, hc⟩ := v.exists_head written
  rw [List.cons_append] at skip
  simp only [Decoder.optional, List.cons_append, skip]
  split
  next heq =>
    obtain ⟨rfl, rfl⟩ := List.cons.inj heq
    cases null_of_starts hc
    cases h
    cases written
    exact map_eq_ok.mpr ⟨_, takeLiteral_append ['u', 'l', 'l'] rest, rfl⟩
  next hnull =>
    have item : ∃ b, d.ofValue .buffer v = .ok b ∧ some b = a := by
      cases v with
      | null =>
        simp only [Value.starts, decide_eq_true_eq] at hc
        exact absurd (by rw [hc]) (hnull (others ++ rest))
      | _ => exact map_eq_ok.mp h
    obtain ⟨b, hb, rfl⟩ := item
    have shorter : ([] ++ (c :: others ++ rest)).length ≤ limits.length := by
      simp only [List.length_append, List.nil_append] at hlength ⊢
      omega
    have read := faithful v b hb _ written limits hdepth [] rest blank_nil hrest shorter
    exact map_eq_ok.mpr ⟨_, read, rfl⟩

theorem faithful_ofTree {accept : Value → Except Reason α} : (ofTree accept).Faithful := by
  intro v a accepted text written limits hdepth before rest hbefore hrest hlength
  refine bind_eq_ok.mpr ⟨_, readValue_written written hdepth before rest hbefore hrest hlength, ?_⟩
  have accepted : accept v = .ok a := accepted
  simp only [accepted]
  rfl

end Decoder

/-! Records. -/

namespace Fields

variable {αs : List Type} {limits : Limits}

/-- The decoders of all fields are faithful. -/
def Faithful {αs : List Type} : Fields αs → Prop
  | .nil => True
  | .cons _ decoder _ others => decoder.Faithful ∧ others.Faithful

theorem Faithful.readInto {fields : Fields αs} (faithful : fields.Faithful) {key : String} {v : Value}
    {slots next : Slots αs} (has : fields.has key = true)
    (put : fields.put .buffer key v slots = .ok next) {text colon : List Char}
    (written : v.Written text) (hcolon : Colon colon) (hdepth : v.nesting ≤ limits.depth)
    {rest : List Char} (hrest : Ends rest)
    (hlength : (colon ++ (text ++ rest)).length ≤ limits.length) :
    fields.readInto limits key (colon ++ (text ++ rest)) slots = .ok (next, rest) := by
  induction fields with
  | nil => cases has
  | cons own decoder absent others ih =>
    obtain ⟨slot, slots⟩ := slots
    by_cases hkey : key = own
    · subst hkey
      obtain ⟨rfl, a, ha, rfl⟩ := put_own.mp put
      obtain ⟨after, hafter, take, shorter⟩ := takeColon_append hcolon (text ++ rest)
      have read := faithful.1 v a ha text written limits hdepth after rest hafter hrest
        (Nat.le_trans shorter hlength)
      rw [Fields.readInto, if_pos rfl]
      exact bind_eq_ok.mpr ⟨_, take, bind_eq_ok.mpr ⟨_, read, rfl⟩⟩
    · obtain ⟨slots', hothers, rfl⟩ := (put_other hkey).mp put
      have has : others.has key = true := by
        rcases Bool.or_eq_true_iff.mp has with h | h
        · exact absurd (of_decide_eq_true h) hkey
        · exact h
      have read := ih faithful.2 has hothers
      cases slot with
      | none =>
        rw [Fields.readInto, if_neg hkey]
        exact bind_eq_ok.mpr ⟨_, read, rfl⟩
      | some a =>
        rw [Fields.readInto, if_neg hkey]
        exact bind_eq_ok.mpr ⟨_, read, rfl⟩

theorem Faithful.readList {fields : Fields αs} (faithful : fields.Faithful) {index : Nat}
    {tooShort : String} {items : List Value} {values : Values αs}
    (h : fields.ofList .buffer index tooShort items = .ok (values, [])) {texts : List (List Char)}
    (written : WrittenItems items texts) (hdepth : nestingOfItems items ≤ limits.depth)
    {inner : List Char} (joined : Joined (index == 0) texts inner) {rest : List Char}
    (hlength : (inner ++ ']' :: rest).length ≤ limits.length) :
    ∃ blank, Blank blank ∧ fields.readList limits index tooShort (inner ++ ']' :: rest) =
      .ok (values, blank ++ ']' :: rest) := by
  induction fields generalizing index items texts inner with
  | nil =>
    cases h
    cases written
    exact ⟨inner, joined, rfl⟩
  | cons key decoder absent others ih =>
    cases items with
    | nil =>
      cases written
      cases absent with
      | none => cases h
      | some a =>
        obtain ⟨⟨rest', left⟩, hothers, h⟩ := bind_eq_ok.mp h
        cases h
        have empty : Joined (index + 1 == 0) [] [] := blank_nil
        obtain ⟨blank, hblank, read⟩ := ih faithful.2 hothers rfl (Nat.zero_le _) empty (by
          simp only [List.length_append, List.length_cons, List.nil_append] at hlength ⊢
          omega)
        exact ⟨blank, hblank, bind_eq_ok.mpr ⟨_, nextItem_end joined rest,
          bind_eq_ok.mpr ⟨_, read, rfl⟩⟩⟩
    | cons v items =>
      obtain ⟨a, ha, h⟩ := bind_eq_ok.mp h
      obtain ⟨⟨rest', left⟩, hothers, h⟩ := bind_eq_ok.mp h
      cases h
      obtain ⟨text, tail, hv, htail, rfl⟩ := written
      obtain ⟨separator, more, hseparator, hmore, rfl⟩ := joined
      rw [nestingOfItems] at hdepth
      simp only [List.append_assoc, List.length_append, List.length_cons] at hlength ⊢
      have later : Joined (index + 1 == 0) tail more := hmore
      obtain ⟨blank, hblank, read⟩ := ih faithful.2 hothers htail (by omega) later (by
        simp only [List.length_append, List.length_cons]
        omega)
      have item := faithful.1 v a ha text hv limits (by omega) [] (more ++ ']' :: rest) blank_nil
        (hmore.ends (ends_bracket rest)) (by
          simp only [List.nil_append, List.length_append, List.length_cons]
          omega)
      exact ⟨blank, hblank, bind_eq_ok.mpr ⟨_, nextItem_item hseparator (v.begins hv),
        bind_eq_ok.mpr ⟨_, item, bind_eq_ok.mpr ⟨_, read, rfl⟩⟩⟩⟩

end Fields

namespace Record

variable {ρ : Type} {r : Record ρ} {limits : Limits}

theorem readMember_known (faithful : r.fields.Faithful) {key : String} {v : Value}
    {slots next : Slots r.types} (has : r.fields.has key = true)
    (put : r.fields.put .buffer key v slots = .ok next) {text colon : List Char}
    (written : v.Written text) (hdepth : v.nesting ≤ limits.depth) (hcolon : Colon colon)
    {rest : List Char} (hrest : Ends rest)
    (hlength : (colon ++ (text ++ rest)).length ≤ limits.length) :
    r.readMember limits slots key (colon ++ (text ++ rest)) = .ok (next, rest) := by
  rw [readMember, if_pos has]
  exact faithful.readInto has put written hcolon hdepth hrest hlength

theorem readMember_other {key : String} (has : r.fields.has key = false) (slots : Slots r.types)
    {text colon : List Char} (formed : Formed text) (hcolon : Colon colon) {rest : List Char}
    (hrest : Ends rest) (hlength : (colon ++ (text ++ rest)).length ≤ limits.length) :
    r.readMember limits slots key (colon ++ (text ++ rest)) = .ok (slots, rest) := by
  obtain ⟨after, hafter, take, shorter⟩ := takeColon_append hcolon (text ++ rest)
  have skip := skipValue_formed formed limits after rest hafter hrest (Nat.le_trans shorter hlength)
  rw [readMember, has]
  exact bind_eq_ok.mpr ⟨_, take, bind_eq_ok.mpr ⟨_, skip, rfl⟩⟩

theorem run_readMember (faithful : r.fields.Faithful) {members : List (String × Value)}
    {slots last : Slots r.types} (h : r.fields.putAll .buffer members slots = .ok last)
    {texts : List (List Char)} (written : WrittenMembers members texts)
    (hdepth : nestingOfMembers members ≤ limits.depth) :
    MemberRun limits.length (r.readMember limits) slots texts last := by
  induction members generalizing slots texts with
  | nil =>
    cases h
    cases written
    exact .done _
  | cons member members ih =>
    obtain ⟨key, v⟩ := member
    obtain ⟨next, hput, h⟩ := bind_eq_ok.mp h
    obtain ⟨name, colon, text, others, hname, hcolon, hv, hothers, rfl⟩ := written
    rw [nestingOfMembers] at hdepth
    refine .step hname ?_ (ih h hothers (by omega))
    intro rest hrest hlength
    rw [List.append_assoc] at hlength ⊢
    cases has : r.fields.has key with
    | true => exact readMember_known faithful has hput hv (by omega) hcolon hrest hlength
    | false =>
      rw [Fields.put_of_not_has has] at hput
      cases hput
      exact readMember_other has slots (v.formed_of_written text hv) hcolon hrest hlength

theorem reads_object {length depth : Nat} {texts : List (List Char)} {inner : List Char}
    {slots : Slots r.types} {values : Values r.types} (joined : Joined true texts inner)
    (run : MemberRun length (r.readMember ⟨length, depth⟩) r.fields.vacant texts slots)
    (hvalues : r.fields.complete slots = .ok values) :
    Reads length (r.read ⟨length, depth + 1⟩) ('\x7b' :: (inner ++ ['\x7d'])) (r.build values) := by
  intro before rest hbefore _ hlength
  simp only [List.length_append, List.length_cons, List.cons_append, List.append_assoc,
    List.nil_append] at hlength ⊢
  have below : (inner ++ '\x7d' :: rest).length < length := by
    simp only [List.length_append, List.length_cons]
    omega
  have members := readMembers_joined run joined below (Nat.le_of_lt below)
  simp only [read, skipBlank_append hbefore]
  apply insideObject_eq_ok
  refine bind_eq_ok.mpr ⟨_, members, ?_⟩
  simp only [hvalues]
  rfl

theorem reads_list (faithful : r.fields.Faithful) {items : List Value} {a : ρ}
    (h : r.ofItems .buffer items = .ok a) {texts : List (List Char)} {inner : List Char}
    (written : WrittenItems items texts) (joined : Joined true texts inner)
    (hdepth : nestingOfItems items ≤ limits.depth) {rest : List Char}
    (hlength : (inner ++ ']' :: rest).length ≤ limits.length) :
    (insideList (r.fields.readList limits 0 r.tooShort) (inner ++ ']' :: rest)).map
      (fun (values, rest) => (r.build values, rest)) = .ok (a, rest) := by
  obtain ⟨⟨values, left⟩, hlist, h⟩ := bind_eq_ok.mp h
  cases left with
  | cons v left => cases h
  | nil =>
    cases h
    obtain ⟨blank, hblank, read⟩ := faithful.readList hlist written hdepth joined hlength
    have close : closeList (blank ++ ']' :: rest) = .ok rest := by
      rw [closeList, skipBlank_append hblank]
      rfl
    exact map_eq_ok.mpr ⟨_, bind_eq_ok.mpr ⟨_, mapError_eq_ok.mpr read,
      bind_eq_ok.mpr ⟨_, close, rfl⟩⟩, rfl⟩

theorem faithful_decoder (faithful : r.fields.Faithful) : r.decoder.Faithful := by
  intro v a h text written limits hdepth before rest hbefore hrest hlength
  obtain ⟨length, depth⟩ := limits
  cases v with
  | array items =>
    obtain ⟨texts, inner, hitems, joined, rfl⟩ := written
    cases depth with
    | zero => cases hdepth
    | succ depth =>
      have below : nestingOfItems items ≤ depth := Nat.le_of_succ_le_succ hdepth
      simp only [List.length_append, List.length_cons, List.cons_append, List.append_assoc,
        List.nil_append] at hlength ⊢
      simp only [decoder, read, skipBlank_append hbefore]
      apply @reads_list _ _ ⟨length, depth⟩ faithful _ _ h _ _ hitems joined below
      simp only [List.length_append, List.length_cons]
      omega
  | object members =>
    obtain ⟨texts, inner, hmembers, joined, rfl⟩ := written
    cases depth with
    | zero => cases hdepth
    | succ depth =>
      have below : nestingOfMembers members ≤ depth := Nat.le_of_succ_le_succ hdepth
      obtain ⟨slots, hput, h⟩ := bind_eq_ok.mp h
      obtain ⟨values, hvalues, h⟩ := bind_eq_ok.mp h
      cases h
      have run := @run_readMember _ _ ⟨length, depth⟩ faithful _ _ _ hput _ hmembers below
      exact reads_object joined run hvalues before rest hbefore hrest hlength
  | _ => cases h

end Record

namespace OpenRecord

variable {ρ : Type} {r : OpenRecord ρ} {limits : Limits}

/-- Other members are set aside, the last one first. -/
theorem run_readMember (faithful : r.fields.Faithful) {members : List (String × Value)}
    {slots last : Slots r.types} (h : r.fields.putAll .buffer members slots = .ok last)
    {texts : List (List Char)} (written : WrittenMembers members texts)
    (hdepth : nestingOfMembers members ≤ limits.depth) (aside : List (String × Value)) :
    MemberRun limits.length (r.readMember limits) (slots, aside) texts
      (last, (members.filter fun (key, _) => !r.fields.has key).reverse ++ aside) := by
  induction members generalizing slots texts aside with
  | nil =>
    cases h
    cases written
    exact .done _
  | cons member members ih =>
    obtain ⟨key, v⟩ := member
    obtain ⟨next, hput, h⟩ := bind_eq_ok.mp h
    obtain ⟨name, colon, text, others, hname, hcolon, hv, hothers, rfl⟩ := written
    rw [nestingOfMembers] at hdepth
    cases has : r.fields.has key with
    | true =>
      have later := ih h hothers (by omega) aside
      rw [List.filter_cons_of_neg (by simp [has])]
      refine .step hname ?_ later
      intro rest hrest hlength
      rw [List.append_assoc] at hlength ⊢
      simp only [readMember, has, if_true]
      exact map_eq_ok.mpr ⟨_, faithful.readInto has hput hv hcolon (by omega) hrest hlength, rfl⟩
    | false =>
      rw [Fields.put_of_not_has has] at hput
      cases hput
      have later := ih h hothers (by omega) ((key, v) :: aside)
      rw [List.filter_cons_of_pos (by simp [has]), List.reverse_cons, List.append_assoc]
      refine .step hname ?_ later
      intro rest hrest hlength
      rw [List.append_assoc] at hlength ⊢
      obtain ⟨after, hafter, take, shorter⟩ := takeColon_append hcolon (text ++ rest)
      have read := readValue_written hv (show v.nesting ≤ limits.depth by omega) after rest hafter
        hrest (Nat.le_trans shorter hlength)
      simp only [readMember, has, Bool.false_eq_true, if_false]
      exact map_eq_ok.mpr ⟨_, bind_eq_ok.mpr ⟨_, take, bind_eq_ok.mpr ⟨_, read, rfl⟩⟩, rfl⟩

theorem faithful_decoder (faithful : r.fields.Faithful) : r.decoder.Faithful := by
  intro v a h text written limits hdepth before rest hbefore _ hlength
  obtain ⟨length, depth⟩ := limits
  cases v with
  | object members =>
    obtain ⟨texts, inner, hmembers, joined, rfl⟩ := written
    cases depth with
    | zero => cases hdepth
    | succ depth =>
      have below : nestingOfMembers members ≤ depth := Nat.le_of_succ_le_succ hdepth
      obtain ⟨slots, hput, h⟩ := bind_eq_ok.mp h
      have run := @run_readMember _ _ ⟨length, depth⟩ faithful _ _ _ hput _ hmembers below []
      simp only [List.length_append, List.length_cons, List.cons_append, List.append_assoc,
        List.nil_append] at hlength ⊢
      have hinner : (inner ++ '\x7d' :: rest).length < length := by
        simp only [List.length_append, List.length_cons]
        omega
      have read := readMembers_joined run joined hinner (Nat.le_of_lt hinner)
      simp only [decoder, OpenRecord.read, skipBlank_append hbefore]
      apply insideObject_eq_ok
      refine bind_eq_ok.mpr ⟨_, read, ?_⟩
      simp only [List.append_nil, List.reverse_reverse, h]
      rfl
  | _ => cases h

end OpenRecord

end LuaStubs.Json
