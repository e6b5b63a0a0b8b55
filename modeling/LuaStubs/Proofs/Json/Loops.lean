import LuaStubs.Proofs.Json.Scalars
import Mathlib.Data.List.Forall2

/-! The loops over what arrays and objects contain, and whole values. What a text is read as does
not depend on the whitespace in it; of a value nobody asks for, only the end is found. -/

namespace LuaStubs.Json

open Outcome

/-- A text is read as something, also with whitespace before it and more of the text behind it. -/
def Reads {α : Type} (length : Nat) (read : List Char → Reading α) (text : List Char) (a : α) :
    Prop :=
  ∀ before rest, Blank before → Ends rest → (before ++ (text ++ rest)).length ≤ length →
    read (before ++ (text ++ rest)) = .ok (a, rest)

/-- A text is skipped, if there is no more of the text than some bound. -/
def Skips (bound : Nat) (skip : List Char → Except Failure (List Char)) (text : List Char) : Prop :=
  ∀ before rest, Blank before → Ends rest → (before ++ (text ++ rest)).length ≤ bound →
    skip (before ++ (text ++ rest)) = .ok rest

def Begins (text : List Char) : Prop :=
  ∃ c rest, text = c :: rest ∧ isBlank c = false ∧ c ≠ ']'

theorem Formed.begins {text : List Char} (h : Formed text) : Begins text := by
  cases h with
  | scalar scalar =>
    obtain ⟨c, rest, rfl, v, -, hc⟩ := scalar.exists_head
    exact ⟨c, rest, rfl, Value.isBlank_of_starts hc, @Value.ne_of_starts v c ']' hc (by decide) rfl⟩
  | array items joined => exact ⟨'[', _, rfl, rfl, by decide⟩
  | object keys values joined => exact ⟨'\x7b', _, rfl, rfl, by decide⟩

theorem Value.begins {v : Value} {text : List Char} (h : v.Written text) : Begins text :=
  (v.formed_of_written text h).begins

/-! What stands between and behind items. -/

theorem blank_nil : Blank [] := nofun

/-! The texts without whitespace and escapes. -/

theorem quoted_plain (text : String)
    (plain : text.toList.all (fun c => c ≠ '"' ∧ c ≠ '\\' ∧ ¬ c < ' ') = true) :
    Quoted text ('"' :: (text.toList ++ ['"'])) := by
  refine ⟨text.toList, ?_, rfl⟩
  generalize text.toList = chars at plain
  induction chars with
  | nil => exact .nil
  | cons c chars ih =>
    obtain ⟨own, others⟩ := Bool.and_eq_true_iff.mp plain
    obtain ⟨quote, escape, control⟩ := of_decide_eq_true own
    exact .plain quote escape control (ih others)

theorem colon_plain : Colon [':'] :=
  ⟨[], [], blank_nil, blank_nil, rfl⟩

theorem joined_plain (text : List Char) (texts : List (List Char)) :
    Joined true (text :: texts) (text ++ texts.flatMap (',' :: ·)) := by
  refine ⟨[], _, blank_nil, ?_, rfl⟩
  induction texts with
  | nil => exact blank_nil
  | cons text texts ih => exact ⟨[','], _, ⟨[], [], blank_nil, blank_nil, rfl⟩, ih, rfl⟩

/-! What ends a value. -/

theorem Blank.ends {s : List Char} (h : Blank s) {c : Char} {rest : List Char}
    (hc : Ends (c :: rest)) : Ends (s ++ c :: rest) := by
  cases s with
  | nil => exact hc
  | cons d s => exact .inl (h d List.mem_cons_self)

theorem Blank.ends_alone {s : List Char} (h : Blank s) : Ends s := by
  cases s with
  | nil => exact trivial
  | cons c s => exact .inl (h c List.mem_cons_self)

theorem Joined.ends {texts : List (List Char)} {inner : List Char} (h : Joined false texts inner)
    {c : Char} {rest : List Char} (hc : Ends (c :: rest)) : Ends (inner ++ c :: rest) := by
  cases texts with
  | nil => exact Blank.ends h hc
  | cons text texts =>
    obtain ⟨separator, others, ⟨before, after, hbefore, -, rfl⟩, -, rfl⟩ := h
    simp only [List.append_assoc, List.cons_append]
    exact hbefore.ends (.inr (.inl rfl))

theorem ends_bracket (rest : List Char) : Ends (']' :: rest) := .inr (.inr (.inl rfl))

theorem ends_brace (rest : List Char) : Ends ('\x7d' :: rest) := .inr (.inr (.inr rfl))

theorem Separates.skipBlank_true {separator : List Char} (h : Separates true separator)
    (rest : List Char) : skipBlank (separator ++ rest) = skipBlank rest :=
  skipBlank_append h rest

theorem skipBlank_comma (rest : List Char) : skipBlank (',' :: rest) = ',' :: rest := rfl

theorem nextItem_end {first : Bool} {s : List Char} (h : Blank s) (rest : List Char) :
    nextItem first (s ++ ']' :: rest) = .ok (false, ']' :: rest) := by
  rw [nextItem, skipBlank_append h]
  rfl

theorem nextItem_item {first : Bool} {separator text rest : List Char}
    (h : Separates first separator) (hbegins : Begins text) :
    nextItem first (separator ++ (text ++ rest)) = .ok (true, text ++ rest) := by
  obtain ⟨c, others, rfl, hblank, hbracket⟩ := hbegins
  cases first with
  | true =>
    rw [nextItem, h.skipBlank_true, List.cons_append, skipBlank_cons hblank]
    simp [hbracket]
  | false =>
    obtain ⟨before, after, hbefore, hafter, rfl⟩ := h
    rw [nextItem, List.append_assoc, skipBlank_append hbefore, List.cons_append, skipBlank_comma]
    simp [skipBlank_append hafter, skipBlank_cons hblank, hbracket]

theorem readItems_joined {α : Type} {item : List Char → Reading α} {length : Nat} {items : List α}
    {texts : List (List Char)}
    (h : List.Forall₂ (fun a text => Begins text ∧ Reads length item text a) items texts)
    {first : Bool} {inner : List Char} (joined : Joined first texts inner) {rest : List Char}
    {fuel : Nat} (hfuel : (inner ++ ']' :: rest).length < fuel)
    (hlength : (inner ++ ']' :: rest).length ≤ length) :
    readItems item fuel first (inner ++ ']' :: rest) = .ok (items, ']' :: rest) := by
  induction h generalizing first inner fuel with
  | nil =>
    cases fuel with
    | zero => cases hfuel
    | succ fuel =>
      refine bind_eq_ok.mpr ⟨_, nextItem_end joined rest, rfl⟩
  | @cons a text items texts own _ ih =>
    obtain ⟨begins, reads⟩ := own
    obtain ⟨separator, others, hseparator, hothers, rfl⟩ := joined
    simp only [List.append_assoc, List.length_append, List.length_cons] at hfuel hlength ⊢
    cases fuel with
    | zero => cases hfuel
    | succ fuel =>
      have hitem : item (text ++ (others ++ ']' :: rest)) = .ok (a, others ++ ']' :: rest) := by
        apply reads [] _ blank_nil (hothers.ends (ends_bracket rest))
        simp only [List.nil_append, List.length_append, List.length_cons]
        omega
      have hrest : readItems item fuel false (others ++ ']' :: rest) = .ok (items, ']' :: rest) := by
        apply ih hothers
        · obtain ⟨c, behind, rfl, -⟩ := begins
          simp only [List.length_append, List.length_cons] at hfuel ⊢
          omega
        · simp only [List.length_append, List.length_cons]
          omega
      exact bind_eq_ok.mpr ⟨_, nextItem_item hseparator begins,
        bind_eq_ok.mpr ⟨_, hitem, bind_eq_ok.mpr ⟨_, hrest, rfl⟩⟩⟩

theorem closeList_bracket (rest : List Char) : closeList (']' :: rest) = .ok rest := rfl

theorem closeObject_brace (rest : List Char) : closeObject ('\x7d' :: rest) = .ok rest := rfl

theorem insideList_eq_ok {α : Type} {content : List Char → Reading α} {s rest : List Char} {a : α}
    (h : content s = .ok (a, ']' :: rest)) : insideList content s = .ok (a, rest) :=
  bind_eq_ok.mpr ⟨_, mapError_eq_ok.mpr h, bind_eq_ok.mpr ⟨_, closeList_bracket rest, rfl⟩⟩

theorem insideObject_eq_ok {α : Type} {content : List Char → Reading α} {s rest : List Char} {a : α}
    (h : content s = .ok (a, '\x7d' :: rest)) : insideObject content s = .ok (a, rest) :=
  bind_eq_ok.mpr ⟨_, mapError_eq_ok.mpr h, bind_eq_ok.mpr ⟨_, closeObject_brace rest, rfl⟩⟩

/-! Members. -/

theorem takeColon_append {colon : List Char} (h : Colon colon) (rest : List Char) :
    ∃ after, Blank after ∧ takeColon (colon ++ rest) = .ok (after ++ rest) ∧
      (after ++ rest).length ≤ (colon ++ rest).length := by
  obtain ⟨before, after, hbefore, hafter, rfl⟩ := h
  refine ⟨after, hafter, ?_, ?_⟩
  · rw [takeColon, List.append_assoc, skipBlank_append hbefore]
    rfl
  · simp only [List.length_append, List.length_cons]
    omega

theorem nextKey_end {first : Bool} {s : List Char} (h : Blank s) (rest : List Char) :
    nextKey first (s ++ '\x7d' :: rest) = .ok (none, '\x7d' :: rest) := by
  rw [nextKey, skipBlank_append h]
  rfl

theorem readString_append {key : String} {inner : List Char} (h : Spells key.toList inner)
    (rest : List Char) : readString (inner ++ '"' :: rest) = .ok (key, rest) :=
  map_eq_ok.mpr ⟨_, readChars_append h rest, by simp⟩

theorem nextKey_key {first : Bool} {key : String} {separator name rest : List Char}
    (h : Separates first separator) (quoted : Quoted key name) :
    nextKey first (separator ++ (name ++ rest)) = .ok (some key, rest) := by
  obtain ⟨inner, spells, rfl⟩ := quoted
  have read : nextKey.key '"' (inner ++ '"' :: rest) = .ok (some key, rest) :=
    map_eq_ok.mpr ⟨_, readString_append spells rest, rfl⟩
  have quote : skipBlank ('"' :: (inner ++ ['"']) ++ rest) = '"' :: (inner ++ '"' :: rest) := by
    rw [List.cons_append, List.append_assoc]
    rfl
  cases first with
  | true =>
    rw [nextKey, h.skipBlank_true, quote]
    exact read
  | false =>
    obtain ⟨before, after, hbefore, hafter, rfl⟩ := h
    rw [nextKey, List.append_assoc, skipBlank_append hbefore, List.cons_append, skipBlank_comma]
    simp only [skipBlank_append hafter, quote]
    exact read

/-- Members read one after the other, each changing a state. -/
inductive MemberRun {σ : Type} (length : Nat) (member : σ → String → List Char → Reading σ) :
    σ → List (List Char) → σ → Prop
  | done (state : σ) : MemberRun length member state [] state
  | step {state next last : σ} {key : String} {name tail : List Char} {texts : List (List Char)}
      (quoted : Quoted key name)
      (read : ∀ rest, Ends rest → (tail ++ rest).length ≤ length →
        member state key (tail ++ rest) = .ok (next, rest))
      (others : MemberRun length member next texts last) :
      MemberRun length member state ((name ++ tail) :: texts) last

theorem readMembers_joined {σ : Type} {member : σ → String → List Char → Reading σ} {length : Nat}
    {state last : σ} {texts : List (List Char)} (h : MemberRun length member state texts last)
    {first : Bool} {inner : List Char} (joined : Joined first texts inner) {rest : List Char}
    {fuel : Nat} (hfuel : (inner ++ '\x7d' :: rest).length < fuel)
    (hlength : (inner ++ '\x7d' :: rest).length ≤ length) :
    readMembers member fuel first state (inner ++ '\x7d' :: rest) = .ok (last, '\x7d' :: rest) := by
  induction h generalizing first inner fuel with
  | done state =>
    cases fuel with
    | zero => cases hfuel
    | succ fuel => exact bind_eq_ok.mpr ⟨_, nextKey_end joined rest, rfl⟩
  | @step state next last key name tail texts quoted read _ ih =>
    obtain ⟨separator, others, hseparator, hothers, rfl⟩ := joined
    simp only [List.append_assoc, List.length_append, List.length_cons] at hfuel hlength ⊢
    cases fuel with
    | zero => cases hfuel
    | succ fuel =>
      have hmember : member state key (tail ++ (others ++ '\x7d' :: rest)) =
          .ok (next, others ++ '\x7d' :: rest) := by
        apply read _ (hothers.ends (ends_brace rest))
        simp only [List.length_append, List.length_cons]
        omega
      have hrest : readMembers member fuel false next (others ++ '\x7d' :: rest) =
          .ok (last, '\x7d' :: rest) := by
        apply ih hothers
        · obtain ⟨inner, -, rfl⟩ := quoted
          simp only [List.length_append, List.length_cons] at hfuel ⊢
          omega
        · simp only [List.length_append, List.length_cons]
          omega
      exact bind_eq_ok.mpr ⟨_, nextKey_key hseparator quoted, bind_eq_ok.mpr ⟨_, hmember, hrest⟩⟩

/-! Whole values. -/

theorem skipBlank_value {v : Value} {text before : List Char} (h : v.Written text)
    (hbefore : Blank before) (rest : List Char) :
    skipBlank (before ++ (text ++ rest)) = text ++ rest := by
  obtain ⟨c, others, rfl, hblank, -⟩ := v.begins h
  rw [skipBlank_append hbefore, List.cons_append, skipBlank_cons hblank]

theorem Value.head_of_scalar {v : Value} {c : Char} (scalar : v.isScalar = true)
    (h : v.starts c = true) : c ≠ '[' ∧ c ≠ '\x7b' := by
  cases v with
  | array items => cases scalar
  | object members => cases scalar
  | bool b => cases b <;> simp [starts] at h <;> simp [h]
  | number n =>
    constructor
    · rintro rfl
      cases h
    · rintro rfl
      cases h
  | _ => simp [starts] at h; simp [h]

theorem readTree_scalar {length depth : Nat} {v : Value} {text : List Char} (h : v.Written text)
    (scalar : v.isScalar = true) : Reads length (readTree length depth) text v := by
  intro before rest hbefore hrest _
  have read := readScalar_append h scalar hrest
  have skip := skipBlank_value h hbefore rest
  obtain ⟨c, others, rfl, hc⟩ := v.exists_head h
  obtain ⟨bracket, brace⟩ := v.head_of_scalar scalar hc
  rw [readTree, skip, List.cons_append]
  rw [List.cons_append] at read
  split
  next heq => exact absurd (List.cons.inj heq).1 bracket
  next heq => exact absurd (List.cons.inj heq).1 brace
  next => exact read

theorem readTree_array {length depth : Nat} {items : List Value} {texts : List (List Char)}
    {inner : List Char} (joined : Joined true texts inner)
    (h : List.Forall₂ (fun v text => Begins text ∧ Reads length (readTree length depth) text v) items
      texts) :
    Reads length (readTree length (depth + 1)) ('[' :: (inner ++ [']'])) (.array items) := by
  intro before rest hbefore _ hlength
  simp only [List.length_append, List.length_cons, List.cons_append, List.append_assoc,
    List.nil_append] at hlength ⊢
  have read : readItems (readTree length depth) length true (inner ++ ']' :: rest) =
      .ok (items, ']' :: rest) := by
    apply readItems_joined h joined
    · simp only [List.length_append, List.length_cons]
      omega
    · simp only [List.length_append, List.length_cons]
      omega
  rw [readTree, skipBlank_append hbefore]
  exact map_eq_ok.mpr ⟨_, insideList_eq_ok read, rfl⟩

theorem readTree_object {length depth : Nat} {members : List (String × Value)}
    {texts : List (List Char)} {inner : List Char} (joined : Joined true texts inner)
    (h : MemberRun length (readMember (readTree length depth)) [] texts members.reverse) :
    Reads length (readTree length (depth + 1)) ('\x7b' :: (inner ++ ['\x7d'])) (.object members) := by
  intro before rest hbefore _ hlength
  simp only [List.length_append, List.length_cons, List.cons_append, List.append_assoc,
    List.nil_append] at hlength ⊢
  have read : readMembers (readMember (readTree length depth)) length true [] (inner ++ '\x7d' :: rest) =
      .ok (members.reverse, '\x7d' :: rest) := by
    apply readMembers_joined h joined
    · simp only [List.length_append, List.length_cons]
      omega
    · simp only [List.length_append, List.length_cons]
      omega
  rw [readTree, skipBlank_append hbefore]
  exact map_eq_ok.mpr ⟨_, insideObject_eq_ok read, by simp⟩

mutual

/-- A value that is not nested too deep is read off each of its texts. -/
theorem Value.reads_readTree (length : Nat) : ∀ (v : Value) (text : List Char), v.Written text →
    ∀ depth, v.nesting ≤ depth → Reads length (readTree length depth) text v
  | .null, _, h, _, _ => readTree_scalar h rfl
  | .bool _, _, h, _, _ => readTree_scalar h rfl
  | .number _, _, h, _, _ => readTree_scalar h rfl
  | .string _, _, h, _, _ => readTree_scalar h rfl
  | .array items, _, ⟨texts, inner, hitems, joined, hs⟩, depth, hdepth => by
    cases depth with
    | zero => cases hdepth
    | succ depth =>
      rw [hs]
      apply readTree_array joined
      exact readItems_written length items texts hitems depth (Nat.le_of_succ_le_succ hdepth)
  | .object members, _, ⟨texts, inner, hmembers, joined, hs⟩, depth, hdepth => by
    cases depth with
    | zero => cases hdepth
    | succ depth =>
      rw [hs]
      apply readTree_object joined
      have run := readMembers_written length members texts hmembers depth
        (Nat.le_of_succ_le_succ hdepth) []
      rwa [List.append_nil] at run

theorem readItems_written (length : Nat) : ∀ (items : List Value) (texts : List (List Char)),
    WrittenItems items texts → ∀ depth, nestingOfItems items ≤ depth →
      List.Forall₂ (fun v text => Begins text ∧ Reads length (readTree length depth) text v) items texts
  | [], _, h, _, _ => by
    cases h
    exact .nil
  | v :: rest, _, ⟨text, others, hv, hrest, hs⟩, depth, hdepth => by
    rw [nestingOfItems] at hdepth
    rw [hs]
    exact .cons ⟨v.begins hv, v.reads_readTree length text hv depth (by omega)⟩
      (readItems_written length rest others hrest depth (by omega))

theorem readMembers_written (length : Nat) : ∀ (members : List (String × Value))
    (texts : List (List Char)), WrittenMembers members texts → ∀ depth,
      nestingOfMembers members ≤ depth → ∀ done,
        MemberRun length (readMember (readTree length depth)) done texts (members.reverse ++ done)
  | [], _, h, _, _, done => by
    cases h
    exact .done done
  | (key, v) :: rest, _, ⟨name, colon, text, others, hname, hcolon, hv, hrest, hs⟩, depth, hdepth,
      done => by
    rw [nestingOfMembers] at hdepth
    have reads := v.reads_readTree length text hv depth (by omega)
    have run := readMembers_written length rest others hrest depth (by omega) ((key, v) :: done)
    rw [hs, List.reverse_cons, List.append_assoc]
    refine .step hname ?_ run
    intro behind hbehind hlength
    rw [List.append_assoc] at hlength ⊢
    obtain ⟨after, hafter, take, shorter⟩ := takeColon_append hcolon (text ++ behind)
    have read := reads after behind hafter hbehind (Nat.le_trans shorter hlength)
    exact bind_eq_ok.mpr ⟨_, take, bind_eq_ok.mpr ⟨_, read, rfl⟩⟩

end

theorem readValue_written {v : Value} {text : List Char} (h : v.Written text) {limits : Limits}
    (hdepth : v.nesting ≤ limits.depth) : Reads limits.length (readValue limits) text v :=
  v.reads_readTree limits.length text h limits.depth hdepth

/-! Values that nobody asks for. -/

/-- A loop that skips what stands before a closing bracket, one part after the other. -/
structure SkipLoop (closing : Char) (skip : List Char → Except Failure (List Char))
    (loop : Nat → Bool → List Char → Except Failure (List Char)) : Prop where
  closes : ∀ rest, Ends (closing :: rest)
  notBlank : isBlank closing = false
  done : ∀ {fuel first s rest}, skipBlank s = closing :: rest → loop (fuel + 1) first s = .ok rest
  first : ∀ {fuel s c rest}, skipBlank s = c :: rest → c ≠ closing →
    loop (fuel + 1) true s = skip (c :: rest) >>= loop fuel false
  next : ∀ {fuel s rest}, skipBlank s = ',' :: rest →
    loop (fuel + 1) false s = skip rest >>= loop fuel false

theorem skipLoop_items (skip : List Char → Except Failure (List Char)) :
    SkipLoop ']' skip (skipItems skip) where
  closes := ends_bracket
  notBlank := rfl
  done h := by
    rw [skipItems, h]
    rfl
  first h hc := by
    rw [skipItems, h]
    exact if_neg hc
  next h := by
    rw [skipItems, h]
    rfl

theorem skipLoop_members (skip : List Char → Except Failure (List Char)) :
    SkipLoop '\x7d' (skipMember skip) (skipMembers skip) where
  closes := ends_brace
  notBlank := rfl
  done h := by
    rw [skipMembers, h]
    rfl
  first h hc := by
    rw [skipMembers, h]
    exact if_neg hc
  next h := by
    rw [skipMembers, h]
    rfl

theorem SkipLoop.joined {closing : Char} {skip : List Char → Except Failure (List Char)}
    {run : Nat → Bool → List Char → Except Failure (List Char)} (loop : SkipLoop closing skip run)
    {bound : Nat} {texts : List (List Char)}
    (h : ∀ text ∈ texts, (∃ c tail, text = c :: tail ∧ isBlank c = false ∧ c ≠ closing) ∧
      Skips bound skip text)
    {first : Bool} {inner : List Char} (joined : Joined first texts inner) {rest : List Char}
    {fuel : Nat} (hfuel : (inner ++ closing :: rest).length < fuel)
    (hbound : (inner ++ closing :: rest).length ≤ bound) :
    run fuel first (inner ++ closing :: rest) = .ok rest := by
  induction texts generalizing first inner fuel with
  | nil =>
    cases fuel with
    | zero => cases hfuel
    | succ fuel =>
      apply loop.done
      rw [skipBlank_append joined, skipBlank_cons loop.notBlank]
  | cons text texts ih =>
    obtain ⟨⟨c, tail, rfl, hblank, hclosing⟩, skips⟩ := h text List.mem_cons_self
    obtain ⟨separator, others, hseparator, hothers, rfl⟩ := joined
    have hends : Ends (others ++ closing :: rest) := hothers.ends (loop.closes rest)
    cases fuel with
    | zero => cases hfuel
    | succ fuel =>
      -- Each part takes one step and at least one character, so that steps are left for the others.
      have hrest (hshort : (others ++ closing :: rest).length < fuel ∧
          (others ++ closing :: rest).length ≤ bound) :
          run fuel false (others ++ closing :: rest) = .ok rest :=
        ih (fun text htext => h text (List.mem_cons_of_mem _ htext)) hothers hshort.1 hshort.2
      simp only [List.append_assoc, List.length_append, List.length_cons, List.cons_append]
        at hfuel hbound hrest ⊢
      cases first with
      | true =>
        have item := skips [] _ blank_nil hends
        have start : skipBlank (separator ++ c :: (tail ++ (others ++ closing :: rest))) =
            c :: (tail ++ (others ++ closing :: rest)) := by
          rw [hseparator.skipBlank_true, skipBlank_cons hblank]
        simp only [List.length_append, List.length_cons, List.cons_append, List.nil_append] at item
        rw [loop.first start hclosing]
        exact bind_eq_ok.mpr ⟨_, item (by omega), hrest (by omega)⟩
      | false =>
        obtain ⟨before, after, hbefore, hafter, rfl⟩ := hseparator
        have item := skips after _ hafter hends
        have start : skipBlank (before ++ ',' :: (after ++ c :: (tail ++ (others ++ closing :: rest)))) =
            ',' :: (after ++ c :: (tail ++ (others ++ closing :: rest))) := by
          rw [skipBlank_append hbefore, skipBlank_comma]
        simp only [List.append_assoc, List.length_append, List.length_cons, List.cons_append]
          at hfuel hbound item ⊢
        rw [loop.next start]
        exact bind_eq_ok.mpr ⟨_, item (by omega), hrest (by omega)⟩

def SkipsMember (bound : Nat) (skip : List Char → Except Failure (List Char)) (text : List Char) :
    Prop :=
  ∃ key value, FormedKey key ∧ Skips bound skip value ∧ text = key ++ value

theorem skipMember_append {bound : Nat} {skip : List Char → Except Failure (List Char)}
    {text : List Char} (h : SkipsMember bound skip text) : Skips bound (skipMember skip) text := by
  obtain ⟨_, value, ⟨inner, colon, chars, hcolon, rfl⟩, skips, rfl⟩ := h
  intro before rest hbefore hrest hbound
  obtain ⟨after, hafter, take, shorter⟩ := takeColon_append hcolon (value ++ rest)
  have hvalue := skips after rest hafter hrest (by
    simp only [List.length_append, List.length_cons] at hbound shorter ⊢
    omega)
  have hname := skipString_append chars (colon ++ (value ++ rest))
  simp only [List.append_assoc, List.cons_append]
  rw [skipMember, skipBlank_append hbefore]
  exact bind_eq_ok.mpr ⟨_, hname, bind_eq_ok.mpr ⟨_, take, hvalue⟩⟩

theorem SkipsMember.head {bound : Nat} {skip : List Char → Except Failure (List Char)}
    {text : List Char} (h : SkipsMember bound skip text) : ∃ tail, text = '"' :: tail := by
  obtain ⟨_, value, ⟨inner, colon, -, -, rfl⟩, -, rfl⟩ := h
  exact ⟨_, rfl⟩

theorem skipTree_scalar {length depth bound : Nat} {text : List Char} (h : FormedScalar text) :
    Skips bound (skipTree length (depth + 1)) text := by
  intro before rest hbefore hrest _
  have skip := skipScalar_append h hrest
  obtain ⟨c, others, rfl, v, scalar, hc⟩ := h.exists_head
  obtain ⟨bracket, brace⟩ := v.head_of_scalar scalar hc
  rw [List.cons_append] at skip
  rw [skipTree, skipBlank_append hbefore, List.cons_append, skipBlank_cons (Value.isBlank_of_starts hc)]
  split
  next heq => exact absurd (List.cons.inj heq).1 bracket
  next heq => exact absurd (List.cons.inj heq).1 brace
  next => exact skip

/-- What has the form of a value is skipped, as long as it is shorter than the levels that are allowed. -/
theorem Formed.skips_skipTree {length : Nat} {text : List Char} (h : Formed text) :
    ∀ depth, depth ≤ length → Skips depth (skipTree length (depth + 1)) text := by
  induction h with
  | scalar scalar => exact fun _ _ => skipTree_scalar scalar
  | @array texts inner items joined ih =>
    intro depth hdepth before rest hbefore _ hbound
    simp only [List.length_append, List.length_cons, List.cons_append, List.append_assoc,
      List.nil_append] at hbound ⊢
    cases depth with
    | zero => omega
    | succ depth =>
      have skips : ∀ text ∈ texts, Begins text ∧ Skips depth (skipTree length (depth + 1)) text :=
        fun text htext => ⟨(items text htext).begins, ih text htext depth (by omega)⟩
      rw [skipTree, skipBlank_append hbefore]
      apply (skipLoop_items _).joined skips joined
      · simp only [List.length_append, List.length_cons]
        omega
      · simp only [List.length_append, List.length_cons]
        omega
  | @object members inner keys values joined ih =>
    intro depth hdepth before rest hbefore _ hbound
    simp only [List.length_append, List.length_cons, List.cons_append, List.append_assoc,
      List.nil_append] at hbound ⊢
    cases depth with
    | zero => omega
    | succ depth =>
      have skips : ∀ text ∈ members.map fun m => m.1 ++ m.2,
          (∃ c tail, text = c :: tail ∧ isBlank c = false ∧ c ≠ '\x7d') ∧
            Skips depth (skipMember (skipTree length (depth + 1))) text := by
        intro text htext
        obtain ⟨m, hm, rfl⟩ := List.mem_map.mp htext
        have skips : SkipsMember depth (skipTree length (depth + 1)) (m.1 ++ m.2) :=
          ⟨m.1, m.2, keys m hm, ih m hm depth (by omega), rfl⟩
        obtain ⟨tail, htail⟩ := skips.head
        exact ⟨⟨'"', tail, htail, rfl, by decide⟩, skipMember_append skips⟩
      rw [skipTree, skipBlank_append hbefore]
      apply (skipLoop_members _).joined skips joined
      · simp only [List.length_append, List.length_cons]
        omega
      · simp only [List.length_append, List.length_cons]
        omega

theorem skipValue_formed {text : List Char} (h : Formed text) (limits : Limits) :
    Skips limits.length (skipValue limits) text :=
  h.skips_skipTree limits.length (Nat.le_refl _)

end LuaStubs.Json
