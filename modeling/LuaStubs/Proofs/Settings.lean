import LuaStubs.Proofs.Json.Faithful
import LuaStubs.Proofs.Json.Printed
import LuaStubs.Settings.Basic

/-! Settings in JSON. They are read back from what is printed, and from any other text that says as
much or less: what a text leaves out has its standard value, and what it says besides is ignored. -/

namespace LuaStubs.Settings

open Json Decoder Outcome

def Key (name : String) (s : List Char) : Prop :=
  ∃ quoted colon, Quoted name quoted ∧ Colon colon ∧ s = quoted ++ colon

/-- The members of an object in any order. Each of the two keys is there at most once; under other keys
there may be anything that has the form of a value. -/
inductive Members : Option String → Option (List String) → List (List Char) → Prop
  | nil : Members none none []
  | baseUrl {url : String} {names : Option (List String)} {key value : List Char}
      {others : List (List Char)} (hkey : Key "doc_base_url" key)
      (hvalue : (Value.string url).Written value) (rest : Members none names others) :
      Members (some url) names ((key ++ value) :: others)
  | knownBuiltins {url : Option String} {names : List String} {key value : List Char}
      {others : List (List Char)} (hkey : Key "known_builtins" key)
      (hvalue : (Value.array (names.map .string)).Written value) (rest : Members url none others) :
      Members url (some names) ((key ++ value) :: others)
  | other {url : Option String} {names : Option (List String)} {name : String} {key value : List Char}
      {others : List (List Char)} (unknown : name ≠ "doc_base_url" ∧ name ≠ "known_builtins")
      (hkey : Key name key) (hvalue : Formed value) (rest : Members url names others) :
      Members url names ((key ++ value) :: others)

/-- The texts that say what the base URL is or which builtins are known, or both, or neither. -/
def Written (url : Option String) (names : Option (List String)) (source : String) : Prop :=
  ∃ before texts inner after, Members url names texts ∧ Joined true texts inner ∧ Blank before ∧
    Blank after ∧ source.toList = before ++ ('\x7b' :: (inner ++ ['\x7d']) ++ after)

theorem faithful_fields : record.fields.Faithful :=
  ⟨faithful_text, faithful_text.list, trivial⟩

theorem nesting_texts (names : List String) : (Value.array (names.map .string)).nesting = 1 := by
  have items : nestingOfItems (names.map .string) = 0 := by
    induction names with
    | nil => rfl
    | cons name names ih => simp [nestingOfItems, ih, Value.nesting]
  rw [Value.nesting, items]

theorem allOf_texts (names : List String) : allOf acceptText (names.map .string) = .ok names := by
  induction names with
  | nil => rfl
  | cons name names ih => exact bind_eq_ok.mpr ⟨_, rfl, bind_eq_ok.mpr ⟨_, ih, rfl⟩⟩

/-- A member is read with its key, and then the others. -/
theorem run_member {limits : Limits} {slots next last : Slots record.types} {name : String}
    {key value : List Char} {others : List (List Char)} (hkey : Key name key)
    (read : ∀ {colon : List Char}, Colon colon → ∀ {rest : List Char}, Ends rest →
      (colon ++ (value ++ rest)).length ≤ limits.length →
        record.readMember limits slots name (colon ++ (value ++ rest)) = .ok (next, rest))
    (run : MemberRun limits.length (record.readMember limits) next others last) :
    MemberRun limits.length (record.readMember limits) slots ((key ++ value) :: others) last := by
  obtain ⟨quoted, colon, hquoted, hcolon, rfl⟩ := hkey
  rw [List.append_assoc]
  refine .step hquoted ?_ run
  intro rest hrest hlength
  rw [List.append_assoc] at hlength ⊢
  exact read hcolon hrest hlength

theorem Members.run {url : Option String} {names : Option (List String)} {texts : List (List Char)}
    (h : Members url names texts) (limits : Limits) (hdepth : 1 ≤ limits.depth) (urlSlot : Option String)
    (namesSlot : Option (List String)) (hurl : url = none ∨ urlSlot = none)
    (hnames : names = none ∨ namesSlot = none) :
    MemberRun limits.length (record.readMember limits) (urlSlot, namesSlot, ()) texts
      (urlSlot.or url, namesSlot.or names, ()) := by
  induction h generalizing urlSlot namesSlot with
  | nil =>
    rw [Option.or_none, Option.or_none]
    exact .done _
  | @baseUrl url names key value others hkey hvalue _ ih =>
    obtain rfl : urlSlot = none := hurl.resolve_left nofun
    have put : record.fields.put .buffer "doc_base_url" (.string url) (none, namesSlot, ()) =
        .ok (some url, namesSlot, ()) := rfl
    refine run_member hkey ?_ (ih (some url) namesSlot (.inl rfl) hnames)
    exact Record.readMember_known faithful_fields rfl put hvalue (Nat.zero_le _)
  | @knownBuiltins url names key value others hkey hvalue _ ih =>
    obtain rfl : namesSlot = none := hnames.resolve_left nofun
    have put : record.fields.put .buffer "known_builtins" (.array (names.map .string))
        (urlSlot, none, ()) = .ok (urlSlot, some names, ()) :=
      (Fields.put_other (by decide)).mpr
        ⟨_, Fields.put_own.mpr ⟨rfl, names, allOf_texts names, rfl⟩, rfl⟩
    have shallow : (Value.array (names.map .string)).nesting ≤ limits.depth := by rwa [nesting_texts]
    refine run_member hkey ?_ (ih urlSlot (some names) hurl (.inl rfl))
    exact Record.readMember_known faithful_fields rfl put hvalue shallow
  | @other url names name key value others unknown hkey hvalue _ ih =>
    have has : record.fields.has name = false := by
      simp [record, Fields.default, Fields.has, unknown]
    refine run_member hkey ?_ (ih urlSlot namesSlot hurl hnames)
    exact Record.readMember_other has _ hvalue

theorem ofJson_of_written {url : Option String} {names : Option (List String)} {source : String}
    (h : Written url names source) :
    ofJson source = .ok ⟨url.getD standard.baseUrl, names.getD standard.knownBuiltins⟩ := by
  obtain ⟨before, texts, inner, after, members, joined, hbefore, hafter, hsource⟩ := h
  have room : 1 ≤ deepest - 1 := by decide
  have run := members.run ⟨source.toList.length, deepest - 1⟩ room none none (.inr rfl) (.inr rfl)
  rw [Option.none_or, Option.none_or] at run
  have values : record.fields.complete (url, names, ()) =
      .ok (url.getD standard.baseUrl, names.getD standard.knownBuiltins, ()) := by
    cases url <;> cases names <;> rfl
  exact parse_of_reads hsource hbefore hafter (Record.reads_object joined run values)

/-! What is printed. -/

theorem key_printed (name : String) : Key name (printString name ++ [':']) :=
  ⟨_, _, quoted_printString name, colon_plain, rfl⟩

theorem written_toJson (settings : Settings) :
    Written (some settings.baseUrl) (some settings.knownBuiltins) settings.toJson := by
  refine ⟨[], _, _, [], .baseUrl (key_printed _) (quoted_printString _)
    (.knownBuiltins (key_printed _) (written_printStrings _) .nil), joined_plain _ _, blank_nil,
    blank_nil, ?_⟩
  simp [toJson]

/-- Settings are read back from what is printed, which is one of the texts that say what they are; from
any text, what it says is read, and what it leaves out has its standard value. -/
theorem ofJson_written (settings : Settings) :
    Written (some settings.baseUrl) (some settings.knownBuiltins) settings.toJson ∧
      ofJson settings.toJson = .ok settings ∧
      ∀ url names source, Written url names source →
        ofJson source = .ok ⟨url.getD standard.baseUrl, names.getD standard.knownBuiltins⟩ :=
  ⟨settings.written_toJson, ofJson_of_written settings.written_toJson,
    fun _ _ _ written => ofJson_of_written written⟩

/-! A text with another key twice. The first value is none that could be read: half of a surrogate pair,
and a number out of range. -/

theorem formed_unreadable : Formed "[\"\\ud800\",1e999]".toList := by
  have hex : Hex 0xd800 ['d', '8', '0', '0'] :=
    ⟨_, _, _, _, 13, 8, 0, 0, rfl, by decide, by decide, by decide, by decide, rfl⟩
  have half : Formed "\"\\ud800\"".toList := .scalar (.string (.unit hex .nil))
  have numeral : Numeral.Written ⟨false, ['1'], [], some (false, ['9', '9', '9'])⟩ "1e999".toList :=
    ⟨[], ['e', '9', '9', '9'], .digits rfl (by decide) nofun, rfl,
      ⟨nofun, by simp [Digits], 'e', [], .inl rfl, .inl rfl, rfl⟩, rfl⟩
  have items : ∀ text ∈ ["\"\\ud800\"".toList, "1e999".toList], Formed text := by
    simp only [List.forall_mem_cons]
    exact ⟨half, .scalar (.number numeral), List.forall_mem_nil _⟩
  exact .array items (joined_plain _ _)

def partialSource : String :=
  "\t\x7b \"more\":[\"\\ud800\",1e999] , \"known_builtins\":[\"int\"],\"more\":null\x7d\n"

theorem written_partial : Written none (some ["int"]) partialSource := by
  have key (name : String) (plain : name.toList.all (fun c => c ≠ '"' ∧ c ≠ '\\' ∧ ¬ c < ' ') = true) :
      Key name ('"' :: (name.toList ++ ['"']) ++ [':']) :=
    ⟨_, _, quoted_plain name plain, colon_plain, rfl⟩
  have space : Blank [' '] := List.forall_mem_singleton.mpr rfl
  have builtins : (Value.array (["int"].map .string)).Written "[\"int\"]".toList :=
    ⟨_, _, ⟨_, _, quoted_plain "int" (by decide), rfl, rfl⟩, joined_plain _ _, rfl⟩
  exact ⟨['\t'], _, _, ['\n'],
    .other (by decide) (key "more" (by decide)) formed_unreadable
      (.knownBuiltins (key "known_builtins" (by decide)) builtins
        (.other (by decide) (key "more" (by decide)) (.scalar .null) .nil)),
    ⟨[' '], _, space, ⟨_, _, ⟨[' '], [' '], space, space, rfl⟩,
      ⟨_, _, ⟨[], [], blank_nil, blank_nil, rfl⟩, blank_nil, rfl⟩, rfl⟩, rfl⟩,
    List.forall_mem_singleton.mpr rfl, List.forall_mem_singleton.mpr rfl, by decide⟩

theorem ofJson_written_partial : Written none (some ["int"]) partialSource ∧
    ofJson partialSource = .ok ⟨standard.baseUrl, ["int"]⟩ :=
  ⟨written_partial, (ofJson_written standard).2.2 none (some ["int"]) _ written_partial⟩

end LuaStubs.Settings
