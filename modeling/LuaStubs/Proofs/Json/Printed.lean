import LuaStubs.Json.Value
import LuaStubs.Proofs.Json.Loops

/-! What is printed is a text of the value: characters that may not stand for themselves are
escaped. -/

namespace LuaStubs.Json

theorem hexDigit_mem : ∀ value < 16, (Text.hexDigit value, value) ∈ hexDigits := by decide

theorem hex_control {c : Char} (h : c < ' ') :
    Hex c.toNat ['0', '0', Text.hexDigit (c.toNat / 16), Text.hexDigit (c.toNat % 16)] := by
  have below : c.toNat < 32 := h
  have high := hexDigit_mem (c.toNat / 16) (by omega)
  have low := hexDigit_mem (c.toNat % 16) (by omega)
  refine ⟨_, _, _, _, 0, 0, _, _, rfl, by decide, by decide, high, low, ?_⟩
  omega

def lettered : List Char :=
  ['"', '\\', '\x08', '\t', '\n', '\x0c', '\r']

theorem escapedChar_lettered : ∀ c ∈ lettered, ∃ e ∈ escapes, e.2 = c ∧ escapedChar c = ['\\', e.1] := by
  simp [lettered, escapes, escapedChar]

theorem spells_escaped_cons {c : Char} {chars s : List Char} (rest : Spells chars s) :
    Spells (c :: chars) (escapedChar c ++ s) := by
  by_cases letter : c ∈ lettered
  · obtain ⟨e, mem, rfl, printed⟩ := escapedChar_lettered c letter
    rw [printed]
    exact .escape mem rest
  · simp only [lettered, List.mem_cons, List.not_mem_nil, or_false, not_or] at letter
    by_cases control : c < ' '
    · simp only [escapedChar, letter, control, if_false, if_true]
      exact .unit (hex_control control) rest
    · simp only [escapedChar, letter, control, if_false]
      exact .plain letter.1 letter.2.1 control rest

theorem spells_escaped (chars : List Char) : Spells chars (chars.flatMap escapedChar) := by
  induction chars with
  | nil => exact .nil
  | cons c chars ih => exact spells_escaped_cons ih

theorem quoted_printString (text : String) : Quoted text (printString text) :=
  ⟨_, spells_escaped text.toList, rfl⟩

theorem commaSeparated_cons (text : List Char) (texts : List (List Char)) :
    commaSeparated (text :: texts) = text ++ texts.flatMap (',' :: ·) := by
  induction texts generalizing text with
  | nil => exact (List.append_nil _).symm
  | cons other texts ih =>
    change text ++ ',' :: commaSeparated (other :: texts) = _
    rw [ih, List.flatMap_cons, List.cons_append]

theorem joined_commaSeparated (texts : List (List Char)) : Joined true texts (commaSeparated texts) := by
  cases texts with
  | nil => exact blank_nil
  | cons text texts =>
    rw [commaSeparated_cons]
    exact joined_plain text texts

theorem written_printStrings (texts : List String) :
    (Value.array (texts.map .string)).Written (printStrings texts) := by
  refine ⟨_, _, ?_, joined_commaSeparated _, rfl⟩
  induction texts with
  | nil => rfl
  | cons text texts ih => exact ⟨_, _, quoted_printString text, ih, rfl⟩

end LuaStubs.Json
