import LuaStubs.Json.Reader

/-! The texts of JSON values: whitespace, strings with their escapes, numerals, and arrays and
objects with commas between what they contain. A value has many texts, and some texts have the form
of a value but are texts of none. -/

namespace LuaStubs.Json

def Blank (s : List Char) : Prop :=
  ∀ c ∈ s, isBlank c = true

/-- The characters that have an escape of one letter. -/
def escapes : List (Char × Char) :=
  [('"', '"'), ('\\', '\\'), ('/', '/'), ('b', '\x08'), ('f', '\x0c'), ('n', '\n'), ('r', '\r'), ('t', '\t')]

def hexDigits : List (Char × Nat) :=
  [('0', 0), ('1', 1), ('2', 2), ('3', 3), ('4', 4), ('5', 5), ('6', 6), ('7', 7), ('8', 8), ('9', 9),
    ('a', 10), ('b', 11), ('c', 12), ('d', 13), ('e', 14), ('f', 15),
    ('A', 10), ('B', 11), ('C', 12), ('D', 13), ('E', 14), ('F', 15)]

/-- Four hexadecimal digits, of which the letters may be large or small. -/
def Hex (unit : Nat) (s : List Char) : Prop :=
  ∃ a b c d p q r t, s = [a, b, c, d] ∧ (a, p) ∈ hexDigits ∧ (b, q) ∈ hexDigits ∧
    (c, r) ∈ hexDigits ∧ (d, t) ∈ hexDigits ∧ unit = ((p * 16 + q) * 16 + r) * 16 + t

/-- The characters of a string and how they may be written between the quotes. -/
inductive Spells : List Char → List Char → Prop
  | nil : Spells [] []
  | plain {c : Char} {chars s : List Char} (quote : c ≠ '"') (escape : c ≠ '\\') (control : ¬ c < ' ')
      (rest : Spells chars s) : Spells (c :: chars) (c :: s)
  | escape {letter c : Char} {chars s : List Char} (escape : (letter, c) ∈ escapes)
      (rest : Spells chars s) : Spells (c :: chars) ('\\' :: letter :: s)
  | unit {char : Char} {digits chars s : List Char} (hex : Hex char.toNat digits)
      (rest : Spells chars s) : Spells (char :: chars) ('\\' :: 'u' :: (digits ++ s))
  /-- A character beyond the first plane as a pair of surrogates. -/
  | pair {char : Char} {offset : Nat} {digits digits' chars s : List Char}
      (beyond : char.toNat = 0x10000 + offset) (hex : Hex (0xd800 + offset / 0x400) digits)
      (hex' : Hex (0xdc00 + offset % 0x400) digits') (rest : Spells chars s) :
      Spells (char :: chars) ('\\' :: 'u' :: (digits ++ '\\' :: 'u' :: (digits' ++ s)))

def Quoted (text : String) (s : List Char) : Prop :=
  ∃ inner, Spells text.toList inner ∧ s = '"' :: (inner ++ ['"'])

/-! Numerals. -/

def Digits (s : List Char) : Prop :=
  ∀ c ∈ s, c.isDigit = true

namespace Numeral

/-- There is no digit behind a leading zero. -/
inductive Whole : List Char → Prop
  | zero : Whole ['0']
  | digits {c : Char} {s : List Char} (first : c.isDigit = true) (nonzero : c ≠ '0')
      (rest : Digits s) : Whole (c :: s)

def Fraction : List Char → List Char → Prop
  | [], s => s = []
  | digits, s => Digits digits ∧ s = '.' :: digits

def Sign (negative : Bool) (s : List Char) : Prop :=
  if negative then s = ['-'] else s = [] ∨ s = ['+']

def Exponent : Option (Bool × List Char) → List Char → Prop
  | none, s => s = []
  | some (negative, digits), s => digits ≠ [] ∧ Digits digits ∧
    ∃ mark sign, (mark = 'e' ∨ mark = 'E') ∧ Sign negative sign ∧ s = mark :: (sign ++ digits)

def Written (n : Numeral) (s : List Char) : Prop :=
  ∃ fraction exponent, Whole n.whole ∧ Fraction n.fraction fraction ∧ Exponent n.exponent exponent ∧
    s = (if n.negative then ['-'] else []) ++ (n.whole ++ (fraction ++ exponent))

end Numeral

/-! Values. -/

/-- What may stand before an item: a comma before all but the first one. -/
def Separates (first : Bool) (s : List Char) : Prop :=
  if first then Blank s else ∃ before after, Blank before ∧ Blank after ∧ s = before ++ ',' :: after

/-- Texts with commas between them, and whitespace anywhere around them. -/
def Joined (first : Bool) : List (List Char) → List Char → Prop
  | [], s => Blank s
  | text :: rest, s => ∃ separator others, Separates first separator ∧ Joined false rest others ∧
    s = separator ++ (text ++ others)

def Colon (s : List Char) : Prop :=
  ∃ before after, Blank before ∧ Blank after ∧ s = before ++ ':' :: after

mutual

/-- The texts of a value. -/
def Value.Written : Value → List Char → Prop
  | .null, s => s = ['n', 'u', 'l', 'l']
  | .bool b, s => s = if b then ['t', 'r', 'u', 'e'] else ['f', 'a', 'l', 's', 'e']
  | .number n, s => ∃ numeral : Numeral, numeral.Written s ∧ numeral.value = .ok n
  | .string text, s => Quoted text s
  | .array items, s =>
    ∃ texts inner, WrittenItems items texts ∧ Joined true texts inner ∧ s = '[' :: (inner ++ [']'])
  | .object members, s => ∃ texts inner, WrittenMembers members texts ∧ Joined true texts inner ∧
    s = '\x7b' :: (inner ++ ['\x7d'])

def WrittenItems : List Value → List (List Char) → Prop
  | [], texts => texts = []
  | v :: rest, texts => ∃ text others, v.Written text ∧ WrittenItems rest others ∧
    texts = text :: others

def WrittenMembers : List (String × Value) → List (List Char) → Prop
  | [], texts => texts = []
  | (key, v) :: rest, texts => ∃ name colon text others, Quoted key name ∧ Colon colon ∧
    v.Written text ∧ WrittenMembers rest others ∧ texts = (name ++ (colon ++ text)) :: others

end

/-! The form of a value: numbers may be out of range, and escapes need not stand for characters. -/

/-- What may stand between the quotes of a string. -/
inductive FormedChars : List Char → Prop
  | nil : FormedChars []
  | plain {c : Char} {s : List Char} (quote : c ≠ '"') (escape : c ≠ '\\') (control : ¬ c < ' ')
      (rest : FormedChars s) : FormedChars (c :: s)
  | escape {letter c : Char} {s : List Char} (escape : (letter, c) ∈ escapes)
      (rest : FormedChars s) : FormedChars ('\\' :: letter :: s)
  | unit {unit : Nat} {digits s : List Char} (hex : Hex unit digits) (rest : FormedChars s) :
      FormedChars ('\\' :: 'u' :: (digits ++ s))

inductive FormedScalar : List Char → Prop
  | null : FormedScalar ['n', 'u', 'l', 'l']
  | yes : FormedScalar ['t', 'r', 'u', 'e']
  | no : FormedScalar ['f', 'a', 'l', 's', 'e']
  | number {numeral : Numeral} {s : List Char} (written : numeral.Written s) : FormedScalar s
  | string {inner : List Char} (chars : FormedChars inner) : FormedScalar ('"' :: (inner ++ ['"']))

def FormedKey (s : List Char) : Prop :=
  ∃ inner colon, FormedChars inner ∧ Colon colon ∧ s = '"' :: (inner ++ '"' :: colon)

inductive Formed : List Char → Prop
  | scalar {s : List Char} (scalar : FormedScalar s) : Formed s
  | array {texts : List (List Char)} {inner : List Char} (items : ∀ text ∈ texts, Formed text)
      (joined : Joined true texts inner) : Formed ('[' :: (inner ++ [']']))
  /-- The members are pairs of a key and a value. -/
  | object {members : List (List Char × List Char)} {inner : List Char}
      (keys : ∀ m ∈ members, FormedKey m.1) (values : ∀ m ∈ members, Formed m.2)
      (joined : Joined true (members.map fun m => m.1 ++ m.2) inner) :
      Formed ('\x7b' :: (inner ++ ['\x7d']))

theorem Spells.formed {chars s : List Char} (h : Spells chars s) : FormedChars s := by
  induction h with
  | nil => exact .nil
  | plain quote escape control _ ih => exact .plain quote escape control ih
  | escape escape _ ih => exact .escape escape ih
  | unit hex _ ih => exact .unit hex ih
  | pair _ hex hex' _ ih => exact .unit hex (.unit hex' ih)

mutual

theorem Value.formed_of_written : ∀ (v : Value) (s : List Char), v.Written s → Formed s
  | .null, _, h => h ▸ .scalar .null
  | .bool true, _, h => h ▸ .scalar .yes
  | .bool false, _, h => h ▸ .scalar .no
  | .number _, _, ⟨_, written, _⟩ => .scalar (.number written)
  | .string _, _, ⟨_, spells, hs⟩ => hs ▸ .scalar (.string spells.formed)
  | .array items, _, ⟨_, _, hitems, joined, hs⟩ => hs ▸ .array (formed_of_items items _ hitems) joined
  | .object members, _, ⟨texts, _, hmembers, joined, hs⟩ => by
    obtain ⟨pairs, rfl, keys, values⟩ := formed_of_members members texts hmembers
    exact hs ▸ .object keys values joined

theorem formed_of_items : ∀ (items : List Value) (texts : List (List Char)), WrittenItems items texts →
    ∀ text ∈ texts, Formed text
  | [], _, h, _, htext => by
    rw [show _ = [] from h] at htext
    cases htext
  | v :: rest, _, ⟨own, others, hv, hrest, hs⟩, text, htext => by
    rw [hs] at htext
    rcases List.mem_cons.mp htext with rfl | htext
    · exact v.formed_of_written text hv
    · exact formed_of_items rest others hrest text htext

theorem formed_of_members : ∀ (members : List (String × Value)) (texts : List (List Char)),
    WrittenMembers members texts → ∃ pairs : List (List Char × List Char),
      texts = pairs.map (fun m => m.1 ++ m.2) ∧ (∀ m ∈ pairs, FormedKey m.1) ∧
        ∀ m ∈ pairs, Formed m.2
  | [], _, h => ⟨[], h, nofun, nofun⟩
  | (_, v) :: rest, _, ⟨_, colon, own, others, ⟨inner, spells, hname⟩, hcolon, hv, hrest, hs⟩ => by
    obtain ⟨pairs, hpairs, keys, values⟩ := formed_of_members rest others hrest
    have key : FormedKey ('"' :: (inner ++ '"' :: colon)) := ⟨inner, colon, spells.formed, hcolon, rfl⟩
    refine ⟨('"' :: (inner ++ '"' :: colon), own) :: pairs, ?_, List.forall_mem_cons.mpr ⟨key, keys⟩,
      List.forall_mem_cons.mpr ⟨v.formed_of_written own hv, values⟩⟩
    rw [hs, hpairs, hname]
    simp

end

mutual

/-- The number of arrays and objects around one another. -/
def Value.nesting : Value → Nat
  | .array items => nestingOfItems items + 1
  | .object members => nestingOfMembers members + 1
  | _ => 0

def nestingOfItems : List Value → Nat
  | [] => 0
  | v :: rest => max v.nesting (nestingOfItems rest)

def nestingOfMembers : List (String × Value) → Nat
  | [] => 0
  | (_, v) :: rest => max v.nesting (nestingOfMembers rest)

end

mutual

theorem Value.height_le : ∀ v : Value, v.height ≤ v.nesting + 1
  | .null | .bool _ | .number _ | .string _ => Nat.le_refl 1
  | .array items => Nat.succ_le_succ (heightOfItems_le items)
  | .object members => Nat.succ_le_succ (heightOfMembers_le members)

theorem heightOfItems_le : ∀ items : List Value, heightOfItems items ≤ nestingOfItems items + 1
  | [] => Nat.zero_le _
  | v :: rest => by
    have first := v.height_le
    have others := heightOfItems_le rest
    rw [heightOfItems, nestingOfItems]
    omega

theorem heightOfMembers_le : ∀ members : List (String × Value),
    heightOfMembers members ≤ nestingOfMembers members + 1
  | [] => Nat.zero_le _
  | (_, v) :: rest => by
    have first := v.height_le
    have others := heightOfMembers_le rest
    rw [heightOfMembers, nestingOfMembers]
    omega

end

end LuaStubs.Json
