import LuaStubs.Proofs.Json.Grammar
import LuaStubs.Proofs.Outcomes
import Mathlib.Algebra.Group.Nat.Defs

/-! Each text of a scalar is read as far as it goes, and so it is skipped. -/

namespace LuaStubs.Json

open Outcome

/-- What may stand behind a value. -/
def Ends : List Char → Prop
  | [] => True
  | c :: _ => isBlank c = true ∨ c = ',' ∨ c = ']' ∨ c = '\x7d'

theorem skipBlank_append {s : List Char} (h : Blank s) (rest : List Char) :
    skipBlank (s ++ rest) = skipBlank rest := by
  induction s with
  | nil => rfl
  | cons c s ih =>
    have own := h c List.mem_cons_self
    rw [List.cons_append, skipBlank, if_pos own]
    exact ih fun d hd => h d (List.mem_cons_of_mem _ hd)

theorem skipBlank_cons {c : Char} (h : isBlank c = false) (rest : List Char) :
    skipBlank (c :: rest) = c :: rest := by
  rw [skipBlank, h]
  rfl

theorem takeLiteral_append (letters rest : List Char) :
    takeLiteral letters (letters ++ rest) = .ok rest := by
  induction letters with
  | nil => rfl
  | cons c letters ih =>
    rw [List.cons_append, takeLiteral, if_pos rfl]
    exact ih

/-! Strings. -/

theorem simpleEscape_of_mem {letter c : Char} (h : (letter, c) ∈ escapes) :
    simpleEscape? letter = some c := by
  have all : ∀ e ∈ escapes, simpleEscape? e.1 = some e.2 := by simp [escapes, simpleEscape?]
  exact all _ h

theorem ne_u_of_escape {letter c : Char} (h : (letter, c) ∈ escapes) : letter ≠ 'u' := by
  rintro rfl
  simp [escapes] at h

theorem hexValue_of_mem {c : Char} {value : Nat} (h : (c, value) ∈ hexDigits) :
    Text.hexValue? c = some value := by
  have all : ∀ e ∈ hexDigits, Text.hexValue? e.1 = some e.2 := by simp [hexDigits, Text.hexValue?]
  exact all _ h

theorem hexUnit_of_hex {unit : Nat} {digits : List Char} (h : Hex unit digits) :
    ∃ a b c d, digits = [a, b, c, d] ∧ hexUnit? a b c d = some unit := by
  obtain ⟨a, b, c, d, p, q, r, t, rfl, ha, hb, hc, hd, rfl⟩ := h
  refine ⟨a, b, c, d, rfl, ?_⟩
  simp [hexUnit?, hexValue_of_mem ha, hexValue_of_mem hb, hexValue_of_mem hc, hexValue_of_mem hd]

theorem char_range (c : Char) : c.toNat < 0xd800 ∨ 0xdfff < c.toNat ∧ c.toNat < 0x110000 :=
  c.valid

theorem not_surrogate (c : Char) : isLeadUnit c.toNat = false ∧ isTrailUnit c.toNat = false := by
  have range := char_range c
  simp only [isLeadUnit, isTrailUnit, Bool.and_eq_false_iff, decide_eq_false_iff_not]
  omega

theorem surrogates {c : Char} {offset : Nat} (beyond : c.toNat = 0x10000 + offset) :
    isTrailUnit (0xd800 + offset / 0x400) = false ∧ isLeadUnit (0xd800 + offset / 0x400) = true ∧
      isTrailUnit (0xdc00 + offset % 0x400) = true ∧
      pairChar (0xd800 + offset / 0x400) (0xdc00 + offset % 0x400) = c := by
  have range := char_range c
  have whole : 0x10000 + (0xd800 + offset / 0x400 - 0xd800) * 0x400 +
      (0xdc00 + offset % 0x400 - 0xdc00) = c.toNat := by omega
  simp only [isLeadUnit, isTrailUnit, Bool.and_eq_true, Bool.and_eq_false_iff,
    decide_eq_false_iff_not, decide_eq_true_eq]
  refine ⟨by omega, by omega, by omega, ?_⟩
  rw [pairChar, whole, Char.ofNat_toNat]

theorem readChars_append {chars s : List Char} (h : Spells chars s) (rest : List Char) :
    readChars (s ++ '"' :: rest) = .ok (chars, rest) := by
  induction h with
  | nil => rfl
  | plain quote escape control _ ih =>
    rw [List.cons_append, readChars.eq_7 _ _ quote (fun _ _ _ _ _ h _ => escape h)
      (fun _ h _ => escape h) (fun h _ => escape h) (fun _ _ h _ => escape h), if_neg control, ih]
    rfl
  | escape escape _ ih =>
    have letter := ne_u_of_escape escape
    rw [List.cons_append, List.cons_append, readChars.eq_6 _ _ (fun _ _ _ _ _ h _ => letter h) letter,
      simpleEscape_of_mem escape]
    simp only [ih]
    rfl
  | @unit char _ _ _ hex _ ih =>
    obtain ⟨a, b, c, d, rfl, hunit⟩ := hexUnit_of_hex hex
    obtain ⟨lead, trail⟩ := not_surrogate char
    simp only [List.cons_append, List.nil_append, readChars, hunit, lead, trail, ih,
      Char.ofNat_toNat]
    rfl
  | pair beyond hex hex' _ ih =>
    obtain ⟨a, b, c, d, rfl, hunit⟩ := hexUnit_of_hex hex
    obtain ⟨a', b', c', d', rfl, hunit'⟩ := hexUnit_of_hex hex'
    obtain ⟨notTrail, lead, trail, paired⟩ := surrogates beyond
    simp only [List.cons_append, List.nil_append, readChars, hunit, hunit', lead, notTrail, trail,
      paired, ih]
    rfl

theorem skipString_append {s : List Char} (h : FormedChars s) (rest : List Char) :
    skipString (s ++ '"' :: rest) = .ok rest := by
  induction h with
  | nil => rfl
  | plain quote escape control _ ih =>
    rw [List.cons_append, skipString.eq_7 _ _ quote (fun _ _ _ _ _ h _ => escape h)
      (fun _ h _ => escape h) (fun h _ => escape h) (fun _ _ h _ => escape h), if_neg control, ih]
  | escape escape _ ih =>
    have letter := ne_u_of_escape escape
    rw [List.cons_append, List.cons_append, skipString.eq_6 _ _ (fun _ _ _ _ _ h _ => letter h) letter,
      simpleEscape_of_mem escape]
    exact ih
  | unit hex _ ih =>
    obtain ⟨a, b, c, d, rfl, hunit⟩ := hexUnit_of_hex hex
    simp only [List.cons_append, List.nil_append, skipString, hunit, ih]

/-! Numerals. -/

theorem head_of_ends {c : Char} {rest : List Char} (h : Ends (c :: rest)) :
    c.isDigit = false ∧ c ≠ '.' ∧ (c = 'e' || c = 'E') = false := by
  have mem : c ∈ [' ', '\n', '\t', '\r', ',', ']', '\x7d'] := by
    simpa [Ends, isBlank, or_assoc] using h
  have all : ∀ c ∈ [' ', '\n', '\t', '\r', ',', ']', '\x7d'],
      c.isDigit = false ∧ c ≠ '.' ∧ (c = 'e' || c = 'E') = false := by simp
  exact all c mem

theorem startsWithDigit_of_ends {rest : List Char} (h : Ends rest) : startsWithDigit rest = false := by
  cases rest with
  | nil => rfl
  | cons c rest => exact (head_of_ends h).1

theorem span_digits {digits rest : List Char} (h : Digits digits)
    (hrest : startsWithDigit rest = false) :
    (digits ++ rest).takeWhile Char.isDigit = digits ∧
      (digits ++ rest).dropWhile Char.isDigit = rest := by
  have take : rest.takeWhile Char.isDigit = [] ∧ rest.dropWhile Char.isDigit = rest := by
    cases rest with
    | nil => exact ⟨rfl, rfl⟩
    | cons c rest =>
      have own : c.isDigit = false := hrest
      simp [own]
  rw [List.takeWhile_append_of_pos h, List.dropWhile_append_of_pos h, take.1, take.2]
  exact ⟨List.append_nil _, rfl⟩

theorem scanWhole_append {atEnd : Reason} {whole rest : List Char} (h : Numeral.Whole whole)
    (hrest : startsWithDigit rest = false) : scanWhole atEnd (whole ++ rest) = .ok (whole, rest) := by
  cases h with
  | zero => simp [scanWhole, hrest]
  | digits first nonzero digits =>
    obtain ⟨take, drop⟩ := span_digits digits hrest
    simp [scanWhole, nonzero, first, take, drop]

theorem startsWithDigit_append {digits : List Char} (h : Digits digits) (nonempty : digits ≠ [])
    (rest : List Char) : startsWithDigit (digits ++ rest) = true := by
  cases digits with
  | nil => exact absurd rfl nonempty
  | cons c digits => exact h c List.mem_cons_self

theorem scanFraction_append {atEnd : Reason} {digits fraction rest : List Char}
    (h : Numeral.Fraction digits fraction) (hrest : startsWithDigit rest = false)
    (hpoint : ∀ behind, rest ≠ '.' :: behind) :
    scanFraction atEnd (fraction ++ rest) = .ok (digits, rest) := by
  cases digits with
  | nil =>
    cases h
    rw [List.nil_append, scanFraction.eq_2 _ _ hpoint]
  | cons c digits =>
    obtain ⟨hdigits, rfl⟩ := h
    obtain ⟨take, drop⟩ := span_digits hdigits hrest
    rw [List.cons_append, scanFraction, if_pos (startsWithDigit_append hdigits nofun rest), take, drop]

theorem scanSign_append {negative : Bool} {sign digits rest : List Char}
    (h : Numeral.Sign negative sign) (hdigits : Digits digits) (nonempty : digits ≠ []) :
    scanSign (sign ++ (digits ++ rest)) = (negative, digits ++ rest) := by
  cases digits with
  | nil => exact absurd rfl nonempty
  | cons c digits =>
    have own := hdigits c List.mem_cons_self
    cases negative with
    | true =>
      cases h
      rfl
    | false =>
      rcases h with rfl | rfl
      · apply scanSign.eq_3
        · rintro _ ⟨rfl, -⟩
          cases own
        · rintro _ ⟨rfl, -⟩
          cases own
      · rfl

theorem scanExponent_append {atEnd : Reason} {exponent : Option (Bool × List Char)}
    {s rest : List Char} (h : Numeral.Exponent exponent s) (hrest : Ends rest) :
    scanExponent atEnd (s ++ rest) = .ok (exponent, rest) := by
  have hdigit := startsWithDigit_of_ends hrest
  match exponent, h with
  | none, rfl =>
    cases rest with
    | nil => rfl
    | cons c rest =>
      rw [List.nil_append, scanExponent, (head_of_ends hrest).2.2]
      rfl
  | some (negative, digits), ⟨nonempty, hdigits, mark, sign, hmark, hsign, hs⟩ =>
    obtain ⟨take, drop⟩ := span_digits hdigits hdigit
    have exponent : (mark = 'e' || mark = 'E') = true := by simpa using hmark
    rw [hs, List.cons_append, List.append_assoc, scanExponent, if_pos exponent,
      scanSign_append hsign hdigits nonempty]
    simp only [startsWithDigit_append hdigits nonempty rest, take, drop]
    rfl

/-- An exponent does not look like more digits, nor like a fraction. -/
theorem exponent_head {exponent : Option (Bool × List Char)} {s rest : List Char}
    (h : Numeral.Exponent exponent s) (hrest : Ends rest) :
    startsWithDigit (s ++ rest) = false ∧ ∀ behind, s ++ rest ≠ '.' :: behind := by
  match exponent, h with
  | none, rfl =>
    refine ⟨startsWithDigit_of_ends hrest, ?_⟩
    rintro behind rfl
    exact (head_of_ends hrest).2.1 rfl
  | some _, ⟨_, _, _, _, hmark, _, hs⟩ =>
    rw [hs]
    rcases hmark with rfl | rfl
    · exact ⟨rfl, fun _ h => absurd (List.cons.inj h).1 (by decide)⟩
    · exact ⟨rfl, fun _ h => absurd (List.cons.inj h).1 (by decide)⟩

theorem fraction_head {digits s rest : List Char} (h : Numeral.Fraction digits s)
    (hrest : startsWithDigit rest = false) : startsWithDigit (s ++ rest) = false := by
  cases digits with
  | nil =>
    cases h
    exact hrest
  | cons c digits =>
    obtain ⟨-, rfl⟩ := h
    rfl

theorem whole_head {s : List Char} (h : Numeral.Whole s) : ∃ c rest, s = c :: rest ∧ c.isDigit = true := by
  cases h with
  | zero => exact ⟨'0', [], rfl, rfl⟩
  | digits first _ _ => exact ⟨_, _, rfl, first⟩

theorem scanNumeral_append {atEnd : Reason} {n : Numeral} {s rest : List Char} (h : n.Written s)
    (hrest : Ends rest) : scanNumeral atEnd (s ++ rest) = .ok (n, rest) := by
  obtain ⟨negative, whole, digits, exponent⟩ := n
  obtain ⟨fraction, power, hwhole, hfraction, hpower, rfl⟩ := h
  obtain ⟨hdigit, hpoint⟩ := exponent_head hpower hrest
  have whole_eq : scanWhole atEnd (whole ++ (fraction ++ (power ++ rest))) =
      .ok (whole, fraction ++ (power ++ rest)) :=
    scanWhole_append hwhole (fraction_head hfraction hdigit)
  have fraction_eq : scanFraction atEnd (fraction ++ (power ++ rest)) = .ok (digits, power ++ rest) :=
    scanFraction_append hfraction hdigit hpoint
  have exponent_eq : scanExponent atEnd (power ++ rest) = .ok (exponent, rest) :=
    scanExponent_append hpower hrest
  cases negative with
  | true =>
    simp only [if_true, List.append_assoc, List.cons_append, List.nil_append]
    exact bind_eq_ok.mpr ⟨_, whole_eq, bind_eq_ok.mpr ⟨_, fraction_eq,
      bind_eq_ok.mpr ⟨_, exponent_eq, rfl⟩⟩⟩
  | false =>
    simp only [Bool.false_eq_true, if_false, List.append_assoc, List.nil_append]
    unfold scanNumeral
    split
    next sign s hsign =>
      split at hsign
      next behind hminus =>
        obtain ⟨c, others, hc, digit⟩ := whole_head hwhole
        rw [show whole = c :: others from hc] at hminus
        cases (List.cons.inj hminus).1
        cases digit
      next =>
        cases hsign
        exact bind_eq_ok.mpr ⟨_, whole_eq, bind_eq_ok.mpr ⟨_, fraction_eq,
          bind_eq_ok.mpr ⟨_, exponent_eq, rfl⟩⟩⟩

theorem readNumber_append {n : Numeral} {number : Number} {s rest : List Char} (h : n.Written s)
    (hvalue : n.value = .ok number) (hrest : Ends rest) :
    readNumber (s ++ rest) = .ok (number, rest) := by
  refine bind_eq_ok.mpr ⟨_, scanNumeral_append h hrest, ?_⟩
  simp only [hvalue]
  rfl

theorem skipNumber_append {n : Numeral} {s rest : List Char} (h : n.Written s) (hrest : Ends rest) :
    skipNumber (s ++ rest) = .ok rest :=
  map_eq_ok.mpr ⟨_, scanNumeral_append h hrest, rfl⟩

theorem head_of_written {n : Numeral} {s : List Char} (h : n.Written s) :
    ∃ c rest, s = c :: rest ∧ (c = '-' || c.isDigit) = true := by
  obtain ⟨fraction, power, hwhole, -, -, rfl⟩ := h
  obtain ⟨c, others, hc, digit⟩ := whole_head hwhole
  cases hsign : n.negative with
  | true => exact ⟨'-', _, rfl, rfl⟩
  | false => exact ⟨c, others ++ (fraction ++ power), by simp [hc], by simp [digit]⟩

theorem ne_of_head {c d : Char} (hc : (c = '-' || c.isDigit) = true)
    (hd : (d = '-' || d.isDigit) = false) : c ≠ d := by
  rintro rfl
  rw [hd] at hc
  cases hc

/-! Scalars among values. -/

namespace Value

/-- The character that the texts of a value may begin with. -/
def starts : Value → Char → Bool
  | .null, c => c = 'n'
  | .bool b, c => c = if b then 't' else 'f'
  | .number _, c => c = '-' || c.isDigit
  | .string _, c => c = '"'
  | .array _, c => c = '['
  | .object _, c => c = '\x7b'

theorem exists_head {v : Value} {s : List Char} (h : v.Written s) :
    ∃ c rest, s = c :: rest ∧ v.starts c = true := by
  cases v with
  | null => exact ⟨'n', _, h, rfl⟩
  | bool b =>
    cases b with
    | false => exact ⟨'f', _, h, rfl⟩
    | true => exact ⟨'t', _, h, rfl⟩
  | number n =>
    obtain ⟨numeral, written, -⟩ := h
    exact head_of_written written
  | string text =>
    obtain ⟨inner, -, rfl⟩ := h
    exact ⟨'"', _, rfl, rfl⟩
  | array items =>
    obtain ⟨texts, inner, -, -, rfl⟩ := h
    exact ⟨'[', _, rfl, rfl⟩
  | object members =>
    obtain ⟨texts, inner, -, -, rfl⟩ := h
    exact ⟨'\x7b', _, rfl, rfl⟩

theorem ne_of_starts {v : Value} {c other : Char} (h : v.starts c = true)
    (hother : other ∉ ['n', 't', 'f', '-', '"', '[', '\x7b']) (digit : other.isDigit = false) :
    c ≠ other := by
  rintro rfl
  simp only [List.mem_cons, List.not_mem_nil, or_false, not_or] at hother
  cases v with
  | bool b => cases b <;> simp [starts, hother] at h
  | _ => simp [starts, hother, digit] at h

theorem isBlank_of_starts {v : Value} {c : Char} (h : v.starts c = true) : isBlank c = false := by
  have space := @ne_of_starts v c ' ' h (by decide) rfl
  have newline := @ne_of_starts v c '\n' h (by decide) rfl
  have tab := @ne_of_starts v c '\t' h (by decide) rfl
  have carriage := @ne_of_starts v c '\r' h (by decide) rfl
  simp [isBlank, space, newline, tab, carriage]

def isScalar : Value → Bool
  | .array _ => false
  | .object _ => false
  | _ => true

end Value

theorem readScalar_append {v : Value} {s rest : List Char} (h : v.Written s)
    (scalar : v.isScalar = true) (hrest : Ends rest) : readScalar (s ++ rest) = .ok (v, rest) := by
  cases v with
  | null =>
    cases h
    exact map_eq_ok.mpr ⟨_, takeLiteral_append ['u', 'l', 'l'] rest, rfl⟩
  | bool b =>
    cases b with
    | false =>
      cases h
      exact map_eq_ok.mpr ⟨_, takeLiteral_append ['a', 'l', 's', 'e'] rest, rfl⟩
    | true =>
      cases h
      exact map_eq_ok.mpr ⟨_, takeLiteral_append ['r', 'u', 'e'] rest, rfl⟩
  | number n =>
    obtain ⟨numeral, written, value⟩ := h
    have read := readNumber_append written value hrest
    obtain ⟨c, others, rfl, hc⟩ := head_of_written written
    rw [List.cons_append] at read ⊢
    rw [readScalar, if_neg (ne_of_head hc rfl), if_neg (ne_of_head hc rfl), if_neg (ne_of_head hc rfl),
      if_neg (ne_of_head hc rfl), if_pos hc]
    exact map_eq_ok.mpr ⟨_, read, rfl⟩
  | string text =>
    obtain ⟨inner, spells, rfl⟩ := h
    have read : readChars (inner ++ ['"'] ++ rest) = .ok (text.toList, rest) := by
      rw [List.append_assoc]
      exact readChars_append spells rest
    refine map_eq_ok.mpr ⟨_, map_eq_ok.mpr ⟨_, read, rfl⟩, ?_⟩
    simp
  | array items => cases scalar
  | object members => cases scalar

theorem FormedScalar.exists_head {s : List Char} (h : FormedScalar s) :
    ∃ c rest, s = c :: rest ∧ ∃ v : Value, v.isScalar = true ∧ v.starts c = true := by
  cases h with
  | null => exact ⟨'n', _, rfl, .null, rfl, rfl⟩
  | yes => exact ⟨'t', _, rfl, .bool true, rfl, rfl⟩
  | no => exact ⟨'f', _, rfl, .bool false, rfl, rfl⟩
  | number written =>
    obtain ⟨c, rest, rfl, hc⟩ := head_of_written written
    exact ⟨c, rest, rfl, .number (.integer 0), rfl, hc⟩
  | string chars => exact ⟨'"', _, rfl, .string "", rfl, rfl⟩

theorem skipScalar_append {s rest : List Char} (h : FormedScalar s) (hrest : Ends rest) :
    skipScalar (s ++ rest) = .ok rest := by
  cases h with
  | null => exact takeLiteral_append ['u', 'l', 'l'] rest
  | yes => exact takeLiteral_append ['r', 'u', 'e'] rest
  | no => exact takeLiteral_append ['a', 'l', 's', 'e'] rest
  | number written =>
    have skip := skipNumber_append written hrest
    obtain ⟨c, others, rfl, hc⟩ := head_of_written written
    rw [List.cons_append] at skip ⊢
    rw [skipScalar, if_neg (ne_of_head hc rfl), if_neg (ne_of_head hc rfl), if_neg (ne_of_head hc rfl),
      if_neg (ne_of_head hc rfl), if_pos hc]
    exact skip
  | string chars =>
    have skip := skipString_append chars rest
    rw [← List.singleton_append, ← List.append_assoc] at skip
    exact skip

/-! The digits of natural numbers. -/

theorem le_ofDigitChars (digits : List Char) (init : Nat) :
    init ≤ Nat.ofDigitChars 10 digits init := by
  induction digits generalizing init with
  | nil => exact Nat.le_refl _
  | cons c digits ih =>
    have longer : init ≤ 10 * init + (c.toNat - '0'.toNat) := by omega
    exact Nat.le_trans longer (ih _)

theorem gather_ofDigitChars {limit : Nat} (digits : List Char) {init : Nat}
    (h : Nat.ofDigitChars 10 digits init ≤ limit) :
    gather limit init digits = (Nat.ofDigitChars 10 digits init, []) := by
  induction digits generalizing init with
  | nil => rfl
  | cons c digits ih =>
    rw [Nat.ofDigitChars_cons] at h ⊢
    have longer : init * 10 + (c.toNat - '0'.toNat) ≤ limit := by
      have := le_ofDigitChars digits (10 * init + (c.toNat - '0'.toNat))
      omega
    rw [gather, if_pos longer, Nat.mul_comm init, ih h]

theorem head_toDigits {n : Nat} (h : 0 < n) :
    ∃ c rest, Nat.toDigits 10 n = c :: rest ∧ c ≠ '0' := by
  induction n using Nat.strongRecOn with
  | ind n ih =>
    by_cases below : n < 10
    · have nonzero : ∀ d < 10, 0 < d → d.digitChar ≠ '0' := by decide
      exact ⟨n.digitChar, [], Nat.toDigits_of_lt_base below, nonzero n below h⟩
    · obtain ⟨c, rest, heq, hc⟩ := ih (n / 10) (by omega) (by omega)
      exact ⟨c, _, by rw [Nat.toDigits_of_base_le (by decide) (by omega), heq]; rfl, hc⟩

theorem written_natural {n : Nat} (h : n < 2 ^ 64) :
    (Value.number (.integer n)).Written (Nat.toDigits 10 n) := by
  have digits : Digits (Nat.toDigits 10 n) :=
    fun c hc => Nat.isDigit_of_mem_toDigits (by decide) (Nat.le_refl 10) hc
  have whole : Numeral.Whole (Nat.toDigits 10 n) := by
    rcases Nat.eq_zero_or_pos n with rfl | pos
    · exact .zero
    · obtain ⟨c, rest, heq, hc⟩ := head_toDigits pos
      rw [heq] at digits ⊢
      exact .digits (digits c List.mem_cons_self) hc fun d hd => digits d (List.mem_cons_of_mem _ hd)
  have value : Nat.ofDigitChars 10 (Nat.toDigits 10 n) 0 = n :=
    Nat.ofDigitChars_toDigits (by decide) (Nat.le_refl 10)
  have gathered := @gather_ofDigitChars 0xffffffffffffffff (Nat.toDigits 10 n) 0 (by omega)
  refine ⟨⟨false, Nat.toDigits 10 n, [], none⟩, ⟨[], [], whole, rfl, rfl, ?_⟩, ?_⟩
  · simp
  · rw [value] at gathered
    simp only [Numeral.value, gathered]
    rfl

end LuaStubs.Json
