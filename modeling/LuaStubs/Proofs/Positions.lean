import LuaStubs.Proofs.Loading.Checked
import Mathlib.Data.List.Induction

/-! Positions and the bytes that they mean. What a reader reports after some bytes are the newlines
among them and the bytes behind the last one; counted in bytes, the offset of a position undoes
that. -/

namespace LuaStubs.Text

def newline : UInt8 := 10

def utf8 (source : String) : List UInt8 :=
  source.toUTF8.data.toList

/-- The bytes of a text in UTF-8, character by character. -/
def encoded (s : List Char) : List UInt8 :=
  s.flatMap String.utf8EncodeChar

/-- How many bytes stand behind the last newline. -/
def sinceNewline (bs : List UInt8) : Nat :=
  (bs.reverse.takeWhile (· ≠ newline)).length

/-! Bytes. -/

theorem encoded_cons (c : Char) (s : List Char) :
    encoded (c :: s) = String.utf8EncodeChar c ++ encoded s :=
  List.flatMap_cons

theorem utf8_eq (source : String) : utf8 source = encoded source.toList := by
  rw [utf8, String.toUTF8_eq_toByteArray, ← String.ofList_toList (s := source), String.toByteArray_ofList,
    List.utf8Encode, List.data_toByteArray, String.toList_ofList, encoded]

theorem length_encoded (s : List Char) : (encoded s).length = bytes s := by
  induction s with
  | nil => rfl
  | cons c s ih => rw [encoded_cons, List.length_append, String.length_utf8EncodeChar, ih, bytes]

theorem utf8EncodeChar_newline : String.utf8EncodeChar '\n' = [newline] := by
  decide

theorem newline_not_mem {c : Char} (h : c ≠ '\n') : newline ∉ String.utf8EncodeChar c := by
  have code : c.val.toNat ≠ 10 := by
    intro same
    apply h
    exact Char.ext (UInt32.toNat_inj.mp same)
  have byte (n : Nat) (hn : n % 256 ≠ 10) : newline ≠ UInt8.ofNat n := by
    intro same
    apply hn
    simpa [newline] using (congrArg UInt8.toNat same).symm
  -- One branch for each number of bytes.
  unfold String.utf8EncodeChar
  dsimp only
  repeat' split
  all_goals simp only [List.mem_cons, List.not_mem_nil, or_false, not_or]
  · exact byte _ (by omega)
  · exact ⟨byte _ (by omega), byte _ (by omega)⟩
  · exact ⟨byte _ (by omega), byte _ (by omega), byte _ (by omega)⟩
  · exact ⟨byte _ (by omega), byte _ (by omega), byte _ (by omega), byte _ (by omega)⟩

theorem sinceNewline_append_singleton (bs : List UInt8) (b : UInt8) :
    sinceNewline (bs ++ [b]) = if b = newline then 0 else sinceNewline bs + 1 := by
  unfold sinceNewline
  by_cases h : b = newline <;> simp [h]

theorem sinceNewline_le (bs : List UInt8) : sinceNewline bs ≤ bs.length := by
  have hle := (List.takeWhile_sublist (· ≠ newline) (l := bs.reverse)).length_le
  rwa [List.length_reverse] at hle

namespace Position

/-! What a reader reports. -/

/-- The position after one byte more. -/
def step (p : Position) (b : UInt8) : Position :=
  if b = newline then ⟨p.line + 1, 0⟩ else ⟨p.line, p.column + 1⟩

theorem foldl_step_of_not_mem {bs : List UInt8} (h : newline ∉ bs) (p : Position) :
    bs.foldl step p = { p with column := p.column + bs.length } := by
  induction bs generalizing p with
  | nil => rfl
  | cons b bs ih =>
    have hb : b ≠ newline := fun same => h (same ▸ List.mem_cons_self)
    have hbs : newline ∉ bs := fun hmem => h (List.mem_cons_of_mem _ hmem)
    rw [List.foldl_cons, ih hbs, step, if_neg hb, List.length_cons]
    simp only [mk.injEq, true_and]
    omega

/-- A reader goes on byte by byte, also within a character. -/
theorem advance_eq (p : Position) (count : Nat) (s : List Char) :
    p.advance count s = ((encoded s).take count).foldl step p := by
  induction s generalizing p count with
  | nil => simp [advance, encoded]
  | cons c s ih =>
    rw [advance, encoded_cons, List.take_append, String.length_utf8EncodeChar]
    by_cases hc : c = '\n'
    · subst hc
      cases count with
      | zero => rfl
      | succ count => simp [ih, utf8EncodeChar_newline, Char.utf8Size, step, newline]
    · have plain := newline_not_mem hc
      split
      · rename_i within
        have hzero : count - c.utf8Size = 0 := by omega
        have hfront : newline ∉ (String.utf8EncodeChar c).take count :=
          fun hmem => plain (List.mem_of_mem_take hmem)
        rw [hzero, List.take_zero, List.append_nil, foldl_step_of_not_mem hfront, List.length_take,
          String.length_utf8EncodeChar, Nat.min_eq_left (Nat.le_of_lt within)]
      · rename_i beyond
        have hall : (String.utf8EncodeChar c).take count = String.utf8EncodeChar c :=
          List.take_of_length_le (by rw [String.length_utf8EncodeChar]; omega)
        rw [hall, List.foldl_append, foldl_step_of_not_mem plain, ih, String.length_utf8EncodeChar]

theorem foldl_step (bs : List UInt8) :
    bs.foldl step ⟨1, 0⟩ = ⟨1 + bs.count newline, sinceNewline bs⟩ := by
  induction bs using List.reverseRecOn with
  | nil => rfl
  | append_singleton bs b ih =>
    rw [List.foldl_append, ih, sinceNewline_append_singleton, List.count_append]
    by_cases hb : b = newline
    · simp [step, hb, Nat.add_assoc]
    · simp [step, hb]

/-- What is reported are the newlines among the bytes read, and the bytes behind the last one. -/
theorem after_eq (count : Nat) (s : List Char) :
    after count s =
      ⟨1 + ((encoded s).take count).count newline, sinceNewline ((encoded s).take count)⟩ := by
  rw [after, advance_eq, foldl_step]

/-! Where lines begin. -/

/-- The bytes before the line with the given index. -/
def startOf? : Nat → List UInt8 → Option Nat
  | 0, _ => some 0
  | _ + 1, [] => none
  | index + 1, b :: rest =>
    if b = newline then (startOf? index rest).map (· + 1)
    else (startOf? (index + 1) rest).map (· + 1)

theorem startOf?_append {bs : List UInt8} (h : newline ∉ bs) (index : Nat) (rest : List UInt8) :
    startOf? (index + 1) (bs ++ rest) = (startOf? (index + 1) rest).map (· + bs.length) := by
  induction bs with
  | nil => simp
  | cons b bs ih =>
    have hb : b ≠ newline := fun same => h (same ▸ List.mem_cons_self)
    have hbs : newline ∉ bs := fun hmem => h (List.mem_cons_of_mem _ hmem)
    rw [List.cons_append, startOf?, if_neg hb, ih hbs, Option.map_map]
    congr 1

theorem lineStart?_eq (index : Nat) (s : List Char) :
    lineStart? index s = startOf? index (encoded s) := by
  induction s generalizing index with
  | nil => cases index <;> rfl
  | cons c s ih =>
    cases index with
    | zero => rw [lineStart?, startOf?]
    | succ index =>
      rw [lineStart?, encoded_cons, ih, ih]
      by_cases hc : c = '\n'
      · subst hc
        rw [if_pos rfl, utf8EncodeChar_newline, List.singleton_append, startOf?, if_pos rfl]
        rfl
      · rw [if_neg hc, startOf?_append (newline_not_mem hc), String.length_utf8EncodeChar]

theorem startOf?_newline (bs rest : List UInt8) :
    startOf? (bs.count newline + 1) (bs ++ newline :: rest) = some (bs.length + 1) := by
  induction bs with
  | nil => simp [startOf?]
  | cons b bs ih =>
    by_cases hb : b = newline
    · simp [startOf?, hb, ih]
    · simp [startOf?, hb, ih]

theorem startOf?_count (bs rest : List UInt8) :
    startOf? (bs.count newline) (bs ++ rest) = some (bs.length - sinceNewline bs) := by
  induction bs using List.reverseRecOn generalizing rest with
  | nil => rw [List.count_nil, startOf?, List.length_nil, Nat.zero_sub]
  | append_singleton bs b ih =>
    rw [sinceNewline_append_singleton, List.append_assoc, List.singleton_append, List.count_append,
      List.length_append]
    by_cases hb : b = newline
    · simp [hb, startOf?_newline]
    · have hle := sinceNewline_le bs
      simp [hb, ih]

theorem startOf?_eq_none {bs : List UInt8} {index : Nat} (h : bs.count newline < index) :
    startOf? index bs = none := by
  induction bs generalizing index with
  | nil =>
    obtain ⟨index, rfl⟩ := Nat.exists_eq_succ_of_ne_zero (Nat.ne_zero_of_lt h)
    rfl
  | cons b bs ih =>
    obtain ⟨index, rfl⟩ := Nat.exists_eq_succ_of_ne_zero (Nat.ne_zero_of_lt h)
    rw [List.count_cons] at h
    rw [startOf?]
    split
    · rename_i hb
      rw [ih (by simp [hb] at h; omega)]
      rfl
    · rename_i hb
      rw [ih (by simp [hb] at h; omega)]
      rfl

/-- A line that exists has a front of the text before it, which its newline ends. -/
theorem exists_front {bs : List UInt8} {index : Nat} (h : index ≤ bs.count newline) :
    ∃ front rest, bs = front ++ rest ∧ front.count newline = index ∧ sinceNewline front = 0 := by
  induction bs using List.reverseRecOn with
  | nil => exact ⟨[], [], rfl, (Nat.le_zero.mp h).symm, rfl⟩
  | append_singleton bs b ih =>
    by_cases earlier : index ≤ bs.count newline
    · obtain ⟨front, rest, rfl, hcount, hend⟩ := ih earlier
      exact ⟨front, rest ++ [b], List.append_assoc .., hcount, hend⟩
    · rw [List.count_append] at h
      have hb : b = newline := by
        apply Decidable.byContradiction
        intro other
        rw [List.count_singleton, beq_eq_false_iff_ne.mpr other] at h
        exact earlier h
      subst hb
      refine ⟨bs ++ [newline], [], (List.append_nil _).symm, ?_, ?_⟩
      · rw [List.count_append]
        rw [List.count_singleton_self] at h ⊢
        omega
      · rw [sinceNewline_append_singleton, if_pos rfl]

/-- A line begins at an offset: the newlines before it are those of the lines before, and the last byte
before it is one of them. -/
structure Starts (bs : List UInt8) (line start : Nat) : Prop where
  within : start ≤ bs.length
  line : line = 1 + (bs.take start).count newline
  begins : start = 0 ∨ bs[start - 1]? = some newline

/-- The byte right before an offset where no byte of a line has passed is a newline. -/
theorem begins_of_sinceNewline {front : List UInt8} (h : sinceNewline front = 0) (rest : List UInt8) :
    front.length = 0 ∨ (front ++ rest)[front.length - 1]? = some newline := by
  rcases List.eq_nil_or_concat front with rfl | ⟨bs, b, rfl⟩
  · exact .inl rfl
  · right
    rw [List.concat_eq_append] at h ⊢
    rw [sinceNewline_append_singleton] at h
    have hb : b = newline := Decidable.byContradiction fun other => by simp [other] at h
    simp [hb]

/-- The offset of a position, whether sums wrap or are checked. -/
structure Finds (p : Position) (source : List Char) (n : Nat) : Prop where
  wrapping : p.offset source = n
  checked : p.offset? source = some n

theorem finds_of_offset? {p : Position} {source : List Char} {n : Nat}
    (h : p.offset? source = some n) : p.Finds source n :=
  ⟨offset_eq_of_offset? h, h⟩

section

variable {source : List Char}

/-- The position of the byte at an index: the newlines before it, and the bytes of its line so far. -/
def ofByte (bs : List UInt8) (index : Nat) : Position :=
  ⟨1 + (bs.take index).count newline, 1 + sinceNewline (bs.take index)⟩

theorem offset?_of_startOf? {start : Nat} {p : Position}
    (h : startOf? (p.line - 1) (encoded source) = some start)
    (word : start + (p.column - 1) < wordSize) :
    p.offset? source = some (min (start + (p.column - 1)) (encoded source).length) := by
  rw [offset?, lineStart?_eq, h, length_encoded]
  exact if_pos word

theorem sinceNewline_take_le (bs : List UInt8) (n : Nat) : sinceNewline (bs.take n) ≤ n :=
  Nat.le_trans (sinceNewline_le _) (List.length_take_le ..)

/-- A column that ends within the text is counted from the line that a front of the text has reached. -/
theorem finds_of_reached (held : (encoded source).length < wordSize) {n column : Nat}
    (h : n ≤ (encoded source).length)
    (ends : n - sinceNewline ((encoded source).take n) + (column - 1) ≤ (encoded source).length) :
    (Position.mk (1 + ((encoded source).take n).count newline) column).Finds source
      (n - sinceNewline ((encoded source).take n) + (column - 1)) := by
  have reached := startOf?_count ((encoded source).take n) ((encoded source).drop n)
  rw [List.take_append_drop, List.length_take, Nat.min_eq_left h] at reached
  apply finds_of_offset?
  rw [offset?_of_startOf? (by simpa only [Nat.add_sub_cancel_left] using reached)
    (Nat.lt_of_le_of_lt ends held), Nat.min_eq_left ends]

theorem finds_ofByte (held : (encoded source).length < wordSize) {n : Nat}
    (h : n ≤ (encoded source).length) : (ofByte (encoded source) n).Finds source n := by
  have hle := sinceNewline_take_le (encoded source) n
  have whole : n - sinceNewline ((encoded source).take n)
      + (1 + sinceNewline ((encoded source).take n) - 1) = n := by omega
  have found := finds_of_reached held h (whole.symm ▸ h)
  rwa [whole] at found

/-- What is reported after some bytes means the last of them, or where the line begins. -/
theorem finds_after (held : (encoded source).length < wordSize) {n : Nat}
    (h : n ≤ (encoded source).length) :
    (after n source).Finds source (n - min 1 (sinceNewline ((encoded source).take n))) := by
  have hle := sinceNewline_take_le (encoded source) n
  have whole : n - sinceNewline ((encoded source).take n)
      + (sinceNewline ((encoded source).take n) - 1) =
        n - min 1 (sinceNewline ((encoded source).take n)) := by omega
  rw [after_eq, ← whole]
  exact finds_of_reached held h (by omega)

theorem after_eq_ofByte {n : Nat} {b : UInt8} (hb : (encoded source)[n]? = some b)
    (other : b ≠ newline) : after (n + 1) source = ofByte (encoded source) n := by
  rw [after_eq, List.take_add_one, hb, Option.toList_some, List.count_append,
    sinceNewline_append_singleton, if_neg other, ofByte, List.count_singleton,
    beq_eq_false_iff_ne.mpr other]
  simp [Nat.add_comm]

theorem exists_starts (held : (encoded source).length < wordSize) {line : Nat} (first : 1 ≤ line)
    (last : line ≤ 1 + (encoded source).count newline) :
    ∃ start, (Position.mk line 0).Finds source start ∧ Starts (encoded source) line start := by
  have hindex : line - 1 ≤ (encoded source).count newline := by omega
  obtain ⟨front, rest, split, hcount, hend⟩ := exists_front hindex
  have start := startOf?_count front rest
  rw [← split, hcount, hend, Nat.sub_zero] at start
  have hlength : front.length ≤ (encoded source).length := by
    rw [split, List.length_append]
    exact Nat.le_add_right ..
  refine ⟨front.length, finds_of_offset? ?_, hlength, ?_, ?_⟩
  · rw [offset?_of_startOf? start (Nat.lt_of_le_of_lt hlength held)]
    exact congrArg some (Nat.min_eq_left hlength)
  · rw [split, List.take_left, hcount]
    omega
  · rw [split]
    exact begins_of_sinceNewline hend rest

theorem finds_past {line : Nat} (h : 1 + (encoded source).count newline < line) (column : Nat) :
    (Position.mk line column).Finds source (encoded source).length := by
  have none : startOf? (line - 1) (encoded source) = none := startOf?_eq_none (by omega)
  apply finds_of_offset?
  rw [offset?, lineStart?_eq, none, length_encoded]

/-- Checked sums have no answer exactly where the column is counted beyond all words. -/
theorem offset?_eq_none {p : Position} : p.offset? source = none ↔
    ∃ start, lineStart? (p.line - 1) source = some start ∧ wordSize ≤ start + (p.column - 1) := by
  unfold offset?
  cases lineStart? (p.line - 1) source with
  | none => simp
  | some start =>
    dsimp only
    split
    · rename_i word
      simpa using word
    · rename_i large
      simpa using large

theorem offset_le_length (p : Position) : p.offset source ≤ (encoded source).length :=
  length_encoded source ▸ p.offset_le_bytes source

end

/-- A fault stands where a reader has come to within the text. -/
theorem exists_read_of_malformed {source fileName name : String} {start : Nat} {fault : Json.Fault}
    (h : Api.load source fileName = .error (.malformed name start fault)) :
    start = fault.position.offset source.toList ∧
    ∃ read ≤ bytes source.toList, fault.position = after read source.toList := by
  rcases Api.Draft.load_cases source fileName with ⟨found, hparse, hload⟩ | ⟨draft, -, refused⟩
  · cases h.symm.trans hload
    refine ⟨rfl, ?_⟩
    obtain ⟨failure, -, rfl⟩ := Outcome.mapError_eq_error.mp hparse
    cases failure with
    | located reason left => exact ⟨_, Nat.sub_le .., rfl⟩
    | floating reason rest => exact ⟨_, Nat.sub_le .., rfl⟩
  · rw [h] at refused
    cases refused with
    | concept _ _ _ _ _ bad => cases bad

/-- Offsets undo positions, in a text of fewer bytes than there are words, as any text in memory is. A
byte is found by the line that the newlines before it make and the column that its line makes up to it,
which is what a reader reports behind it unless it is a newline. Column zero is where a line begins, and
a line that does not exist is where the text ends. Nothing lies beyond the text, also where the sum
wraps; where sums are checked, only that case has no answer. The fault of a text that cannot be loaded
is at the byte read last, or right behind it where a line begins. -/
theorem offset_inverts (source : String) (held : (utf8 source).length < wordSize) :
    (∀ index ≤ (utf8 source).length,
      (ofByte (utf8 source) index).Finds source.toList index ∧
      (ofByte (utf8 source) index).column =
        1 + (index - (mk (ofByte (utf8 source) index).line 0).offset source.toList)) ∧
    (∀ index b, (utf8 source)[index]? = some b → b ≠ newline →
      after (index + 1) source.toList = ofByte (utf8 source) index) ∧
    (∀ line, 1 ≤ line → line ≤ 1 + (utf8 source).count newline →
      ∃ start, (mk line 0).Finds source.toList start ∧ Starts (utf8 source) line start) ∧
    (∀ line column, 1 + (utf8 source).count newline < line →
      (mk line column).Finds source.toList (utf8 source).length) ∧
    (∀ p : Position, p.offset source.toList ≤ (utf8 source).length ∧
      (∀ n, p.offset? source.toList = some n → p.offset source.toList = n) ∧
      (p.offset? source.toList = none ↔ ∃ start,
        lineStart? (p.line - 1) source.toList = some start ∧ wordSize ≤ start + (p.column - 1))) ∧
    ∀ fileName name start fault, Api.load source fileName = .error (.malformed name start fault) →
      fault.position.Finds source.toList start ∧ start ≤ (utf8 source).length ∧
        ∃ read ≤ (utf8 source).length,
          fault.position = after read source.toList ∧ start ≤ read ∧ read ≤ start + 1 := by
  rw [utf8_eq] at held ⊢
  refine ⟨fun index h => ⟨finds_ofByte held h, ?_⟩, fun _ _ => after_eq_ofByte,
    fun _ => exists_starts held, fun _ column h => finds_past h column,
    fun p => ⟨offset_le_length p, fun _ => offset_eq_of_offset?, offset?_eq_none⟩, ?_⟩
  · have hle := sinceNewline_take_le (encoded source.toList) index
    have start := @finds_of_reached source.toList held index 0 h (by omega)
    rw [ofByte, start.wrapping]
    dsimp only
    omega
  · intro fileName name start fault h
    obtain ⟨rfl, read, hread, hposition⟩ := exists_read_of_malformed h
    rw [← length_encoded] at hread
    have found := finds_after held hread
    rw [← hposition] at found
    have hle := sinceNewline_take_le (encoded source.toList) read
    rw [found.wrapping]
    exact ⟨found, by omega, read, hread, hposition, by omega, by omega⟩

end Position

/-! A text with an empty line, a character of two bytes, a fault and a newline in the end. -/

def faultyText : String := "\x7b\n\n\"é\" 1\x7d\n"

theorem offset_inverts_faultyText :
    (utf8 faultyText).length = 11 ∧ 11 < wordSize ∧
    (Position.mk 3 6).Finds faultyText.toList 8 ∧
    Position.after 9 faultyText.toList = ⟨3, 6⟩ ∧
    (∃ start, (Position.mk 4 0).Finds faultyText.toList start ∧
      Position.Starts (utf8 faultyText) 4 start) ∧
    (Position.mk 5 7).Finds faultyText.toList 11 ∧
    (Position.mk 3 (wordSize - 1)).offset faultyText.toList = 1 ∧
    (Position.mk 3 (wordSize - 1)).offset? faultyText.toList = none ∧
    ∃ fault, Api.load faultyText "a.json" = .error (.malformed "a.json" 8 fault) ∧
      8 ≤ (utf8 faultyText).length := by
  have hbytes : utf8 faultyText = [123, 10, 10, 34, 195, 169, 34, 32, 49, 125, 10] := by decide
  have held : (utf8 faultyText).length < wordSize := by
    rw [hbytes]
    decide
  obtain ⟨inverts, reported, starts, past, all, faults⟩ := Position.offset_inverts faultyText held
  have position : Position.ofByte (utf8 faultyText) 8 = ⟨3, 6⟩ := by
    rw [hbytes]
    decide
  have large := (all ⟨3, wordSize - 1⟩).2.2
  refine ⟨by rw [hbytes]; rfl, by decide, ?_, ?_, ?_, ?_, by decide, ?_, ?_⟩
  · rw [← position]
    exact (inverts 8 (by rw [hbytes]; decide)).1
  · rw [← position]
    exact reported 8 49 (by rw [hbytes]; rfl) (by decide)
  · exact starts 4 (by decide) (by rw [hbytes]; decide)
  · have found := past 5 7 (by rw [hbytes]; decide)
    rwa [hbytes] at found
  · exact large.mpr ⟨3, by decide, by decide⟩
  · have hload : Api.load faultyText "a.json"
        = .error (.malformed "a.json" 8 ⟨.expectedColon, ⟨3, 6⟩⟩) := by rfl
    exact ⟨_, hload, (faults _ _ _ _ hload).2.1⟩

end LuaStubs.Text
