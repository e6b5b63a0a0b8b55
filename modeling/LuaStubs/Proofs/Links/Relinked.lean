import LuaStubs.Proofs.Links.Pages
import LuaStubs.Proofs.Prose.Prepared

/-! How a text is prepared from its front on: text without fences belongs to the first stretch, text
without newlines to the first line, what is no link stays, and a link is replaced where it
stands. -/

namespace LuaStubs

namespace Markdown

/-! Links in front of a text. -/

theorem lineTo?_eq_none {mark : Char} (hnewline : mark ≠ '\n') (more : List Char) {line : List Char}
    (hmark : mark ∉ line) {rest : List Char} (hrest : rest = [] ∨ rest.head? = some '\n')
    (c : Char) : lineTo? (mark :: more) (c :: (line ++ rest)) = none := by
  induction line generalizing c with
  | nil =>
    rw [List.nil_append, lineTo?]
    cases rest with
    | nil => simp [lineTo?]
    | cons d rest =>
      have hd : d = '\n' := by simpa using hrest
      simp [hd, hnewline, lineTo?]
  | cons d line ih =>
    have hd : mark ≠ d := fun same => hmark (same ▸ List.mem_cons_self)
    rw [List.cons_append, lineTo?, ih fun hmem => hmark (List.mem_cons_of_mem _ hmem)]
    simp [hd]

theorem link?_append {display target : List Char} (hdisplay : display ≠ []) (htarget : target ≠ [])
    (line : '\n' ∉ display) (line' : '\n' ∉ target) (bracket : ']' ∉ display) (paren : ')' ∉ target)
    (rest : List Char) :
    link? (display ++ ']' :: '(' :: (target ++ ')' :: rest)) = some (display, target) := by
  have hopen := lineTo?_append ['('] hdisplay line (fun hmem => bracket (List.mem_of_mem_tail hmem))
    (']' :: '(' :: (target ++ ')' :: rest))
  have hclose := lineTo?_append [] htarget line' (fun hmem => paren (List.mem_of_mem_tail hmem))
    (')' :: rest)
  simp [link?, hopen, hclose]

theorem pieces_append {s : List Char} (h : '[' ∉ s) (t : List Char) :
    pieces (s ++ t) = s.map .char ++ pieces t := by
  induction s with
  | nil => rfl
  | cons c s ih =>
    have hc : c ≠ '[' := fun same => h (same ▸ List.mem_cons_self)
    rw [List.cons_append, pieces_cons_of_not_link (if_neg hc),
      ih fun hmem => h (List.mem_cons_of_mem _ hmem)]
    rfl

/-! Text in front of all fences and newlines. -/

/-- Each stretch takes the text apart further, so that there is no bound on their number. -/
theorem stretchesWithin_eq {most : Nat} {s : List Char} (h : s.length ≤ most) :
    stretchesWithin most s = stretches s := by
  suffices same : ∀ m n (s : List Char), s.length ≤ m → s.length ≤ n →
      stretchesWithin m s = stretchesWithin n s from same most s.length s h (Nat.le_refl _)
  intro m
  induction m with
  | zero =>
    intro n s hm _
    cases List.eq_nil_of_length_eq_zero (Nat.le_zero.mp hm)
    cases n <;> rfl
  | succ m ih =>
    intro n s hm hn
    cases n with
    | zero =>
      cases List.eq_nil_of_length_eq_zero (Nat.le_zero.mp hn)
      rfl
    | succ n =>
      rw [stretchesWithin, stretchesWithin]
      cases hopen : Text.splitAtMark fence s with
      | none => rfl
      | some cut =>
        obtain ⟨before, rest⟩ := cut
        cases hclose : Text.splitAtMark fence rest with
        | none => simp only [hclose]
        | some cut =>
          obtain ⟨code, after⟩ := cut
          have hlength : after.length < s.length := by
            rw [eq_of_splitAtMark hopen, eq_of_splitAtMark hclose]
            simp [fence]
            omega
          simp only [hclose, ih n after (by omega) (by omega)]

theorem stretches_single {s : List Char}
    (h : ∀ before rest, Text.splitAtMark fence s = some (before, rest) →
      Text.splitAtMark fence rest = none) : stretches s = [.prose s] := by
  unfold stretches
  cases s.length with
  | zero => rfl
  | succ most =>
    rw [stretchesWithin]
    cases hopen : Text.splitAtMark fence s with
    | none => rfl
    | some cut =>
      obtain ⟨before, rest⟩ := cut
      simp only [h before rest hopen]

theorem stretches_fenced {s before rest code after : List Char}
    (hopen : Text.splitAtMark fence s = some (before, rest))
    (hclose : Text.splitAtMark fence rest = some (code, after)) :
    stretches s = .prose before :: .code code :: stretches after := by
  have hs : s = before ++ fence ++ (code ++ fence ++ after) := by
    rw [eq_of_splitAtMark hopen, eq_of_splitAtMark hclose]
  obtain ⟨most, hmost⟩ : ∃ most, s.length = most + 1 :=
    Nat.exists_eq_add_one_of_ne_zero (by rw [hs]; simp [fence])
  have hafter : after.length ≤ most := by
    rw [hs] at hmost
    simp [fence] at hmost
    omega
  rw [stretches, hmost, stretchesWithin, hopen]
  simp only [hclose, stretchesWithin_eq hafter]

theorem stretches_append {s : List Char} (h : '`' ∉ s) (t : List Char) :
    ∃ front others, stretches (s ++ t) = .prose (s ++ front) :: others := by
  unfold stretches
  cases (s ++ t).length with
  | zero => exact ⟨t, [], rfl⟩
  | succ most =>
    have happend := Text.splitAtMark_append ['`', '`'] h t
    rw [stretchesWithin, fence, happend]
    cases Text.splitAtMark ['`', '`', '`'] t with
    | none => exact ⟨t, [], rfl⟩
    | some cut =>
      obtain ⟨before, after⟩ := cut
      simp only [Option.map_some]
      cases Text.splitAtMark ['`', '`', '`'] after with
      | none => exact ⟨t, [], rfl⟩
      | some cut => exact ⟨before, _, rfl⟩

theorem hardBreaksAfter_append {s : List Char} (h : '\n' ∉ s) (hne : s ≠ []) (inLine : Bool)
    (t : List Char) : hardBreaksAfter inLine (s ++ t) = s ++ hardBreaksAfter true t := by
  induction s generalizing inLine with
  | nil => exact absurd rfl hne
  | cons c s ih =>
    have hc : c ≠ '\n' := fun same => h (same ▸ List.mem_cons_self)
    rw [List.cons_append, hardBreaksAfter_cons_of_ne _ hc]
    cases s with
    | nil => rfl
    | cons d s => rw [ih (fun hmem => h (List.mem_cons_of_mem _ hmem)) (by simp)]; rfl

end Markdown

theorem Text.lines_append {s : List Char} (h : '\n' ∉ s) (t : List Char) :
    ∃ line others, Text.lines t = line :: others ∧ Text.lines (s ++ t) = (s ++ line) :: others := by
  obtain ⟨line, others, ht⟩ := List.exists_cons_of_ne_nil (Text.lines_ne_nil t)
  refine ⟨line, others, ht, ?_⟩
  induction s with
  | nil => exact ht
  | cons c s ih =>
    have hc : c ≠ '\n' := fun same => h (same ▸ List.mem_cons_self)
    rw [List.cons_append, Text.lines, if_neg hc, ih fun hmem => h (List.mem_cons_of_mem _ hmem)]
    rfl

open Markdown

/-- A newline before more text on its line is broken hard. -/
theorem hardBreaksAfter_break {c : Char} {s : List Char} (hs : s.head? = some c) (hc : c ≠ '\n') :
    hardBreaksAfter true ('\n' :: s) = ' ' :: ' ' :: '\n' :: hardBreaksAfter false s := by
  have hne : s ≠ [] := by
    rintro rfl
    cases hs
  simp [hardBreaksAfter, hne, hs, hc]

theorem hardBreaksAfter_intercalate {texts : List String}
    (h : ∀ text ∈ texts, text ≠ "" ∧ '\n' ∉ text.toList) (inLine : Bool) :
    hardBreaksAfter inLine ("\n".intercalate texts).toList = ("  \n".intercalate texts).toList := by
  induction texts generalizing inLine with
  | nil => rfl
  | cons text texts ih =>
    obtain ⟨⟨hne, hline⟩, hrest⟩ := List.forall_mem_cons.mp h
    have hlist : text.toList ≠ [] := by simpa using hne
    by_cases hlast : texts = []
    · subst hlast
      have hbreaks := hardBreaksAfter_append hline hlist inLine []
      simpa [hardBreaksAfter] using hbreaks
    · obtain ⟨next, more, rfl⟩ := List.exists_cons_of_ne_nil hlast
      obtain ⟨hnext, hnextLine⟩ := hrest next List.mem_cons_self
      obtain ⟨c, rest, hchars⟩ := List.exists_cons_of_ne_nil
        (show next.toList ≠ [] by simpa using hnext)
      have hhead : ("\n".intercalate (next :: more)).toList.head? = some c := by
        rw [head?_intercalate "\n" hnext, hchars]
        rfl
      have hc : c ≠ '\n' := by
        rintro rfl
        simp [hchars] at hnextLine
      rw [toList_intercalate_cons _ _ hlast, toList_intercalate_cons _ _ hlast, ← ih hrest false,
        hardBreaksAfter_append hline hlist]
      exact congrArg (text.toList ++ ·) (hardBreaksAfter_break hhead hc)

/-- The end of a text, or of a line that is broken hard. -/
def LineEnd (s : List Char) : Prop :=
  s = [] ∨ ∃ more, s = ' ' :: ' ' :: '\n' :: more

namespace Manual

variable {manual : Manual}

theorem relinkPieces_chars (s : List Char) (ps : List Piece) :
    manual.relinkPieces (s.map .char ++ ps) = (manual.relinkPieces ps).map (s ++ ·) := by
  induction s with
  | nil => cases h : manual.relinkPieces ps <;> simp [h, Except.map]
  | cons c s ih =>
    rw [List.map_cons, List.cons_append, relinkPieces, ih]
    cases manual.relinkPieces ps <;> rfl

theorem relink_append {s : List Char} (h : '[' ∉ s) (t : List Char) :
    manual.relink (s ++ t) = (manual.relink t).map (s ++ ·) := by
  rw [relink, pieces_append h, relinkPieces_chars]
  rfl

theorem relink_char {c : Char} {s : List Char} (h : (if c = '[' then link? s else none) = none) :
    manual.relink (c :: s) = (manual.relink s).map (c :: ·) := by
  rw [relink, pieces_cons_of_not_link h]
  exact relinkPieces_chars [c] _

theorem relink_bracket {s : List Char} (h : link? s = none) :
    manual.relink ('[' :: s) = (manual.relink s).map ('[' :: ·) :=
  relink_char (by rw [if_pos rfl, h])

theorem relink_plain {s : List Char} (h : '[' ∉ s) : manual.relink s = .ok s := by
  have happend := manual.relink_append h []
  rw [List.append_nil] at happend
  rw [happend]
  simp [relink, pieces, piecesAfter, relinkPieces, Except.map]

theorem relink_found {display target rest : List Char}
    (h : link? (display ++ ']' :: '(' :: (target ++ ')' :: rest)) = some (display, target)) :
    manual.relink ((Piece.link display target).text ++ rest)
      = manual.relinked display target >>= fun link => (manual.relink rest).map (link ++ ·) := by
  rw [relink, pieces_found h, relinkPieces, relink]
  rfl

theorem relink_link {display target : List Char} (hdisplay : display ≠ []) (htarget : target ≠ [])
    (line : '\n' ∉ display) (line' : '\n' ∉ target) (bracket : ']' ∉ display) (paren : ')' ∉ target)
    (rest : List Char) {link : List Char} (h : manual.relinked display target = .ok link) :
    manual.relink ((Piece.link display target).text ++ rest)
      = (manual.relink rest).map (link ++ ·) := by
  rw [relink_found (link?_append hdisplay htarget line line' bracket paren rest), h]
  rfl

theorem relink_intercalate {texts : List (String × String)}
    (h : ∀ text ∈ texts, ∀ tail, LineEnd tail →
      manual.relink (text.1.toList ++ tail) = (manual.relink tail).map (text.2.toList ++ ·)) :
    manual.relink ("  \n".intercalate (texts.map (·.1))).toList
      = .ok ("  \n".intercalate (texts.map (·.2))).toList := by
  induction texts with
  | nil => exact relink_plain (by simp)
  | cons text texts ih =>
    obtain ⟨htext, hrest⟩ := List.forall_mem_cons.mp h
    by_cases hlast : texts = []
    · subst hlast
      have hrelink := htext [] (.inl rfl)
      rw [relink_plain (by simp : '[' ∉ ([] : List Char))] at hrelink
      simpa [Except.map] using hrelink
    · have hbreak := manual.relink_append (s := "  \n".toList) (by decide)
        ("  \n".intercalate (texts.map (·.1))).toList
      rw [ih hrest] at hbreak
      rw [List.map_cons, List.map_cons, toList_intercalate_cons _ _ (by simpa using hlast),
        toList_intercalate_cons _ _ (by simpa using hlast),
        htext ("  \n".toList ++ ("  \n".intercalate (texts.map (·.1))).toList) (.inr ⟨_, rfl⟩), hbreak]
      rfl

/-- A text without two fences is all prose. -/
theorem prepare_single {s : List Char}
    (h : ∀ before rest, Text.splitAtMark fence s = some (before, rest) →
      Text.splitAtMark fence rest = none) : manual.prepare s = manual.relink (hardBreaks s) := by
  rw [prepare, stretches_single h, prepareStretches]
  cases manual.relink (hardBreaks s) with
  | error e => rfl
  | ok text => exact congrArg Except.ok (List.append_nil text)

theorem prepare_fenced {s before rest code after : List Char}
    (hopen : Text.splitAtMark fence s = some (before, rest))
    (hclose : Text.splitAtMark fence rest = some (code, after)) :
    manual.prepare s = manual.relink (hardBreaks before) >>= fun text =>
      (manual.prepare after).map fun others => text ++ (fence ++ code ++ fence ++ others) := by
  rw [prepare, stretches_fenced hopen hclose, prepareStretches, prepareStretches, prepare]
  cases manual.relink (hardBreaks before) with
  | error e => rfl
  | ok text => cases manual.prepareStretches (stretches after) <;> rfl

/-- A text without fences is all prose. -/
theorem comment_prose {text : String} (hne : text ≠ "") (h : '`' ∉ text.toList) :
    manual.comment text = (manual.relink (hardBreaks text.toList)).map fun prepared =>
      (Text.lines prepared).map fun line => .comment (String.ofList line) := by
  have hempty : text.isEmpty = false := by simpa using hne
  have hnone : Text.splitAtMark fence text.toList = none := Text.splitAtMark_eq_none ['`', '`'] h
  have hprepare : manual.prepare text.toList = manual.relink (hardBreaks text.toList) :=
    prepare_single fun before rest hopen => by rw [hnone] at hopen; cases hopen
  rw [comment, hempty, if_neg Bool.false_ne_true, hprepare]

end Manual

def brokenLines : List String → List Line
  | [] => []
  | [last] => [.comment last]
  | text :: next :: rest => .comment (text ++ "  ") :: brokenLines (next :: rest)

theorem lines_intercalate {texts : List String} (hne : texts ≠ [])
    (h : ∀ text ∈ texts, '\n' ∉ text.toList) :
    ((Text.lines ("  \n".intercalate texts).toList).map fun line => .comment (String.ofList line))
      = brokenLines texts := by
  induction texts with
  | nil => exact absurd rfl hne
  | cons text texts ih =>
    obtain ⟨htext, hrest⟩ := List.forall_mem_cons.mp h
    by_cases hlast : texts = []
    · subst hlast
      simp [Text.lines_of_not_mem htext, brokenLines]
    · obtain ⟨next, more, rfl⟩ := List.exists_cons_of_ne_nil hlast
      have hline : '\n' ∉ text.toList ++ [' ', ' '] := by simp [htext]
      have hsplit : ("  \n".intercalate (text :: next :: more)).toList
          = (text.toList ++ [' ', ' ']) ++ '\n' :: ("  \n".intercalate (next :: more)).toList := by
        rw [toList_intercalate_cons _ _ hlast]
        simp
      have hspaces : String.ofList (text.toList ++ [' ', ' ']) = text ++ "  " := by simp
      rw [hsplit, Text.lines_append_newline, Text.lines_of_not_mem hline, List.singleton_append,
        List.map_cons, ih hlast hrest, hspaces, brokenLines]

/-- A text on one line without fences, and what it has become when its links have been looked up. -/
structure Manual.Relinks (manual : Manual) (text out : String) : Prop where
  ne : text ≠ ""
  line : '\n' ∉ text.toList
  tick : '`' ∉ text.toList
  outLine : '\n' ∉ out.toList
  relink : ∀ tail, LineEnd tail →
    manual.relink (text.toList ++ tail) = (manual.relink tail).map (out.toList ++ ·)

/-- Such texts are the lines of a comment. -/
theorem Manual.comment_intercalate {manual : Manual} {texts : List (String × String)}
    (hne : texts ≠ []) (h : ∀ text ∈ texts, manual.Relinks text.1 text.2) :
    manual.comment ("\n".intercalate (texts.map (·.1))) = .ok (brokenLines (texts.map (·.2))) := by
  have each (text : String) (hmem : text ∈ texts.map (·.1)) : ∃ out, manual.Relinks text out := by
    obtain ⟨entry, hentry, rfl⟩ := List.mem_map.mp hmem
    exact ⟨entry.2, h entry hentry⟩
  have htick : '`' ∉ ("\n".intercalate (texts.map (·.1))).toList := by
    refine (Text.joins_not_mem _).intercalate (by decide) fun text hmem => ?_
    obtain ⟨out, relinks⟩ := each text hmem
    exact relinks.tick
  have hsome : "\n".intercalate (texts.map (·.1)) ≠ "" := by
    obtain ⟨text, more, rfl⟩ := List.exists_cons_of_ne_nil hne
    have hfirst := (h text List.mem_cons_self).ne
    have hhead := head?_intercalate "\n" hfirst (more.map (·.1))
    intro hempty
    rw [List.map_cons] at hempty
    rw [hempty] at hhead
    exact hfirst (by simpa using hhead.symm)
  have hbreaks := hardBreaksAfter_intercalate (fun text hmem => by
    obtain ⟨out, relinks⟩ := each text hmem
    exact ⟨relinks.ne, relinks.line⟩) false
  have houts : ∀ out ∈ texts.map (·.2), '\n' ∉ out.toList := by
    intro out hmem
    obtain ⟨entry, hentry, rfl⟩ := List.mem_map.mp hmem
    exact (h entry hentry).outLine
  have hlines := lines_intercalate (by simpa using hne) houts
  rw [comment_prose hsome htick, hardBreaks, hbreaks,
    relink_intercalate fun text hmem => (h text hmem).relink]
  exact congrArg Except.ok hlines

end LuaStubs
