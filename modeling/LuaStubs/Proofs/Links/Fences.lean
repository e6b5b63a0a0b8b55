import LuaStubs.Proofs.Catalogs
import LuaStubs.Proofs.Links.Reached
import Mathlib.Data.List.Forall2

/-! Fenced code in prepared texts. Where the fences of a text are found depends on its backticks
alone, and on which of them stand side by side. Hard breaks and links that are looked up leave that
as it is, so that the same code is found in the prepared text, and around it the prepared prose. -/

namespace LuaStubs

open Markdown

namespace Markdown

/-! Backticks. -/

/-- The backticks of a text, with a blank for whatever stands between two of them. The text may
begin in such a gap. -/
def ticksAfter (inGap : Bool) : List Char → List Char
  | [] => []
  | c :: rest =>
    if c = '`' then '`' :: ticksAfter false rest
    else if inGap then ticksAfter true rest
    else ' ' :: ticksAfter true rest

def gapAfter (inGap : Bool) : List Char → Bool
  | [] => inGap
  | c :: rest => gapAfter (c != '`') rest

theorem ticksAfter_append (inGap : Bool) (s t : List Char) :
    ticksAfter inGap (s ++ t) = ticksAfter inGap s ++ ticksAfter (gapAfter inGap s) t := by
  induction s generalizing inGap with
  | nil => rfl
  | cons c s ih =>
    by_cases hc : c = '`'
    · simp [ticksAfter, gapAfter, hc, ih]
    · have hgap : (c != '`') = true := by simpa using hc
      cases inGap <;> simp [ticksAfter, gapAfter, hc, hgap, ih]

theorem gapAfter_append (inGap : Bool) (s t : List Char) :
    gapAfter inGap (s ++ t) = gapAfter (gapAfter inGap s) t := by
  induction s generalizing inGap with
  | nil => rfl
  | cons c s ih => exact ih _

theorem ticksAfter_of_not_mem {s : List Char} (h : '`' ∉ s) : ticksAfter true s = [] := by
  induction s with
  | nil => rfl
  | cons c s ih =>
    obtain ⟨hc, hs⟩ : c ≠ '`' ∧ '`' ∉ s := by simpa [eq_comm] using h
    simp [ticksAfter, hc, ih hs]

theorem gapAfter_of_not_mem {s : List Char} (h : '`' ∉ s) : gapAfter true s = true := by
  induction s with
  | nil => rfl
  | cons c s ih =>
    obtain ⟨hc, hs⟩ : c ≠ '`' ∧ '`' ∉ s := by simpa [eq_comm] using h
    have hgap : (c != '`') = true := by simpa using hc
    rw [gapAfter, hgap, ih hs]

theorem ticksAfter_eq_nil {s : List Char} (h : ticksAfter false s = []) : s = [] := by
  cases s with
  | nil => rfl
  | cons c s =>
    rw [ticksAfter] at h
    split at h <;> cases h

/-- Two texts with the same backticks side by side, both behind a gap or both behind a backtick. -/
structure SameTicks (inGap : Bool) (s t : List Char) : Prop where
  ticks : ticksAfter inGap s = ticksAfter inGap t
  gap : gapAfter inGap s = gapAfter inGap t

namespace SameTicks

variable {inGap : Bool} {s t u v : List Char}

theorem refl (inGap : Bool) (s : List Char) : SameTicks inGap s s := ⟨rfl, rfl⟩

theorem trans (h : SameTicks inGap s t) (h' : SameTicks inGap t u) : SameTicks inGap s u :=
  ⟨h.ticks.trans h'.ticks, h.gap.trans h'.gap⟩

theorem append (h : SameTicks inGap s t) (h' : SameTicks (gapAfter inGap s) u v) :
    SameTicks inGap (s ++ u) (t ++ v) where
  ticks := by rw [ticksAfter_append, ticksAfter_append, ← h.gap, h.ticks, h'.ticks]
  gap := by rw [gapAfter_append, gapAfter_append, ← h.gap, h'.gap]

theorem cons (c : Char) (h : SameTicks (c != '`') s t) : SameTicks inGap (c :: s) (c :: t) :=
  append (s := [c]) (t := [c]) (.refl inGap [c]) h

theorem of_not_mem (hs : '`' ∉ s) (ht : '`' ∉ t) : SameTicks true s t where
  ticks := by rw [ticksAfter_of_not_mem hs, ticksAfter_of_not_mem ht]
  gap := by rw [gapAfter_of_not_mem hs, gapAfter_of_not_mem ht]

theorem insert (hs : '`' ∉ s) (t : List Char) : SameTicks true t (s ++ t) := by
  have front := of_not_mem (s := []) (by simp) hs
  exact front.append (.refl _ t)

end SameTicks

theorem sameTicks_hardBreaksAfter (inLine inGap : Bool) (s : List Char) :
    SameTicks inGap s (hardBreaksAfter inLine s) := by
  induction s generalizing inLine inGap with
  | nil => exact .refl _ _
  | cons c s ih =>
    by_cases hc : c = '\n'
    · subst hc
      have hspaces : SameTicks inGap ['\n'] [' ', ' ', '\n'] := by
        cases inGap <;> exact ⟨rfl, rfl⟩
      rcases hardBreaksAfter_newline inLine s with h | h
      · rw [h]
        exact hspaces.append (ih false _)
      · rw [h]
        exact .cons _ (ih false _)
    · rw [hardBreaksAfter_cons_of_ne inLine hc]
      exact .cons c (ih true _)

/-! Fences. -/

theorem splitAtMark_behind {mark s before after : List Char}
    (h : Text.splitAtMark mark s = some (before, after)) (hmark : mark ≠ []) (other : List Char) :
    Text.splitAtMark mark (before ++ mark ++ other) = some (before, other) := by
  induction s generalizing before with
  | nil => cases h
  | cons c s ih =>
    rw [Text.splitAtMark] at h
    split at h
    · cases h
      obtain ⟨d, more, rfl⟩ := List.exists_cons_of_ne_nil hmark
      simp [Text.splitAtMark]
    · rename_i apart
      obtain ⟨⟨front, behind⟩, hfront, hentry⟩ := Option.map_eq_some_iff.mp h
      cases hentry
      rw [eq_of_splitAtMark hfront, Bool.not_eq_true] at apart
      have apart' := @Text.apart_of_apart mark (c :: front) after apart other
      rw [List.cons_append, List.cons_append] at apart' ⊢
      rw [Text.splitAtMark, apart', if_neg Bool.false_ne_true, ih hfront]
      rfl

/-- Backticks that stand together stay together when the gaps around them shrink. -/
theorem isPrefixOf_ticksAfter (n : Nat) (s : List Char) :
    (List.replicate n '`').isPrefixOf (ticksAfter false s) = (List.replicate n '`').isPrefixOf s := by
  induction n generalizing s with
  | zero => rfl
  | succ n ih =>
    cases s with
    | nil => rfl
    | cons c s =>
      by_cases hc : c = '`'
      · simp [ticksAfter, hc, List.replicate_succ, ih]
      · simp [ticksAfter, hc, List.replicate_succ, List.isPrefixOf, Ne.symm hc]

theorem splitAtMark_ticksAfter (inGap : Bool) (s : List Char) :
    Text.splitAtMark fence (ticksAfter inGap s) =
      (Text.splitAtMark fence s).map fun (before, rest) =>
        (ticksAfter inGap before, ticksAfter false rest) := by
  induction s generalizing inGap with
  | nil => rfl
  | cons c s ih =>
    by_cases hc : c = '`'
    · subst hc
      have hfence : fence.isPrefixOf ('`' :: ticksAfter false s) = fence.isPrefixOf ('`' :: s) := by
        have hmore := isPrefixOf_ticksAfter 2 s
        simpa [fence, List.replicate_succ] using hmore
      rw [ticksAfter, if_pos rfl, Text.splitAtMark, Text.splitAtMark, hfence]
      split
      · rename_i hopen
        obtain ⟨rest, rfl⟩ : ∃ rest, s = '`' :: '`' :: rest := by
          obtain ⟨rest, hrest⟩ := List.isPrefixOf_iff_prefix.mp hopen
          exact ⟨rest, by simpa [fence] using hrest.symm⟩
        simp [fence, ticksAfter]
      · rw [ih]
        simp [Function.comp_def, ticksAfter]
    · have hfence (t : List Char) : fence.isPrefixOf (c :: t) = false := by
        simp [fence, List.isPrefixOf, Ne.symm hc]
      cases inGap with
      | true =>
        rw [ticksAfter, if_neg hc, if_pos rfl, ih, Text.splitAtMark, hfence]
        simp [Function.comp_def, ticksAfter, hc]
      | false =>
        rw [ticksAfter, if_neg hc, if_neg Bool.false_ne_true, Text.splitAtMark, Text.splitAtMark,
          hfence, ih]
        simp [Function.comp_def, ticksAfter, hc, fence]

/-- Prose in front of a fence can be replaced by prose with the same backticks. -/
theorem splitAtMark_of_sameTicks {s before before' rest : List Char}
    (h : Text.splitAtMark fence s = some (before, rest)) (same : SameTicks false before before')
    (rest' : List Char) :
    Text.splitAtMark fence (before' ++ fence ++ rest') = some (before', rest') := by
  have hfront : Text.splitAtMark fence (before ++ fence) = some (before, []) := by
    have hbehind := splitAtMark_behind h (by decide) []
    rwa [List.append_nil] at hbehind
  have hticks := (same.append (.refl _ fence)).ticks
  have hfound := splitAtMark_ticksAfter false (before' ++ fence)
  rw [← hticks, splitAtMark_ticksAfter, hfront] at hfound
  obtain ⟨⟨front, behind⟩, hcut, hentry⟩ := Option.map_eq_some_iff.mp hfound.symm
  have hnil : behind = [] := ticksAfter_eq_nil (Prod.ext_iff.mp hentry).2
  have hfront' := eq_of_splitAtMark hcut
  rw [hnil, List.append_nil] at hfront'
  obtain rfl := List.append_cancel_right hfront'
  exact splitAtMark_behind hcut (by decide) rest'

theorem single_of_sameTicks {s s' : List Char} (same : SameTicks false s s')
    (h : ∀ before rest, Text.splitAtMark fence s = some (before, rest) →
      Text.splitAtMark fence rest = none) :
    ∀ before rest, Text.splitAtMark fence s' = some (before, rest) →
      Text.splitAtMark fence rest = none := by
  intro before' rest' hopen'
  have hfound := splitAtMark_ticksAfter false s'
  rw [← same.ticks, splitAtMark_ticksAfter, hopen'] at hfound
  obtain ⟨⟨before, rest⟩, hopen, hentry⟩ := Option.map_eq_some_iff.mp hfound
  have hrest : ticksAfter false rest = ticksAfter false rest' := (Prod.ext_iff.mp hentry).2
  have hclose := splitAtMark_ticksAfter false rest
  rw [h before rest hopen, hrest, splitAtMark_ticksAfter] at hclose
  exact Option.map_eq_none_iff.mp hclose

/-- Along the stretches of a text. -/
@[elab_as_elim]
theorem stretches_induction {motive : List Char → Prop}
    (single : ∀ s, (∀ before rest, Text.splitAtMark fence s = some (before, rest) →
      Text.splitAtMark fence rest = none) → motive s)
    (fenced : ∀ s before rest code after, Text.splitAtMark fence s = some (before, rest) →
      Text.splitAtMark fence rest = some (code, after) → motive after → motive s)
    (s : List Char) : motive s := by
  cases hopen : Text.splitAtMark fence s with
  | none => exact single s (by simp [hopen])
  | some cut =>
    obtain ⟨before, rest⟩ := cut
    cases hclose : Text.splitAtMark fence rest with
    | none =>
      refine single s fun before' rest' hopen' => ?_
      rw [hopen] at hopen'
      cases hopen'
      exact hclose
    | some cut =>
      obtain ⟨code, after⟩ := cut
      exact fenced s before rest code after hopen hclose (stretches_induction single fenced after)
termination_by s.length
decreasing_by
  rw [eq_of_splitAtMark hopen, eq_of_splitAtMark hclose]
  simp [fence]
  omega

def Stretch.text : Stretch → List Char
  | prose text => text
  | code text => fence ++ text ++ fence

/-- Nothing of a text is lost or added by cutting it into stretches. -/
theorem flatMap_text_stretches (s : List Char) : (stretches s).flatMap Stretch.text = s := by
  induction s using stretches_induction with
  | single s h => simp [stretches_single h, Stretch.text]
  | fenced s before rest code after hopen hclose ih =>
    rw [stretches_fenced hopen hclose, List.flatMap_cons, List.flatMap_cons, ih,
      eq_of_splitAtMark hopen, eq_of_splitAtMark hclose]
    simp [Stretch.text]

def Stretch.fenced? : Stretch → Option (List Char)
  | prose _ => none
  | code text => some (fence ++ text ++ fence)

/-- The fenced code that is found in a text, with the fences. -/
def fencesOf (s : List Char) : List (List Char) :=
  (stretches s).filterMap Stretch.fenced?

end Markdown

/-- A page has the backticks of its reference, if there are none in the names of files. -/
theorem Catalog.sameTicks_page? {catalog : Catalog}
    (files : ∀ name, catalog.classes.has name = true → '`' ∉ name.toList) {reference page : String}
    (h : catalog.page? reference = some page) : SameTicks true reference.toList page.toList := by
  rcases page?_cases h with
    ⟨front, hfront, rfl⟩ | ⟨hclass, rfl⟩ | ⟨owner, member, file, hsplit, hfile, rfl⟩
  · have hplain : ∀ front ∈ ["Builtin-Types.html#", "events.html#", "defines.html#",
        "Event-Filters.html#", "Concepts.html#"], '`' ∉ front.toList := by decide
    rw [String.toList_append]
    exact .insert (hplain front hfront) _
  · have hname := files reference hclass
    exact .of_not_mem hname (by simp [hname])
  · have hplain : '`' ∉ file.toList ++ ".html#".toList := by
      rcases hfile with ⟨hclass, rfl⟩ | rfl
      · have hname := files _ hclass
        simpa using hname
      · decide
    have hmark (inGap : Bool) : SameTicks inGap [':', ':'] ['.'] := by
      cases inGap <;> exact ⟨rfl, rfl⟩
    have hbehind := ((SameTicks.refl true owner).append (hmark _)).append (.refl _ member)
    have hpage := hbehind.trans (.insert hplain _)
    rw [hsplit]
    simpa using hpage

namespace Manual

variable {manual : Manual} (base : '`' ∉ manual.baseUrl.toList)
  (files : ∀ name, manual.catalog.classes.has name = true → '`' ∉ name.toList)

section

include base files

theorem sameTicks_relinked (inGap : Bool) {display target link : List Char}
    (h : manual.relinked display target = .ok link) :
    SameTicks inGap (Piece.link display target).text link := by
  have retarget {url : List Char} (same : SameTicks true target url) :
      SameTicks inGap (Piece.link display target).text
        (Piece.link display (manual.baseUrl.toList ++ url)).text := by
    have hopen : gapAfter inGap (['['] ++ display ++ [']', '(']) = true := by
      rw [gapAfter_append]
      rfl
    have hurl : SameTicks true target (manual.baseUrl.toList ++ url) :=
      same.trans (.insert base url)
    have hfront : SameTicks inGap (['['] ++ display ++ [']', '('] ++ target)
        (['['] ++ display ++ [']', '('] ++ (manual.baseUrl.toList ++ url)) :=
      (SameTicks.refl inGap _).append (hopen ▸ hurl)
    exact hfront.append (.refl _ [')'])
  unfold relinked at h
  split at h
  · cases h
    exact .refl _ _
  · split at h
    · cases h
      exact retarget (.refl _ _)
    · obtain ⟨text, hlink, rfl⟩ := Outcome.map_eq_ok.mp h
      obtain ⟨page, hpage, rfl⟩ := link_eq_ok hlink
      have same := Catalog.sameTicks_page? files hpage
      rw [String.toList_ofList] at same
      simpa [Piece.text] using retarget same

theorem sameTicks_relink (inGap : Bool) {text out : List Char} (h : manual.relink text = .ok out) :
    SameTicks inGap text out := by
  induction text using pieces_induction generalizing inGap out with
  | nil =>
    cases h
    exact .refl _ _
  | char c rest plain ih =>
    rw [relink_char plain] at h
    obtain ⟨more, hmore, rfl⟩ := Outcome.map_eq_ok.mp h
    exact .cons c (ih _ hmore)
  | link display target rest found ih =>
    rw [relink_found found] at h
    obtain ⟨link, hlink, h⟩ := Outcome.bind_eq_ok.mp h
    obtain ⟨more, hmore, rfl⟩ := Outcome.map_eq_ok.mp h
    exact (sameTicks_relinked base files inGap hlink).append (ih _ hmore)

end

/-- Code is left alone; prose has its line breaks made hard, and then its links looked up. -/
def Prepared (manual : Manual) : Stretch → Stretch → Prop
  | .prose text, .prose out => manual.relink (hardBreaks text) = .ok out
  | .code text, .code out => out = text
  | _, _ => False

include base files

/-- The stretches of a prepared text are the prepared stretches of the text. -/
theorem stretches_prepare {text out : List Char} (h : manual.prepare text = .ok out) :
    List.Forall₂ manual.Prepared (stretches text) (stretches out) := by
  have same {text out : List Char} (h : manual.relink (hardBreaks text) = .ok out) :
      SameTicks false text out :=
    (sameTicks_hardBreaksAfter false false text).trans (sameTicks_relink base files false h)
  induction text using stretches_induction generalizing out with
  | single text hsingle =>
    rw [prepare_single hsingle] at h
    rw [stretches_single hsingle, stretches_single (single_of_sameTicks (same h) hsingle)]
    exact .cons h .nil
  | fenced text before rest code after hopen hclose ih =>
    rw [prepare_fenced hopen hclose] at h
    obtain ⟨before', hbefore, h⟩ := Outcome.bind_eq_ok.mp h
    obtain ⟨others, hothers, rfl⟩ := Outcome.map_eq_ok.mp h
    have hopen' := splitAtMark_of_sameTicks hopen (same hbefore) (code ++ fence ++ others)
    have hclose' := splitAtMark_behind hclose (by decide) others
    have hout : before' ++ (fence ++ code ++ fence ++ others)
        = before' ++ fence ++ (code ++ fence ++ others) := by simp
    rw [hout, stretches_fenced hopen hclose, stretches_fenced hopen' hclose']
    exact .cons hbefore (.cons rfl (ih hothers))

omit base files in
theorem fencesOf_eq_of_prepared {parts outs : List Stretch}
    (h : List.Forall₂ manual.Prepared parts outs) :
    outs.filterMap Stretch.fenced? = parts.filterMap Stretch.fenced? := by
  induction h with
  | nil => rfl
  | @cons part out _ _ hpart _ ih =>
    have same : out.fenced? = part.fenced? := by
      cases part <;> cases out <;> simp_all [Prepared, Stretch.fenced?]
    rw [List.filterMap_cons, List.filterMap_cons, same, ih]

/-- Preparing a text leaves its fenced code as it is: the same code is found in the prepared text,
in the same order, and what is found around it is the prose around the code of the text, with its
line breaks made hard and its links looked up. -/
theorem prepare_keeps_fences {text out : List Char} (h : manual.prepare text = .ok out) :
    fencesOf out = fencesOf text ∧
      List.Forall₂ manual.Prepared (stretches text) (stretches out) ∧
      (stretches text).flatMap Stretch.text = text ∧ (stretches out).flatMap Stretch.text = out := by
  have prepared := stretches_prepare base files h
  exact ⟨fencesOf_eq_of_prepared prepared, prepared, flatMap_text_stretches text,
    flatMap_text_stretches out⟩

omit base files in
/-- A link in a fence, four backticks that close one, and five of which no fence is made. -/
theorem prepare_keeps_fences_open :
    ∃ out, (manualAt "https://lua-api.factorio.com/latest/").prepare
        "See [A](A),\nor:\n```lua\nlocal b = [A](A)\n```` and `[A](A::`b`)`\n`````".toList = .ok out ∧
      String.ofList out = "See [A](https://lua-api.factorio.com/latest/A.html),  \nor:\n" ++
        "```lua\nlocal b = [A](A)\n```` and " ++
        "`[A](https://lua-api.factorio.com/latest/A.html#A.`b`)`  \n`````" ∧
      fencesOf out = ["```lua\nlocal b = [A](A)\n```".toList] := by
  have run : ((manualAt "https://lua-api.factorio.com/latest/").prepare
      "See [A](A),\nor:\n```lua\nlocal b = [A](A)\n```` and `[A](A::`b`)`\n`````".toList
        ).toOption.map String.ofList
      = some ("See [A](https://lua-api.factorio.com/latest/A.html),  \nor:\n" ++
        "```lua\nlocal b = [A](A)\n```` and " ++
        "`[A](https://lua-api.factorio.com/latest/A.html#A.`b`)`  \n`````") := by
    decide +kernel
  have files (name : String)
      (h : (manualAt "https://lua-api.factorio.com/latest/").catalog.classes.has name = true) :
      '`' ∉ name.toList := by
    obtain ⟨c, hc, rfl⟩ := Catalog.exists_class_of_has h
    rw [List.mem_singleton.mp hc]
    decide
  obtain ⟨out, h, hout⟩ := Outcome.exists_of_toOption run
  obtain ⟨same, -⟩ := prepare_keeps_fences (by decide) files h
  refine ⟨out, h, hout, ?_⟩
  rw [same]
  decide +kernel

end Manual

end LuaStubs
