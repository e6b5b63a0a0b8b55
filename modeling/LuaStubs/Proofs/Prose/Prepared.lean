import LuaStubs.Proofs.Links.Pages
import LuaStubs.Proofs.Prose.Quiet

/-! Texts that are prepared for comments keep their lines, if the address of the manual is on one
line. -/

namespace LuaStubs

open Markdown Text

/-! Pages. -/

/-- A page is a reference with something before it, the file of a class, or made of the two parts of
a reference to a member. -/
theorem Catalog.page?_cases {catalog : Catalog} {reference page : String}
    (h : catalog.page? reference = some page) :
    (∃ front ∈ ["Builtin-Types.html#", "events.html#", "defines.html#", "Event-Filters.html#",
      "Concepts.html#"], page = front ++ reference) ∨
    catalog.classes.has reference = true ∧ page = reference ++ ".html" ∨
    ∃ owner member file, reference.toList = owner ++ [':', ':'] ++ member ∧
      (catalog.classes.has (String.ofList owner) = true ∧ file = String.ofList owner ∨
        file = "Concepts") ∧
      page = file ++ ".html#" ++ String.ofList owner ++ "." ++ String.ofList member := by
  cases found_of_page? h with
  | builtin _ => exact .inl ⟨_, List.mem_cons_self, rfl⟩
  | file hclass => exact .inr (.inl ⟨hclass, rfl⟩)
  | event _ => exact .inl ⟨"events.html#", by simp, rfl⟩
  | constant _ => exact .inl ⟨"defines.html#", by simp, rfl⟩
  | @member owner member file hfile =>
    refine .inr (.inr ⟨owner.toList, member.toList, file, by simp, ?_, by simp⟩)
    rw [String.ofList_toList]
    exact (ownerPage?_cases hfile).imp_right And.right
  | filters _ => exact .inl ⟨"Event-Filters.html#", by simp, rfl⟩
  | concept _ => exact .inl ⟨"Concepts.html#", by simp, rfl⟩

def Catalog.pageParts : List String :=
  ["Builtin-Types.html#", "events.html#", "defines.html#", "Event-Filters.html#", "Concepts.html#",
    "Concepts", ".html#", ".html", "."]

theorem Catalog.not_mem_page? {catalog : Catalog} {reference page : String} {mark : Char}
    (hparts : ∀ part ∈ pageParts, mark ∉ part.toList) (hreference : mark ∉ reference.toList)
    (h : catalog.page? reference = some page) : mark ∉ page.toList := by
  have joins := joins_not_mem mark
  rcases page?_cases h with
    ⟨front, hfront, rfl⟩ | ⟨-, rfl⟩ | ⟨owner, member, file, hsplit, hfile, rfl⟩
  · have hincluded : ["Builtin-Types.html#", "events.html#", "defines.html#", "Event-Filters.html#",
        "Concepts.html#"] ⊆ pageParts := by decide
    exact joins.join (hparts front (hincluded hfront)) hreference
  · exact joins.join hreference (hparts _ (by decide))
  · rw [hsplit] at hreference
    have howner : mark ∉ (String.ofList owner).toList := by
      rw [String.toList_ofList]
      exact fun hmem => hreference (by simp [hmem])
    have hmember : mark ∉ (String.ofList member).toList := by
      rw [String.toList_ofList]
      exact fun hmem => hreference (by simp [hmem])
    have hfileClear : mark ∉ file.toList := by
      rcases hfile with ⟨-, rfl⟩ | rfl
      · exact howner
      · exact hparts _ (by decide)
    exact joins.join (joins.join (joins.join (joins.join hfileClear (hparts _ (by decide))) howner)
      (hparts _ (by decide))) hmember

theorem Catalog.quiet_page? {catalog : Catalog} {reference page : String}
    (hreference : Quiet false reference.toList) (h : catalog.page? reference = some page) :
    Quiet false page.toList := by
  rcases page?_cases h with
    ⟨front, hfront, rfl⟩ | ⟨-, rfl⟩ | ⟨owner, member, file, hsplit, hfile, rfl⟩
  · have hinside : ∀ front ∈ ["Builtin-Types.html#", "events.html#", "defines.html#",
        "Event-Filters.html#", "Concepts.html#"],
        Quiet true front.toList ∧ atStartAfter true front.toList = false := by decide
    obtain ⟨hquiet, inside⟩ := hinside front hfront
    exact (quiet_after hquiet inside hreference).inside
  · rw [String.toList_append, quiet_append]
    exact ⟨hreference, Quiet.weaken (by decide) _⟩
  · rw [hsplit, quiet_append, quiet_append, atStartAfter_append] at hreference
    obtain ⟨⟨howner, -⟩, hmember⟩ := hreference
    have hfileQuiet : Quiet false file.toList := by
      rcases hfile with ⟨-, rfl⟩ | rfl
      · simpa using howner
      · decide
    simp only [String.toList_append, String.toList_ofList, quiet_append, atStartAfter_append]
    refine ⟨⟨⟨⟨hfileQuiet, Quiet.weaken (by decide) _⟩, howner⟩, Quiet.weaken (by decide) _⟩, ?_⟩
    exact hmember

/-! Links. -/

namespace Manual

variable {manual : Manual}

theorem head_of_link {reference shown text : String} (h : manual.link reference shown = .ok text) :
    ∃ rest, text.toList = '[' :: rest := by
  obtain ⟨page, -, rfl⟩ := link_eq_ok h
  exact ⟨(shown ++ "](" ++ (manual.baseUrl ++ page) ++ ")").toList, by simp⟩

variable (base : '\n' ∉ manual.baseUrl.toList)
include base

theorem not_mem_link {reference shown text : String} (hreference : '\n' ∉ reference.toList)
    (hshown : '\n' ∉ shown.toList) (h : manual.link reference shown = .ok text) :
    '\n' ∉ text.toList := by
  obtain ⟨page, hpage, rfl⟩ := link_eq_ok h
  have hclear := Catalog.not_mem_page? (by decide) hreference hpage
  simp [hshown, base, hclear]

theorem quiet_link {reference shown text : String} (hreference : Quiet false reference.toList)
    (hshown : Quiet false shown.toList) (h : manual.link reference shown = .ok text) :
    Quiet true text.toList := by
  obtain ⟨page, hpage, rfl⟩ := link_eq_ok h
  have hpageQuiet := Catalog.quiet_page? hreference hpage
  have hback : Quiet true ("](" ++ (manual.baseUrl ++ page) ++ ")").toList := by
    apply joins_quiet.join
    · apply quiet_after (by decide) (by decide)
      rw [String.toList_append, quiet_append, atStartAfter_inside base]
      exact ⟨quiet_of_not_mem base, hpageQuiet⟩
    · decide
  have hfront : Quiet true ("[" ++ shown).toList := quiet_after (by decide) (by decide) hshown
  simpa [String.append_assoc] using joins_quiet.join hfront hback

theorem quiet_view {name text : String} (hname : '\n' ∉ name.toList)
    (h : manual.view name = .ok text) : Quiet true text.toList :=
  quiet_link base (quiet_of_not_mem hname) (by decide) h

/-! Prepared texts. -/

theorem keepsLines_relinked {display target out : List Char} (hdisplay : '\n' ∉ display)
    (htarget : '\n' ∉ target) (h : manual.relinked display target = .ok out) :
    KeepsLines (Piece.link display target).text out := by
  have hlink (target : List Char) (htarget : '\n' ∉ target) :
      '\n' ∉ (Piece.link display target).text := by
    simp [Piece.text, hdisplay, htarget]
  unfold relinked at h
  split at h
  · cases h
    exact .refl _
  · split at h
    · cases h
      have hpage : '\n' ∉ manual.baseUrl.toList ++ target := by simp [base, htarget]
      exact .of_line (by decide) (hlink _ htarget) (hlink _ hpage)
    · obtain ⟨text, hfound, rfl⟩ := Outcome.map_eq_ok.mp h
      have hclear := not_mem_link base (by simpa using htarget) (by simpa using hdisplay) hfound
      obtain ⟨rest, hrest⟩ := head_of_link hfound
      rw [hrest] at hclear ⊢
      exact .of_line (by decide) (hlink _ htarget) hclear

theorem keepsLines_relinkPieces {ps : List Piece}
    (lines : ∀ display target, Piece.link display target ∈ ps → '\n' ∉ display ∧ '\n' ∉ target)
    {out : List Char} (h : manual.relinkPieces ps = .ok out) :
    KeepsLines (ps.flatMap Piece.text) out := by
  induction ps generalizing out with
  | nil =>
    cases h
    exact .refl []
  | cons piece rest ih =>
    have lines' := fun display target hmem => lines display target (List.mem_cons_of_mem _ hmem)
    cases piece with
    | char c =>
      rw [relinkPieces] at h
      obtain ⟨text, hrest, h⟩ := Outcome.bind_eq_ok.mp h
      cases h
      exact (ih lines' hrest).cons c
    | link display target =>
      obtain ⟨hdisplay, htarget⟩ := lines display target List.mem_cons_self
      rw [relinkPieces] at h
      obtain ⟨link, hlink, h⟩ := Outcome.bind_eq_ok.mp h
      obtain ⟨text, hrest, h⟩ := Outcome.bind_eq_ok.mp h
      cases h
      exact (keepsLines_relinked base hdisplay htarget hlink).append (ih lines' hrest)

theorem keepsLines_relink {text out : List Char} (h : manual.relink text = .ok out) :
    KeepsLines text out := by
  have hpieces : KeepsLines ((pieces text).flatMap Piece.text) out :=
    keepsLines_relinkPieces base (fun _ _ => not_mem_of_mem_pieces) h
  rwa [flatMap_text_pieces] at hpieces

omit base in
theorem prepareStretches_eq_ok {part : Stretch} {rest : List Stretch} {out : List Char}
    (h : manual.prepareStretches (part :: rest) = .ok out) :
    ∃ front others, manual.prepareStretches rest = .ok others ∧ out = front ++ others ∧
      match part with
      | .prose text => manual.relink (hardBreaks text) = .ok front
      | .code text => front = fence ++ text ++ fence := by
  cases part with
  | prose text =>
    rw [prepareStretches] at h
    obtain ⟨front, hfront, h⟩ := Outcome.bind_eq_ok.mp h
    obtain ⟨others, hothers, h⟩ := Outcome.bind_eq_ok.mp h
    cases h
    exact ⟨front, others, hothers, rfl, hfront⟩
  | code text =>
    rw [prepareStretches] at h
    obtain ⟨others, hothers, h⟩ := Outcome.bind_eq_ok.mp h
    cases h
    exact ⟨_, others, hothers, rfl, rfl⟩

theorem keepsLines_prose {text out : List Char} (h : manual.relink (hardBreaks text) = .ok out) :
    KeepsLines text out :=
  (keepsLines_hardBreaksAfter false text).trans (keepsLines_relink base h)

theorem keepsLines_prepareStretches {most : Nat} {s out : List Char}
    (h : manual.prepareStretches (stretchesWithin most s) = .ok out) : KeepsLines s out := by
  have whole {s out : List Char} (h : manual.prepareStretches [.prose s] = .ok out) :
      KeepsLines s out := by
    obtain ⟨front, others, hothers, rfl, hfront⟩ := prepareStretches_eq_ok h
    cases hothers
    rw [List.append_nil]
    exact keepsLines_prose base hfront
  induction most generalizing s out with
  | zero => exact whole h
  | succ most ih =>
    rw [stretchesWithin] at h
    cases hopen : splitAtMark fence s with
    | none =>
      rw [hopen] at h
      exact whole h
    | some cut =>
      obtain ⟨before, rest⟩ := cut
      rw [hopen] at h
      cases hclose : splitAtMark fence rest with
      | none =>
        simp only [hclose] at h
        exact whole h
      | some cut =>
        obtain ⟨code, after⟩ := cut
        simp only [hclose] at h
        obtain ⟨front, others, hothers, rfl, hfront⟩ := prepareStretches_eq_ok h
        obtain ⟨middle, later, hlater, hback, hmiddle⟩ := prepareStretches_eq_ok hothers
        have hcode : middle = fence ++ code ++ fence := hmiddle
        have hafter : KeepsLines after later := ih hlater
        have hs : s = before ++ (fence ++ code ++ fence ++ after) := by
          rw [eq_of_splitAtMark hopen, eq_of_splitAtMark hclose]
          simp
        rw [hs, hback, hcode]
        exact (keepsLines_prose base hfront).append ((KeepsLines.refl _).append hafter)

/-- Preparing a text keeps its lines. -/
theorem keepsLines_prepare {text out : List Char} (h : manual.prepare text = .ok out) :
    KeepsLines text out :=
  keepsLines_prepareStretches base h

end Manual

end LuaStubs
