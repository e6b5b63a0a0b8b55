import LuaStubs.Proofs.Lowering.Form

/-! Texts are the same for two manuals with the same pages. -/

namespace LuaStubs

/-- Two manuals that lead to the same pages at the same address. -/
structure Manual.SamePages (first second : Manual) : Prop where
  base : first.baseUrl = second.baseUrl
  page? : ∀ reference, first.catalog.page? reference = second.catalog.page? reference

namespace Manual.SamePages

variable {first second : Manual} (same : first.SamePages second)
include same

theorem link_eq (reference shown : String) :
    first.link reference shown = second.link reference shown := by
  simp only [link, url, page, same.page?, same.base]

theorem view_eq (reference : String) : first.view reference = second.view reference :=
  same.link_eq reference "View documentation"

theorem typeNames_eq (linked : Bool) (names : List String) :
    first.typeNames linked names = second.typeNames linked names := by
  have hname : first.typeName linked = second.typeName linked :=
    funext fun name => by rw [typeName, typeName, same.link_eq]
  rw [typeNames, typeNames, hname]

theorem relinkPieces_eq (ps : List Markdown.Piece) :
    first.relinkPieces ps = second.relinkPieces ps := by
  induction ps with
  | nil => rfl
  | cons piece rest ih =>
    cases piece with
    | char c => rw [relinkPieces, relinkPieces, ih]
    | link display target =>
      have hlink : first.relinked display target = second.relinked display target := by
        unfold relinked
        rw [same.base, same.link_eq]
      rw [relinkPieces, relinkPieces, hlink, ih]

theorem prepareStretches_eq (parts : List Markdown.Stretch) :
    first.prepareStretches parts = second.prepareStretches parts := by
  induction parts with
  | nil => rfl
  | cons part rest ih =>
    cases part with
    | prose text => rw [prepareStretches, prepareStretches, relink, relink, same.relinkPieces_eq, ih]
    | code text => rw [prepareStretches, prepareStretches, ih]

theorem prepare_eq (text : List Char) : first.prepare text = second.prepare text :=
  same.prepareStretches_eq _

theorem comment_eq (text : String) : first.comment text = second.comment text := by
  unfold comment
  rw [same.prepare_eq]

theorem brief_eq (description link : String) :
    first.brief description link = second.brief description link :=
  same.comment_eq _

theorem references_eq (names : List String) : first.references names = second.references names := by
  induction names with
  | nil => rfl
  | cons name rest ih => rw [references, references, same.link_eq, ih]

theorem seeAlso_eq (names : List String) : first.seeAlso names = second.seeAlso names := by
  unfold seeAlso
  rw [same.references_eq]

theorem overview_eq (doc : Api.Documentation) (link description : String) :
    first.overview doc link description = second.overview doc link description := by
  unfold overview
  rw [same.seeAlso_eq]

theorem describe_eq (doc : Api.Documentation) (link description : String) :
    first.describe doc link description = second.describe doc link description := by
  unfold describe
  rw [same.overview_eq]
  simp only [same.comment_eq]

end Manual.SamePages

end LuaStubs
