import LuaStubs.Manual
import LuaStubs.Markdown
import LuaStubs.Stub.Line

/-! Documentation texts on their way into comments. Links are pointed at the manual and line breaks
made hard, fenced code is left alone, and each line becomes a line of a comment. -/

namespace LuaStubs.Manual

def startsWith (start : String) (s : List Char) : Bool :=
  start.toList.isPrefixOf s

def isAbsolute (target : List Char) : Bool :=
  startsWith "http://" target || startsWith "https://" target

/-- Says whether a link leads to a page of the manual, given by its file. -/
def isPage : List Char → Bool
  | [] => false
  | c :: rest =>
    startsWith ".html#" (c :: rest) || c :: rest == ".html".toList || isPage rest

def relinked (manual : Manual) (display target : List Char) : Except StubError (List Char) :=
  if isAbsolute target then .ok (Markdown.Piece.link display target).text
  else if isPage target then
    .ok (Markdown.Piece.link display (manual.baseUrl.toList ++ target)).text
  else (manual.link (String.ofList target) (String.ofList display)).map (·.toList)

def relinkPieces (manual : Manual) : List Markdown.Piece → Except StubError (List Char)
  | [] => .ok []
  | .char c :: rest => do
    let text ← relinkPieces manual rest
    return c :: text
  | .link display target :: rest => do
    let link ← manual.relinked display target
    let text ← relinkPieces manual rest
    return link ++ text

def relink (manual : Manual) (text : List Char) : Except StubError (List Char) :=
  manual.relinkPieces (Markdown.pieces text)

def prepareStretches (manual : Manual) : List Markdown.Stretch → Except StubError (List Char)
  | [] => .ok []
  | .prose text :: rest => do
    let text ← manual.relink (Markdown.hardBreaks text)
    let others ← prepareStretches manual rest
    return text ++ others
  | .code text :: rest => do
    let others ← prepareStretches manual rest
    return Markdown.fence ++ text ++ Markdown.fence ++ others

def prepare (manual : Manual) (text : List Char) : Except StubError (List Char) :=
  manual.prepareStretches (Markdown.stretches text)

def comment (manual : Manual) (text : String) : Except StubError (List Line) :=
  if text.isEmpty then .ok []
  else (manual.prepare text.toList).map fun prepared =>
    (Text.lines prepared).map fun line => .comment (String.ofList line)

/-- A description, if there is one, and below it a link. -/
def brief (manual : Manual) (description link : String) : Except StubError (List Line) :=
  manual.comment (Text.framed "" description "\n\n" ++ link)

def references (manual : Manual) : List String → Except StubError (List String)
  | [] => .ok []
  | reference :: rest => do
    let link ← manual.link reference reference
    let others ← references manual rest
    return ("- " ++ link) :: others

def seeAlso (manual : Manual) (names : List String) : Except StubError String :=
  if names.isEmpty then .ok ""
  else (manual.references names).map fun entries =>
    "### See also\n" ++ "\n".intercalate entries

/-- All that is documented about an entry: a description in place of its own, notes, the link,
examples, the classes it is restricted to, and what to see besides. -/
def overview (manual : Manual) (doc : Api.Documentation) (link description : String) :
    Except StubError String := do
  let seeAlso ← manual.seeAlso doc.seeAlso
  let restriction :=
    if doc.subclasses.isEmpty then ""
    else "_Can only be used if this is " ++ Text.orList doc.subclasses ++ "_"
  return Text.paragraphs [
    description,
    "\n\n".intercalate (doc.notes.map ("**Note:** " ++ ·)),
    link,
    "\n\n".intercalate (doc.examples.map ("### Example\n" ++ ·)),
    restriction,
    seeAlso]

def describe (manual : Manual) (doc : Api.Documentation) (link description : String) :
    Except StubError (List Line) := do
  let text ← manual.overview doc link description
  manual.comment text

end LuaStubs.Manual
