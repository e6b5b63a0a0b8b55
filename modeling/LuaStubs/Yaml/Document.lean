import LuaStubs.Yaml.Token

/-! Documents of a small YAML: mappings and sequences of scalars, in blocks by indentation, in flows
by brackets. Places where nothing is written hold an empty plain scalar. -/

namespace LuaStubs.Yaml

inductive Node where
  | scalar (plain : Bool) (text : String)
  | sequence (items : List Node)
  | mapping (entries : List (Node × Node))

def Node.empty : Node := .scalar true ""

def nextIn (kinds tokens : List Token) : Bool :=
  tokens.head?.any kinds.contains

def afterComma? : List Token → Option (List Token)
  | .comma :: rest => some rest
  | _ => none

/-! Items and entries are gathered with the last one first. -/

mutual

/-- A node. Behind a key or its colon, a sequence need not be indented. -/
def node? : Nat → Bool → List Token → Option (Node × List Token)
  | most + 1, behindKey, token :: rest =>
    match token with
    | .scalar plain text => some (.scalar plain text, rest)
    | .flowSequence => flowItems? most true [] rest
    | .flowMapping => flowEntries? most true [] rest
    | .blockSequence => blockItems? most [] rest
    | .blockMapping => blockEntries? most [] rest
    | .item => if behindKey then flatItems? most [] (token :: rest) else none
    | _ => none
  | _, _, _ => none

def nodeUnless? : Nat → List Token → Bool → List Token → Option (Node × List Token)
  | 0, _, _, _ => none
  | most + 1, kinds, behindKey, tokens =>
    if nextIn kinds tokens then some (.empty, tokens) else node? most behindKey tokens

def blockItems? : Nat → List Node → List Token → Option (Node × List Token)
  | most + 1, taken, .item :: rest => do
    let (item, rest) ← nodeUnless? most [.item, .blockEnd] false rest
    blockItems? most (item :: taken) rest
  | _, taken, .blockEnd :: rest => some (.sequence taken.reverse, rest)
  | _, _, _ => none

/-- The items of a sequence at the column of its key. -/
def flatItems? : Nat → List Node → List Token → Option (Node × List Token)
  | most + 1, taken, .item :: rest => do
    let (item, rest) ← nodeUnless? most [.item, .key, .value, .blockEnd] false rest
    flatItems? most (item :: taken) rest
  | _, taken, rest => some (.sequence taken.reverse, rest)

def blockEntries? : Nat → List (Node × Node) → List Token → Option (Node × List Token)
  | most + 1, taken, .key :: rest => do
    let (key, rest) ← nodeUnless? most [.key, .value, .blockEnd] true rest
    let (value, rest) ← value? most [.key, .value, .blockEnd] true rest
    blockEntries? most ((key, value) :: taken) rest
  | _, taken, .blockEnd :: rest => some (.mapping taken.reverse, rest)
  | _, _, _ => none

def value? : Nat → List Token → Bool → List Token → Option (Node × List Token)
  | most + 1, kinds, behindKey, .value :: rest => nodeUnless? most kinds behindKey rest
  | _, _, _, rest => some (.empty, rest)

/-- The items of a flow, with commas between them; an item may be a mapping of one entry. -/
def flowItems? : Nat → Bool → List Node → List Token → Option (Node × List Token)
  | 0, _, _, _ => none
  | _, _, taken, .flowSequenceEnd :: rest => some (.sequence taken.reverse, rest)
  | most + 1, first, taken, tokens => do
    let tokens ← if first then some tokens else afterComma? tokens
    match tokens with
    | .flowSequenceEnd :: rest => return (.sequence taken.reverse, rest)
    | .key :: rest => do
      let kinds := [.value, .comma, .flowSequenceEnd]
      -- the token that shows the key to be missing is taken with it
      let (key, rest) ←
        if nextIn kinds rest then some (Node.empty, rest.drop 1) else node? most false rest
      let (value, rest) ← value? most [.comma, .flowSequenceEnd] false rest
      flowItems? most false (.mapping [(key, value)] :: taken) rest
    | _ => do
      let (item, rest) ← node? most false tokens
      flowItems? most false (item :: taken) rest

def flowEntries? : Nat → Bool → List (Node × Node) → List Token → Option (Node × List Token)
  | 0, _, _, _ => none
  | _, _, taken, .flowMappingEnd :: rest => some (.mapping taken.reverse, rest)
  | most + 1, first, taken, tokens => do
    let tokens ← if first then some tokens else afterComma? tokens
    match tokens with
    | .flowMappingEnd :: rest => return (.mapping taken.reverse, rest)
    | .key :: rest => do
      let (key, rest) ← nodeUnless? most [.value, .comma, .flowMappingEnd] false rest
      let (value, rest) ← value? most [.comma, .flowMappingEnd] false rest
      flowEntries? most false ((key, value) :: taken) rest
    | _ => do
      let (key, rest) ← node? most false tokens
      flowEntries? most false ((key, .empty) :: taken) rest

end

/-- The document of some tokens, which hold no more than one. -/
def Node.ofTokens? (tokens : List Token) : Option Node := do
  let most := 4 * tokens.length + 4
  let (node, rest) ← match tokens with
    | [] => some (.empty, [])
    | .documentStart :: rest =>
      if rest.isEmpty then some (.empty, rest)
      else nodeUnless? most [.documentStart, .documentEnd] false rest
    | _ => node? most false tokens
  if rest.all (· = .documentEnd) then return node
  none

def isAllowed (c : Char) : Bool :=
  c = '\t' || c = '\n' || c = '\r' || c = '\u0085'
    || 0x20 ≤ c.toNat && c.toNat ≤ 0x7e
    || 0xa0 ≤ c.toNat && c.toNat ≠ 0xfffe && c.toNat ≠ 0xffff

def document? (source : String) : Option Node := do
  if !source.toList.all isAllowed then none
  Node.ofTokens? (← tokens? (normalBreaks source.toList))

end LuaStubs.Yaml
