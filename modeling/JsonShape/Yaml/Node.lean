import JsonShape.Yaml.Stream

/-! Nodes: the trees that the tokens of a stream stand for. -/
namespace JsonShape.Yaml

inductive Node where
  | scalar (start : Mark) (tag text : String)
  | aliasOf (start : Mark) (name : String) (target : Node)
  | sequence (start : Mark) (items : List Node)
  | mapping (start : Mark) (entries : List (Node × Node))

namespace Node

def start : Node → Mark
  | scalar start _ _ | aliasOf start _ _ | sequence start _ | mapping start _ => start

def keyText : Node → String
  | scalar _ _ text => text
  | aliasOf _ name _ => name
  | _ => ""

end Node

/-- The progress of reading nodes: the next token, the tag directives of the document, and the
anchors of the stream with the nodes they stand before. -/
structure Progress where
  tokens : Tokens
  next : Nat := 0
  directives : List (String × String) := []
  anchors : List (String × Nat) := []
  nodes : List (Nat × Node) := []

abbrev Compose := StateT Progress (Except String)

def peekToken : Compose Token := do
  let p ← get
  if p.tokens.isReadable p.next then
    return p.tokens.tokens.getD p.next ⟨.streamEnd, ⟨0, 0, 0⟩, ⟨0, 0, 0⟩⟩
  else throw (p.tokens.failure?.getD "")

def skipToken : Compose Unit := modify fun p => { p with next := p.next + 1 }

def longTag : String := "tag:yaml.org,2002:"

def shortTag (tag : String) : String :=
  match Text.dropStart? longTag.toList tag.toList with
  | some rest => "!!" ++ String.ofList rest
  | none => tag

def expandTag (handle suffix : String) : Compose String := do
  if handle == "" then return suffix
  match ((← get).directives.find? (·.1 == handle)) with
  | some (_, expansion) => return expansion ++ suffix
  | none => throw "found undefined tag handle"

/-- What may stand before a node. -/
structure Properties where
  start : Mark
  anchor? : Option String := none
  tag : String := ""

def readTagProperty : Compose (Option String) := do
  match (← peekToken).kind with
  | .tag handle suffix =>
    skipToken
    return some (← expandTag handle suffix)
  | _ => return none

def readAnchorProperty : Compose (Option String) := do
  match (← peekToken).kind with
  | .anchor name =>
    skipToken
    return some name
  | _ => return none

def readProperties : Compose Properties := do
  let start := (← peekToken).start
  match ← readAnchorProperty with
  | some name => return ⟨start, some name, (← readTagProperty).getD ""⟩
  | none =>
    match ← readTagProperty with
    | some tag => return ⟨start, ← readAnchorProperty, tag⟩
    | none => return { start }

def openAnchor (name? : Option String) : Compose (Option Nat) := do
  match name? with
  | none => return none
  | some name =>
    let number := (← get).anchors.length
    modify fun p => { p with anchors := (name, number) :: p.anchors }
    return some number

def closeAnchor (number? : Option Nat) (node : Node) : Compose Node := do
  if let some number := number? then modify fun p => { p with nodes := (number, node) :: p.nodes }
  return node

def resolveAlias (name : String) : Compose Node := do
  let p ← get
  match (p.anchors.find? (·.1 == name)).bind fun (_, number) => p.nodes.find? (·.1 == number) with
  | some (_, node) => return node
  | none => throw "unknown anchor referenced"

/-- Where a node stands: as an item of a block, or where a list of the enclosing block may follow
without being further in, or in brackets. -/
inductive Place where
  | block | blockOrEntries | flow
  deriving DecidableEq

def emptyScalar (start : Mark) : Node := .scalar start "" ""

def nodeOrEmpty (parse : Compose Node) (mark : Mark) (ends : TokenKind → Bool) : Compose Node := do
  if ends (← peekToken).kind then return emptyScalar mark else parse

def blockItems (parse : Compose Node) : Nat → Compose (List Node)
  | 0 => throw "too deep"
  | budget + 1 => do
    let token ← peekToken
    match token.kind with
    | .blockEntry =>
      skipToken
      let item ← nodeOrEmpty parse token.stop fun k => k == .blockEntry || k == .blockEnd
      return item :: (← blockItems parse budget)
    | .blockEnd =>
      skipToken
      return []
    | _ => throw "did not find expected '-' indicator"

def entryItems (parse : Compose Node) : Nat → Compose (List Node)
  | 0 => throw "too deep"
  | budget + 1 => do
    let token ← peekToken
    match token.kind with
    | .blockEntry =>
      skipToken
      let item ← nodeOrEmpty parse token.stop fun k =>
        k == .blockEntry || k == .key || k == .value || k == .blockEnd
      return item :: (← entryItems parse budget)
    | _ => return []

def blockValue (parse : Compose Node) : Compose Node := do
  let token ← peekToken
  match token.kind with
  | .value =>
    skipToken
    nodeOrEmpty parse token.stop fun k => k == .key || k == .value || k == .blockEnd
  | _ => return emptyScalar token.start

def blockEntries (parse : Compose Node) : Nat → Compose (List (Node × Node))
  | 0 => throw "too deep"
  | budget + 1 => do
    let token ← peekToken
    match token.kind with
    | .key =>
      skipToken
      let key ← nodeOrEmpty parse token.stop fun k => k == .key || k == .value || k == .blockEnd
      let value ← blockValue parse
      return (key, value) :: (← blockEntries parse budget)
    | .blockEnd =>
      skipToken
      return []
    | _ => throw "did not find expected key"

def flowValue (parse : Compose Node) (ends : TokenKind → Bool) : Compose Node := do
  let token ← peekToken
  match token.kind with
  | .value =>
    skipToken
    nodeOrEmpty parse (← peekToken).start fun k => k == .flowEntry || ends k
  | _ => return emptyScalar token.start

def flowPair (parse : Compose Node) : Compose Node := do
  let start := (← peekToken).start
  skipToken
  let token ← peekToken
  let isClose := fun (k : TokenKind) => k == .flowSequenceEnd
  if token.kind == .value || token.kind == .flowEntry || isClose token.kind then
    skipToken
    let value ← flowValue parse isClose
    return .mapping start [(emptyScalar token.stop, value)]
  else
    let key ← parse
    let value ← flowValue parse isClose
    return .mapping start [(key, value)]

def readComma (first : Bool) (expected : String) : Compose Unit := do
  if first then return
  match (← peekToken).kind with
  | .flowEntry => skipToken
  | _ => throw expected

def flowItems (parse : Compose Node) (first : Bool) : Nat → Compose (List Node)
  | 0 => throw "too deep"
  | budget + 1 => do
    if (← peekToken).kind != .flowSequenceEnd then
      readComma first "did not find expected ',' or ']'"
    match (← peekToken).kind with
    | .flowSequenceEnd =>
      skipToken
      return []
    | .key =>
      let pair ← flowPair parse
      return pair :: (← flowItems parse false budget)
    | _ =>
      let item ← parse
      return item :: (← flowItems parse false budget)

def flowEntries (parse : Compose Node) (first : Bool) : Nat → Compose (List (Node × Node))
  | 0 => throw "too deep"
  | budget + 1 => do
    let isClose := fun (k : TokenKind) => k == .flowMappingEnd
    if !isClose (← peekToken).kind then
      readComma first "did not find expected ',' or '\x7d'"
    match (← peekToken).kind with
    | .flowMappingEnd =>
      skipToken
      return []
    | .key =>
      skipToken
      let token ← peekToken
      let key ← nodeOrEmpty parse token.start fun k => k == .value || k == .flowEntry || isClose k
      let value ← flowValue parse isClose
      return (key, value) :: (← flowEntries parse false budget)
    | _ =>
      let key ← parse
      let value := emptyScalar (← peekToken).start
      return (key, value) :: (← flowEntries parse false budget)

def scalarTag (tag : String) (style : Style) : String :=
  if tag != "" && tag != "!" then shortTag tag
  else if style == .plain then "" else "!!str"

def emptyNode (properties : Properties) : Compose Node := do
  if properties.anchor?.isNone && properties.tag == "" then throw "did not find expected node content"
  let number ← openAnchor properties.anchor?
  closeAnchor number (.scalar properties.start (scalarTag properties.tag .plain) "")

def readNode : Nat → Place → Compose Node
  | 0, _ => throw "too deep"
  | budget + 1, place => do
    let token ← peekToken
    if let .aliasName name := token.kind then
      let target ← resolveAlias name
      skipToken
      return .aliasOf token.start name target
    let properties ← readProperties
    let start := properties.start
    let token ← peekToken
    let count := (← get).tokens.tokens.size + 1
    match token.kind with
    | .blockEntry =>
      if place == .blockOrEntries then
        let number ← openAnchor properties.anchor?
        closeAnchor number (.sequence start (← entryItems (readNode budget .block) count))
      else emptyNode properties
    | .scalar style text =>
      let number ← openAnchor properties.anchor?
      skipToken
      closeAnchor number (.scalar start (scalarTag properties.tag style) text)
    | .flowSequenceStart =>
      let number ← openAnchor properties.anchor?
      skipToken
      closeAnchor number (.sequence start (← flowItems (readNode budget .flow) true count))
    | .flowMappingStart =>
      let number ← openAnchor properties.anchor?
      skipToken
      closeAnchor number (.mapping start (← flowEntries (readNode budget .flow) true count))
    | .blockSequenceStart =>
      if place == .flow then emptyNode properties
      else
        let number ← openAnchor properties.anchor?
        skipToken
        closeAnchor number (.sequence start (← blockItems (readNode budget .block) count))
    | .blockMappingStart =>
      if place == .flow then emptyNode properties
      else
        let number ← openAnchor properties.anchor?
        skipToken
        closeAnchor number (.mapping start (← blockEntries (readNode budget .blockOrEntries) count))
    | _ => emptyNode properties

def readDirectives : Nat → Option Unit → List (String × String) → Compose (List (String × String))
  | 0, _, _ => throw "too deep"
  | budget + 1, version?, tags => do
    match (← peekToken).kind with
    | .version major minor =>
      if version?.isSome then throw "found duplicate %YAML directive"
      if major != 1 || minor != 1 then throw "found incompatible YAML document"
      skipToken
      readDirectives budget (some ()) tags
    | .tagDirective handle expansion =>
      if tags.any (·.1 == handle) then throw "found duplicate %TAG directive"
      skipToken
      readDirectives budget version? (tags ++ [(handle, expansion)])
    | _ => return tags

def defaultDirectives : List (String × String) := [("!", "!"), ("!!", longTag)]

def skipEnds : Nat → Compose Unit
  | 0 => return
  | budget + 1 => do
    if (← peekToken).kind == .documentEnd then
      skipToken
      skipEnds budget

def readDocument (first : Bool) : Compose (Option Node) := do
  let count := (← get).tokens.tokens.size + 1
  if first then
    if (← peekToken).kind == .streamStart then skipToken
  else skipEnds count
  match (← peekToken).kind with
  | .streamEnd => return none
  | kind =>
    let isMarked := match kind with
      | .version _ _ | .tagDirective _ _ | .documentStart => true
      | _ => false
    let node ←
      if first && !isMarked then do
        modify fun p => { p with directives := defaultDirectives }
        readNode (count * 4) .block
      else do
        let tags ← readDirectives count none []
        modify fun p => { p with directives := tags ++ defaultDirectives }
        if (← peekToken).kind != .documentStart then throw "did not find expected <document start>"
        skipToken
        let token ← peekToken
        match token.kind with
        | .version _ _ | .tagDirective _ _ | .documentStart | .documentEnd | .streamEnd =>
          pure (emptyScalar token.start)
        | _ => readNode (count * 4) .block
    if (← peekToken).kind == .documentEnd then skipToken
    return some node

end JsonShape.Yaml
