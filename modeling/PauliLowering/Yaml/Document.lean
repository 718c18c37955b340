import PauliLowering.Yaml.Token

/-!
The first document of a YAML text: its events, which are scalars and aliases and where sequences
and mappings start and end, and the items that they come to once the aliases are resolved.

A stack of expectations says what has to come next. Where the tokens end early or do not fit, the
events before that place are the result.
-/

namespace PauliLowering.Yaml

structure Scalar where
  text : List Char := []
  style : ScalarStyle := .plain
  tag : Option (List Char) := none
  deriving DecidableEq, Repr

inductive Event where
  | scalar (anchor : Option (List Char)) (s : Scalar)
  | alias (name : List Char)
  | sequenceStart (anchor : Option (List Char))
  | sequenceEnd
  | mappingStart (anchor : Option (List Char))
  | mappingEnd
  deriving DecidableEq, Repr

/-- The scalar that stands where nothing is written. -/
def Event.empty : Event := .scalar none {}

inductive Expectation where
  /-- A node; a block may stand here, and also a sequence that is not indented. -/
  | node (block indentless : Bool)
  | blockEntry
  | indentlessEntry
  | blockKey
  | blockValue
  | flowEntry (first : Bool)
  /-- The key, the value and the end of a mapping with one pair in a flow sequence. -/
  | pairKey
  | pairValue
  | pairEnd
  | flowKey (first : Bool)
  | flowValue
  /-- The value of a key that stands alone. -/
  | flowEmptyValue
  deriving DecidableEq, Repr

structure Parser where
  tokens : List Token
  stack : List Expectation
  /-- The addresses of tag handles. -/
  handles : List (List Char × List Char)
  /-- The events so far, the latest first. -/
  events : List Event := []

namespace Parser

/-- Go on with other tokens and expectations, after an event. -/
def emit (p : Parser) (e : Event) (tokens : List Token) (stack : List Expectation) : Parser :=
  { p with tokens, stack, events := e :: p.events }

/-- The anchor and the tag in front of a node, in either order, and the tokens after them. -/
def properties : List Token → Option (List Char) × Option (List Char × List Char) × List Token
  | .anchor a :: .tag h s :: ts | .tag h s :: .anchor a :: ts => (some a, some (h, s), ts)
  | .anchor a :: ts => (some a, none, ts)
  | .tag h s :: ts => (none, some (h, s), ts)
  | ts => (none, none, ts)

/-- The full tag: its handle is replaced by the address that the handle stands for. -/
def resolveTag (p : Parser) : Option (List Char × List Char) → Option (Option (List Char))
  | none => some none
  | some ([], suffix) => some (some suffix)
  | some (handle, suffix) =>
    (p.handles.find? fun h => h.1 == handle).map fun h => some (h.2 ++ suffix)

def node (p : Parser) (block indentless : Bool) (stack : List Expectation) : Option Parser := do
  match p.tokens with
  | .alias name :: ts => return p.emit (.alias name) ts stack
  | _ =>
    let (anchor, tag?, ts) := properties p.tokens
    let tag ← p.resolveTag tag?
    match ts with
    | [] => none
    | .scalar text style :: rest => return p.emit (.scalar anchor { text, style, tag }) rest stack
    | .flowSequenceStart :: rest =>
      return p.emit (.sequenceStart anchor) rest (.flowEntry true :: stack)
    | .flowMappingStart :: rest =>
      return p.emit (.mappingStart anchor) rest (.flowKey true :: stack)
    | t :: rest =>
      if indentless && t == .blockEntry then
        return p.emit (.sequenceStart anchor) ts (.indentlessEntry :: stack)
      else if block && t == .blockSequenceStart then
        return p.emit (.sequenceStart anchor) rest (.blockEntry :: stack)
      else if block && t == .blockMappingStart then
        return p.emit (.mappingStart anchor) rest (.blockKey :: stack)
      else if anchor.isSome || tag?.isSome then
        return p.emit (.scalar anchor { tag }) ts stack
      else none

/-- A node unless one of the tokens in `stops` comes next, which leaves an empty scalar. -/
def nodeOrEmpty (p : Parser) (ts : List Token) (stops : List Token) (block indentless : Bool)
    (stack : List Expectation) : Option Parser :=
  match ts with
  | [] => none
  | t :: _ =>
    if stops.contains t then some (p.emit .empty ts stack)
    else some { p with tokens := ts, stack := .node block indentless :: stack }

/-- Meet the expectation on top of the stack, `stack` being those below it. -/
def meet (p : Parser) (stack : List Expectation) : Expectation → Option Parser
  | .node block indentless => p.node block indentless stack
  | .blockEntry =>
    match p.tokens with
    | .blockEntry :: ts =>
      p.nodeOrEmpty ts [.blockEntry, .blockEnd] true false (.blockEntry :: stack)
    | .blockEnd :: ts => some (p.emit .sequenceEnd ts stack)
    | _ => none
  | .indentlessEntry =>
    match p.tokens with
    | .blockEntry :: ts =>
      p.nodeOrEmpty ts [.blockEntry, .key, .value, .blockEnd] true false (.indentlessEntry :: stack)
    | [] => none
    | ts => some (p.emit .sequenceEnd ts stack)
  | .blockKey =>
    match p.tokens with
    | .key :: ts => p.nodeOrEmpty ts [.key, .value, .blockEnd] true true (.blockValue :: stack)
    | .blockEnd :: ts => some (p.emit .mappingEnd ts stack)
    | _ => none
  | .blockValue =>
    match p.tokens with
    | .value :: ts => p.nodeOrEmpty ts [.key, .value, .blockEnd] true true (.blockKey :: stack)
    | [] => none
    | ts => some (p.emit .empty ts (.blockKey :: stack))
  | .flowEntry first => do
    let ts ← match first, p.tokens with
      | false, .flowEntry :: ts => some ts
      | false, .flowSequenceEnd :: _ => some p.tokens
      | false, _ => none
      | true, ts => some ts
    match ts with
    | [] => none
    | .flowSequenceEnd :: ts => return p.emit .sequenceEnd ts stack
    | .key :: ts => return p.emit (.mappingStart none) ts (.pairKey :: .flowEntry false :: stack)
    | ts => return { p with tokens := ts, stack := .node false false :: .flowEntry false :: stack }
  | .pairKey =>
    match p.tokens with
    | [] => none
    | t :: ts =>
      if [Token.value, .flowEntry, .flowSequenceEnd].contains t then
        some (p.emit .empty ts (.pairValue :: stack))
      else some { p with stack := .node false false :: .pairValue :: stack }
  | .pairValue =>
    match p.tokens with
    | .value :: ts =>
      p.nodeOrEmpty ts [.flowEntry, .flowSequenceEnd] false false (.pairEnd :: stack)
    | [] => none
    | ts => some (p.emit .empty ts (.pairEnd :: stack))
  | .pairEnd => some (p.emit .mappingEnd p.tokens stack)
  | .flowKey first => do
    let ts ← match first, p.tokens with
      | false, .flowEntry :: ts => some ts
      | false, .flowMappingEnd :: _ => some p.tokens
      | false, _ => none
      | true, ts => some ts
    match ts with
    | [] => none
    | .flowMappingEnd :: ts => return p.emit .mappingEnd ts stack
    | .key :: ts =>
      p.nodeOrEmpty ts [.value, .flowEntry, .flowMappingEnd] false false (.flowValue :: stack)
    | ts => return { p with tokens := ts, stack := .node false false :: .flowEmptyValue :: stack }
  | .flowValue =>
    match p.tokens with
    | .value :: ts =>
      p.nodeOrEmpty ts [.flowEntry, .flowMappingEnd] false false (.flowKey false :: stack)
    | [] => none
    | ts => some (p.emit .empty ts (.flowKey false :: stack))
  | .flowEmptyValue => some (p.emit .empty p.tokens (.flowKey false :: stack))

/-- Meet all expectations. The flag says whether that was possible. -/
def run : Nat → Parser → Parser × Bool
  | 0, p => (p, false)
  | fuel + 1, p =>
    match p.stack with
    | [] => (p, true)
    | e :: stack =>
      match p.meet stack e with
      | none => (p, false)
      | some next => run fuel next

end Parser

/-- An event whose alias, if it is one, is resolved: to a scalar, or to some sequence or mapping. -/
inductive Item where
  | scalar (s : Scalar)
  | aliasedCollection
  | sequenceStart
  | sequenceEnd
  | mappingStart
  | mappingEnd
  deriving DecidableEq, Repr

/-- What the first document holds, as far as it can be read. -/
structure Document where
  items : List Item
  /-- The document was read to its end. -/
  complete : Bool
  /-- Nothing follows the document. -/
  single : Bool
  deriving DecidableEq, Repr

/-- Replace aliases by what their anchors stand for. An alias without an anchor before it ends the
reading, and the flag says that this did not happen. -/
def resolve (anchors : List (List Char × Item)) : List Event → List Item × Bool
  | [] => ([], true)
  | e :: es =>
    let start := fun (anchor : Option (List Char)) (target item : Item) =>
      let anchors := match anchor with
        | some name => (name, target) :: anchors
        | none => anchors
      let (items, known) := resolve anchors es
      (item :: items, known)
    match e with
    | .scalar anchor s => start anchor (.scalar s) (.scalar s)
    | .sequenceStart anchor => start anchor .aliasedCollection .sequenceStart
    | .mappingStart anchor => start anchor .aliasedCollection .mappingStart
    | .sequenceEnd => start none .sequenceEnd .sequenceEnd
    | .mappingEnd => start none .mappingEnd .mappingEnd
    | .alias name =>
      match anchors.find? fun a => a.1 == name with
      | some (_, target) => start none target target
      | none => ([], false)

/-- The directives in front of a document and the tokens after them: at most one version, 1.1 or
1.2, and each handle once. -/
def directives (version : Bool) (handles : List (List Char × List Char)) :
    List Token → Option (List (List Char × List Char) × List Token)
  | .versionDirective major minor :: ts =>
    if version || major ≠ 1 || !(minor == 1 || minor == 2) then none
    else directives true handles ts
  | .tagDirective handle uri :: ts =>
    if handles.any (·.1 == handle) then none else directives version ((handle, uri) :: handles) ts
  | ts => some (handles, ts)

def defaultHandles : List (List Char × List Char) :=
  [(['!'], ['!']), (['!', '!'], "tag:yaml.org,2002:".toList)]

/-- The tokens of a document's content and the tag handles in force. A document starts at a mark,
which directives need, or at the start of the text. -/
def opening (ts : List Token) : Option (List (List Char × List Char) × Bool × List Token) := do
  let isDirective := match ts with
    | .versionDirective _ _ :: _ | .tagDirective _ _ :: _ => true
    | _ => false
  let (handles, ts) ← directives false [] ts
  match ts with
  | .documentStart :: ts => return (handles ++ defaultHandles, true, ts)
  | _ => if isDirective then none else return (handles ++ defaultHandles, false, ts)

/-- The content after a document's mark may be missing altogether. -/
def contentIsEmpty : List Token → Bool
  | .versionDirective _ _ :: _ | .tagDirective _ _ :: _ | .documentStart :: _ | .documentEnd :: _
  | .streamEnd :: _ => true
  | _ => false

/-- The first document of a text. A text without any document gives no items. -/
def document (text : List Char) : Document :=
  let (ts, _) := tokens text
  if ts = [.streamEnd] then ⟨[], true, true⟩
  else
    match opening ts with
    | none => ⟨[], false, false⟩
    | some (handles, marked, ts) =>
      let start : Parser := { tokens := ts, stack := [.node true false], handles }
      let (parser, done) :=
        if marked && contentIsEmpty ts then (start.emit .empty ts [], true)
        else start.run (4 * ts.length + 4)
      let (items, known) := resolve [] parser.events.reverse
      let ended := done && known && !parser.tokens.isEmpty
      ⟨items, ended,
        ended && (parser.tokens.dropWhile (· == .documentEnd)).head? == some .streamEnd⟩

end PauliLowering.Yaml
