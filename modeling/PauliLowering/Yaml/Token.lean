import PauliLowering.Yaml.Scalar

/-!
The tokens of a YAML text.

Indentation becomes tokens too: a deeper column opens a block, and a shallower one closes it. A word
that turns out to be the key of a mapping only when the colon after it is seen gets its tokens put
in front of it afterwards, so such a word is held back until that is settled. When reading fails,
the tokens read so far are the result, without those held back.
-/

namespace PauliLowering.Yaml

inductive Token where
  | versionDirective (major minor : Nat)
  | tagDirective (handle uri : List Char)
  | documentStart
  | documentEnd
  | blockSequenceStart
  | blockMappingStart
  | blockEnd
  | flowSequenceStart
  | flowSequenceEnd
  | flowMappingStart
  | flowMappingEnd
  | blockEntry
  | flowEntry
  | key
  | value
  | alias (name : List Char)
  | anchor (name : List Char)
  | tag (handle suffix : List Char)
  | scalar (text : List Char) (style : ScalarStyle)
  | streamEnd
  deriving DecidableEq, Repr

/-- A place where a key may have started, on the line being read. -/
structure KeyStart where
  /-- Nothing but a key can stand at this place. -/
  required : Bool
  /-- The number of the token that would be the key. -/
  token : Nat
  mark : Mark

structure Lexer where
  cursor : Cursor
  tokens : Array Token := #[]
  /-- The column of the innermost block, -1 outside all blocks. -/
  indent : Int := -1
  /-- The columns of the blocks around it. -/
  indents : List Int := []
  /-- A key may start here. -/
  keyAllowed : Bool := true
  keyStart : Option KeyStart := none
  /-- The key starts outside the brackets and braces that are open. -/
  outerKeyStarts : List (Option KeyStart) := []

namespace Lexer

/-- Inside brackets or braces indentation has no meaning. -/
def inFlow (l : Lexer) : Bool := !l.outerKeyStarts.isEmpty

def push (l : Lexer) (t : Token) : Lexer := { l with tokens := l.tokens.push t }

def take (l : Lexer) (n : Nat) (t : Token) : Lexer :=
  { l.push t with cursor := l.cursor.skip n }

/-! ## Keys -/

/-- A key start is stale on another line, and 1024 characters further on. -/
def isStale (l : Lexer) (k : KeyStart) : Bool :=
  k.mark.line < l.cursor.mark.line || k.mark.index + 1024 < l.cursor.mark.index

/-- Give up the stale key starts; a key that is required must not be given up. -/
def dropStale (l : Lexer) : Option Lexer :=
  let stale := (l.keyStart :: l.outerKeyStarts).filterMap fun k => k.filter l.isStale
  if stale.any (·.required) then none
  else
    let keep := Option.filter (!l.isStale ·)
    some { l with
      keyStart := keep l.keyStart
      outerKeyStarts := l.outerKeyStarts.map keep }

/-- The tokens that are not held back. -/
def released (l : Lexer) : List Token :=
  let held := (l.keyStart :: l.outerKeyStarts).filterMap fun k => k.map (·.token)
  l.tokens.toList.take (held.foldl min l.tokens.size)

/-- Give up the key start of the present level. -/
def dropKeyStart (l : Lexer) : Option Lexer :=
  if l.keyStart.any (·.required) then none else some { l with keyStart := none }

/-- Remember this place as a key start if a key may stand here. -/
def markKeyStart (l : Lexer) : Option Lexer := do
  if !l.keyAllowed then return l
  let l ← l.dropKeyStart
  let required := !l.inFlow && l.indent == l.cursor.mark.column
  return { l with keyStart := some ⟨required, l.tokens.size, l.cursor.mark⟩ }

/-! ## Indentation -/

/-- Open a block at a column if it is deeper than the present block. The token goes in front of the
token with the given number. -/
def openBlock (l : Lexer) (column number : Nat) (t : Token) : Lexer :=
  if l.inFlow || (column : Int) ≤ l.indent then l
  else { l with
    indents := l.indent :: l.indents
    indent := column
    tokens := l.tokens.insertIdxIfInBounds number t }

def closeBlocks (l : Lexer) (column : Int) : Lexer :=
  if l.inFlow then l else go l.indent l.indents l
where
  go (indent : Int) : List Int → Lexer → Lexer
    | [], l => { l with indent, indents := [] }
    | outer :: more, l =>
      if column < indent then go outer more (l.push .blockEnd)
      else { l with indent, indents := outer :: more }

/-- Close all blocks and give up a key start, as the text's outer marks do. -/
def closeAll (l : Lexer) : Option Lexer := do
  let l ← (l.closeBlocks (-1)).dropKeyStart
  return { l with keyAllowed := false }

/-! ## Tokens -/

/-- Past spaces, comments and breaks to the next token. Where a key may start, a tab is no space. -/
def toNextToken (l : Lexer) : Lexer := go (l.cursor.rest.length + 1) l
where
  go : Nat → Lexer → Lexer
    | 0, l => l
    | fuel + 1, l =>
      let isSkipped := fun c => c == ' ' || ((l.inFlow || !l.keyAllowed) && c == '\t')
      let cursor := (l.cursor.dropWhile isSkipped).skipComment
      match cursor.break? with
      | some (_, next) => go fuel { l with cursor := next, keyAllowed := l.keyAllowed || !l.inFlow }
      | none => { l with cursor }

def openFlow (l : Lexer) (t : Token) : Option Lexer := do
  let l ← l.markKeyStart
  let l := { l with outerKeyStarts := l.keyStart :: l.outerKeyStarts, keyStart := none }
  return { l.take 1 t with keyAllowed := true }

def closeFlow (l : Lexer) (t : Token) : Option Lexer := do
  let l ← l.dropKeyStart
  let l := match l.outerKeyStarts with
    | outer :: more => { l with keyStart := outer, outerKeyStarts := more }
    | [] => l
  return { l.take 1 t with keyAllowed := false }

def flowEntry (l : Lexer) : Option Lexer := do
  let l ← l.dropKeyStart
  return { l.take 1 .flowEntry with keyAllowed := true }

/-- Outside brackets and braces, open a block at an indicator, which may stand only where a key may
start. -/
def openAtIndicator (l : Lexer) (t : Token) : Option Lexer :=
  if l.inFlow then some l
  else if l.keyAllowed then some (l.openBlock l.cursor.mark.column l.tokens.size t)
  else none

def blockEntry (l : Lexer) : Option Lexer := do
  let l ← (← l.openAtIndicator .blockSequenceStart).dropKeyStart
  return { l.take 1 .blockEntry with keyAllowed := true }

def explicitKey (l : Lexer) : Option Lexer := do
  let l ← (← l.openAtIndicator .blockMappingStart).dropKeyStart
  return { l.take 1 .key with keyAllowed := !l.inFlow }

/-- A colon. It makes a key of what started at the key start, if there is one. -/
def value (l : Lexer) : Option Lexer :=
  match l.keyStart with
  | some k =>
    let tokens := l.tokens.insertIdxIfInBounds k.token .key
    let l := { l with tokens, keyStart := none }
    let l := l.openBlock k.mark.column k.token .blockMappingStart
    some { l.take 1 .value with keyAllowed := false }
  | none => do
    let l ← l.openAtIndicator .blockMappingStart
    return { l.take 1 .value with keyAllowed := !l.inFlow }

def name? (c : Cursor) : Option (List Char × Cursor) :=
  let (name, c) := c.span isNameChar
  let ends := atWordEnd c.rest || c.rest.head?.any fun d => "?:,]\x7d%@`".toList.contains d
  if name.isEmpty || !ends then none else some (name, c)

def named (l : Lexer) (token : List Char → Token) : Option Lexer := do
  let l ← l.markKeyStart
  let (name, cursor) ← name? (l.cursor.skip 1)
  return { l.push (token name) with cursor, keyAllowed := false }

def isUriChar (c : Char) : Bool := isNameChar c || ";/?:@&=+$.%!~*'()".toList.contains c

/-- A character in UTF-8 of which the first octets are read: their bits, the number of octets still
missing, and the least number that needs as many octets. -/
structure Octets where
  bits : Nat := 0
  missing : Nat := 0
  least : Nat := 0

namespace Octets

def first? (octet : Nat) : Option Octets :=
  if octet < 0x80 then some ⟨octet, 0, 0⟩
  else if octet < 0xC0 then none
  else if octet < 0xE0 then some ⟨octet % 0x20, 1, 0x80⟩
  else if octet < 0xF0 then some ⟨octet % 0x10, 2, 0x800⟩
  else if octet < 0xF8 then some ⟨octet % 0x08, 3, 0x10000⟩
  else none

def next? (o : Octets) (octet : Nat) : Option Octets :=
  if o.missing = 0 then first? octet
  else if octet / 0x40 = 2 then some ⟨0x40 * o.bits + octet % 0x40, o.missing - 1, o.least⟩
  else none

/-- The character of all octets; octets that encode none stand for the replacement character. -/
def char (o : Octets) : Char :=
  if h : o.least ≤ o.bits ∧ o.bits.isValidChar then Char.ofNatAux o.bits h.2 else '\ufffd'

end Octets

/-- The characters of an address. An escape is a percent sign and the two hexadecimal digits of an
octet, and the escapes of one character follow each other. -/
def unescape (o : Octets) : List Char → Option (List Char)
  | [] => if o.missing = 0 then some [] else none
  | '%' :: a :: b :: cs => do
    let o ← o.next? (16 * (← hexDigit? a) + (← hexDigit? b))
    let rest ← unescape o cs
    return if o.missing = 0 then o.char :: rest else rest
  | c :: cs => if c = '%' || o.missing ≠ 0 then none else (unescape o cs).map (c :: ·)

/-- The address of a tag, with some more characters than usual allowed in it. -/
def uri? (extra : Char → Bool) (c : Cursor) : Option (List Char × Cursor) := do
  let (uri, c) := c.span fun d => isUriChar d || extra d
  return (← unescape {} uri, c)

/-- A tag handle: an exclamation mark, alone or around a name. The flag says whether it is closed by
a second one. -/
def handle? (c : Cursor) : Option (List Char × Bool × Cursor) := do
  if c.rest.head? ≠ some '!' then none
  let (name, c) := (c.skip 1).span isNameChar
  if c.rest.head? = some '!' then return ('!' :: name ++ ['!'], true, c.skip 1)
  return ('!' :: name, false, c)

def tagToken? (c : Cursor) : Option (Token × Cursor) := do
  match c.rest with
  | '!' :: '<' :: _ =>
    let (uri, c) ← uri? (fun d => d == ',' || d == '[' || d == ']') (c.skip 2)
    if uri.isEmpty || c.rest.head? ≠ some '>' then none
    return (.tag [] uri, c.skip 1)
  | _ =>
    let (handle, closed, c) ← handle? c
    let (uri, c) ← uri? (fun _ => false) c
    if closed then
      if uri.isEmpty then none else return (.tag handle uri, c)
    else
      let suffix := handle.drop 1 ++ uri
      if suffix.isEmpty then return (.tag [] ['!'], c) else return (.tag ['!'] suffix, c)

def tagged (l : Lexer) : Option Lexer := do
  let l ← l.markKeyStart
  let (token, cursor) ← tagToken? l.cursor
  if !(atWordEnd cursor.rest || (l.inFlow && cursor.rest.head? = some ',')) then none
  return { l.push token with cursor, keyAllowed := false }

def blockScalar (l : Lexer) (folded : Bool) : Option Lexer := do
  let l ← l.dropKeyStart
  let (text, cursor) ← block? folded l.indent (l.cursor.skip 1)
  let style := if folded then .folded else .literal
  return { l.push (.scalar text style) with cursor, keyAllowed := true }

def quotedScalar (l : Lexer) (quote : Char) (style : ScalarStyle) : Option Lexer := do
  let l ← l.markKeyStart
  let (text, cursor) ← quoted? quote (l.cursor.skip 1)
  return { l.push (.scalar text style) with cursor, keyAllowed := false }

/-- A plain scalar that goes on to another line leaves a place where a key may start. -/
def plainScalar (l : Lexer) : Option Lexer := do
  let l ← l.markKeyStart
  let (text, crossesLine, cursor) ← plain? l.inFlow (l.indent + 1).toNat l.cursor
  return { l.push (.scalar text .plain) with cursor, keyAllowed := crossesLine }

def documentMark (l : Lexer) (t : Token) : Option Lexer := do
  return (← l.closeAll).take 3 t

/-! ## Directives -/

def versionNumber? (c : Cursor) : Option (Nat × Cursor) :=
  let (digits, c) := c.span Char.isDigit
  if digits.isEmpty || 9 < digits.length then none else some (Nat.ofDigitChars 10 digits 0, c)

def directiveToken? (c : Cursor) : Option (Token × Cursor) := do
  let (name, c) := c.span isNameChar
  if name.isEmpty || !atWordEnd c.rest then none
  let c := c.dropWhile isSpace
  match String.ofList name with
  | "YAML" =>
    let (major, c) ← versionNumber? c
    if c.rest.head? ≠ some '.' then none
    let (minor, c) ← versionNumber? (c.skip 1)
    return (.versionDirective major minor, c)
  | "TAG" =>
    let (handle, closed, c) ← handle? c
    if !(closed || handle == ['!']) || !c.rest.head?.any isSpace then none
    let (uri, c) ← uri? (fun d => d == ',' || d == '[' || d == ']') (c.dropWhile isSpace)
    if uri.isEmpty || !atWordEnd c.rest then none
    return (.tagDirective handle uri, c)
  | _ => none

def directive (l : Lexer) : Option Lexer := do
  let l ← l.closeAll
  let (token, c) ← directiveToken? (l.cursor.skip 1)
  let c := (c.dropWhile isSpace).skipComment
  if !atLineEnd c.rest then none
  return { l.push token with cursor := c.skipBreak }

/-! ## The whole text -/

def token (l : Lexer) : Option Lexer :=
  let atLineStart := l.cursor.mark.column == 0
  match l.cursor.rest with
  | [] => none
  | c :: cs =>
    if atLineStart && c == '%' then l.directive
    else if l.cursor.atDocumentMark then
      l.documentMark (if c == '-' then .documentStart else .documentEnd)
    else
      match c with
      | '[' => l.openFlow .flowSequenceStart
      | '\x7b' => l.openFlow .flowMappingStart
      | ']' => l.closeFlow .flowSequenceEnd
      | '\x7d' => l.closeFlow .flowMappingEnd
      | ',' => l.flowEntry
      | '*' => l.named .alias
      | '&' => l.named .anchor
      | '!' => l.tagged
      | '\'' => l.quotedScalar c .singleQuoted
      | '"' => l.quotedScalar c .doubleQuoted
      | '-' => if atWordEnd cs then l.blockEntry else l.plainScalar
      | '?' => if l.inFlow || atWordEnd cs then l.explicitKey else l.plainScalar
      | ':' => if l.inFlow || atWordEnd cs then l.value else l.plainScalar
      | '|' => if l.inFlow then none else l.blockScalar false
      | '>' => if l.inFlow then none else l.blockScalar true
      | '#' | '%' | '@' | '\x60' => none
      | _ => if isGap c then none else l.plainScalar

/-- Read on to the end of the text. The flag says whether it was reached. -/
def run : Nat → Lexer → List Token × Bool
  | 0, l => (l.released, false)
  | fuel + 1, l =>
    match l.dropStale with
    | none => (l.released, false)
    | some l =>
      let next := do
        let l' ← l.toNextToken.dropStale
        let l' := l'.closeBlocks l'.cursor.mark.column
        if l'.cursor.rest.isEmpty then return (← l'.closeAll).push .streamEnd else l'.token
      match next with
      | none => (l.released, false)
      | some l' =>
        if l'.tokens.back? = some .streamEnd then (l'.tokens.toList, true) else run fuel l'

end Lexer

/-- The tokens of a text, and whether it was read to its end. A text with a character that YAML does
not allow has none. -/
def tokens (text : List Char) : List Token × Bool :=
  let text := match text with
    | '\ufeff' :: cs => cs
    | _ => text
  if text.all isPrintable then Lexer.run (text.length + 1) { cursor := { rest := text } }
  else ([], false)

end PauliLowering.Yaml
