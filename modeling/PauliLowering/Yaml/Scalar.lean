/-!
Reading YAML scalars: plain words, quoted texts, and blocks of literal or folded lines.

In plain and quoted scalars a run of spaces and breaks is folded: without a break it stands as it
is, a single line feed becomes a space, and of several the first one is dropped. Readers return
`none` on malformed text. A cursor is a place in the text that is being read.
-/

namespace PauliLowering.Yaml

def isPrintable (c : Char) : Bool :=
  let n := c.toNat
  n == 0x9 || n == 0xA || n == 0xD || (0x20 ≤ n && n ≤ 0x7E) || n == 0x85 ||
    (0xA0 ≤ n && n ≤ 0xD7FF) || (0xE000 ≤ n && n ≤ 0xFFFD) || 0x10000 ≤ n

/-- The line and paragraph separators, breaks that keep their own character in a folded text. -/
def isSeparator (c : Char) : Bool := c == '\u2028' || c == '\u2029'

def isBreak (c : Char) : Bool := c == '\n' || c == '\r' || c == '\u0085' || isSeparator c

def isSpace (c : Char) : Bool := c == ' ' || c == '\t'

def isGap (c : Char) : Bool := isSpace c || isBreak c

/-- The characters of anchors, tag handles and directives. -/
def isNameChar (c : Char) : Bool := c.isAlphanum || c == '_' || c == '-'

/-- A word ends here: at a space, a break or the end of the text. -/
def atWordEnd : List Char → Bool
  | [] => true
  | c :: _ => isGap c

def atLineEnd : List Char → Bool
  | [] => true
  | c :: _ => isBreak c

/-- Three hyphens or three dots as a word, which mark the start or the end of a document when they
begin a line. -/
def startsDocumentMark : List Char → Bool
  | '-' :: '-' :: '-' :: cs | '.' :: '.' :: '.' :: cs => atWordEnd cs
  | _ => false

structure Mark where
  index : Nat := 0
  line : Nat := 0
  column : Nat := 0

namespace Mark

def skip (m : Mark) (n : Nat) : Mark := { m with index := m.index + n, column := m.column + n }

def newLine (m : Mark) (n : Nat) : Mark := { index := m.index + n, line := m.line + 1, column := 0 }

end Mark

structure Cursor where
  mark : Mark := {}
  rest : List Char

namespace Cursor

/-- Past `n` characters of the same line. -/
def skip (c : Cursor) (n : Nat) : Cursor := ⟨c.mark.skip n, c.rest.drop n⟩

/-- The run of characters of a class, none of them a break, and what follows it. -/
def span (c : Cursor) (p : Char → Bool) : List Char × Cursor :=
  let run := c.rest.takeWhile p
  (run, c.skip run.length)

def dropWhile (c : Cursor) (p : Char → Bool) : Cursor := (c.span p).2

/-- A break at this place, as the character that stands for it in a text, and the next line. -/
def break? (c : Cursor) : Option (Char × Cursor) :=
  match c.rest with
  | '\r' :: '\n' :: cs => some ('\n', ⟨c.mark.newLine 2, cs⟩)
  | d :: cs =>
    if isBreak d then some (if isSeparator d then d else '\n', ⟨c.mark.newLine 1, cs⟩) else none
  | [] => none

/-- Past the break at this place, if there is one. -/
def skipBreak (c : Cursor) : Cursor :=
  match c.break? with
  | some (_, next) => next
  | none => c

/-- At the end of the line, past a comment if one stands here. -/
def skipComment (c : Cursor) : Cursor :=
  if c.rest.head? = some '#' then c.dropWhile (!isBreak ·) else c

def atDocumentMark (c : Cursor) : Bool := c.mark.column == 0 && startsDocumentMark c.rest

end Cursor

inductive ScalarStyle where
  | plain
  | singleQuoted
  | doubleQuoted
  | literal
  | folded
  deriving DecidableEq, Repr

/-- A run of spaces and breaks between two parts of a scalar. -/
structure Gap where
  spaces : List Char := []
  /-- The first break; there is one without a character after a backslash at the end of a line. -/
  lead : Option (List Char) := none
  /-- The breaks after the first. -/
  trail : List Char := []

namespace Gap

def crossesLine (g : Gap) : Bool := g.lead.isSome

def addBreak (g : Gap) (c : Char) : Gap :=
  if g.crossesLine then { g with trail := g.trail ++ [c] } else { g with lead := some [c] }

/-- The characters that the gap leaves in the text. -/
def text (g : Gap) : List Char :=
  match g.lead with
  | none => g.spaces
  | some ['\n'] => if g.trail.isEmpty then [' '] else g.trail
  | some lead => lead ++ g.trail

/-- Read the rest of a gap. After a break no tab may stand before the column `tabLimit`. -/
def read (tabLimit : Nat) (g : Gap) (m : Mark) : List Char → Option (Gap × Cursor)
  | '\r' :: '\n' :: cs => read tabLimit (g.addBreak '\n') (m.newLine 2) cs
  | c :: cs =>
    if isSpace c then
      if !g.crossesLine then read tabLimit { g with spaces := g.spaces ++ [c] } (m.skip 1) cs
      else if c == '\t' && m.column < tabLimit then none
      else read tabLimit g (m.skip 1) cs
    else if isBreak c then
      read tabLimit (g.addBreak (if isSeparator c then c else '\n')) (m.newLine 1) cs
    else some (g, ⟨m, c :: cs⟩)
  | [] => some (g, ⟨m, []⟩)

end Gap

/-! ## Plain scalars -/

/-- The characters that end a plain scalar inside brackets or braces. -/
def isFlowIndicator (c : Char) : Bool := c == ',' || c == '[' || c == ']' || c == '{' || c == '}'

/-- The part of a plain scalar up to the next gap or indicator. -/
def plainPart (flow : Bool) (m : Mark) : List Char → Option (List Char × Cursor)
  | [] => some ([], ⟨m, []⟩)
  | c :: cs =>
    if isGap c then some ([], ⟨m, c :: cs⟩)
    else if flow && c == ':' && cs.head?.any (fun d => isFlowIndicator d || d == '?') then none
    else if (c == ':' && atWordEnd cs) || (flow && isFlowIndicator c) then some ([], ⟨m, c :: cs⟩)
    else (plainPart flow (m.skip 1) cs).map fun (part, next) => (c :: part, next)

/-- Read on in a plain scalar, given its text so far and the gap after it. In block context the
scalar ends at a line indented by less than `indent`. The result says whether the scalar's last gap
crosses a line. -/
def readPlain (flow : Bool) (indent : Nat) :
    Nat → List Char → Gap → Cursor → Option (List Char × Bool × Cursor)
  | 0, text, gap, c => some (text, gap.crossesLine, c)
  | fuel + 1, text, gap, c =>
    if c.atDocumentMark || c.rest.head? = some '#' then some (text, gap.crossesLine, c)
    else do
      let (part, c) ← plainPart flow c.mark c.rest
      if part.isEmpty then return (text, gap.crossesLine, c)
      let text := text ++ gap.text ++ part
      if c.rest.head?.any isGap then
        let (gap, c) ← Gap.read indent {} c.mark c.rest
        if !flow && c.mark.column < indent then return (text, gap.crossesLine, c)
        readPlain flow indent fuel text gap c
      else return (text, false, c)

def plain? (flow : Bool) (indent : Nat) (c : Cursor) : Option (List Char × Bool × Cursor) :=
  readPlain flow indent c.rest.length [] {} c

/-! ## Quoted scalars -/

/-- The part of a single-quoted scalar up to the next gap or the closing quote; a quote is written
twice. -/
def singlePart (m : Mark) : List Char → List Char × Cursor
  | '\'' :: '\'' :: cs =>
    let (part, next) := singlePart (m.skip 2) cs
    ('\'' :: part, next)
  | c :: cs =>
    if c == '\'' || isGap c then ([], ⟨m, c :: cs⟩)
    else
      let (part, next) := singlePart (m.skip 1) cs
      (c :: part, next)
  | [] => ([], ⟨m, []⟩)

def escaped? : Char → Option Char
  | '0' => some '\x00'
  | 'a' => some '\x07'
  | 'b' => some '\x08'
  | 't' | '\t' => some '\t'
  | 'n' => some '\n'
  | 'v' => some '\x0b'
  | 'f' => some '\x0c'
  | 'r' => some '\r'
  | 'e' => some '\x1b'
  | ' ' => some ' '
  | '"' => some '"'
  | '/' => some '/'
  | '\\' => some '\\'
  | 'N' => some '\u0085'
  | '_' => some '\u00a0'
  | 'L' => some '\u2028'
  | 'P' => some '\u2029'
  | _ => none

def hexDigit? (c : Char) : Option Nat :=
  if c.isDigit then some (c.toNat - '0'.toNat)
  else if 'a' ≤ c && c ≤ 'f' then some (c.toNat - 'a'.toNat + 10)
  else if 'A' ≤ c && c ≤ 'F' then some (c.toNat - 'A'.toNat + 10)
  else none

def hexChar? (digits : List Char) : Option Char := do
  let n ← digits.foldlM (fun n c => (hexDigit? c).map (16 * n + ·)) 0
  if n.isValidChar then some (Char.ofNat n) else none

/-- The part of a double-quoted scalar up to the next gap or the closing quote, and the gap so far:
a backslash at the end of a line starts one that drops the break. -/
def doublePart (m : Mark) : List Char → Option (List Char × Gap × Cursor)
  | '\\' :: '\r' :: '\n' :: cs => some ([], { lead := some [] }, ⟨m.newLine 3, cs⟩)
  | '\\' :: 'x' :: a :: b :: cs => do
    let c ← hexChar? [a, b]
    let (part, next) ← doublePart (m.skip 4) cs
    return (c :: part, next)
  | '\\' :: 'u' :: a :: b :: c :: d :: cs => do
    let c ← hexChar? [a, b, c, d]
    let (part, next) ← doublePart (m.skip 6) cs
    return (c :: part, next)
  | '\\' :: 'U' :: a :: b :: c :: d :: e :: f :: g :: h :: cs => do
    let c ← hexChar? [a, b, c, d, e, f, g, h]
    let (part, next) ← doublePart (m.skip 10) cs
    return (c :: part, next)
  | '\\' :: c :: cs =>
    if isBreak c then some ([], { lead := some [] }, ⟨m.newLine 2, cs⟩)
    else do
      let d ← escaped? c
      let (part, next) ← doublePart (m.skip 2) cs
      return (d :: part, next)
  | c :: cs =>
    if c == '"' || isGap c then some ([], {}, ⟨m, c :: cs⟩)
    else if c == '\\' then none
    else (doublePart (m.skip 1) cs).map fun (part, next) => (c :: part, next)
  | [] => some ([], {}, ⟨m, []⟩)

/-- Read on in a quoted scalar, given its text so far, up to and past the closing quote. -/
def readQuoted (quote : Char) : Nat → List Char → Cursor → Option (List Char × Cursor)
  | 0, _, _ => none
  | fuel + 1, text, c =>
    if c.atDocumentMark || c.rest.isEmpty then none
    else do
      let (part, gap, c) ←
        if quote == '"' then doublePart c.mark c.rest
        else
          let (part, c) := singlePart c.mark c.rest
          some (part, {}, c)
      if c.rest.head? = some quote then return (text ++ part, c.skip 1)
      let (gap, c) ← gap.read 0 c.mark c.rest
      readQuoted quote fuel (text ++ part ++ gap.text) c

/-- The quoted scalar whose opening quote has been read. -/
def quoted? (quote : Char) (c : Cursor) : Option (List Char × Cursor) :=
  readQuoted quote (c.rest.length + 1) [] c

/-! ## Block scalars -/

inductive Chomping where
  | strip
  | clip
  | keep
  deriving DecidableEq, Repr

def chomping? (c : Cursor) : Option (Chomping × Cursor) :=
  match c.rest with
  | '+' :: _ => some (.keep, c.skip 1)
  | '-' :: _ => some (.strip, c.skip 1)
  | _ => none

/-- The indentation digit of a block header; zero is malformed. -/
def indentation? (c : Cursor) : Option (Option Nat × Cursor) :=
  match c.rest with
  | d :: _ =>
    if d == '0' then none
    else if d.isDigit then some (some (d.toNat - '0'.toNat), c.skip 1)
    else some (none, c)
  | [] => some (none, c)

/-- The header of a block, in which the two indicators come in either order. -/
def blockHeader? (c : Cursor) : Option (Chomping × Option Nat × Cursor) := do
  match chomping? c with
  | some (chomping, c) =>
    let (increment, c) ← indentation? c
    return (chomping, increment, c)
  | none =>
    let (increment, c) ← indentation? c
    match increment, chomping? c with
    | some _, some (chomping, c) => return (chomping, increment, c)
    | _, _ => return (.clip, increment, c)

/-- The indentation and the empty lines in front of a line with content. Without an indent every
space counts as indentation, and `widest` is the widest seen so far. -/
def blockBreaks (indent : Option Nat) (widest : Nat) (breaks : List Char) (m : Mark) :
    List Char → Option (Nat × List Char × Cursor)
  | [] => some (max widest m.column, breaks, ⟨m, []⟩)
  | '\r' :: '\n' :: cs =>
    blockBreaks indent (max widest m.column) (breaks ++ ['\n']) (m.newLine 2) cs
  | c :: cs =>
    let within := indent.all (m.column < ·)
    if within && c == ' ' then blockBreaks indent widest breaks (m.skip 1) cs
    else if within && c == '\t' then none
    else if isBreak c then
      blockBreaks indent (max widest m.column) (breaks ++ [if isSeparator c then c else '\n'])
        (m.newLine 1) cs
    else some (max widest m.column, breaks, ⟨m, c :: cs⟩)

/-- What has been read of a block: its text, the break of the last line, the breaks after it, and
whether that line started with a space. -/
structure BlockText where
  text : List Char := []
  lead : List Char := []
  trail : List Char := []
  spaced : Bool := false

/-- The text with a new line's content; `spaced` says whether that line starts with a space. Folding
joins two lines by a space unless one of them starts with a space. -/
def BlockText.join (b : BlockText) (folded spaced : Bool) : List Char :=
  let joint :=
    if folded && b.lead == ['\n'] && !b.spaced && !spaced then
      if b.trail.isEmpty then [' '] else []
    else b.lead
  b.text ++ joint ++ b.trail

def readBlock (folded : Bool) (indent : Nat) :
    Nat → BlockText → Cursor → Option (BlockText × Cursor)
  | 0, b, c => some (b, c)
  | fuel + 1, b, c =>
    if c.mark.column != indent || c.rest.isEmpty then some (b, c)
    else do
      let spaced := c.rest.head?.any isSpace
      let (line, c) := c.span (!isBreak ·)
      let (lead, c) := match c.break? with
        | some (d, next) => ([d], next)
        | none => ([], c)
      let text := b.join folded spaced ++ line
      let (_, trail, c) ← blockBreaks (some indent) 0 [] c.mark c.rest
      readBlock folded indent fuel { text, lead, trail, spaced } c

/-- The block scalar whose indicator has been read, in a block indented by `parent` (or by nothing).
-/
def block? (folded : Bool) (parent : Int) (c : Cursor) : Option (List Char × Cursor) := do
  let (chomping, increment, c) ← blockHeader? c
  let c := (c.dropWhile isSpace).skipComment
  if !atLineEnd c.rest then none
  let c := c.skipBreak
  let fixed := increment.map fun n => if 0 ≤ parent then parent.toNat + n else n
  let (widest, trail, c) ← blockBreaks fixed 0 [] c.mark c.rest
  let indent := fixed.getD (max widest (max (parent + 1).toNat 1))
  let (b, c) ← readBlock folded indent (c.rest.length + 1) { trail } c
  return match chomping with
    | .strip => (b.text, c)
    | .clip => (b.text ++ b.lead, c)
    | .keep => (b.text ++ b.lead ++ b.trail, c)

end PauliLowering.Yaml
