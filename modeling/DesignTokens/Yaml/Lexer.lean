import DesignTokens.Yaml.Block
import DesignTokens.Yaml.Plain
import DesignTokens.Yaml.Property
import DesignTokens.Yaml.Quoted

/-!
# Finding the tokens of a document

Two things make the tokens of a document depend on what comes around them.

- Indentation opens and closes block collections. The lexer keeps the columns of the open ones and
  closes all that are indented more deeply than the token at hand.
- A key of a mapping is recognised by the colon behind it. The lexer keeps, for the block level and
  for each open flow collection, the last place where such a key may have begun (`Candidate`), and
  when the colon comes it puts the missing tokens in at that place.
-/

namespace DesignTokens.Yaml

/-- A place where a key may have begun, together with the number of tokens before it. -/
structure Candidate where
  tokenIndex : Nat
  index : Nat
  line : Nat
  column : Nat
  /-- Whether a key must stand there: nothing else may begin at the column of a block mapping. -/
  required : Bool

/-- The state of the lexer. -/
structure Lexer where
  cursor : Cursor
  /-- The tokens so far, last one first. -/
  tokens : List Token := []
  tokenCount : Nat := 0
  /-- The column of the innermost block collection, minus one outside of all. -/
  indent : Int := -1
  /-- The columns of the block collections around it, innermost first. -/
  outerIndents : List Int := []
  /-- Whether a key may begin at the next token. -/
  keyAllowed : Bool := true
  /-- The candidate of the current level. -/
  candidate : Option Candidate := none
  /-- The candidates of the levels around it: there is one level for each open flow collection. -/
  outerCandidates : List (Option Candidate) := []

namespace Lexer

/-- Whether the lexer is within a flow collection. -/
def inFlow (s : Lexer) : Bool :=
  !s.outerCandidates.isEmpty

/-- Add a token at the end. -/
def emit (s : Lexer) (t : Token) : Lexer :=
  { s with tokens := t :: s.tokens, tokenCount := s.tokenCount + 1 }

/-- Put a token before all those from the given index on. -/
def emitAt (s : Lexer) (i : Nat) (t : Token) : Lexer :=
  let n := s.tokenCount - i
  { s with tokens := s.tokens.take n ++ t :: s.tokens.drop n, tokenCount := s.tokenCount + 1 }

/-- Add a token and move on. -/
def emitTo (s : Lexer) (t : Token) (c : Cursor) : Lexer :=
  { s.emit t with cursor := c }

/-! ## Block collections follow the indentation -/

/-- Close the block collections that are indented more deeply than a column. -/
def closeBlocks (column : Int) (s : Lexer) : Lexer :=
  if s.inFlow then s
  else
    let open_ := s.indent :: s.outerIndents
    let closed := (open_.takeWhile (column < ·)).length
    match open_.drop closed with
    | [] => s
    | indent :: outer =>
      { s with
        tokens := List.replicate closed Token.blockEnd ++ s.tokens
        tokenCount := s.tokenCount + closed
        indent := indent
        outerIndents := outer }

/-- Open a block collection at a column, unless one is open there, with its first token put at the
given index. -/
def openBlock (s : Lexer) (column i : Nat) (t : Token) : Lexer :=
  if !s.inFlow && s.indent < column then
    { s.emitAt i t with indent := column, outerIndents := s.indent :: s.outerIndents }
  else s

/-! ## Candidates for keys -/

/-- Give up the candidate of the current level; it must not be a required one. -/
def dropCandidate? (s : Lexer) : Option Lexer :=
  if s.candidate.any (·.required) then none else some { s with candidate := none }

/-- Note that a key may begin at the cursor. -/
def noteCandidate? (s : Lexer) : Option Lexer :=
  if s.keyAllowed then do
    let s ← s.dropCandidate?
    some { s with candidate := some {
      tokenIndex := s.tokenCount
      index := s.cursor.index
      line := s.cursor.line
      column := s.cursor.column
      required := !s.inFlow && s.indent == s.cursor.column } }
  else some s

/-- A candidate as long as its key can still be completed: a key ends on the line where it began
and is at most 1024 characters long. A required candidate must not be too old. -/
def refresh? (c : Cursor) : Option Candidate → Option (Option Candidate)
  | none => some none
  | some k =>
    if k.line < c.line ∨ k.index + 1024 < c.index then
      if k.required then none else some none
    else some (some k)

/-- Give up the candidates of all levels whose keys can no longer be completed. -/
def refreshCandidates? (s : Lexer) : Option Lexer := do
  let candidate ← refresh? s.cursor s.candidate
  let outer ← s.outerCandidates.mapM (refresh? s.cursor)
  some { s with candidate := candidate, outerCandidates := outer }

/-! ## One token at a time -/

/-- Move to the next token: over spaces, comments and line breaks, and over tabs where no key may
begin. A line break outside of flow collections allows a key to begin. -/
def skipToToken : List Char → Lexer → Lexer
  | [], s => s
  | _ :: fuel, s =>
    let c := s.cursor
    match c.peek with
    | none => s
    | some char =>
      if char == ' ' || (char == '\t' && (s.inFlow || !s.keyAllowed))
          || (char == '\ufeff' && c.index == 0) then
        skipToToken fuel { s with cursor := c.skip }
      else if char == '#' then skipToToken fuel { s with cursor := c.skipComment }
      else if isBreak char then
        skipToToken fuel
          { s with cursor := c.skipBreak, keyAllowed := s.keyAllowed || !s.inFlow }
      else s

/-- End whatever is open in the block context. -/
def finishBlocks? (s : Lexer) : Option Lexer := do
  let s ← (s.closeBlocks (-1)).dropCandidate?
  some { s with keyAllowed := false }

/-- Read a document marker. -/
def marker? (s : Lexer) (t : Token) : Option Lexer := do
  let s ← s.finishBlocks?
  some (s.emitTo t (s.cursor.skip 3))

/-- Read a directive. -/
def directive? (s : Lexer) : Option Lexer := do
  let s ← s.finishBlocks?
  let (t, c) ← Property.directive? s.cursor
  some (s.emitTo t c)

/-- Read the opening bracket of a flow collection. -/
def openFlow? (s : Lexer) (t : Token) : Option Lexer := do
  let s ← s.noteCandidate?
  some { s.emitTo t s.cursor.skip with
    keyAllowed := true
    candidate := none
    outerCandidates := s.candidate :: s.outerCandidates }

/-- Read the closing bracket of a flow collection. -/
def closeFlow? (s : Lexer) (t : Token) : Option Lexer := do
  let s ← s.dropCandidate?
  let s := match s.outerCandidates with
    | [] => s
    | candidate :: outer => { s with candidate := candidate, outerCandidates := outer }
  some { s.emitTo t s.cursor.skip with keyAllowed := false }

/-- Read the comma between the entries of a flow collection. -/
def flowEntry? (s : Lexer) : Option Lexer := do
  let s ← s.dropCandidate?
  some { s.emitTo .flowEntry s.cursor.skip with keyAllowed := true }

/-- Open a block collection for an indicator at the cursor. Outside of flow collections this needs
a place where a key may begin. -/
def openFor? (s : Lexer) (t : Token) : Option Lexer :=
  if s.inFlow then some s
  else if s.keyAllowed then some (s.openBlock s.cursor.column s.tokenCount t)
  else none

/-- Read the dash of a sequence entry. -/
def blockEntry? (s : Lexer) : Option Lexer := do
  let s ← (← s.openFor? .blockSequenceStart).dropCandidate?
  some { s.emitTo .blockEntry s.cursor.skip with keyAllowed := true }

/-- Read the question mark before a key. -/
def explicitKey? (s : Lexer) : Option Lexer := do
  let s ← (← s.openFor? .blockMappingStart).dropCandidate?
  some { s.emitTo .key s.cursor.skip with keyAllowed := !s.inFlow }

/-- Read the colon before a value. If there is a candidate then the key began there. -/
def value? (s : Lexer) : Option Lexer :=
  match s.candidate with
  | some k =>
    let s := (s.emitAt k.tokenIndex .key).openBlock k.column k.tokenIndex .blockMappingStart
    some { s.emitTo .value s.cursor.skip with candidate := none, keyAllowed := false }
  | none => do
    let s ← s.openFor? .blockMappingStart
    some { s.emitTo .value s.cursor.skip with keyAllowed := !s.inFlow }

/-- Read a token at which a key may begin, with the given reader. -/
def nodePart? (s : Lexer) (read? : Cursor → Option (Token × Cursor)) : Option Lexer := do
  let s ← s.noteCandidate?
  let (t, c) ← read? s.cursor
  some { s.emitTo t c with keyAllowed := false }

/-- Read a block scalar. -/
def blockScalar? (s : Lexer) : Option Lexer := do
  let s ← s.dropCandidate?
  let (text, c) ← Block.read? s.indent s.cursor
  some { s.emitTo (.scalar text false) c with keyAllowed := true }

/-- Read a plain scalar. -/
def plainScalar? (s : Lexer) : Option Lexer := do
  let s ← s.noteCandidate?
  let (text, broken, c) ← Plain.read? s.inFlow (s.indent + 1) s.cursor
  some { s.emitTo (.scalar text true) c with keyAllowed := broken }

/-- Whether a plain scalar may begin with a character, which has another one or none behind it. -/
def startsPlain (flow : Bool) (char : Char) (next : Option Char) : Bool :=
  if isBlank char || isBreak char then false
  else if char == '-' then !next.any isBlank
  else if char == '?' || char == ':' then !flow && !isGap next
  else !(",[]\x7b\x7d#&*!|>'\"%@`".toList.contains char)

/-- Read the token at the cursor, which begins with a character. -/
def token? (s : Lexer) (char : Char) : Option Lexer :=
  let c := s.cursor
  let next := c.peekAt 1
  if c.column = 0 ∧ char = '%' then s.directive?
  else if c.atMarker '-' then s.marker? .documentStart
  else if c.atMarker '.' then s.marker? .documentEnd
  else if char = '[' then s.openFlow? .flowSequenceStart
  else if char = '{' then s.openFlow? .flowMappingStart
  else if char = ']' then s.closeFlow? .flowSequenceEnd
  else if char = '}' then s.closeFlow? .flowMappingEnd
  else if char = ',' then s.flowEntry?
  else if char = '-' ∧ isGap next then s.blockEntry?
  else if char = '?' ∧ (s.inFlow ∨ isGap next) then s.explicitKey?
  else if char = ':' ∧ (s.inFlow ∨ isGap next) then s.value?
  else if char = '*' then
    s.nodePart? fun c => (Property.anchorName? c.skip).map fun (n, c) => (.aliasOf n, c)
  else if char = '&' then
    s.nodePart? fun c => (Property.anchorName? c.skip).map fun (n, c) => (.anchor n, c)
  else if char = '!' then
    s.nodePart? fun c => (Property.tag? s.inFlow c).map fun (n, c) => (.tag n, c)
  else if (char = '|' ∨ char = '>') ∧ !s.inFlow then s.blockScalar?
  else if char = '\'' ∨ char = '"' then
    s.nodePart? fun c => (Quoted.read? c).map fun (text, c) => (.scalar text false, c)
  else if startsPlain s.inFlow char next then s.plainScalar?
  else none

/-- Read all tokens. Every step but the last moves on, so the text bounds the number of steps. -/
def run? : List Char → Lexer → Option (List Token)
  | fuel, s => do
    let s ← (skipToToken s.cursor.rest s).refreshCandidates?
    let s := if s.cursor.rest.isEmpty then s else s.closeBlocks s.cursor.column
    match s.cursor.peek, fuel with
    | some char, _ :: fuel => run? fuel (← s.token? char)
    | _, _ => (← s.finishBlocks?).tokens.reverse

end Lexer

/-- The tokens of a text, if it has only characters that a document may have and they form
tokens. -/
def Token.ofText? (text : List Char) : Option (List Token) :=
  if text.all isPrintable then Lexer.run? text { cursor := { rest := text } } else none

end DesignTokens.Yaml
