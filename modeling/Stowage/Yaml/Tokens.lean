import Stowage.Yaml.Token

/-!
# The tokens of a text

A text is read token by token. Block collections begin and end where the indentation changes. A node
that turns out to be a key, because a colon follows on its line, gets its token in front of it
afterwards; until then it is a candidate.
-/

namespace Stowage.Yaml

/-- A node that a colon may make a key. -/
structure Candidate where
  position : Nat
  /-- Whether it stands where only a key may stand. -/
  required : Bool
  offset : Nat
  line : Nat
  column : Nat

structure Reading where
  cursor : Cursor
  /-- Newest first. -/
  tokens : List Token
  count : Nat
  indent : Int
  outerIndents : List Int
  keyAllowed : Bool
  candidate : Option Candidate
  /-- One for each flow collection around this place. -/
  outerCandidates : List (Option Candidate)
  finished : Bool

namespace Reading

def start (c : Cursor) : Reading := ⟨c, [], 0, -1, [], true, none, [], false⟩

def inFlow (r : Reading) : Bool := !r.outerCandidates.isEmpty

def push (r : Reading) (t : Token) : Reading :=
  { r with tokens := t :: r.tokens, count := r.count + 1 }

def place (r : Reading) (position : Nat) (ts : List Token) : Reading :=
  let k := r.count - position
  { r with tokens := r.tokens.take k ++ ts ++ r.tokens.drop k, count := r.count + ts.length }

/-! ## Candidates -/

/-- The bytes up to which a key may be away from its colon. -/
def keyReach : Nat := 1024

def isStale (c : Cursor) (k : Candidate) : Bool := k.line < c.line || k.offset + keyReach < c.offset

/-- A candidate that is too far away is dropped, unless it had to be a key. -/
def freshCandidate? (c : Cursor) : Option Candidate → Option (Option Candidate)
  | none => some none
  | some k => if isStale c k then (if k.required then none else some none) else some (some k)

def dropStale? (r : Reading) : Option Reading := do
  let k ← freshCandidate? r.cursor r.candidate
  let ks ← r.outerCandidates.mapM (freshCandidate? r.cursor)
  some { r with candidate := k, outerCandidates := ks }

def dropCandidate? (r : Reading) : Option Reading :=
  if r.candidate.any (·.required) then none else some { r with candidate := none }

def saveCandidate? (r : Reading) : Option Reading :=
  if !r.keyAllowed then some r else do
  let required := !r.inFlow && r.indent == r.cursor.column
  let r ← r.dropCandidate?
  some { r with
    candidate := some ⟨r.count, required, r.cursor.offset, r.cursor.line, r.cursor.column⟩ }

/-! ## Indentation -/

def closeBlocks (column : Int) : List Int → Int → Reading → Reading
  | outer :: l, indent, r =>
    if indent > column then closeBlocks column l outer (r.push .blockEnd)
    else { r with indent := indent, outerIndents := outer :: l }
  | [], indent, r => { r with indent := indent, outerIndents := [] }

def unindent (r : Reading) (column : Int) : Reading :=
  if r.inFlow then r else closeBlocks column r.outerIndents r.indent r

/-- The token that begins a block at `column`, if one begins there. -/
def blockStart (r : Reading) (column : Nat) (t : Token) : List Token :=
  if !r.inFlow && r.indent < column then [t] else []

def indentTo (r : Reading) (column : Nat) : Reading :=
  if !r.inFlow && r.indent < column then
    { r with indent := column, outerIndents := r.indent :: r.outerIndents }
  else r

def openBlock (r : Reading) (t : Token) : Reading :=
  let column := r.cursor.column
  (r.indentTo column).place r.count (r.blockStart column t)

/-! ## Blanks -/

/-- Passes over blanks, comments and line breaks, and over a byte order mark that begins a line. Tabs
may not stand where a key may begin. After a line break outside of flow collections, a key may
begin. -/
def skipBlanks (inFlow : Bool) : (fuel : Nat) → Bool → Cursor → Bool × Cursor
  | 0, keyAllowed, c => (keyAllowed, c)
  | n + 1, keyAllowed, c =>
    match c.head? with
    | none => (keyAllowed, c)
    | some x =>
      if x = ' ' || (x = '\t' && (inFlow || !keyAllowed)) ||
          (c.column == 0 && isByteOrderMark x) then
        skipBlanks inFlow n keyAllowed (c.advance 1)
      else if x = '#' then skipBlanks inFlow n keyAllowed c.takeLine.2
      else if isBreak x then skipBlanks inFlow n (keyAllowed || !inFlow) c.nextLine
      else (keyAllowed, c)

def toToken (r : Reading) : Reading :=
  let (keyAllowed, c) := skipBlanks r.inFlow (r.cursor.rest.length + 1) r.keyAllowed r.cursor
  { r with keyAllowed := keyAllowed, cursor := c }

/-! ## Single tokens -/

def take (r : Reading) (t : Token) (length : Nat) : Reading :=
  { r.push t with cursor := r.cursor.advance length }

def takeTo (r : Reading) (found : Token × Cursor) : Reading :=
  { r.push found.1 with cursor := found.2 }

def withKeys (r : Reading) (allowed : Bool) : Reading := { r with keyAllowed := allowed }

def finish? (r : Reading) : Option Reading := do
  let r ← (r.unindent (-1)).dropCandidate?
  some { r with finished := true }

def documentMark? (r : Reading) (t : Token) : Option Reading := do
  let r ← (r.unindent (-1)).dropCandidate?
  some ((r.withKeys false).take t 3)

def readDirective? (r : Reading) : Option Reading := do
  let r ← (r.unindent (-1)).dropCandidate?
  some ((r.withKeys false).takeTo (← directive? r.cursor))

def flowStart? (r : Reading) (t : Token) : Option Reading := do
  let r ← r.saveCandidate?
  some (({ r with candidate := none, outerCandidates := r.candidate :: r.outerCandidates }.withKeys
    true).take t 1)

def flowEnd? (r : Reading) (t : Token) : Option Reading := do
  let r ← r.dropCandidate?
  let r := match r.outerCandidates with
    | k :: ks => { r with candidate := k, outerCandidates := ks }
    | [] => r
  some ((r.withKeys false).take t 1)

def flowEntry? (r : Reading) : Option Reading := do
  let r ← r.dropCandidate?
  some ((r.withKeys true).take .flowEntry 1)

def blockEntry? (r : Reading) : Option Reading := do
  if !r.inFlow && !r.keyAllowed then none else
  let r ← (r.openBlock .blockListStart).dropCandidate?
  some ((r.withKeys true).take .blockEntry 1)

def key? (r : Reading) : Option Reading := do
  if !r.inFlow && !r.keyAllowed then none else
  let r ← (r.openBlock .blockFieldsStart).dropCandidate?
  some ((r.withKeys !r.inFlow).take .key 1)

/-- A colon: the candidate becomes a key, or an empty key is meant. -/
def value? (r : Reading) : Option Reading :=
  match r.candidate with
  | some k =>
    let start := r.blockStart k.column .blockFieldsStart
    let r' := (r.indentTo k.column).place k.position (.key :: start)
    some (({ r' with candidate := none }.withKeys false).take .value 1)
  | none =>
    if !r.inFlow && !r.keyAllowed then none
    else some (((r.openBlock .blockFieldsStart).withKeys !r.inFlow).take .value 1)

def nodeToken? (r : Reading) (found : Option (Token × Cursor)) : Option Reading := do
  let r ← r.saveCandidate?
  some ((r.withKeys false).takeTo (← found))

def readBlockScalar? (r : Reading) (literal : Bool) : Option Reading := do
  let r ← r.dropCandidate?
  let (text, c) ← blockScalar? literal r.indent r.cursor
  some ((r.withKeys true).takeTo (.scalar (if literal then .literal else .folded) text, c))

def readQuoted? (r : Reading) (double : Bool) : Option Reading :=
  r.nodeToken? ((quotedScalar? double r.cursor).map fun (text, c) => (.scalar .quoted text, c))

/-- A plain scalar over several lines leaves off where a key may begin. -/
def readPlain? (r : Reading) : Option Reading := do
  let r ← r.saveCandidate?
  let s ← plainScalar? r.inFlow (r.indent + 1).toNat r.cursor
  some ((r.withKeys s.broken).takeTo (.scalar .plain s.text, s.cursor))

/-! ## All tokens -/

def startsPlain (inFlow : Bool) (c : Char) (r : List Char) : Bool :=
  if c = '-' then !r.head?.any isWhite
  else if c = '?' || c = ':' then !inFlow && !endsWord r
  else !(isWhite c || isBreak c || ",[]\x7b\x7d#&*!|>'\"%@`".toList.contains c)

def readToken? (r : Reading) (x : Char) (rest : List Char) : Option Reading :=
  if r.cursor.column == 0 && x = '%' then r.readDirective?
  else if r.cursor.atMark '-' then r.documentMark? .documentStart
  else if r.cursor.atMark '.' then r.documentMark? .documentEnd
  else if x = '[' then r.flowStart? .flowListStart
  else if x = '\x7b' then r.flowStart? .flowFieldsStart
  else if x = ']' then r.flowEnd? .flowListEnd
  else if x = '\x7d' then r.flowEnd? .flowFieldsEnd
  else if x = ',' then r.flowEntry?
  else if x = '-' && endsWord rest then r.blockEntry?
  else if x = '?' && (r.inFlow || endsWord rest) then r.key?
  else if x = ':' && (r.inFlow || endsWord rest) then r.value?
  else if x = '*' then
    r.nodeToken? ((anchorName? r.cursor).map fun (name, c) => (.aliasOf name, c))
  else if x = '&' then
    r.nodeToken? ((anchorName? r.cursor).map fun (name, c) => (.anchor name, c))
  else if x = '!' then r.nodeToken? (tag? r.inFlow r.cursor)
  else if x = '|' && !r.inFlow then r.readBlockScalar? true
  else if x = '>' && !r.inFlow then r.readBlockScalar? false
  else if x = '\'' then r.readQuoted? false
  else if x = '"' then r.readQuoted? true
  else if startsPlain r.inFlow x rest then r.readPlain?
  else none

def next? (r : Reading) : Option Reading := do
  let r ← r.toToken.dropStale?
  let r := r.unindent r.cursor.column
  match r.cursor.rest with
  | [] => r.finish?
  | x :: rest => r.readToken? x rest

def readAll? : (fuel : Nat) → Reading → Option (List Token)
  | 0, _ => none
  | n + 1, r => do
    let r ← r.next?
    if r.finished then some r.tokens.reverse else readAll? n r

end Reading

def tokens? (cs : List Char) : Option (List Token) :=
  if cs.all isPrintable then Reading.readAll? (cs.length + 2) (.start (.start cs)) else none

end Stowage.Yaml
