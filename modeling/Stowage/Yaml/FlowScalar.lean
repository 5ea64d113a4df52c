import Stowage.Text.Digits
import Stowage.Yaml.Folding

/-!
# Scalars that are folded

Plain scalars, and scalars in single or double quotes.
-/

namespace Stowage.Yaml

/-! ## Plain scalars -/

def isFlowIndicator (c : Char) : Bool := c = ',' || c = '[' || c = ']' || c = '\x7b' || c = '\x7d'

/-- A word of a plain scalar: up to a blank, a colon that ends a key, or an indicator. In a flow
collection, a colon right before an indicator is refused. -/
def plainWord (inFlow : Bool) : List Char → Option (List Char)
  | [] => some []
  | c :: r =>
    if isWhite c || isBreak c then some []
    else if inFlow && c = ':' && r.head?.any (fun d => isFlowIndicator d || d = '?') then none
    else if (c = ':' && endsWord r) || (inFlow && isFlowIndicator c) then some []
    else (plainWord inFlow r).map (c :: ·)

/-- The text so far, and whether its last gap had a line break. -/
structure PlainScalar where
  text : List Char
  broken : Bool
  cursor : Cursor

/-- Continues a plain scalar after `gap`. Outside of flow collections it ends where the next line is
not indented by `indent`. -/
def readPlain (inFlow : Bool) (indent : Nat) :
    (fuel : Nat) → List Char → Gap → Cursor → Option PlainScalar
  | 0, _, _, _ => none
  | n + 1, text, gap, c =>
    if c.atDocumentMark || c.head? = some '#' then some ⟨text, gap.hasBreak, c⟩ else do
    let word ← plainWord inFlow c.rest
    let after := c.advance word.length
    let text := if word.isEmpty then text else text ++ gap.folded ++ word
    let gap := if word.isEmpty then gap else Gap.empty
    let goesOn := after.head?.any fun d => isWhite d || isBreak d
    if !goesOn then some ⟨text, gap.hasBreak, after⟩ else
    let (gap, next) := gap.read indent (after.rest.length + 1) after
    if gap.tabbed then none
    else if !inFlow && next.column < indent then some ⟨text, gap.hasBreak, next⟩
    else readPlain inFlow indent n text gap next

def plainScalar? (inFlow : Bool) (indent : Nat) (c : Cursor) : Option PlainScalar :=
  readPlain inFlow indent (c.rest.length + 1) [] .empty c

/-! ## Quoted scalars -/

inductive Stop
  | gap
  | quote
  | escapedBreak

structure QuotedWord where
  text : List Char
  length : Nat
  stop : Stop

def QuotedWord.cons (c : Char) (taken : Nat) (w : QuotedWord) : QuotedWord :=
  { w with text := c :: w.text, length := w.length + taken }

def singleWord : List Char → QuotedWord
  | [] => ⟨[], 0, .gap⟩
  | '\'' :: '\'' :: r => (singleWord r).cons '\'' 2
  | '\'' :: _ => ⟨[], 0, .quote⟩
  | c :: r => if isWhite c || isBreak c then ⟨[], 0, .gap⟩ else (singleWord r).cons c 1

def shortEscape? : Char → Option Char
  | '0' => some (Char.ofNat 0)
  | 'a' => some (Char.ofNat 7)
  | 'b' => some (Char.ofNat 8)
  | 't' | '\t' => some '\t'
  | 'n' => some '\n'
  | 'v' => some (Char.ofNat 11)
  | 'f' => some (Char.ofNat 12)
  | 'r' => some '\r'
  | 'e' => some (Char.ofNat 27)
  | ' ' => some ' '
  | '"' => some '"'
  | '/' => some '/'
  | '\\' => some '\\'
  | 'N' => some (Char.ofNat 0x85)
  | '_' => some (Char.ofNat 0xA0)
  | 'L' => some (Char.ofNat 0x2028)
  | 'P' => some (Char.ofNat 0x2029)
  | _ => none

def escapeLength? : Char → Option Nat
  | 'x' => some 2
  | 'u' => some 4
  | 'U' => some 8
  | _ => none

def codeChar? (cs : List Char) : Option Char := do
  let n ← natural? 16 cs
  if n < 0xD800 || (0xE000 ≤ n && n ≤ 0x10FFFF) then some (Char.ofNat n) else none

/-- The character that an escape stands for, and how many it takes after the backslash. -/
def escape? : List Char → Option (Char × Nat)
  | [] => none
  | e :: r =>
    match escapeLength? e with
    | some k => if r.length < k then none else (codeChar? (r.take k)).map fun c => (c, k + 1)
    | none => (shortEscape? e).map fun c => (c, 1)

/-- A word in double quotes; `skip` characters of it belong to an escape that is read already. -/
def doubleWord : (skip : Nat) → List Char → Option QuotedWord
  | _, [] => some ⟨[], 0, .gap⟩
  | skip + 1, _ :: r => doubleWord skip r
  | 0, c :: r =>
    if c = '"' then some ⟨[], 0, .quote⟩
    else if isWhite c || isBreak c then some ⟨[], 0, .gap⟩
    else if c = '\\' then
      if r.head?.any isBreak then some ⟨[], 0, .escapedBreak⟩
      else do
        let (x, k) ← escape? r
        let w ← doubleWord k r
        some (w.cons x (k + 1))
    else (doubleWord 0 r).map (·.cons c 1)

def quotedWord? (double : Bool) (cs : List Char) : Option QuotedWord :=
  if double then doubleWord 0 cs else some (singleWord cs)

def readQuoted (double : Bool) :
    (fuel : Nat) → List Char → Cursor → Option (List Char × Cursor)
  | 0, _, _ => none
  | n + 1, text, c =>
    if c.atDocumentMark || c.atEnd then none else do
    let w ← quotedWord? double c.rest
    let text := text ++ w.text
    let after := c.advance w.length
    match w.stop with
    | .quote => some (text, after.advance 1)
    | .gap =>
      let (gap, next) := Gap.empty.read 0 (after.rest.length + 1) after
      readQuoted double n (text ++ gap.folded) next
    | .escapedBreak =>
      let (gap, next) := Gap.escaped.read 0 (after.rest.length + 1) (after.advance 1).nextLine
      readQuoted double n (text ++ gap.folded) next

def quotedScalar? (double : Bool) (c : Cursor) : Option (List Char × Cursor) :=
  readQuoted double (c.rest.length + 1) [] (c.advance 1)

end Stowage.Yaml
