import Stowage.Yaml.Cursor

/-!
# Line folding

Between two words of a scalar stand blanks and line breaks. Blanks alone are kept; a single line
break becomes a blank; of several the first is dropped.
-/

namespace Stowage.Yaml

inductive Break
  | none
  /-- Written out as nothing by a backslash. -/
  | escaped
  | char (c : Char)
deriving DecidableEq

structure Gap where
  blanks : List Char
  first : Break
  further : List Char
  /-- Whether a tab stands where indentation is due. -/
  tabbed : Bool

namespace Gap

def empty : Gap := ⟨[], .none, [], false⟩

def escaped : Gap := ⟨[], .escaped, [], false⟩

def hasBreak (g : Gap) : Bool := g.first ≠ .none

def addBlank (g : Gap) (c : Char) (column indent : Nat) : Gap :=
  if g.hasBreak then { g with tabbed := g.tabbed || (c = '\t' && column < indent) }
  else { g with blanks := g.blanks ++ [c] }

def addBreak (g : Gap) (c : Char) : Gap :=
  match g.first with
  | .none => { g with blanks := [], first := .char (breakChar c) }
  | _ => { g with further := g.further ++ [breakChar c] }

def folded (g : Gap) : List Char :=
  match g.first with
  | .none => g.blanks
  | .escaped => g.further
  | .char c =>
    if c = '\n' then (if g.further.isEmpty then [' '] else g.further)
    else c :: g.further

def read (indent : Nat) : (fuel : Nat) → Gap → Cursor → Gap × Cursor
  | 0, g, c => (g, c)
  | n + 1, g, c =>
    match c.head? with
    | some x =>
      if isWhite x then read indent n (g.addBlank x c.column indent) (c.advance 1)
      else if isBreak x then read indent n (g.addBreak x) c.nextLine
      else (g, c)
    | none => (g, c)

end Gap
end Stowage.Yaml
