import Stowage.Bytes.Utf8

/-!
# Base64

The standard alphabet with canonical padding. Reading accepts only what writing produces: the last
quad is padded in full, and the bits that no byte takes are zero.
-/

namespace Stowage.Base64

/-! ## Symbols -/

def pad : UInt8 := 61

def value? (b : UInt8) : Option Nat :=
  let n := b.toNat
  if 65 ≤ n ∧ n ≤ 90 then some (n - 65)
  else if 97 ≤ n ∧ n ≤ 122 then some (n - 71)
  else if 48 ≤ n ∧ n ≤ 57 then some (n + 4)
  else if n = 43 then some 62
  else if n = 47 then some 63
  else none

def symbol (v : Nat) : Char :=
  if v < 26 then Char.ofNat (v + 65)
  else if v < 52 then Char.ofNat (v + 71)
  else if v < 62 then Char.ofNat (v - 4)
  else if v = 62 then '+'
  else '/'

/-! ## Writing -/

def encode : List UInt8 → List Char
  | [] => []
  | [a] => [symbol (a.toNat / 4), symbol (a.toNat % 4 * 16), '=', '=']
  | [a, b] =>
    [symbol (a.toNat / 4), symbol (a.toNat % 4 * 16 + b.toNat / 16), symbol (b.toNat % 16 * 4), '=']
  | a :: b :: c :: r =>
    symbol (a.toNat / 4) :: symbol (a.toNat % 4 * 16 + b.toNat / 16) ::
      symbol (b.toNat % 16 * 4 + c.toNat / 64) :: symbol (c.toNat % 64) :: encode r

/-! ## Errors -/

inductive Error
  | symbol (byte : UInt8) (offset : Nat)
  | length (n : Nat)
  | padding
  | lastSymbol (byte : UInt8) (offset : Nat)
deriving DecidableEq

def Error.message : Error → String
  | symbol b i => "Invalid symbol " ++ toString b.toNat ++ ", offset " ++ toString i ++ "."
  | length n => "Invalid input length: " ++ toString n
  | padding => "Invalid padding"
  | lastSymbol b i => "Invalid last symbol " ++ toString b.toNat ++ ", offset " ++ toString i ++ "."

/-! ## Reading -/

def valueAt (offset : Nat) (b : UInt8) : Except Error Nat :=
  match value? b with
  | some v => .ok v
  | none => .error (.symbol b offset)

def byte (n : Nat) : UInt8 := UInt8.ofNat n

def ofQuad (v w x y : Nat) : List UInt8 :=
  [byte (v * 4 + w / 16), byte (w % 16 * 16 + x / 4), byte (x % 4 * 64 + y)]

/-- Symbols with their values, and how many pads follow. A pad is first looked for behind two
symbols, and nothing but pads comes behind it. -/
def readLast (offset : Nat) : (index : Nat) → List UInt8 → Except Error (List (UInt8 × Nat) × Nat)
  | _, [] => .ok ([], 0)
  | i, b :: r =>
    if b = pad then
      if 2 ≤ i && r.all (· == pad) then .ok ([], r.length + 1) else .error (.symbol b (offset + i))
    else do
      let v ← valueAt (offset + i) b
      let (vs, pads) ← readLast offset (i + 1) r
      .ok ((b, v) :: vs, pads)

/-- The bytes of the last quad, which begins at `offset`. -/
def decodeLast (offset : Nat) (bs : List UInt8) : Except Error (List UInt8) := do
  let (symbols, pads) ← readLast offset 0 bs
  if symbols.length < 2 && !bs.isEmpty then .error (.length (offset + symbols.length))
  else if (symbols.length + pads) % 4 ≠ 0 then .error .padding
  else match symbols with
    | [(_, v), (_, w), (_, x), (_, y)] => .ok (ofQuad v w x y)
    | [(_, v), (_, w), (b, x)] =>
      if x % 4 = 0 then .ok ((ofQuad v w x 0).take 2) else .error (.lastSymbol b (offset + 2))
    | [(_, v), (b, w)] =>
      if w % 16 = 0 then .ok ((ofQuad v w 0 0).take 1) else .error (.lastSymbol b (offset + 1))
    | _ => .ok []

/-- Quad by quad; only the last may be padded. -/
def decodeQuads (offset : Nat) : List UInt8 → Except Error (List UInt8)
  | a :: b :: c :: d :: e :: r => do
    let v ← valueAt offset a
    let w ← valueAt (offset + 1) b
    let x ← valueAt (offset + 2) c
    let y ← valueAt (offset + 3) d
    let rest ← decodeQuads (offset + 4) (e :: r)
    .ok (ofQuad v w x y ++ rest)
  | bs => decodeLast offset bs

/-- A single character after the last full quad that is no symbol, such as a line break, is reported
before anything else. -/
def decodeBytes (bs : List UInt8) : Except Error (List UInt8) :=
  match bs.getLast? with
  | some b =>
    if bs.length % 4 = 1 && b ≠ pad && (value? b).isNone then .error (.symbol b (bs.length - 1))
    else decodeQuads 0 bs
  | none => .ok []

def decode (cs : List Char) : Except Error (List UInt8) := decodeBytes (utf8Bytes cs)

end Stowage.Base64
