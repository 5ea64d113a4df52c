import Stowage.Document.Node
import Stowage.Json.Numeral
import Stowage.Yaml.Token

/-!
# What scalars of YAML mean

Plain scalars are read by their form, other scalars are text; a tag overrides either. Every scalar
can be read as its text.
-/

namespace Stowage.Yaml

/-! ## Words -/

def isNullWord (s : String) : Bool := ["null", "Null", "NULL", "~"].contains s

def boolWord? (s : String) : Option Bool :=
  if ["true", "True", "TRUE"].contains s then some true
  else if ["false", "False", "FALSE"].contains s then some false
  else none

/-! ## Integers -/

/-- Digits behind a sign, and whether it is a minus sign. -/
def splitSign : List Char → Bool × List Char
  | '-' :: r => (true, r)
  | '+' :: r => (false, r)
  | r => (false, r)

def isPadded (cs : List Char) : Bool :=
  match (splitSign cs).2 with
  | '0' :: d :: r => (d :: r).all Char.isDigit
  | _ => false

def unsigned? : List Char → Option Nat
  | '0' :: 'x' :: r => natural? 16 r
  | '0' :: 'o' :: r => natural? 8 r
  | '0' :: 'b' :: r => natural? 2 r
  | r => natural? 10 r

def integer? (cs : List Char) : Option Int :=
  if isPadded cs then none else
  let (negative, r) := splitSign cs
  (unsigned? r).map fun n => if negative then -n else n

def isWord (n : Int) : Bool := -0x8000000000000000 ≤ n && n < UInt64.size

/-- An integer of 128 bits, with or without a sign bit. -/
def isDoubleWord (n : Int) : Bool :=
  -0x8000000000000000 * UInt64.size ≤ n && n < UInt64.size * UInt64.size

def count? (cs : List Char) : Option Nat :=
  if (splitSign cs).1 then none else
  (integer? cs).bind fun n => if n < UInt64.size then some n.toNat else none

/-! ## Other numbers -/

/-- Digits with a point or an exponent. Either side of the point may be empty, but not both. -/
def decimal? (cs : List Char) : Option Double := do
  let (negative, cs) := splitSign cs
  let (whole, cs) := spanDigits 10 cs
  let (fraction, cs) := match cs with
    | '.' :: r => spanDigits 10 r
    | r => ([], r)
  if whole.isEmpty && fraction.isEmpty then none else
  let (exponent, cs) ← Numeral.readExponent cs
  if !cs.isEmpty then none else
  let e : Int := match exponent with
    | none => 0
    | some (true, ds) => -ofDigits 10 ds
    | some (false, ds) => ofDigits 10 ds
  Double.ofDecimal negative (ofDigits 10 (whole ++ fraction)) (e - fraction.length)

def isNonFinite (s : String) : Bool :=
  [".inf", ".Inf", ".INF", "+.inf", "+.Inf", "+.INF", "-.inf", "-.Inf", "-.INF", ".nan", ".NaN",
    ".NAN"].contains s

/-- A number that is not finite has no value but null. -/
def float? (s : String) : Option Json :=
  if isNonFinite s then some .null else (decimal? s.toList).map fun d => .num (.double d)

/-! ## Values -/

/-- An integer of more than 64 and at most 128 bits has no value. -/
def integerValue? (n : Int) : Option Json := if isWord n then some (.num (.int n)) else none

/-- The integer that a scalar is, unless it is so long that it is a double. -/
def wordlike? (s : String) : Option Int := (integer? s.toList).filter isDoubleWord

def plainValue? (s : String) : Option Json :=
  if s.isEmpty || isNullWord s then some .null else
  match boolWord? s, wordlike? s with
  | some b, _ => some (.bool b)
  | none, some n => integerValue? n
  | none, none => some (((float? s).filter fun _ => !isPadded s.toList).getD (.str s))

/-! ## Tags -/

inductive CoreTag
  | null
  | bool
  | int
  | float
deriving DecidableEq

inductive Tag
  | core (t : CoreTag)
  /-- Known to those who wrote the text. -/
  | application
  /-- One of an application whose bytes are no text, which says nothing. -/
  | illegible
  | other
deriving DecidableEq

def CoreTag.bytes (name : String) : List UInt8 :=
  utf8Bytes ("tag:yaml.org,2002:" ++ name).toList

def Tag.ofBytes (bs : List UInt8) : Tag :=
  if bs = CoreTag.bytes "null" then .core .null
  else if bs = CoreTag.bytes "bool" then .core .bool
  else if bs = CoreTag.bytes "int" then .core .int
  else if bs = CoreTag.bytes "float" then .core .float
  else if bs.take 1 = utf8Bytes ['!'] then if isUtf8 bs then .application else .illegible
  else .other

def untaggedValue? (style : ScalarStyle) (s : String) : Option Json :=
  if style = .plain then plainValue? s else some (.str s)

def Tag.value? (style : ScalarStyle) (s : String) : Tag → Option Json
  | .core .null => if isNullWord s then some .null else none
  | .core .bool => (boolWord? s).map .bool
  | .core .int => (wordlike? s).bind integerValue?
  | .core .float => float? s
  | .application => none
  | .illegible => untaggedValue? style s
  | .other => some (.str s)

/-! ## Scalars -/

def scalarValue? (tag : Option Tag) (style : ScalarStyle) (s : String) : Option Json :=
  match tag with
  | some t => t.value? style s
  | none => untaggedValue? style s

/-- Scalars that flags and counts may be read from: plain ones, and literal ones with their tag. -/
def isTyped (t : CoreTag) (tag : Option Tag) (style : ScalarStyle) : Bool :=
  style = .plain || (style = .literal && tag = some (.core t))

/-- Whether a plain scalar says nothing. The tag of nothing suits no other text. -/
def isAbsent? (tag : Option Tag) (style : ScalarStyle) (s : String) : Option Bool :=
  if style ≠ .plain then some false else
  match tag with
  | none => some (s.isEmpty || isNullWord s)
  | some (.core .null) => if isNullWord s then some true else none
  | some _ => some false

def scalar (tag : Option Tag) (style : ScalarStyle) (text : List Char) : Scalar :=
  let s := String.ofList text
  { text := some s
    value := scalarValue? tag style s
    flag := if isTyped .bool tag style then boolWord? s else none
    count := if isTyped .int tag style then count? text else none
    absent := isAbsent? tag style s
    empty := style = .plain && text.isEmpty }

end Stowage.Yaml
