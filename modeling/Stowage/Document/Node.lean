import Stowage.Json.Basic
import Stowage.Map.Ordered

/-!
# Documents

A document is a tree whose scalars offer readings: as text, as a free-form value, as a flag, as a
count. A format decides which readings a part has, so readers of documents need not know the
format. A part that is well-formed but has no meaning is a scalar without readings; it does harm
only where it is read.
-/

namespace Stowage

structure Scalar where
  text : Option String
  value : Option Json
  flag : Option Bool
  count : Option Nat
  /-- Whether it stands for nothing where a value is optional. None if it contradicts itself. -/
  absent : Option Bool
  empty : Bool

def Scalar.unreadable : Scalar := ⟨none, none, none, none, some false, false⟩

inductive Node
  | scalar (s : Scalar)
  /-- Where positional, the items can be the fields of a record in their order. -/
  | list (positional : Bool) (items : List Node)
  | fields (entries : List (Node × Node))
  /-- A list or fields without a reading as a free-form value. -/
  | tagged (n : Node)
  /-- A part that stands elsewhere, looked up only where it is read. -/
  | aliasOf (target : Unit → Node)

/-- What is read from parts of a document while their aliases are followed a limited number of
times. -/
abbrev Decoding (α : Type) := StateT Nat Option α

def Decoding.followAlias : Decoding Unit := do
  match ← get with
  | 0 => failure
  | k + 1 => set k

namespace Node

def unreadable : Node := scalar .unreadable

instance : Inhabited Node := ⟨unreadable⟩

def content : Node → Decoding Node
  | tagged n => n.content
  | aliasOf target => do
    Decoding.followAlias
    (target ()).content
  | n => return n

@[simp] theorem content_scalar (s : Scalar) : (scalar s).content = pure (scalar s) := rfl

@[simp] theorem content_list (positional : Bool) (l : List Node) :
    (list positional l).content = pure (list positional l) := rfl

@[simp] theorem content_fields (l : List (Node × Node)) : (fields l).content = pure (fields l) := rfl

@[simp] theorem content_tagged (n : Node) : (tagged n).content = n.content := rfl

/-! ## Reading scalars -/

def scalar? (n : Node) : Decoding Scalar := do
  match ← n.content with
  | scalar s => return s
  | _ => failure

def text? (n : Node) : Decoding String := do liftM (← n.scalar?).text

def flag? (n : Node) : Decoding Bool := do liftM (← n.scalar?).flag

def port? (n : Node) : Decoding UInt16 := do
  let k ← (← n.scalar?).count
  if k < UInt16.size then return k.toUInt16 else failure

def optional? (read : Node → Decoding α) (n : Node) : Decoding (Option α) := do
  match ← n.content with
  | scalar s => if ← s.absent then return none else return some (← read (scalar s))
  | n => return some (← read n)

/-! ## Reading values -/

mutual

def value? : Node → Decoding Json
  | scalar s => liftM s.value
  | list _ l => return .arr (← values? l)
  | fields l => return .obj (← entryValues? l)
  | tagged _ => failure
  | aliasOf target => do
    Decoding.followAlias
    (target ()).value?

def values? : List Node → Decoding (List Json)
  | [] => return []
  | n :: l => do
    let j ← n.value?
    return j :: (← values? l)

def entryValues? : List (Node × Node) → Decoding (List (String × Json))
  | [] => return []
  | (k, n) :: l => do
    let k ← k.text?
    let j ← n.value?
    return (k, j) :: (← entryValues? l)

end

/-! ## Reading collections -/

def list? (read : Node → Decoding α) (n : Node) : Decoding (List α) := do
  match ← n.content with
  | list _ l => l.mapM read
  | scalar s => if s.empty then return [] else failure
  | _ => failure

def entries? (read : Node → Decoding α) (n : Node) : Decoding (List (String × α)) := do
  match ← n.content with
  | fields l => l.mapM fun (k, n) => return (← k.text?, ← read n)
  | scalar s => if s.empty then return [] else failure
  | _ => failure

def sortedMap? (read : Node → Decoding α) (n : Node) : Decoding (SortedMap α) :=
  SortedMap.ofList <$> n.entries? read

def orderedMap? (read : Node → Decoding α) (n : Node) : Decoding (OrderedMap α) :=
  OrderedMap.ofList <$> n.entries? read

end Node

/-! ## Records -/

structure Record where
  given : List (String × Node)

namespace Node

/-- Fields by name, of which the known ones come at most once, or the values of the first known
fields in their order. -/
def record? (known : List String) (n : Node) : Decoding Record := do
  match ← n.content with
  | fields l =>
    let named ← l.mapM fun (k, n) => return (← k.text?, n)
    let given := named.filter fun e => known.contains e.1
    if (given.map Prod.fst).eraseDups.length = given.length then return ⟨given⟩ else failure
  | list true l => if l.length ≤ known.length then return ⟨known.zip l⟩ else failure
  | scalar s => if s.empty then return ⟨[]⟩ else failure
  | _ => failure

end Node

namespace Record

def required? (r : Record) (name : String) (read : Node → Decoding α) : Decoding α := do
  read (← r.given.lookup name)

def defaulted? (r : Record) (name : String) (fallback : α) (read : Node → Decoding α) :
    Decoding α :=
  match r.given.lookup name with
  | none => return fallback
  | some n => read n

def optional? (r : Record) (name : String) (read : Node → Decoding α) : Decoding (Option α) :=
  r.defaulted? name none (Node.optional? read)

def list? (r : Record) (name : String) (read : Node → Decoding α) : Decoding (List α) :=
  r.defaulted? name [] (Node.list? read)

end Record

/-! ## Whole documents -/

structure Document where
  root : Node
  /-- How many aliases may be followed to read it. -/
  aliases : Nat

def Document.decode? (read : Node → Decoding α) (d : Document) : Option α :=
  (read d.root).run' d.aliases

end Stowage
