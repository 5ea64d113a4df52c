import Stowage.Json.Printer
import Stowage.Reference.Basic
import Stowage.Reference.Template
import Stowage.Workload.Basic

/-!
# What references see

The references of a workload are looked up in its metadata, in the resources it declares, and in the
outputs of these.
-/

namespace Stowage

structure Scope where
  workload : String
  metadata : Metadata
  resources : OrderedMap Resource
  outputs : Outputs

namespace Scope

def ofWorkload (name : String) (w : Workload) (outputs : Outputs) : Scope :=
  ⟨name, w.metadata, w.resources, outputs⟩

/-! ## Identity tokens -/

def token? (s : Scope) (resource : String) : Option String :=
  (s.resources.get? resource).map (Resource.token s.workload resource)

/-- The first declared resource with an identity token. -/
def resourceOf? (s : Scope) (token : String) : Option String :=
  (s.resources.toList.find? fun e => e.2.token s.workload e.1 == token).map Prod.fst

/-! ## References -/

def lookup (s : Scope) (text : String) : Reference → Except ReferenceError String
  | .metadata path =>
    match s.metadata.lookup? path with
    | some j => .ok j.plain
    | none => .error (.unknownMetadataKey text (dotted path))
  | .identity resource =>
    match s.token? resource with
    | some t => .ok t
    | none => .error (.unknownResource text resource)
  | .output resource key =>
    if s.resources.contains resource then
      match s.outputs.get? resource key with
      | some v => .ok v
      | none => .error (.missingOutput text resource key)
    else .error (.unknownResource text resource)

def resolve (s : Scope) (text : String) (mode : ReferenceMode) : Except ReferenceError String :=
  Reference.parse text mode >>= s.lookup text

/-! ## Texts -/

def resolveChars (s : Scope) (mode : ReferenceMode) (cs : List Char) :
    Except ReferenceError (List Char) :=
  (s.resolve (String.ofList cs) mode).map String.toList

def expand (s : Scope) (mode : ReferenceMode) (text : String) : Except ReferenceError String :=
  (Template.expand (s.resolveChars mode) text.toList).map String.ofList

end Scope
end Stowage
