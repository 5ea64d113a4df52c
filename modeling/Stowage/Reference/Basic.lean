import Stowage.Reference.Segments

/-!
# References

A reference names a value by a dotted path. The first segment selects where it is looked up:
`metadata` or `resources`.
-/

namespace Stowage

inductive Reference
  | metadata (path : List String)
  | output (resource key : String)
  | identity (resource : String)
deriving DecidableEq

/-- Only the source of a volume may name a resource by its identity. -/
inductive ReferenceMode
  | general
  | volumeSource
deriving DecidableEq

/-! ## Errors -/

inductive ReferenceError
  | tooFewSegments (reference : String)
  | unknownRoot (reference root : String)
  | unknownMetadataKey (reference key : String)
  | missingOutputKey (reference : String)
  | unknownResource (reference resource : String)
  | missingOutput (reference resource key : String)
deriving DecidableEq

namespace ReferenceError

def reference : ReferenceError → String
  | tooFewSegments r | unknownRoot r _ | unknownMetadataKey r _ | missingOutputKey r
  | unknownResource r _ | missingOutput r _ _ => r

def problem : ReferenceError → String
  | tooFewSegments _ => "requires at least a prefix and a key"
  | unknownRoot _ root =>
    "unknown reference root '" ++ root ++ "', use $$ to escape the substitution"
  | unknownMetadataKey _ key => "unknown metadata key '" ++ key ++ "'"
  | missingOutputKey _ => "requires a resource name and an output key"
  | unknownResource _ resource => "no known resource '" ++ resource ++ "'"
  | missingOutput _ resource key => "resource '" ++ resource ++ "' has no output '" ++ key ++ "'"

def message (e : ReferenceError) : String := "invalid ref '" ++ e.reference ++ "': " ++ e.problem

end ReferenceError

/-! ## Parsing -/

/-- Segments joined by dots, without escapes. -/
def dotted (l : List String) : String := ".".intercalate l

namespace Reference

def ofSegments (text : String) (mode : ReferenceMode) :
    List String → Except ReferenceError Reference
  | "metadata" :: k :: path => .ok (.metadata (k :: path))
  | ["resources", resource] =>
    match mode with
    | .volumeSource => .ok (.identity resource)
    | .general => .error (.missingOutputKey text)
  | "resources" :: resource :: k :: key => .ok (.output resource (dotted (k :: key)))
  | root :: _ :: _ => .error (.unknownRoot text root)
  | _ => .error (.tooFewSegments text)

def parse (text : String) (mode : ReferenceMode) : Except ReferenceError Reference :=
  ofSegments text mode (Segments.ofText text)

end Reference
end Stowage
