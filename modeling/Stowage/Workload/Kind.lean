import Stowage.Conversion.Fault
import Stowage.Json.Printer
import Stowage.Workload.Metadata

/-!
# Kinds of workload

An annotation selects the controller that runs a workload. Only a stateful set may carry claims.
-/

namespace Stowage

inductive WorkloadKind
  | deployment
  | statefulSet
deriving DecidableEq

namespace WorkloadKind

def kindKey : String := "k8s.score.dev/kind"

def name : WorkloadKind → String
  | deployment => "Deployment"
  | statefulSet => "StatefulSet"

def ofName? (s : String) : Option WorkloadKind :=
  if s = "Deployment" then some deployment
  else if s = "StatefulSet" then some statefulSet
  else none

theorem ofName?_name (k : WorkloadKind) : ofName? k.name = some k := by cases k <;> rfl

def supportsClaims (k : WorkloadKind) : Bool := k = statefulSet

/-- A deployment where there is no annotation. -/
def ofMetadata (m : Metadata) : Except Cause WorkloadKind :=
  match m.annotated? kindKey with
  | none => .ok deployment
  | some j =>
    match j.text?.bind ofName? with
    | some k => .ok k
    | none => .error (.unsupportedKind j.plain)

end WorkloadKind
end Stowage
