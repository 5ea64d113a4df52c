import Stowage.Reference.Basic

/-!
# Faults

A conversion fails with a cause and the path of the field it comes from, outermost segment first.
Each part reports faults relative to what it was given, and its caller adds the segment in front.
-/

namespace Stowage

inductive Cause
  | reference (e : ReferenceError)
  | quantity (value reason : String)
  | claimContext (kind : String)
  | mountConflict (path reason : String)
  | unsupportedKind (kind : String)
  | volumeSource (source reason : String)
  | mountPath (path : String)
  | fileMode (mode : String)
  | fileContent (reason : String)
  | missingField
deriving DecidableEq

namespace Cause

def message : Cause → String
  | reference e => e.message
  | quantity value reason => "failed to parse quantity '" ++ value ++ "': " ++ reason
  | claimContext kind => "volume claims can only be set on stateful sets, not on a " ++ kind
  | mountConflict path reason => "conflicting mounts at '" ++ path ++ "': " ++ reason
  | unsupportedKind kind => "unsupported workload kind '" ++ kind ++ "'"
  | volumeSource source reason => "invalid volume source '" ++ source ++ "': " ++ reason
  | mountPath path => "invalid mount path '" ++ path ++ "': must be absolute"
  | fileMode mode =>
    "invalid file mode '" ++ mode ++ "': must be an octal value no greater than 0777"
  | fileContent reason => "invalid file content: " ++ reason
  | missingField => "missing required field"

def code (c : Cause) : String :=
  "wharf::convert::" ++ match c with
    | reference _ => "reference"
    | quantity _ _ => "resource_conversion"
    | claimContext _ => "invalid_claim_context"
    | mountConflict _ _ => "volume_conflict"
    | unsupportedKind _ => "unsupported_kind"
    | volumeSource _ _ => "volume_source"
    | mountPath _ => "mount_path"
    | fileMode _ => "file_mode"
    | fileContent _ => "file_content"
    | missingField => "missing_field"

def help? : Cause → Option String
  | reference _ => some "references must name workload metadata or a declared resource"
  | quantity _ _ => some "use Kubernetes quantities such as '250m', '1', '512Mi' or '2Gi'"
  | claimContext _ => some "set the 'k8s.score.dev/kind' annotation to 'StatefulSet'"
  | unsupportedKind _ => some "supported kinds are 'Deployment' and 'StatefulSet'"
  | _ => none

end Cause

structure Fault where
  path : List String
  cause : Cause
deriving DecidableEq

namespace Fault

def ofCause (c : Cause) : Fault := ⟨[], c⟩

/-- Puts the path below an enclosing field. -/
def within (field : String) (f : Fault) : Fault := { f with path := field :: f.path }

def message (f : Fault) : String :=
  if f.path.isEmpty then f.cause.message else dotted f.path ++ ": " ++ f.cause.message

end Fault

/-! ## Results -/

def inField (field : String) : Except Fault α → Except Fault α
  | .ok a => .ok a
  | .error f => .error (f.within field)

def checked (field : String) : Except Cause α → Except Fault α
  | .ok a => .ok a
  | .error c => .error ⟨[field], c⟩

def resolved (field : String) : Except ReferenceError α → Except Fault α
  | .ok a => .ok a
  | .error e => .error ⟨[field], .reference e⟩

section
variable {f f' : Fault} {a : α}

theorem inField_eq_ok {field : String} {r : Except Fault α} :
    inField field r = .ok a ↔ r = .ok a := by
  cases r <;> simp [inField]

theorem inField_eq_error {field : String} {r : Except Fault α} :
    inField field r = .error f ↔ ∃ f', r = .error f' ∧ f = f'.within field := by
  cases r <;> simp [inField, eq_comm]

theorem isOk_inField (field : String) (r : Except Fault α) : (inField field r).isOk = r.isOk := by
  cases r <;> rfl

theorem checked_eq_ok {field : String} {r : Except Cause α} :
    checked field r = .ok a ↔ r = .ok a := by
  cases r <;> simp [checked]

theorem checked_eq_error {field : String} {r : Except Cause α} :
    checked field r = .error f ↔ ∃ c, r = .error c ∧ f = ⟨[field], c⟩ := by
  cases r <;> simp [checked, eq_comm]

theorem resolved_eq_ok {field : String} {r : Except ReferenceError α} :
    resolved field r = .ok a ↔ r = .ok a := by
  cases r <;> simp [resolved]

theorem resolved_eq_error {field : String} {r : Except ReferenceError α} :
    resolved field r = .error f ↔ ∃ e, r = .error e ∧ f = ⟨[field], .reference e⟩ := by
  cases r <;> simp [resolved, eq_comm]

end
end Stowage
