import Stowage.Document.Format
import Stowage.Workload.Reading

/-!
# Loading

Texts that become workloads, outputs and other records. A workload that is to be deployed needs a
name.
-/

namespace Stowage

inductive LoadError
  | malformed (format : Format)
  | missingField (field : String)
deriving DecidableEq

def LoadError.message? : LoadError → Option String
  | malformed _ => none
  | missingField field => some ("Missing required field: " ++ field)

def loadAs (read : Node → Decoding α) (format : Format) (text : String) : Except LoadError α :=
  match (Document.read? format text).bind (·.decode? read) with
  | some a => .ok a
  | none => .error (.malformed format)

namespace Workload

def load (format : Format) (text : String) : Except LoadError Workload := loadAs ofNode? format text

def loadNamed (format : Format) (text : String) : Except LoadError Workload := do
  let w ← load format text
  if w.isNamed then .ok w else .error (.missingField "metadata.name")

end Workload

def Outputs.load (format : Format) (text : String) : Except LoadError Outputs :=
  loadAs Outputs.ofNode? format text

end Stowage
