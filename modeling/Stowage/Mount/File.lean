import Stowage.Bytes.Base64
import Stowage.Mount.FileMode
import Stowage.Mount.Path
import Stowage.Mount.Plan
import Stowage.Reference.Scope

/-!
# Mounts of files

Each inline file becomes a config map of its own with one key, a volume that reads it, and a
read-only mount of the key at the target of the file.
-/

namespace Stowage
namespace Mount

structure MaterializedFile where
  configMap : Manifest.ConfigMap
  plan : Plan
deriving DecidableEq

inductive FileContent
  | text (s : String)
  | binary (bytes : List UInt8)
deriving DecidableEq

def configMapName (workload container : String) (index : Nat) : String :=
  workload ++ "-" ++ container ++ "-file-" ++ toString index

def fileVolumeName (container : String) (index : Nat) : String :=
  container ++ "-file-" ++ toString index

/-! ## Parts of a file -/

/-- The normalized target and its base name, which may not be the root. -/
def fileTarget (f : Workload.File) : Except Fault (String × String) := do
  let target ← checked "target" (Path.normalize f.target)
  let key := Path.baseName target.toList
  if key.isEmpty then .error ⟨["target"], .mountPath f.target⟩
  else .ok (target, String.ofList key)

def fileMode (f : Workload.File) : Except Fault (Option Int) :=
  match f.mode with
  | some mode => (checked "mode" (FileMode.parse mode)).map some
  | none => .ok none

def decodeBinary (encoded : String) : Except Cause (List UInt8) :=
  match Base64.decode (trimBlank encoded.toList) with
  | .ok bytes => .ok bytes
  | .error e => .error (.fileContent ("binaryContent is not valid base64: " ++ e.message))

def fileContent (f : Workload.File) (scope : Scope) : Except Fault FileContent :=
  match f.content, f.binaryContent with
  | some _, some _ =>
    .error ⟨["content"], .fileContent "content and binaryContent are mutually exclusive"⟩
  | none, none => .error ⟨["content"], .missingField⟩
  | some content, none =>
    if f.noExpand then .ok (.text content)
    else (resolved "content" (scope.expand .general content)).map .text
  | none, some encoded => (checked "binaryContent" (decodeBinary encoded)).map .binary

/-! ## Conversion -/

def configMapOf (name key : String) : FileContent → Manifest.ConfigMap
  | .text s => ⟨.ofName name, .singleton key s, .empty⟩
  | .binary bytes => ⟨.ofName name, .empty, .singleton key bytes⟩

def ofFile (workload container : String) (index : Nat) (f : Workload.File) (scope : Scope) :
    Except Fault MaterializedFile := do
  let (target, key) ← fileTarget f
  let mode ← fileMode f
  let content ← fileContent f scope
  let objectName := configMapName workload container index
  let name := fileVolumeName container index
  .ok {
    configMap := configMapOf objectName key content
    plan := {
      origin := .file index
      mount := ⟨name, target, some key, some true⟩
      volume := some ⟨name, .configMap objectName mode⟩ } }

end Mount
end Stowage
