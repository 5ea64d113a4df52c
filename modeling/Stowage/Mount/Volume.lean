import Stowage.Bytes.Sha256
import Stowage.Mount.Path
import Stowage.Mount.Plan
import Stowage.Quantity
import Stowage.Reference.Scope
import Stowage.Workload.Kind

/-!
# Mounts of volumes

The source of a volume is a resource, named by its identity token, or an absolute path of the host.
The outputs of a resource select what backs its volume. A claim makes a template in place of a
volume, and only in a stateful set.
-/

namespace Stowage
namespace Mount

/-! ## Names -/

def resourceVolumeName (token : String) : String :=
  "res-" ++ String.ofList ((Sha256.hexDigest token).take 12)

def hostVolumeName (container : String) (index : Nat) : String :=
  container ++ "-vol-" ++ toString index

def claimName (container : String) (index : Nat) : String :=
  container ++ "-claim-" ++ toString index

/-! ## Sources -/

/-- What backs the volume of a resource: the secret, config map or claim that its outputs name, in
this order, and otherwise an empty directory. -/
def backing (outputs : Outputs) (resource : String) : Manifest.VolumeSource :=
  match outputs.get? resource "secretName" with
  | some name => .secret (some name) none
  | none =>
    match outputs.get? resource "configMapName" with
    | some name => .configMap name none
    | none =>
      match outputs.get? resource "claimName" with
      | some name => .claim name
      | none => .emptyDir

inductive Source
  | resource (name token : String)
  | host (path : String)
  | invalid
deriving DecidableEq

def classify (scope : Scope) (text : String) : Source :=
  match scope.resourceOf? text with
  | some name => .resource name text
  | none => if text.toList.head? = some '/' then .host text else .invalid

/-! ## Claims -/

def defaultAccessMode : String := "ReadWriteOnce"

def claimTemplate (name : String) (c : Workload.Claim) : Except Fault Manifest.ClaimTemplate := do
  let storage ← checked "size" (Quantity.parse c.size)
  .ok {
    identity := .ofName name
    accessModes := if c.accessModes.isEmpty then [defaultAccessMode] else c.accessModes
    storageClass := c.storageClass
    storage := storage }

/-! ## Conversion -/

structure Converted where
  plan : Plan
  claim : Option Manifest.ClaimTemplate
deriving DecidableEq

def invalidSource (v : Workload.Volume) (reason : String) : Fault :=
  ⟨["source"], .volumeSource v.source reason⟩

def mountOf (v : Workload.Volume) (target name : String) : Manifest.Mount :=
  { name := name
    path := target
    subPath := v.path.filter (· ≠ "")
    readOnly := v.readOnly.filter id }

/-- A volume that is shared by all replicas. -/
def shared (container : String) (index : Nat) (v : Workload.Volume) (target : String)
    (scope : Scope) : Source → Except Fault Converted
  | .resource resource token =>
    let name := resourceVolumeName token
    .ok ⟨⟨.volume index, mountOf v target name, some ⟨name, backing scope.outputs resource⟩⟩, none⟩
  | .host path =>
    let name := hostVolumeName container index
    .ok ⟨⟨.volume index, mountOf v target name, some ⟨name, .hostPath path⟩⟩, none⟩
  | .invalid => .error (invalidSource v "must be a resource reference or an absolute host path")

/-- A volume that each replica claims for itself. -/
def claimed (container : String) (index : Nat) (v : Workload.Volume) (target : String)
    (c : Workload.Claim) : Source → Except Fault Converted
  | .resource _ _ => do
    let name := claimName container index
    let template ← inField "claim" (claimTemplate name c)
    .ok ⟨⟨.volume index, mountOf v target name, none⟩, some template⟩
  | _ => .error (invalidSource v "persistent claims require a resource source")

def ofVolume (container : String) (index : Nat) (v : Workload.Volume) (kind : WorkloadKind)
    (scope : Scope) : Except Fault Converted :=
  if v.claim.isSome && !kind.supportsClaims then .error ⟨["claim"], .claimContext kind.name⟩
  else do
    let target ← checked "target" (Path.normalize v.target)
    let text ← resolved "source" (scope.expand .volumeSource v.source)
    match v.claim with
    | some c => claimed container index v target c (classify scope text)
    | none => shared container index v target scope (classify scope text)

end Mount
end Stowage
