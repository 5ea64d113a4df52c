import Stowage.Mount.File
import Stowage.Mount.Merge
import Stowage.Mount.Volume

/-!
# Containers

One container of a workload with all that it brings to the pod: merged mounts with their volumes,
claim templates, and the config maps of its files.
-/

namespace Stowage
namespace Conversion

/-! ## Compute -/

def amount (field : String) : Option String → Except Fault (List (String × String))
  | some q => (checked field (Quantity.parse q)).map fun a => [(field, a)]
  | none => .ok []

def quantities : Option Workload.Quantities → Except Fault (SortedMap String)
  | some q => do
    let cpu ← amount "cpu" q.cpu
    let memory ← amount "memory" q.memory
    .ok (.ofList (cpu ++ memory))
  | none => .ok .empty

def compute : Option Workload.Compute → Except Fault (Option Manifest.Compute)
  | some c => do
    let limits ← inField "limits" (quantities c.limits)
    let requests ← inField "requests" (quantities c.requests)
    .ok (if limits.isEmpty && requests.isEmpty then none else some ⟨limits, requests⟩)
  | none => .ok none

/-! ## Variables and probes -/

/-- Variables with their values expanded, in the order of names. -/
def environment (scope : Scope) (vs : SortedMap String) : Except Fault (List Manifest.Variable) :=
  vs.toList.mapM fun e => (resolved e.1 (scope.expand .general e.2)).map (Manifest.Variable.mk e.1)

/-- An empty scheme or host is none. Headers keep their order, repeated ones too. -/
def probe (p : Workload.Probe) : Manifest.Probe :=
  { scheme := p.scheme.filter (· ≠ "")
    host := p.host.filter (· ≠ "")
    path := p.path
    port := p.port
    headers := p.headers.map fun h => ⟨h.name, h.value⟩ }

/-! ## Mounts -/

/-- The declarations with their places, counted from `n`. -/
def convertEach (convert : Nat → α → Except Fault β) : Nat → List α → Except Fault (List β)
  | _, [] => .ok []
  | n, a :: l => do
    let b ← convert n a
    let bs ← convertEach convert (n + 1) l
    .ok (b :: bs)

def volumes (container : String) (kind : WorkloadKind) (scope : Scope) (vs : List Workload.Volume) :
    Except Fault (List Mount.Converted) :=
  convertEach (fun i v =>
    inField (Origin.volume i).text (Mount.ofVolume container i v kind scope)) 0 vs

def files (workload container : String) (scope : Scope) (fs : List Workload.File) :
    Except Fault (List Mount.MaterializedFile) :=
  convertEach (fun i f =>
    inField (Origin.file i).text (Mount.ofFile workload container i f scope)) 0 fs

/-! ## Assembly -/

structure Assembled where
  container : Manifest.Container
  volumes : List Manifest.Volume
  claims : List Manifest.ClaimTemplate
  configMaps : List Manifest.ConfigMap
deriving DecidableEq

def assemble (workload name : String) (c : Workload.Container) (kind : WorkloadKind)
    (scope : Scope) : Except Fault Assembled := do
  let compute ← inField "resources" (compute c.compute)
  let env ← inField "variables" (environment scope c.environment)
  let vs ← volumes name kind scope c.volumes
  let fs ← files workload name scope c.files
  let merged ← Merge.mounts name (vs.map Mount.Converted.plan ++ fs.map Mount.MaterializedFile.plan)
  .ok {
    container := {
      name := name
      image := c.image
      command := c.command
      args := c.args
      env := env
      compute := compute
      mounts := merged.mounts
      livenessProbe := c.livenessProbe.map probe
      readinessProbe := c.readinessProbe.map probe }
    volumes := merged.volumes
    claims := vs.filterMap Mount.Converted.claim
    configMaps := fs.map Mount.MaterializedFile.configMap }

end Conversion
end Stowage
