import Stowage.Conversion.Container
import Stowage.Conversion.Options
import Stowage.Conversion.Service

/-!
# Conversion

A workload, the outputs of its resources and the options give the manifests in a fixed order: config
maps, the service, the headless service of a stateful set, and the controller.
-/

namespace Stowage
namespace Conversion

def defaultReplicas : Nat := 1

/-! ## Pods -/

def assembleAll (name : String) (w : Workload) (kind : WorkloadKind) (scope : Scope) :
    Except Fault (List Assembled) :=
  w.containers.toList.mapM fun e =>
    inField ("containers." ++ e.1) (assemble name e.1 e.2 kind scope)

def podTemplate (name : String) (o : Options) (l : List Assembled) : Manifest.PodTemplate :=
  { labels := o.commonLabels.insert selectorLabel name
    containers := l.map Assembled.container
    volumes := Manifest.distinctVolumes (l.flatMap Assembled.volumes) }

/-! ## Controllers -/

def requirements (name : String) : List Manifest.Requirement := [⟨selectorLabel, [name]⟩]

def deployment (name : String) (o : Options) (l : List Assembled) : Manifest.Deployment :=
  { identity := .ofName name
    replicas := defaultReplicas
    selector := requirements name
    template := podTemplate name o l }

def statefulSet (name : String) (o : Options) (l : List Assembled) : Manifest.StatefulSet :=
  { identity := .ofName name
    replicas := defaultReplicas
    selector := requirements name
    serviceName := headlessServiceName name
    template := podTemplate name o l
    claims := l.flatMap Assembled.claims }

def controllers (name : String) (o : Options) (l : List Assembled) : WorkloadKind → List Manifest
  | .deployment => [.deployment (deployment name o l)]
  | .statefulSet => [.service (headlessService name), .statefulSet (statefulSet name o l)]

/-! ## Workloads -/

def manifests (name : String) (w : Workload) (kind : WorkloadKind) (o : Options)
    (l : List Assembled) : List Manifest :=
  (l.flatMap Assembled.configMaps).map .configMap ++
    (service? name w.service).toList.map .service ++
    controllers name o l kind

def convertNamed (name : String) (w : Workload) (outputs : Outputs) (o : Options) :
    Except Fault (List Manifest) := do
  let kind ← checked "metadata.annotations" (WorkloadKind.ofMetadata w.metadata)
  let l ← assembleAll name w kind (.ofWorkload name w outputs)
  .ok ((manifests name w kind o l).map o.stamp)

end Conversion

/-- Converts a workload. The path of a fault begins with its name. -/
def convert (w : Workload) (outputs : Outputs) (o : Conversion.Options) :
    Except Fault (List Manifest) :=
  match w.name?.filter (· ≠ "") with
  | some name => inField name (Conversion.convertNamed name w outputs o)
  | none => .error ⟨["metadata.name"], .missingField⟩

end Stowage
