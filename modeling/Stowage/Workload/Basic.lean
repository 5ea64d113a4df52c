import Stowage.Resource
import Stowage.Workload.Metadata

/-!
# Workloads

The platform-independent description of a deployable unit: its containers with their volumes, files
and probes, the ports it publishes, and the resources it depends on.
-/

namespace Stowage

namespace Workload

/-! ## Containers -/

structure Quantities where
  cpu : Option String
  memory : Option String
deriving DecidableEq

structure Compute where
  limits : Option Quantities
  requests : Option Quantities
deriving DecidableEq

/-- A persistent claim for each replica in place of a shared volume. -/
structure Claim where
  size : String
  storageClass : Option String
  accessModes : List String
deriving DecidableEq

structure Volume where
  /-- A resource reference or an absolute path of the host. -/
  source : String
  target : String
  /-- The path or key within the volume. -/
  path : Option String
  readOnly : Option Bool
  claim : Option Claim
deriving DecidableEq

structure File where
  target : String
  mode : Option String
  content : Option String
  binaryContent : Option String
  noExpand : Bool
deriving DecidableEq

structure Header where
  name : String
  value : String
deriving DecidableEq

structure Probe where
  scheme : Option String
  host : Option String
  path : String
  port : UInt16
  headers : List Header
deriving DecidableEq

structure Container where
  image : String
  command : List String
  args : List String
  environment : SortedMap String
  compute : Option Compute
  volumes : List Volume
  files : List File
  livenessProbe : Option Probe
  readinessProbe : Option Probe
deriving DecidableEq

/-! ## Network service -/

structure Port where
  port : UInt16
  targetPort : Option UInt16
  protocol : Option String
deriving DecidableEq

structure Service where
  ports : OrderedMap Port
deriving DecidableEq

def Volume.ofSource (source target : String) : Volume := ⟨source, target, none, none, none⟩

def Claim.ofSize (size : String) : Claim := ⟨size, none, []⟩

def File.ofContent (target content : String) : File := ⟨target, none, some content, none, false⟩

def Container.ofImage (image : String) : Container :=
  ⟨image, [], [], .empty, none, [], [], none, none⟩

end Workload

/-! ## The workload -/

structure Workload where
  apiVersion : String
  metadata : Metadata
  containers : OrderedMap Workload.Container
  service : Option Workload.Service
  resources : OrderedMap Resource

namespace Workload

def defaultApiVersion : String := "score.dev/v1b1"

def ofName (name : String) : Workload :=
  ⟨defaultApiVersion, Metadata.ofName name, .empty, none, .empty⟩

instance : Inhabited Workload := ⟨ofName ""⟩

def name? (w : Workload) : Option String := w.metadata.name?

def addContainer (w : Workload) (name : String) (c : Container) : Workload :=
  { w with containers := w.containers.insert name c }

def addResource (w : Workload) (name : String) (r : Resource) : Workload :=
  { w with resources := w.resources.insert name r }

end Workload
end Stowage
