import Stowage.Map.Sorted

/-!
# Manifests

The Kubernetes objects that a conversion produces. Where Kubernetes has an optional list or map, the
empty one stands for its absence.
-/

namespace Stowage
namespace Manifest

structure Identity where
  name : Option String
  inNamespace : Option String
  labels : SortedMap String
deriving DecidableEq

def Identity.ofName (name : String) : Identity := ⟨some name, none, .empty⟩

/-! ## Volumes -/

/-- A key of a volume as a file of a projection. -/
structure Item where
  key : String
  path : String
  mode : Option Int
deriving DecidableEq

inductive ProjectedObject
  | configMap (name : String)
  | secret (name : String)
deriving DecidableEq

/-- A part of a projected volume: the given items of an object, or all its keys. -/
structure Projection where
  object : ProjectedObject
  items : Option (List Item)
deriving DecidableEq

inductive VolumeSource
  | configMap (name : String) (defaultMode : Option Int)
  | secret (name : Option String) (defaultMode : Option Int)
  | claim (name : String)
  | emptyDir
  | hostPath (path : String)
  | projected (sources : List Projection)
deriving DecidableEq

structure Volume where
  name : String
  source : VolumeSource
deriving DecidableEq

def addVolume (volumes : List Volume) (v : Volume) : List Volume :=
  if volumes.any (·.name == v.name) then volumes else volumes ++ [v]

/-- The first volume of each name. -/
def distinctVolumes (volumes : List Volume) : List Volume := volumes.foldl addVolume []

structure Mount where
  name : String
  path : String
  subPath : Option String
  readOnly : Option Bool
deriving DecidableEq

/-! ## Containers -/

structure Variable where
  name : String
  value : String
deriving DecidableEq

structure Compute where
  limits : SortedMap String
  requests : SortedMap String
deriving DecidableEq

structure Header where
  name : String
  value : String
deriving DecidableEq

structure Probe where
  scheme : Option String
  host : Option String
  path : String
  port : UInt16
  headers : List Header
deriving DecidableEq

structure Container where
  name : String
  image : String
  command : List String
  args : List String
  env : List Variable
  compute : Option Compute
  mounts : List Mount
  livenessProbe : Option Probe
  readinessProbe : Option Probe
deriving DecidableEq

/-! ## Objects -/

structure ConfigMap where
  identity : Identity
  data : SortedMap String
  binaryData : SortedMap (List UInt8)
deriving DecidableEq

structure ServicePort where
  name : String
  port : UInt16
  targetPort : UInt16
  protocol : Option String
deriving DecidableEq

structure Service where
  identity : Identity
  selector : SortedMap String
  clusterIP : Option String
  ports : List ServicePort
deriving DecidableEq

/-- A claim that each replica makes for itself. -/
structure ClaimTemplate where
  identity : Identity
  accessModes : List String
  storageClass : Option String
  storage : String
deriving DecidableEq

/-- The value under a label is one of those given. -/
structure Requirement where
  key : String
  values : List String
deriving DecidableEq

structure PodTemplate where
  labels : SortedMap String
  containers : List Container
  volumes : List Volume
deriving DecidableEq

structure Deployment where
  identity : Identity
  replicas : Nat
  selector : List Requirement
  template : PodTemplate
deriving DecidableEq

structure StatefulSet where
  identity : Identity
  replicas : Nat
  selector : List Requirement
  serviceName : String
  template : PodTemplate
  claims : List ClaimTemplate
deriving DecidableEq

end Manifest

inductive Manifest
  | configMap (m : Manifest.ConfigMap)
  | service (m : Manifest.Service)
  | deployment (m : Manifest.Deployment)
  | statefulSet (m : Manifest.StatefulSet)
deriving DecidableEq

namespace Manifest

def kind : Manifest → String
  | configMap _ => "ConfigMap"
  | service _ => "Service"
  | deployment _ => "Deployment"
  | statefulSet _ => "StatefulSet"

def apiVersion : Manifest → String
  | configMap _ | service _ => "v1"
  | deployment _ | statefulSet _ => "apps/v1"

def identity : Manifest → Identity
  | configMap m => m.identity
  | service m => m.identity
  | deployment m => m.identity
  | statefulSet m => m.identity

def mapIdentity (f : Identity → Identity) : Manifest → Manifest
  | configMap m => configMap { m with identity := f m.identity }
  | service m => service { m with identity := f m.identity }
  | deployment m => deployment { m with identity := f m.identity }
  | statefulSet m => statefulSet { m with identity := f m.identity }

def name (m : Manifest) : String := m.identity.name.getD ""

def displayName (m : Manifest) : String := m.kind ++ "/" ++ m.name

/-! ## Selection -/

def Requirement.admits (r : Requirement) (labels : SortedMap String) : Bool :=
  (labels.get? r.key).any r.values.contains

end Manifest
end Stowage
