import Stowage.Bytes.Base64
import Stowage.Json.Basic
import Stowage.Manifest.Basic

/-!
# Manifests as JSON

The fields of each object under their Kubernetes names. An absent field is not written.
-/

namespace Stowage
namespace Manifest

/-! ## Fields -/

abbrev Fields := List (String × Json)

def field (name : String) (j : Json) : Fields := [(name, j)]

def optionalField (name : String) (f : α → Json) : Option α → Fields
  | some a => [(name, f a)]
  | none => []

def listField (name : String) (f : α → Json) (l : List α) : Fields :=
  if l.isEmpty then [] else [(name, .arr (l.map f))]

def mapField (name : String) (f : α → Json) (m : SortedMap α) : Fields :=
  if m.isEmpty then [] else [(name, .obj (m.toList.map fun e => (e.1, f e.2)))]

def typed (apiVersion kind : String) (fields : Fields) : Json :=
  .obj (field "apiVersion" (.str apiVersion) ++ field "kind" (.str kind) ++ fields)

def Identity.json (i : Identity) : Json := .obj (
  optionalField "name" .str i.name ++
  optionalField "namespace" .str i.inNamespace ++
  mapField "labels" .str i.labels)

/-! ## Volumes -/

def Item.json (i : Item) : Json := .obj (
  field "key" (.str i.key) ++
  field "path" (.str i.path) ++
  optionalField "mode" Json.ofInt i.mode)

def Projection.json (p : Projection) : Json :=
  let body (name : String) : Json :=
    .obj (field "name" (.str name) ++
      optionalField "items" (fun l => .arr (l.map Item.json)) p.items)
  match p.object with
  | .configMap name => .obj (field "configMap" (body name))
  | .secret name => .obj (field "secret" (body name))

def VolumeSource.fields : VolumeSource → Fields
  | configMap name mode => field "configMap"
    (.obj (field "name" (.str name) ++ optionalField "defaultMode" Json.ofInt mode))
  | secret name mode => field "secret"
    (.obj (optionalField "secretName" .str name ++ optionalField "defaultMode" Json.ofInt mode))
  | claim name => field "persistentVolumeClaim" (.obj (field "claimName" (.str name)))
  | emptyDir => field "emptyDir" (.obj [])
  | hostPath path => field "hostPath" (.obj (field "path" (.str path)))
  | projected sources => field "projected"
    (.obj (field "sources" (.arr (sources.map Projection.json))))

def Volume.json (v : Volume) : Json := .obj (field "name" (.str v.name) ++ v.source.fields)

def Mount.json (m : Mount) : Json := .obj (
  field "name" (.str m.name) ++
  field "mountPath" (.str m.path) ++
  optionalField "subPath" .str m.subPath ++
  optionalField "readOnly" .bool m.readOnly)

/-! ## Containers -/

def Variable.json (v : Variable) : Json := .obj [("name", .str v.name), ("value", .str v.value)]

def Compute.json (c : Compute) : Json :=
  .obj (mapField "limits" .str c.limits ++ mapField "requests" .str c.requests)

def Header.json (h : Header) : Json := .obj [("name", .str h.name), ("value", .str h.value)]

def portJson (p : UInt16) : Json := Json.ofNat p.toNat

def Probe.json (p : Probe) : Json := .obj (field "httpGet" (.obj (
  optionalField "scheme" .str p.scheme ++
  optionalField "host" .str p.host ++
  field "path" (.str p.path) ++
  field "port" (portJson p.port) ++
  listField "httpHeaders" Header.json p.headers)))

def Container.json (c : Container) : Json := .obj (
  field "name" (.str c.name) ++
  field "image" (.str c.image) ++
  listField "command" .str c.command ++
  listField "args" .str c.args ++
  listField "env" Variable.json c.env ++
  optionalField "resources" Compute.json c.compute ++
  listField "volumeMounts" Mount.json c.mounts ++
  optionalField "livenessProbe" Probe.json c.livenessProbe ++
  optionalField "readinessProbe" Probe.json c.readinessProbe)

/-! ## Objects -/

def ConfigMap.json (m : ConfigMap) : Json := typed "v1" "ConfigMap" (
  field "metadata" m.identity.json ++
  mapField "data" .str m.data ++
  mapField "binaryData" (fun bs => .str (String.ofList (Base64.encode bs))) m.binaryData)

def ServicePort.json (p : ServicePort) : Json := .obj (
  field "name" (.str p.name) ++
  field "port" (portJson p.port) ++
  field "targetPort" (portJson p.targetPort) ++
  optionalField "protocol" .str p.protocol)

def Service.json (s : Service) : Json := typed "v1" "Service" (
  field "metadata" s.identity.json ++
  field "spec" (.obj (
    mapField "selector" .str s.selector ++
    optionalField "clusterIP" .str s.clusterIP ++
    listField "ports" ServicePort.json s.ports)))

def ClaimTemplate.json (c : ClaimTemplate) : Json := typed "v1" "PersistentVolumeClaim" (
  field "metadata" c.identity.json ++
  field "spec" (.obj (
    field "accessModes" (Json.ofStrings c.accessModes) ++
    optionalField "storageClassName" .str c.storageClass ++
    field "resources" (.obj [("requests", .obj [("storage", .str c.storage)])]))))

def Requirement.json (r : Requirement) : Json := .obj [
  ("key", .str r.key), ("operator", .str "In"), ("values", Json.ofStrings r.values)]

def selectorJson (l : List Requirement) : Json :=
  .obj (listField "matchExpressions" Requirement.json l)

def PodTemplate.json (t : PodTemplate) : Json := .obj (
  field "metadata" (.obj (mapField "labels" .str t.labels)) ++
  field "spec" (.obj (
    field "containers" (.arr (t.containers.map Container.json)) ++
    listField "volumes" Volume.json t.volumes)))

def Deployment.json (d : Deployment) : Json := typed "apps/v1" "Deployment" (
  field "metadata" d.identity.json ++
  field "spec" (.obj (
    field "replicas" (Json.ofNat d.replicas) ++
    field "selector" (selectorJson d.selector) ++
    field "template" d.template.json)))

def StatefulSet.json (s : StatefulSet) : Json := typed "apps/v1" "StatefulSet" (
  field "metadata" s.identity.json ++
  field "spec" (.obj (
    field "replicas" (Json.ofNat s.replicas) ++
    field "selector" (selectorJson s.selector) ++
    field "serviceName" (.str s.serviceName) ++
    field "template" s.template.json ++
    listField "volumeClaimTemplates" ClaimTemplate.json s.claims)))

def json : Manifest → Json
  | configMap m => m.json
  | service m => m.json
  | deployment m => m.json
  | statefulSet m => m.json

end Manifest
end Stowage
