import Stowage.Workload.Basic

/-!
# Writing workloads

Workloads as JSON: every field in the order of declaration, with `null` for an optional field that
is absent.
-/

namespace Stowage
namespace Workload

def Quantities.json (q : Quantities) : Json := .obj [
  ("cpu", Json.ofOption .str q.cpu),
  ("memory", Json.ofOption .str q.memory)]

def Compute.json (c : Compute) : Json := .obj [
  ("limits", Json.ofOption Quantities.json c.limits),
  ("requests", Json.ofOption Quantities.json c.requests)]

def Claim.json (c : Claim) : Json := .obj [
  ("size", .str c.size),
  ("storageClass", Json.ofOption .str c.storageClass),
  ("accessModes", Json.ofStrings c.accessModes)]

def Volume.json (v : Volume) : Json := .obj [
  ("source", .str v.source),
  ("target", .str v.target),
  ("path", Json.ofOption .str v.path),
  ("readOnly", Json.ofOption .bool v.readOnly),
  ("claim", Json.ofOption Claim.json v.claim)]

def File.json (f : File) : Json := .obj [
  ("target", .str f.target),
  ("mode", Json.ofOption .str f.mode),
  ("content", Json.ofOption .str f.content),
  ("binaryContent", Json.ofOption .str f.binaryContent),
  ("noExpand", .bool f.noExpand)]

def Header.json (h : Header) : Json := .obj [("name", .str h.name), ("value", .str h.value)]

def Probe.json (p : Probe) : Json := .obj [
  ("scheme", Json.ofOption .str p.scheme),
  ("host", Json.ofOption .str p.host),
  ("path", .str p.path),
  ("port", Json.ofNat p.port.toNat),
  ("httpHeaders", .arr (p.headers.map Header.json))]

def Probe.handlerJson (p : Probe) : Json := .obj [("httpGet", p.json)]

def Container.json (c : Container) : Json := .obj [
  ("image", .str c.image),
  ("command", Json.ofStrings c.command),
  ("args", Json.ofStrings c.args),
  ("variables", Json.ofMap c.environment),
  ("resources", Json.ofOption Compute.json c.compute),
  ("volumes", .arr (c.volumes.map Volume.json)),
  ("files", .arr (c.files.map File.json)),
  ("livenessProbe", Json.ofOption Probe.handlerJson c.livenessProbe),
  ("readinessProbe", Json.ofOption Probe.handlerJson c.readinessProbe)]

def Port.json (p : Port) : Json := .obj [
  ("port", Json.ofNat p.port.toNat),
  ("targetPort", Json.ofOption (fun t => Json.ofNat t.toNat) p.targetPort),
  ("protocol", Json.ofOption .str p.protocol)]

def Service.json (s : Service) : Json := .obj [
  ("ports", .obj (s.ports.toList.map fun e => (e.1, e.2.json)))]

def containersJson (w : Workload) : Json := .obj (w.containers.toList.map fun e => (e.1, e.2.json))

def resourcesJson (w : Workload) : Json := .obj (w.resources.toList.map fun e => (e.1, e.2.json))

def json (w : Workload) : Json := .obj [
  ("apiVersion", .str w.apiVersion),
  ("metadata", w.metadata.json),
  ("containers", w.containersJson),
  ("service", Json.ofOption Service.json w.service),
  ("resources", w.resourcesJson)]

end Workload
end Stowage
