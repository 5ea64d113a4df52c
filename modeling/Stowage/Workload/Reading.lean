import Stowage.Workload.Basic

/-!
# Reading workloads

Workloads from documents. Fields that have a default may be missing, unknown fields do not matter,
and `null` is taken only where a field is optional.
-/

namespace Stowage
namespace Workload

/-! ## Containers -/

def Quantities.ofNode? (n : Node) : Decoding Quantities := do
  let r ← n.record? ["cpu", "memory"]
  return {
    cpu := ← r.optional? "cpu" Node.text?
    memory := ← r.optional? "memory" Node.text? }

def Compute.ofNode? (n : Node) : Decoding Compute := do
  let r ← n.record? ["limits", "requests"]
  return {
    limits := ← r.optional? "limits" Quantities.ofNode?
    requests := ← r.optional? "requests" Quantities.ofNode? }

def Claim.ofNode? (n : Node) : Decoding Claim := do
  let r ← n.record? ["size", "storageClass", "accessModes"]
  return {
    size := ← r.required? "size" Node.text?
    storageClass := ← r.optional? "storageClass" Node.text?
    accessModes := ← r.list? "accessModes" Node.text? }

def Volume.ofNode? (n : Node) : Decoding Volume := do
  let r ← n.record? ["source", "target", "path", "readOnly", "claim"]
  return {
    source := ← r.required? "source" Node.text?
    target := ← r.required? "target" Node.text?
    path := ← r.optional? "path" Node.text?
    readOnly := ← r.optional? "readOnly" Node.flag?
    claim := ← r.optional? "claim" Claim.ofNode? }

def File.ofNode? (n : Node) : Decoding File := do
  let r ← n.record? ["target", "mode", "content", "binaryContent", "noExpand"]
  return {
    target := ← r.required? "target" Node.text?
    mode := ← r.optional? "mode" Node.text?
    content := ← r.optional? "content" Node.text?
    binaryContent := ← r.optional? "binaryContent" Node.text?
    noExpand := ← r.defaulted? "noExpand" false Node.flag? }

def Header.ofNode? (n : Node) : Decoding Header := do
  let r ← n.record? ["name", "value"]
  return {
    name := ← r.required? "name" Node.text?
    value := ← r.required? "value" Node.text? }

def Probe.ofNode? (n : Node) : Decoding Probe := do
  let r ← n.record? ["scheme", "host", "path", "port", "httpHeaders"]
  return {
    scheme := ← r.optional? "scheme" Node.text?
    host := ← r.optional? "host" Node.text?
    path := ← r.required? "path" Node.text?
    port := ← r.required? "port" Node.port?
    headers := ← r.list? "httpHeaders" Header.ofNode? }

/-- A probe stands under the one kind of check there is. -/
def Probe.ofHandlerNode? (n : Node) : Decoding Probe := do
  let r ← n.record? ["httpGet"]
  r.required? "httpGet" Probe.ofNode?

def Container.ofNode? (n : Node) : Decoding Container := do
  let r ← n.record? ["image", "command", "args", "variables", "resources", "volumes", "files",
    "livenessProbe", "readinessProbe"]
  return {
    image := ← r.required? "image" Node.text?
    command := ← r.list? "command" Node.text?
    args := ← r.list? "args" Node.text?
    environment := ← r.defaulted? "variables" .empty (Node.sortedMap? Node.text?)
    compute := ← r.optional? "resources" Compute.ofNode?
    volumes := ← r.list? "volumes" Volume.ofNode?
    files := ← r.list? "files" File.ofNode?
    livenessProbe := ← r.optional? "livenessProbe" Probe.ofHandlerNode?
    readinessProbe := ← r.optional? "readinessProbe" Probe.ofHandlerNode? }

/-! ## Network service -/

def Port.ofNode? (n : Node) : Decoding Port := do
  let r ← n.record? ["port", "targetPort", "protocol"]
  return {
    port := ← r.required? "port" Node.port?
    targetPort := ← r.optional? "targetPort" Node.port?
    protocol := ← r.optional? "protocol" Node.text? }

def Service.ofNode? (n : Node) : Decoding Service := do
  let r ← n.record? ["ports"]
  return { ports := ← r.defaulted? "ports" .empty (Node.orderedMap? Port.ofNode?) }

/-! ## The workload -/

def ofNode? (n : Node) : Decoding Workload := do
  let r ← n.record? ["apiVersion", "metadata", "containers", "service", "resources"]
  return {
    apiVersion := ← r.defaulted? "apiVersion" defaultApiVersion Node.text?
    metadata := ← r.required? "metadata" Metadata.ofNode?
    containers := ← r.defaulted? "containers" .empty (Node.orderedMap? Container.ofNode?)
    service := ← r.optional? "service" Service.ofNode?
    resources := ← r.defaulted? "resources" .empty (Node.orderedMap? Resource.ofNode?) }

def isNamed (w : Workload) : Bool := w.name?.any (· ≠ "")

end Workload
end Stowage
