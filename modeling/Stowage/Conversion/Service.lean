import Stowage.Manifest.Basic
import Stowage.Text.Uppercase
import Stowage.Workload.Basic

/-!
# Services

The service that publishes a workload's ports, and the headless service by which the replicas of a
stateful set are found.
-/

namespace Stowage
namespace Conversion

def selectorLabel : String := "score-workload"

def selector (workload : String) : SortedMap String := .singleton selectorLabel workload

def serviceName (workload : String) : String := workload ++ "-svc"

def headlessServiceName (workload : String) : String := workload ++ "-headless-svc"

def headlessPort : UInt16 := 99

def defaultProtocol : String := "TCP"

/-- An empty protocol is the default one, and a target port of zero is the port itself. -/
def servicePort (name : String) (p : Workload.Port) : Manifest.ServicePort :=
  { name := name
    port := p.port
    targetPort := (p.targetPort.filter (· ≠ 0)).getD p.port
    protocol := some (((p.protocol.filter (· ≠ "")).map uppercase).getD defaultProtocol) }

def service? (workload : String) (s : Option Workload.Service) : Option Manifest.Service :=
  match s with
  | some s =>
    if s.ports.isEmpty then none
    else some {
      identity := .ofName (serviceName workload)
      selector := selector workload
      clusterIP := none
      ports := s.ports.toList.map fun e => servicePort e.1 e.2 }
  | none => none

def headlessService (workload : String) : Manifest.Service :=
  { identity := .ofName (headlessServiceName workload)
    selector := selector workload
    clusterIP := some "None"
    ports := [⟨"default", headlessPort, headlessPort, none⟩] }

end Conversion
end Stowage
