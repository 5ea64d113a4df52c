import Stowage.Proofs.Runs
import Stowage.Proofs.VolumeSources

/-!
# Outputs that a conversion sees

Outputs are looked up only for declared resources: a reference checks the declaration first, and a
token stands for a resource that is declared with it. What outputs hold of other resources has no
part in a conversion.
-/

namespace Stowage

/-! ## References -/

def Outputs.AgreeOn (o o' : Outputs) (resources : OrderedMap Resource) : Prop :=
  ∀ e ∈ resources.toList, ∀ key, o.get? e.1 key = o'.get? e.1 key

theorem Outputs.get?_insert_of_ne (o : Outputs) {resource other : String} (h : other ≠ resource)
    (key value k : String) : (o.insert resource key value).get? other k = o.get? other k := by
  simp [get?, of?, insert, SortedMap.get?_insert, h]

namespace Scope

/-- What references see where a resource has other outputs. -/
def withOutputs (s : Scope) (o : Outputs) : Scope := { s with outputs := o }

variable {s : Scope} {o : Outputs} (agree : s.outputs.AgreeOn o s.resources)
include agree

theorem lookup_withOutputs : (s.withOutputs o).lookup = s.lookup := by
  funext text reference
  cases reference with
  | metadata path => rfl
  | identity resource => rfl
  | output resource key =>
    simp only [lookup, withOutputs]
    cases hr : s.resources.get? resource with
    | none => simp only [OrderedMap.contains, hr, Option.isSome_none, Bool.false_eq_true, if_false]
    | some r =>
      have same : o.get? resource key = s.outputs.get? resource key :=
        (agree _ (mem_of_lookup_eq_some hr) key).symm
      rw [same]
      rfl

theorem expand_withOutputs : (s.withOutputs o).expand = s.expand := by
  have hresolve : (s.withOutputs o).resolveChars = s.resolveChars := by
    funext mode cs
    rw [resolveChars, resolve, lookup_withOutputs agree]
    rfl
  funext mode text
  rw [expand, hresolve]
  rfl

end Scope

/-! ## Volumes and files -/

namespace Mount
variable {s : Scope} {o : Outputs} (agree : s.outputs.AgreeOn o s.resources)
include agree

theorem backing_withOutputs {text name : String} (h : s.resourceOf? text = some name) :
    backing o name = backing s.outputs name := by
  obtain ⟨r, hr, -⟩ := Scope.mem_of_resourceOf? h
  have same : ∀ key, s.outputs.get? name key = o.get? name key := agree _ hr
  simp only [backing, same]

theorem shared_withOutputs (container : String) (i : Nat) (v : Workload.Volume)
    (target text : String) : shared container i v target (s.withOutputs o) (classify s text) =
      shared container i v target s (classify s text) := by
  rcases classify_cases s text with ⟨name, hname, hs⟩ | ⟨-, -, hs⟩ | hs
  · rw [hs, shared, shared, ← backing_withOutputs agree hname]
    rfl
  · rw [hs]
    rfl
  · rw [hs]
    rfl

theorem ofVolume_withOutputs (container : String) (i : Nat) (v : Workload.Volume)
    (kind : WorkloadKind) :
    ofVolume container i v kind (s.withOutputs o) = ofVolume container i v kind s := by
  have hclassify : classify (s.withOutputs o) = classify s := rfl
  unfold ofVolume
  simp only [Scope.expand_withOutputs agree, hclassify, shared_withOutputs agree]

theorem ofFile_withOutputs (workload container : String) (i : Nat) (f : Workload.File) :
    ofFile workload container i f (s.withOutputs o) = ofFile workload container i f s := by
  unfold ofFile fileContent
  rw [Scope.expand_withOutputs agree]

end Mount

/-! ## Conversion -/

namespace Conversion

section
variable {s : Scope} {o : Outputs} (agree : s.outputs.AgreeOn o s.resources)
include agree

theorem assemble_withOutputs (workload name : String) (c : Workload.Container)
    (kind : WorkloadKind) :
    assemble workload name c kind (s.withOutputs o) = assemble workload name c kind s := by
  have henv : environment (s.withOutputs o) = environment s := by
    funext vs
    rw [environment, Scope.expand_withOutputs agree]
    rfl
  have hvolumes : volumes name kind (s.withOutputs o) = volumes name kind s := by
    funext vs
    simp only [volumes, Mount.ofVolume_withOutputs agree]
  have hfiles : files workload name (s.withOutputs o) = files workload name s := by
    funext fs
    simp only [files, Mount.ofFile_withOutputs agree]
  rw [assemble, henv, hvolumes, hfiles]
  rfl

end

/-- A workload is converted in the same way under outputs that agree on the resources it
declares. -/
theorem convert_eq_of_agreeOn {w : Workload} {outputs outputs' : Outputs} (o : Options)
    (agree : outputs.AgreeOn outputs' w.resources) :
    convert w outputs o = convert w outputs' o := by
  have hassemble (name : String) (kind : WorkloadKind) :
      assembleAll name w kind (.ofWorkload name w outputs) =
        assembleAll name w kind (.ofWorkload name w outputs') := by
    have hscope : Scope.ofWorkload name w outputs' =
        (Scope.ofWorkload name w outputs).withOutputs outputs' := rfl
    have agree : (Scope.ofWorkload name w outputs).outputs.AgreeOn outputs'
        (Scope.ofWorkload name w outputs).resources := agree
    simp only [assembleAll, hscope, assemble_withOutputs agree]
  simp only [convert, convertNamed, hassemble]

theorem convert_eq_of_other_secret :
    let c : Workload.Container := { Workload.Container.ofImage "app" with
      environment := .singleton "HOST" "${resources.db.host}"
      volumes := [.ofSource "${resources.db}" "/etc/db"]
      files := [.ofContent "/etc/app/host" "${resources.db.host}"] }
    let w : Workload := ((Workload.ofName "api").addContainer "web" c).addResource "db"
      ⟨"postgres", none, none⟩
    let outputs := (Outputs.empty.insert "db" "host" "db.local").insert "db" "secretName" "api-db"
    let outputs' := outputs.insert "cache" "secretName" "other"
    outputs.AgreeOn outputs' w.resources ∧
      convert w outputs .unset = convert w outputs' .unset := by
  intro c w outputs outputs'
  have agree : outputs.AgreeOn outputs' w.resources := by
    intro e he key
    have hname : e.1 ≠ "cache" := by
      obtain rfl := List.mem_singleton.mp he
      decide
    exact (outputs.get?_insert_of_ne hname _ _ _).symm
  exact ⟨agree, convert_eq_of_agreeOn .unset agree⟩

end Conversion
end Stowage
