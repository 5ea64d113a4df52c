import Stowage.Conversion.Basic
import Stowage.Proofs.Conflicts
import Stowage.Proofs.Declarations

/-!
# Faults point at fields

Each part of a conversion fails only with faults of its own sort, at fields that are declared. A
fault of a part is a fault of what encloses it, one segment further in, up to the whole workload.
-/

namespace Stowage

/-! ## Faults of texts -/

theorem Quantity.parse_eq_error {value : String} {c : Cause} (h : parse value = .error c) :
    ∃ reason, c = .quantity value reason := by
  unfold parse at h
  extract_lets cs unsigned at h
  split at h
  · cases h
    exact ⟨_, rfl⟩
  · split at h
    · cases h
      exact ⟨_, rfl⟩
    · cases h

theorem Path.normalize_eq_error {path : String} {c : Cause} (h : normalize path = .error c) :
    path.toList.head? ≠ some '/' ∧ c = .mountPath path := by
  unfold normalize at h
  split at h
  · next hslash =>
    cases h
    exact ⟨hslash, rfl⟩
  · cases h

theorem FileMode.parse_eq_error {mode : String} {c : Cause} (h : parse mode = .error c) :
    c = .fileMode mode := by
  unfold parse at h
  split at h
  · split at h
    · cases h
    · cases h
      rfl
  · cases h
    rfl

namespace Mount

theorem decodeBinary_eq_error {encoded : String} {c : Cause} (h : decodeBinary encoded = .error c) :
    ∃ reason, c = .fileContent reason := by
  unfold decodeBinary at h
  split at h
  · cases h
  · cases h
    exact ⟨_, rfl⟩

/-! ## Faults of a volume -/

inductive VolumeFault (v : Workload.Volume) (kind : WorkloadKind) (scope : Scope) : Fault → Prop
  | context {c} : v.claim = some c → kind.supportsClaims = false →
      VolumeFault v kind scope ⟨["claim"], .claimContext kind.name⟩
  | target : v.target.toList.head? ≠ some '/' →
      VolumeFault v kind scope ⟨["target"], .mountPath v.target⟩
  | reference {e} : scope.expand .volumeSource v.source = .error e →
      VolumeFault v kind scope ⟨["source"], .reference e⟩
  | source {text reason} : scope.expand .volumeSource v.source = .ok text →
      scope.resourceOf? text = none → (v.claim = none → text.toList.head? ≠ some '/') →
      VolumeFault v kind scope ⟨["source"], .volumeSource v.source reason⟩
  | size {c reason} : v.claim = some c →
      Quantity.parse c.size = .error (.quantity c.size reason) →
      VolumeFault v kind scope ⟨["claim", "size"], .quantity c.size reason⟩

section
variable {container : String} {i : Nat} {v : Workload.Volume} {kind : WorkloadKind} {scope : Scope}
variable {target text : String} {f : Fault}

theorem claimTemplate_eq_error {name : String} {c : Workload.Claim}
    (h : claimTemplate name c = .error f) : ∃ reason,
      Quantity.parse c.size = .error (.quantity c.size reason) ∧
        f = ⟨["size"], .quantity c.size reason⟩ := by
  rcases bind_eq_error.mp h with h | ⟨storage, -, h⟩
  · obtain ⟨cause, hparse, rfl⟩ := checked_eq_error.mp h
    obtain ⟨reason, rfl⟩ := Quantity.parse_eq_error hparse
    exact ⟨reason, hparse, rfl⟩
  · cases h

variable (htext : scope.expand .volumeSource v.source = .ok text)
include htext

theorem shared_eq_error
    (h : shared container i v target scope (classify scope text) = .error f) :
    VolumeFault v kind scope f := by
  unfold classify at h
  split at h
  · cases h
  · next hname =>
    split at h
    · cases h
    · next hslash =>
      cases h
      exact .source htext hname fun _ => hslash

theorem claimed_eq_error {c : Workload.Claim} (hclaim : v.claim = some c)
    (h : claimed container i v target c (classify scope text) = .error f) :
    VolumeFault v kind scope f := by
  have invalid {reason : String} (hname : scope.resourceOf? text = none) :
      VolumeFault v kind scope (invalidSource v reason) :=
    .source htext hname fun hnone => by rw [hclaim] at hnone; cases hnone
  unfold classify at h
  split at h
  · rcases bind_eq_error.mp h with h | ⟨template, -, h⟩
    · obtain ⟨f', hf', rfl⟩ := inField_eq_error.mp h
      obtain ⟨reason, hparse, rfl⟩ := claimTemplate_eq_error hf'
      exact .size hclaim hparse
    · cases h
  · next hname =>
    split at h
    · cases h
      exact invalid hname
    · cases h
      exact invalid hname

end

theorem ofVolume_eq_error {container : String} {i : Nat} {v : Workload.Volume} {kind : WorkloadKind}
    {scope : Scope} {f : Fault} (h : ofVolume container i v kind scope = .error f) :
    VolumeFault v kind scope f := by
  unfold ofVolume at h
  split at h
  · next hcontext =>
    simp only [Bool.and_eq_true, Option.isSome_iff_exists, Bool.not_eq_true'] at hcontext
    obtain ⟨⟨c, hc⟩, hkind⟩ := hcontext
    cases h
    exact .context hc hkind
  · rcases bind_eq_error.mp h with h | ⟨target, -, h⟩
    · obtain ⟨cause, hcause, rfl⟩ := checked_eq_error.mp h
      obtain ⟨hslash, rfl⟩ := Path.normalize_eq_error hcause
      exact .target hslash
    · rcases bind_eq_error.mp h with h | ⟨text, htext, h⟩
      · obtain ⟨e, he, rfl⟩ := resolved_eq_error.mp h
        exact .reference he
      · have htext := resolved_eq_ok.mp htext
        cases hclaim : v.claim with
        | none =>
          rw [hclaim] at h
          exact shared_eq_error htext h
        | some c =>
          rw [hclaim] at h
          exact claimed_eq_error htext hclaim h

/-! ## Faults of a file -/

inductive FileFault (d : Workload.File) (scope : Scope) : Fault → Prop
  | target : (∀ target, Path.normalize d.target = .ok target → Path.baseName target.toList = []) →
      FileFault d scope ⟨["target"], .mountPath d.target⟩
  | mode {mode} : d.mode = some mode → FileMode.parse mode = .error (.fileMode mode) →
      FileFault d scope ⟨["mode"], .fileMode mode⟩
  | both {content encoded reason} : d.content = some content → d.binaryContent = some encoded →
      FileFault d scope ⟨["content"], .fileContent reason⟩
  | neither : d.content = none → d.binaryContent = none →
      FileFault d scope ⟨["content"], .missingField⟩
  | reference {content e} : d.content = some content → d.noExpand = false →
      scope.expand .general content = .error e → FileFault d scope ⟨["content"], .reference e⟩
  | binary {encoded reason} : d.content = none → d.binaryContent = some encoded →
      decodeBinary encoded = .error (.fileContent reason) →
      FileFault d scope ⟨["binaryContent"], .fileContent reason⟩

section
variable {d : Workload.File} {scope : Scope} {f : Fault}

theorem fileTarget_eq_error (h : fileTarget d = .error f) : FileFault d scope f := by
  rcases bind_eq_error.mp h with h | ⟨target, htarget, h⟩
  · obtain ⟨cause, hcause, rfl⟩ := checked_eq_error.mp h
    obtain ⟨-, rfl⟩ := Path.normalize_eq_error hcause
    apply FileFault.target
    intro target htarget
    rw [hcause] at htarget
    cases htarget
  · have htarget := checked_eq_ok.mp htarget
    simp only at h
    split at h
    · next hkey =>
      cases h
      apply FileFault.target
      intro target' htarget'
      obtain rfl := Except.ok.inj (htarget.symm.trans htarget')
      exact List.isEmpty_iff.mp hkey
    · cases h

theorem normalize_of_fileTarget {target key : String} (h : fileTarget d = .ok (target, key)) :
    Path.normalize d.target = .ok target := by
  obtain ⟨target', htarget, h⟩ := bind_eq_ok.mp h
  simp only at h
  split at h
  · cases h
  · cases h
    exact checked_eq_ok.mp htarget

theorem fileMode_eq_error (h : fileMode d = .error f) : FileFault d scope f := by
  unfold fileMode at h
  split at h
  · next mode hmode =>
    obtain ⟨cause, hcause, rfl⟩ := checked_eq_error.mp (map_eq_error.mp h)
    obtain rfl := FileMode.parse_eq_error hcause
    exact .mode hmode hcause
  · cases h

theorem fileContent_eq_error (h : fileContent d scope = .error f) : FileFault d scope f := by
  unfold fileContent at h
  split at h
  · next content encoded hcontent hbinary =>
    cases h
    exact .both hcontent hbinary
  · next hcontent hbinary =>
    cases h
    exact .neither hcontent hbinary
  · next content hcontent hbinary =>
    by_cases hplain : d.noExpand = true
    · rw [if_pos hplain] at h
      cases h
    · rw [if_neg hplain] at h
      obtain ⟨e, he, rfl⟩ := resolved_eq_error.mp (map_eq_error.mp h)
      exact .reference hcontent (by simpa using hplain) he
  · next encoded hcontent hbinary =>
    obtain ⟨cause, hcause, rfl⟩ := checked_eq_error.mp (map_eq_error.mp h)
    obtain ⟨reason, rfl⟩ := decodeBinary_eq_error hcause
    exact .binary hcontent hbinary hcause

theorem ofFile_eq_error {workload container : String} {i : Nat}
    (h : ofFile workload container i d scope = .error f) : FileFault d scope f := by
  rcases bind_eq_error.mp h with h | ⟨⟨target, key⟩, -, h⟩
  · exact fileTarget_eq_error h
  · rcases bind_eq_error.mp h with h | ⟨mode, -, h⟩
    · exact fileMode_eq_error h
    · rcases bind_eq_error.mp h with h | ⟨content, -, h⟩
      · exact fileContent_eq_error h
      · cases h

end

end Mount

/-! ## Faults of a container -/

namespace Conversion
open Merge

inductive QuantitiesFault (q : Workload.Quantities) : Fault → Prop
  | cpu {amount reason} : q.cpu = some amount →
      Quantity.parse amount = .error (.quantity amount reason) →
      QuantitiesFault q ⟨["cpu"], .quantity amount reason⟩
  | memory {amount reason} : q.memory = some amount →
      Quantity.parse amount = .error (.quantity amount reason) →
      QuantitiesFault q ⟨["memory"], .quantity amount reason⟩

inductive ComputeFault (c : Workload.Compute) : Fault → Prop
  | limits {q f} : c.limits = some q → QuantitiesFault q f → ComputeFault c (f.within "limits")
  | requests {q f} : c.requests = some q → QuantitiesFault q f →
      ComputeFault c (f.within "requests")

/-- The volumes and files of a container with their normalized targets. -/
inductive Declares (c : Workload.Container) : Origin → String → Prop
  | volume {i v target} : c.volumes[i]? = some v → Path.normalize v.target = .ok target →
      Declares c (.volume i) target
  | file {i d target} : c.files[i]? = some d → Path.normalize d.target = .ok target →
      Declares c (.file i) target

inductive ContainerFault (c : Workload.Container) (kind : WorkloadKind) (scope : Scope) :
    Fault → Prop
  | resources {compute f} : c.compute = some compute → ComputeFault compute f →
      ContainerFault c kind scope (f.within "resources")
  | variables {name text e} : (name, text) ∈ c.environment.toList →
      scope.expand .general text = .error e →
      ContainerFault c kind scope ⟨["variables", name], .reference e⟩
  | volume {i v f} : c.volumes[i]? = some v → Mount.VolumeFault v kind scope f →
      ContainerFault c kind scope (f.within (Origin.volume i).text)
  | file {i d f} : c.files[i]? = some d → Mount.FileFault d scope f →
      ContainerFault c kind scope (f.within (Origin.file i).text)
  | conflict {origin target path reason} : Declares c origin target →
      path = target ∨ Path.parent? target.toList = some path.toList →
      ContainerFault c kind scope ⟨[origin.text], .mountConflict path reason⟩

section
variable {f : Fault}

theorem amount_eq_error {field : String} {q : Option String} (h : amount field q = .error f) :
    ∃ a reason, q = some a ∧ Quantity.parse a = .error (.quantity a reason) ∧
      f = ⟨[field], .quantity a reason⟩ := by
  cases q with
  | none => cases h
  | some a =>
    obtain ⟨cause, hcause, rfl⟩ := checked_eq_error.mp (map_eq_error.mp h)
    obtain ⟨reason, rfl⟩ := Quantity.parse_eq_error hcause
    exact ⟨a, reason, rfl, hcause, rfl⟩

theorem quantities_eq_error {q : Option Workload.Quantities} (h : quantities q = .error f) :
    ∃ q', q = some q' ∧ QuantitiesFault q' f := by
  cases q with
  | none => cases h
  | some q =>
    refine ⟨q, rfl, ?_⟩
    rcases bind_eq_error.mp h with h | ⟨cpu, -, h⟩
    · obtain ⟨a, reason, ha, hparse, rfl⟩ := amount_eq_error h
      exact .cpu ha hparse
    · rcases bind_eq_error.mp h with h | ⟨memory, -, h⟩
      · obtain ⟨a, reason, ha, hparse, rfl⟩ := amount_eq_error h
        exact .memory ha hparse
      · cases h

theorem compute_eq_error {c : Option Workload.Compute} (h : compute c = .error f) :
    ∃ c', c = some c' ∧ ComputeFault c' f := by
  cases c with
  | none => cases h
  | some c =>
    refine ⟨c, rfl, ?_⟩
    rcases bind_eq_error.mp h with h | ⟨limits, -, h⟩
    · obtain ⟨f', hf', rfl⟩ := inField_eq_error.mp h
      obtain ⟨q, hq, hfault⟩ := quantities_eq_error hf'
      exact .limits hq hfault
    · rcases bind_eq_error.mp h with h | ⟨requests, -, h⟩
      · obtain ⟨f', hf', rfl⟩ := inField_eq_error.mp h
        obtain ⟨q, hq, hfault⟩ := quantities_eq_error hf'
        exact .requests hq hfault
      · cases h

theorem environment_eq_error {scope : Scope} {vs : SortedMap String}
    (h : environment scope vs = .error f) : ∃ name text e, (name, text) ∈ vs.toList ∧
      scope.expand .general text = .error e ∧ f = ⟨[name], .reference e⟩ := by
  obtain ⟨before, ⟨name, text⟩, after, hvs, -, hf⟩ := mapM_eq_error.mp h
  obtain ⟨e, he, rfl⟩ := resolved_eq_error.mp (map_eq_error.mp hf)
  exact ⟨name, text, e, by simp [hvs], he, rfl⟩

end

section
variable {workload name : String} {c : Workload.Container} {kind : WorkloadKind} {scope : Scope}
variable {f : Fault}

theorem volumes_eq_error (h : volumes name kind scope c.volumes = .error f) :
    ContainerFault c kind scope f := by
  obtain ⟨i, v, hv, hf⟩ := convertEach_eq_error h
  rw [Nat.zero_add] at hf
  obtain ⟨f', hf', rfl⟩ := inField_eq_error.mp hf
  exact .volume hv (Mount.ofVolume_eq_error hf')

theorem files_eq_error (h : files workload name scope c.files = .error f) :
    ContainerFault c kind scope f := by
  obtain ⟨i, d, hd, hf⟩ := convertEach_eq_error h
  rw [Nat.zero_add] at hf
  obtain ⟨f', hf', rfl⟩ := inField_eq_error.mp hf
  exact .file hd (Mount.ofFile_eq_error hf')

theorem declares_of_mem {vs : List Mount.Converted} {fs : List Mount.MaterializedFile}
    (hvs : volumes name kind scope c.volumes = .ok vs)
    (hfs : files workload name scope c.files = .ok fs) {e : Entry} (he : e ∈ entriesOf vs fs) :
    Declares c e.plan.origin e.target := by
  unfold Entry.target
  rcases mem_entriesOf.mp he with ⟨v, hv, hplan⟩ | ⟨i, m, -, hm, hplan⟩
  · obtain ⟨d, hd, hof⟩ := ofVolume_of_volumes hvs hv
    rw [← hplan]
    cases hof with
    | resource htarget => exact .volume hd htarget
    | host htarget => exact .volume hd htarget
    | claim htarget => exact .volume hd htarget
  · obtain ⟨d, hd, hof⟩ := ofFile_of_files hfs hm
    obtain ⟨target, key, mode, content, htarget, -, -, rfl⟩ := Mount.ofFile_eq_ok hof
    rw [← hplan]
    exact .file hd (Mount.normalize_of_fileTarget htarget)

theorem assemble_eq_error (h : assemble workload name c kind scope = .error f) :
    ContainerFault c kind scope f := by
  rcases bind_eq_error.mp h with h | ⟨comp, -, h⟩
  · obtain ⟨f', hf', rfl⟩ := inField_eq_error.mp h
    obtain ⟨comp, hcomp, hfault⟩ := compute_eq_error hf'
    exact .resources hcomp hfault
  rcases bind_eq_error.mp h with h | ⟨env, -, h⟩
  · obtain ⟨f', hf', rfl⟩ := inField_eq_error.mp h
    obtain ⟨v, text, e, hv, he, rfl⟩ := environment_eq_error hf'
    exact .variables hv he
  rcases bind_eq_error.mp h with h | ⟨vs, hvs, h⟩
  · exact volumes_eq_error h
  rcases bind_eq_error.mp h with h | ⟨fs, hfs, h⟩
  · exact files_eq_error h
  rcases bind_eq_error.mp h with h | ⟨merged, -, h⟩
  · cases mounts_eq_error h with
    | target he => exact .conflict (declares_of_mem hvs hfs he) (.inl rfl)
    | parent he hd => exact .conflict (declares_of_mem hvs hfs he) (.inr hd)
  · cases h

end

/-! ## Faults of a workload -/

inductive WorkloadFault (w : Workload) (scope : Scope) : Fault → Prop
  | annotations {j} : w.metadata.annotated? WorkloadKind.kindKey = some j →
      j.text?.bind WorkloadKind.ofName? = none →
      WorkloadFault w scope ⟨["metadata.annotations"], .unsupportedKind j.plain⟩
  | containers {name c kind f} : (name, c) ∈ w.containers.toList →
      WorkloadKind.ofMetadata w.metadata = .ok kind → ContainerFault c kind scope f →
      WorkloadFault w scope (f.within ("containers." ++ name))

theorem ofMetadata_eq_error {m : Metadata} {c : Cause} (h : WorkloadKind.ofMetadata m = .error c) :
    ∃ j, m.annotated? WorkloadKind.kindKey = some j ∧ j.text?.bind WorkloadKind.ofName? = none ∧
      c = .unsupportedKind j.plain := by
  unfold WorkloadKind.ofMetadata at h
  split at h
  · cases h
  · next j hj =>
    split at h
    · cases h
    · next hnone =>
      cases h
      exact ⟨j, hj, hnone, rfl⟩

theorem convertNamed_eq_error {name : String} {w : Workload} {outputs : Outputs} {o : Options}
    {f : Fault} (h : convertNamed name w outputs o = .error f) :
    WorkloadFault w (.ofWorkload name w outputs) f := by
  rcases bind_eq_error.mp h with h | ⟨kind, hkind, h⟩
  · obtain ⟨cause, hcause, rfl⟩ := checked_eq_error.mp h
    obtain ⟨j, hj, hnone, rfl⟩ := ofMetadata_eq_error hcause
    exact .annotations hj hnone
  rcases bind_eq_error.mp h with h | ⟨l, -, h⟩
  · obtain ⟨before, ⟨n, c⟩, after, hcs, -, hf⟩ := mapM_eq_error.mp h
    obtain ⟨f', hf', rfl⟩ := inField_eq_error.mp hf
    exact .containers (by simp [hcs]) (checked_eq_ok.mp hkind) (assemble_eq_error hf')
  · cases h

/-- A workload with a name fails only at one of its fields, with a fault of that field, below the
name. A workload without a name fails for want of it. -/
theorem convert_faults (w : Workload) (outputs : Outputs) (o : Options) :
    (∀ name f, w.name? = some name → name ≠ "" → convert w outputs o = .error f →
      ∃ f', f = f'.within name ∧ WorkloadFault w (.ofWorkload name w outputs) f') ∧
    ((∀ name, w.name? = some name → name = "") →
      convert w outputs o = .error ⟨["metadata.name"], .missingField⟩) := by
  constructor
  · intro name f hname hne h
    have hsome : w.name?.filter (· ≠ "") = some name := by simp [hname, hne]
    rw [convert, hsome] at h
    obtain ⟨f', hf', rfl⟩ := inField_eq_error.mp h
    exact ⟨f', rfl, convertNamed_eq_error hf'⟩
  · intro hempty
    have hnone : w.name?.filter (· ≠ "") = none := by
      rw [Option.filter_eq_none_iff]
      simpa using hempty
    rw [convert, hnone]

theorem convert_faults_of_nested_file :
    let c : Workload.Container := { Workload.Container.ofImage "app" with
      volumes := [.ofSource "/srv" "/data"]
      files := [.ofContent "/etc/app/a" "1", .ofContent "/data/b" "2"] }
    let w : Workload := (Workload.ofName "api").addContainer "web" c
    let f : Fault := ⟨["api", "containers.web", "files.1"],
      .mountConflict "/data/b" "nested under the mount at '/data'"⟩
    convert w .empty .unset = .error f ∧
      ∃ f', f = f'.within "api" ∧ WorkloadFault w (.ofWorkload "api" w .empty) f' := by
  intro c w f
  have h : convert w .empty .unset = .error f := by decide +kernel
  exact ⟨h, (convert_faults w .empty .unset).1 "api" f rfl (by decide) h⟩

end Conversion
end Stowage
