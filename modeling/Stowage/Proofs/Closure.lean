import Mathlib.Data.Prod.Basic
import Stowage.Proofs.Wiring

/-!
# Closed manifests

Containers meet in a pod, where the names of their volumes and claims stay apart, and a pod meets
the other manifests. All names of a conversion are there once, and all are used.
-/

namespace Stowage

/-! ## Pods -/

namespace Manifest

def template? : Manifest → Option PodTemplate
  | deployment m => some m.template
  | statefulSet m => some m.template
  | _ => none

def claimTemplates : Manifest → List ClaimTemplate
  | statefulSet m => m.claims
  | _ => []

/-- The names of volumes and claims in a pod are different, all there, and all used. -/
structure PodTemplate.Closed (t : PodTemplate) (claims : List ClaimTemplate) : Prop where
  volumes_nodup : (t.volumes.map Volume.name).Nodup
  claims_nodup : (claims.map ClaimTemplate.name).Nodup
  disjoint : ∀ v ∈ t.volumes, ∀ k ∈ claims, v.name ≠ k.name
  mount_resolves : ∀ c ∈ t.containers, ∀ m ∈ c.mounts,
    (∃ v ∈ t.volumes, v.name = m.name) ∨ ∃ k ∈ claims, k.name = m.name
  volume_mounted : ∀ v ∈ t.volumes, ∃ c ∈ t.containers, ∃ m ∈ c.mounts, m.name = v.name
  claim_mounted : ∀ k ∈ claims, ∃ c ∈ t.containers, ∃ m ∈ c.mounts, m.name = k.name

end Manifest

namespace Conversion
open Manifest

section
variable {name : String} {kind : WorkloadKind} {o : Options} {l : List Assembled}
variable (wired : ∀ a ∈ l, ∃ n, Wired name a.container.name kind n a)
variable (names : (l.map (·.container.name)).Nodup)
include wired

theorem volume_of_pod {v : Volume} (hv : v ∈ distinctVolumes (l.flatMap Assembled.volumes)) :
    ∃ a ∈ l, v ∈ a.volumes ∧ ((∃ token, v.name = Mount.resourceVolumeName token) ∨
      ∃ w i, v.name = numbered a.container.name w i ∧ w ≠ .claim) ∧
      ∃ m ∈ a.container.mounts, m.name = v.name := by
  obtain ⟨a, ha, hva⟩ := List.mem_flatMap.mp (mem_of_mem_distinctVolumes hv)
  obtain ⟨n, hw⟩ := wired a ha
  exact ⟨a, ha, hva, hw.volume_mounted v hva⟩

include names in
/-- A volume that is named after its container is not replaced by one of another container. -/
theorem volume_mem_pod {a : Assembled} (ha : a ∈ l) {v : Volume} (hv : v ∈ a.volumes) {w : Word}
    {i : Nat} (hname : v.name = numbered a.container.name w i) :
    v ∈ distinctVolumes (l.flatMap Assembled.volumes) := by
  -- whatever volume of the pod has the name, it comes from the same container
  obtain ⟨u, hu, huv⟩ := exists_mem_distinctVolumes (List.mem_flatMap.mpr ⟨a, ha, hv⟩)
  obtain ⟨a', ha', hua', ⟨token, htoken⟩ | ⟨w', i', hw', -⟩, -⟩ := volume_of_pod wired hu
  · exact absurd (htoken.symm.trans (huv.trans hname)) (resourceVolumeName_ne_numbered _ _ _ _)
  · obtain ⟨hown, -⟩ := numbered_inj (hw'.symm.trans (huv.trans hname))
    obtain rfl := List.inj_on_of_nodup_map names ha' ha hown
    obtain ⟨n, hw⟩ := wired a' ha
    obtain rfl := List.inj_on_of_nodup_map hw.volumes hua' hv huv
    exact hu

include names in
theorem claims_nodup_pod :
    ((l.flatMap Assembled.claims).map ClaimTemplate.name).Nodup := by
  have owner {a : Assembled} (ha : a ∈ l) {x : String} (hx : x ∈ a.claims.map ClaimTemplate.name) :
      ∃ i, x = numbered a.container.name .claim i := by
    obtain ⟨k, hk, rfl⟩ := List.mem_map.mp hx
    obtain ⟨n, hw⟩ := wired a ha
    exact (hw.claim_mounted k hk).2.1
  rw [List.map_flatMap]
  refine nodup_flatMap_of_key names (fun a ha => ?_) fun a ha b hb x hx hy => ?_
  · obtain ⟨n, hw⟩ := wired a ha
    exact hw.claims
  · obtain ⟨i, hi⟩ := owner ha hx
    obtain ⟨j, hj⟩ := owner hb hy
    exact (numbered_inj (hi.symm.trans hj)).1

include names in
theorem podTemplate_closed : (podTemplate name o l).Closed (l.flatMap Assembled.claims) where
  volumes_nodup := nodup_distinctVolumes _
  claims_nodup := claims_nodup_pod wired names
  disjoint := by
    intro v hv k hk heq
    obtain ⟨a, ha, hka⟩ := List.mem_flatMap.mp hk
    obtain ⟨n, hw⟩ := wired a ha
    obtain ⟨-, ⟨j, hj⟩, -⟩ := hw.claim_mounted k hka
    obtain ⟨a', -, -, ⟨token, htoken⟩ | ⟨w', i, hi, hne⟩, -⟩ := volume_of_pod wired hv
    · exact resourceVolumeName_ne_numbered _ _ _ _ (htoken.symm.trans (heq.trans hj))
    · exact hne (numbered_inj (hi.symm.trans (heq.trans hj))).2.1
  mount_resolves := by
    intro c hc m hm
    obtain ⟨a, ha, rfl⟩ := List.mem_map.mp hc
    obtain ⟨n, hw⟩ := wired a ha
    rcases hw.mount_resolves m hm with ⟨v, hv, hvm⟩ | ⟨k, hk, hkm⟩
    · obtain ⟨u, hu, huv⟩ := exists_mem_distinctVolumes (List.mem_flatMap.mpr ⟨a, ha, hv⟩)
      exact .inl ⟨u, hu, huv.trans hvm⟩
    · exact .inr ⟨k, List.mem_flatMap.mpr ⟨a, ha, hk⟩, hkm⟩
  volume_mounted := by
    intro v hv
    obtain ⟨a, ha, -, -, m, hm, hmv⟩ := volume_of_pod wired hv
    exact ⟨a.container, List.mem_map_of_mem ha, m, hm, hmv⟩
  claim_mounted := by
    intro k hk
    obtain ⟨a, ha, hka⟩ := List.mem_flatMap.mp hk
    obtain ⟨n, hw⟩ := wired a ha
    obtain ⟨-, -, m, hm, hmk⟩ := hw.claim_mounted k hka
    exact ⟨a.container, List.mem_map_of_mem ha, m, hm, hmk⟩

theorem claims_eq_nil (hkind : kind.supportsClaims = false) : l.flatMap Assembled.claims = [] := by
  refine List.flatMap_eq_nil_iff.mpr fun a ha => List.eq_nil_iff_forall_not_mem.mpr fun k hk => ?_
  obtain ⟨n, hw⟩ := wired a ha
  have := (hw.claim_mounted k hk).1
  rw [hkind] at this
  cases this

include names in
theorem configMaps_nodup : ((l.flatMap Assembled.configMaps).map ConfigMap.name).Nodup := by
  rw [List.map_flatMap]
  refine nodup_flatMap_of_key names (fun a ha => ?_) fun a ha b hb x hx hy => ?_
  · obtain ⟨n, hw⟩ := wired a ha
    rw [hw.configMaps]
    exact List.nodup_range.map fun i j h => (configMapName_inj h).2
  · obtain ⟨n, hw⟩ := wired a ha
    obtain ⟨n', hw'⟩ := wired b hb
    rw [hw.configMaps] at hx
    rw [hw'.configMaps] at hy
    obtain ⟨i, -, hi⟩ := List.mem_map.mp hx
    obtain ⟨j, -, hj⟩ := List.mem_map.mp hy
    exact (configMapName_inj (hi.trans hj.symm)).1

end

/-! ## Stamping -/

namespace Options
variable (o : Options) (m : Manifest)

theorem kind_stamp : (o.stamp m).kind = m.kind := by cases m <;> rfl

theorem name_stamp : (o.stamp m).name = m.name := by cases m <;> rfl

theorem template?_stamp : (o.stamp m).template? = m.template? := by cases m <;> rfl

theorem claimTemplates_stamp : (o.stamp m).claimTemplates = m.claimTemplates := by cases m <;> rfl

end Options

/-! ## The manifests of a workload -/

def services (name : String) (w : Workload) (kind : WorkloadKind) : List Service :=
  (service? name w.service).toList ++
    match kind with
    | .deployment => []
    | .statefulSet => [headlessService name]

def supporting (name : String) (w : Workload) (kind : WorkloadKind) (l : List Assembled) :
    List Manifest :=
  (l.flatMap Assembled.configMaps).map .configMap ++ (services name w kind).map .service

def controller (name : String) (o : Options) (l : List Assembled) : WorkloadKind → Manifest
  | .deployment => .deployment (deployment name o l)
  | .statefulSet => .statefulSet (statefulSet name o l)

section
variable (name : String) (w : Workload) (kind : WorkloadKind) (o : Options) (l : List Assembled)

theorem manifests_eq :
    manifests name w kind o l = supporting name w kind l ++ [controller name o l kind] := by
  cases kind with
  | deployment => simp [manifests, supporting, services, controllers, controller]
  | statefulSet => simp [manifests, supporting, services, controllers, controller]

theorem controller_kind : (controller name o l kind).kind = kind.name := by cases kind <;> rfl

theorem name_of_service? {s : Service} (h : service? name w.service = some s) :
    s.identity = .ofName (serviceName name) := by
  unfold service? at h
  split at h
  · split at h
    · cases h
    · cases h
      rfl
  · cases h

theorem serviceName_ne_headless : serviceName name ≠ headlessServiceName name := by
  intro h
  have hl := congrArg String.toList h
  simp only [serviceName, headlessServiceName, String.toList_append] at hl
  exact absurd (List.append_cancel_left hl) (by decide)

theorem services_nodup : ((services name w kind).map fun s => (service s).name).Nodup := by
  unfold services
  cases hs : service? name w.service with
  | none => cases kind <;> simp
  | some s =>
    have hname : (service s).name = serviceName name := by
      rw [Manifest.name, Manifest.identity, name_of_service? name w hs]
      rfl
    have hhead : (service (headlessService name)).name = headlessServiceName name := rfl
    cases kind with
    | deployment => simp
    | statefulSet => simp [hname, hhead, serviceName_ne_headless name]

theorem manifests_nodup (nodup : ((l.flatMap Assembled.configMaps).map ConfigMap.name).Nodup) :
    ((manifests name w kind o l).map fun m => (m.kind, m.name)).Nodup := by
  have hmaps := nodup.map (Prod.mk_right_injective "ConfigMap")
  have hservices := (services_nodup name w kind).map (Prod.mk_right_injective "Service")
  rw [List.map_map] at hmaps hservices
  rw [manifests_eq, supporting, List.map_append, List.map_append, List.map_map, List.map_map]
  refine List.nodup_append.mpr ⟨List.nodup_append.mpr ⟨hmaps, hservices, ?_⟩,
    List.nodup_singleton _, ?_⟩
  · intro x hx y hy hxy
    obtain ⟨f, -, rfl⟩ := List.mem_map.mp hx
    obtain ⟨s, -, rfl⟩ := List.mem_map.mp hy
    have : "ConfigMap" = "Service" := congrArg Prod.fst hxy
    exact absurd this (by decide)
  · intro x hx y hy hxy
    obtain rfl := List.mem_singleton.mp hy
    have hkind : x.1 = kind.name := (congrArg Prod.fst hxy).trans (controller_kind name kind o l)
    rcases List.mem_append.mp hx with hx | hx
    · obtain ⟨f, -, rfl⟩ := List.mem_map.mp hx
      have : "ConfigMap" = kind.name := hkind
      cases kind <;> exact absurd this (by decide)
    · obtain ⟨s, -, rfl⟩ := List.mem_map.mp hx
      have : "Service" = kind.name := hkind
      cases kind <;> exact absurd this (by decide)

end

/-! ## Runs -/

theorem assembleAll_wired {name : String} {w : Workload} {kind : WorkloadKind} {scope : Scope}
    {l : List Assembled} (h : assembleAll name w kind scope = .ok l) :
    List.Forall₂ (fun e a => Wired name e.1 kind e.2.files.length a) w.containers.toList l :=
  (forall₂_of_mapM_eq_ok h).imp fun _ _ ha => assemble_wired (inField_eq_ok.mp ha)

theorem convert_eq_ok {w : Workload} {outputs : Outputs} {o : Options} {ms : List Manifest}
    (h : convert w outputs o = .ok ms) : ∃ name kind l, w.name? = some name ∧
      assembleAll name w kind (.ofWorkload name w outputs) = .ok l ∧
      ms = (manifests name w kind o l).map o.stamp := by
  unfold convert at h
  split at h
  · next name hname =>
    obtain ⟨kind, -, h⟩ := bind_eq_ok.mp (inField_eq_ok.mp h)
    obtain ⟨l, hl, h⟩ := bind_eq_ok.mp h
    cases h
    exact ⟨name, kind, l, (Option.filter_eq_some_iff.mp hname).1, hl, rfl⟩
  · cases h

/-- What refers to what among the manifests of a workload, of which the controller is the last. -/
structure Closed (name : String) (w : Workload) (before : List Manifest) (last : Manifest)
    (t : PodTemplate) : Prop where
  distinct : ((before ++ [last]).map fun m => (m.kind, m.name)).Nodup
  template : last.template? = some t
  only : ∀ m ∈ before, m.template? = none
  pod : t.Closed last.claimTemplates
  deployment : last.kind = "Deployment" →
    ∀ c ∈ t.containers, ∀ m ∈ c.mounts, ∃ v ∈ t.volumes, v.name = m.name
  files : ∀ e ∈ w.containers.toList, ∀ i < e.2.files.length,
    ∃ f key, .configMap f ∈ before ∧ f.name = Mount.configMapName name e.1 i ∧ f.keys = [key] ∧
      ∃ c ∈ t.containers, c.name = e.1 ∧ ∃ m ∈ c.mounts, ∃ v ∈ t.volumes,
        v.name = m.name ∧ Serves (Mount.configMapName name e.1 i) key m v
  headless : ∀ s, last = .statefulSet s → ∃ front service, before = front ++ [.service service] ∧
    service.identity.name = some s.serviceName ∧ service.clusterIP = some "None"

section
variable {name : String} {w : Workload} {kind : WorkloadKind} {o : Options} {l : List Assembled}
variable (hw : List.Forall₂ (fun e a => Wired name e.1 kind e.2.files.length a)
  w.containers.toList l)
include hw

theorem wired_of_mem : ∀ a ∈ l, ∃ n, Wired name a.container.name kind n a := by
  intro a ha
  obtain ⟨e, -, hwa⟩ := exists_left_of_mem hw ha
  exact ⟨e.2.files.length, by rw [hwa.named]; exact hwa⟩

theorem names_nodup : (l.map (·.container.name)).Nodup := by
  have hnames : List.Forall₂ (· = ·) (w.containers.toList.map Prod.fst)
      (l.map (·.container.name)) :=
    List.forall₂_map_left_iff.mpr (List.forall₂_map_right_iff.mpr
      (hw.imp fun _ _ hwa => hwa.named.symm))
  rw [List.forall₂_eq_eq_eq] at hnames
  rw [← hnames]
  exact w.containers.distinct

theorem file_of_pod {e : String × Workload.Container} (he : e ∈ w.containers.toList) {i : Nat}
    (hi : i < e.2.files.length) : ∃ f ∈ l.flatMap Assembled.configMaps, ∃ key,
      f.name = Mount.configMapName name e.1 i ∧ f.keys = [key] ∧
      ∃ c ∈ (podTemplate name o l).containers, c.name = e.1 ∧ ∃ m ∈ c.mounts,
        ∃ v ∈ (podTemplate name o l).volumes,
          v.name = m.name ∧ Serves (Mount.configMapName name e.1 i) key m v := by
  obtain ⟨a, ha, hwa⟩ := exists_right_of_mem hw he
  obtain ⟨f, hf, hname, key, hkey, m, hm, v, hv, hvm, ⟨u, j, hu⟩, hserves⟩ := hwa.file_served i hi
  refine ⟨f, List.mem_flatMap.mpr ⟨a, ha, hf⟩, key, hname, hkey, a.container,
    List.mem_map_of_mem ha, hwa.named, m, hm, v, ?_, hvm, hserves⟩
  rw [← hwa.named] at hu
  exact volume_mem_pod (wired_of_mem hw) (names_nodup hw) ha hv hu

variable (o) in
theorem manifests_closed : Closed name w ((supporting name w kind l).map o.stamp)
    (o.stamp (controller name o l kind)) (podTemplate name o l) where
  distinct := by
    have hmaps := configMaps_nodup (wired_of_mem hw) (names_nodup hw)
    have hnodup := manifests_nodup name w kind o l hmaps
    rw [manifests_eq] at hnodup
    rw [← List.map_singleton (f := o.stamp), ← List.map_append, List.map_map]
    simpa only [Function.comp_def, o.kind_stamp, o.name_stamp] using hnodup
  template := by
    rw [o.template?_stamp]
    cases kind <;> rfl
  only := by
    intro m hm
    obtain ⟨m', hm', rfl⟩ := List.mem_map.mp hm
    rw [o.template?_stamp]
    rcases List.mem_append.mp hm' with hm' | hm'
    · obtain ⟨f, -, rfl⟩ := List.mem_map.mp hm'
      rfl
    · obtain ⟨s, -, rfl⟩ := List.mem_map.mp hm'
      rfl
  pod := by
    have hclosed := podTemplate_closed (o := o) (wired_of_mem hw) (names_nodup hw)
    rw [o.claimTemplates_stamp]
    cases kind with
    | deployment => rwa [claims_eq_nil (wired_of_mem hw) rfl] at hclosed
    | statefulSet => exact hclosed
  deployment := by
    intro hkind c hc m hm
    rw [o.kind_stamp, controller_kind] at hkind
    have hclosed := podTemplate_closed (o := o) (wired_of_mem hw) (names_nodup hw)
    cases kind with
    | deployment =>
      rw [claims_eq_nil (wired_of_mem hw) rfl] at hclosed
      rcases hclosed.mount_resolves c hc m hm with hv | ⟨k, hk, -⟩
      · exact hv
      · cases hk
    | statefulSet => exact absurd hkind (by decide)
  files := by
    intro e he i hi
    obtain ⟨f, hf, key, hname, hkey, hserved⟩ := file_of_pod (o := o) hw he hi
    have hmem : o.stamp (.configMap f) ∈ (supporting name w kind l).map o.stamp :=
      List.mem_map_of_mem (List.mem_append_left _ (List.mem_map_of_mem hf))
    exact ⟨_, key, hmem, hname, hkey, hserved⟩
  headless := by
    intro s hs
    cases kind with
    | deployment => cases hs
    | statefulSet =>
      cases hs
      refine ⟨((l.flatMap Assembled.configMaps).map configMap ++
        (service? name w.service).toList.map service).map o.stamp,
        { headlessService name with
          identity := o.stampIdentity (headlessService name).identity }, ?_, rfl, rfl⟩
      simp only [supporting, services, List.map_append, List.append_assoc]
      rfl

end

/-- The manifests of a conversion are closed under reference and have different names. -/
theorem convert_closed {w : Workload} {outputs : Outputs} {o : Options} {ms : List Manifest}
    (h : convert w outputs o = .ok ms) : ∃ name before last t, w.name? = some name ∧
      ms = before ++ [last] ∧ Closed name w before last t := by
  obtain ⟨name, kind, l, hname, hl, rfl⟩ := convert_eq_ok h
  refine ⟨name, _, _, _, hname, ?_, manifests_closed o (assembleAll_wired hl)⟩
  rw [manifests_eq, List.map_append, List.map_singleton]

theorem convert_closed_of_stateful_set :
    let c : Workload.Container := { Workload.Container.ofImage "db" with
      volumes := [{ Workload.Volume.ofSource "${resources.data}" "/var/lib/db" with
        claim := some (.ofSize "1Gi") }]
      files := [.ofContent "/etc/db/a" "1", .ofContent "/etc/db/b" "2"] }
    let w : Workload := { (Workload.ofName "db").addContainer "main" c with
      metadata := (Metadata.ofName "db").annotate WorkloadKind.kindKey "StatefulSet"
      resources := OrderedMap.empty.insert "data" ⟨"volume", none, none⟩ }
    ∃ ms, convert w .empty .unset = .ok ms ∧ ∃ name before last t, w.name? = some name ∧
      ms = before ++ [last] ∧ Closed name w before last t := by
  intro c w
  obtain ⟨ms, hms⟩ : ∃ ms, convert w .empty .unset = .ok ms := exists_eq_ok (by decide +kernel)
  exact ⟨ms, hms, convert_closed hms⟩

end Conversion
end Stowage
