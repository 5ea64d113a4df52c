import Stowage.Proofs.Closure

/-!
# Containers on their own

Converting a workload comes to converting it with each of its containers alone. The first container
that fails makes the whole fail in the same way. Otherwise the pod and the config maps are put
together from those of the parts, in order, and the services are the same in each part.
-/

namespace Stowage

namespace Workload

def only (w : Workload) (e : String × Container) : Workload :=
  { w with containers := OrderedMap.empty.insert e.1 e.2 }

def parts (w : Workload) : List Workload := w.containers.toList.map w.only

end Workload

namespace Manifest

/-! ## What manifests hold -/

def configMap? : Manifest → Option ConfigMap
  | configMap m => some m
  | _ => none

def service? : Manifest → Option Service
  | service m => some m
  | _ => none

def configMapsIn (ms : List Manifest) : List ConfigMap := ms.filterMap configMap?

def servicesIn (ms : List Manifest) : List Service := ms.filterMap service?

def containersIn (ms : List Manifest) : List Container :=
  (ms.filterMap template?).flatMap PodTemplate.containers

def volumesIn (ms : List Manifest) : List Volume :=
  (ms.filterMap template?).flatMap PodTemplate.volumes

def claimsIn (ms : List Manifest) : List ClaimTemplate := ms.flatMap claimTemplates

/-- Manifests that are put together from those of several conversions. -/
structure Joined (mss : List (List Manifest)) (ms : List Manifest) : Prop where
  containers : containersIn ms = mss.flatMap containersIn
  volumes : volumesIn ms = distinctVolumes (mss.flatMap volumesIn)
  claims : claimsIn ms = mss.flatMap claimsIn
  configMaps : configMapsIn ms = mss.flatMap configMapsIn
  services : ∀ m ∈ mss, servicesIn m = servicesIn ms

theorem distinctVolumes_of_nodup {vs : List Volume} (h : (vs.map Volume.name).Nodup) :
    distinctVolumes vs = vs := by
  suffices ∀ acc : List Volume, ((acc ++ vs).map Volume.name).Nodup →
      vs.foldl addVolume acc = acc ++ vs from this [] h
  clear h
  induction vs with
  | nil => simp
  | cons v vs ih =>
    intro acc h
    have hnew : (acc.any fun u => u.name == v.name) = false := by
      simp only [List.map_append, List.map_cons] at h
      have hdisjoint := (List.nodup_append.mp h).2.2
      simp only [List.any_eq_false, beq_iff_eq]
      intro u hu
      exact hdisjoint _ (List.mem_map_of_mem hu) _ List.mem_cons_self
    rw [List.foldl_cons, addVolume, hnew]
    simpa using ih (acc ++ [v]) (by simpa using h)

end Manifest

namespace Conversion
open Manifest

/-! ## What a conversion holds -/

namespace Options
variable (o : Options)

theorem configMapsIn_stamp (ms : List Manifest) : configMapsIn (ms.map o.stamp) =
    (configMapsIn ms).map fun m => { m with identity := o.stampIdentity m.identity } := by
  unfold configMapsIn
  rw [List.filterMap_map, List.map_filterMap]
  apply List.filterMap_congr
  intro m _
  cases m <;> rfl

theorem servicesIn_stamp (ms : List Manifest) : servicesIn (ms.map o.stamp) =
    (servicesIn ms).map fun m => { m with identity := o.stampIdentity m.identity } := by
  unfold servicesIn
  rw [List.filterMap_map, List.map_filterMap]
  apply List.filterMap_congr
  intro m _
  cases m <;> rfl

theorem filterMap_template?_stamp (ms : List Manifest) :
    (ms.map o.stamp).filterMap template? = ms.filterMap template? := by
  rw [List.filterMap_map]
  apply List.filterMap_congr
  intro m _
  exact o.template?_stamp m

theorem claimsIn_stamp (ms : List Manifest) : claimsIn (ms.map o.stamp) = claimsIn ms := by
  unfold claimsIn
  rw [List.flatMap_map]
  apply List.flatMap_congr
  intro m _
  exact o.claimTemplates_stamp m

end Options

section
variable (name : String) (w : Workload) (kind : WorkloadKind) (o : Options) (l : List Assembled)

theorem configMapsIn_manifests :
    configMapsIn (manifests name w kind o l) = l.flatMap Assembled.configMaps := by
  cases kind <;>
    simp [configMapsIn, manifests_eq, supporting, controller, List.filterMap_append,
      List.filterMap_map, Function.comp_def, configMap?]

theorem servicesIn_manifests :
    servicesIn (manifests name w kind o l) = services name w kind := by
  cases kind <;>
    simp [servicesIn, manifests_eq, supporting, controller, List.filterMap_append,
      List.filterMap_map, Function.comp_def, Manifest.service?]

theorem filterMap_template?_manifests :
    (manifests name w kind o l).filterMap template? = [podTemplate name o l] := by
  cases kind <;>
    simp [manifests_eq, supporting, controller, List.filterMap_append, List.filterMap_map,
      Function.comp_def, template?, deployment, statefulSet]

theorem filterMap_template?_stamped :
    ((manifests name w kind o l).map o.stamp).filterMap template? = [podTemplate name o l] := by
  rw [o.filterMap_template?_stamp, filterMap_template?_manifests]

theorem containersIn_stamped : containersIn ((manifests name w kind o l).map o.stamp) =
    (podTemplate name o l).containers := by
  rw [containersIn, filterMap_template?_stamped, List.flatMap_singleton]

theorem volumesIn_stamped : volumesIn ((manifests name w kind o l).map o.stamp) =
    (podTemplate name o l).volumes := by
  rw [volumesIn, filterMap_template?_stamped, List.flatMap_singleton]

theorem claimsIn_manifests : claimsIn (manifests name w kind o l) =
    l.flatMap fun a => if kind.supportsClaims then a.claims else [] := by
  have none_of {α : Type} (as : List α) : as.flatMap (fun _ => ([] : List ClaimTemplate)) = [] :=
    List.flatMap_eq_nil_iff.mpr fun _ _ => rfl
  cases kind <;>
    simp [claimsIn, manifests_eq, supporting, controller, List.flatMap_append, List.flatMap_map,
      claimTemplates, statefulSet, WorkloadKind.supportsClaims, none_of]

end

/-- A conversion gives one pod template, so the containers and volumes in it are those of the pod. -/
theorem exists_template_of_convert {w : Workload} {outputs : Outputs} {o : Options}
    {ms : List Manifest} (h : convert w outputs o = .ok ms) :
    ∃ t, ms.filterMap template? = [t] ∧ containersIn ms = t.containers ∧
      volumesIn ms = t.volumes := by
  obtain ⟨name, kind, l, -, -, rfl⟩ := convert_eq_ok h
  exact ⟨podTemplate name o l, filterMap_template?_stamped name w kind o l,
    containersIn_stamped name w kind o l, volumesIn_stamped name w kind o l⟩

/-! ## One container and several -/

def assembleOne (name : String) (kind : WorkloadKind) (scope : Scope)
    (e : String × Workload.Container) : Except Fault Assembled :=
  inField ("containers." ++ e.1) (assemble name e.1 e.2 kind scope)

theorem manifests_joined {name : String} {kind : WorkloadKind} {l : List Assembled} (w : Workload)
    (o : Options) (wired : ∀ a ∈ l, ∃ n, Wired name a.container.name kind n a) :
    Joined (l.map fun a => (manifests name w kind o [a]).map o.stamp)
      ((manifests name w kind o l).map o.stamp) where
  containers := by
    simp only [containersIn_stamped, podTemplate, List.flatMap_map, List.map_singleton]
    exact List.map_eq_flatMap
  volumes := by
    have own : ∀ a ∈ l, distinctVolumes a.volumes = a.volumes := by
      intro a ha
      obtain ⟨n, hw⟩ := wired a ha
      exact distinctVolumes_of_nodup hw.volumes
    have hparts : l.flatMap (fun a => distinctVolumes a.volumes) = l.flatMap Assembled.volumes :=
      List.flatMap_congr own
    simp only [volumesIn_stamped, podTemplate, List.flatMap_map, List.flatMap_singleton, hparts]
  claims := by
    simp [o.claimsIn_stamp, claimsIn_manifests, List.flatMap_map]
  configMaps := by
    simp [o.configMapsIn_stamp, configMapsIn_manifests, List.flatMap_map, List.map_flatMap]
  services := by
    intro m hm
    obtain ⟨a, -, rfl⟩ := List.mem_map.mp hm
    rw [o.servicesIn_stamp, o.servicesIn_stamp, servicesIn_manifests, servicesIn_manifests]

theorem convert_steps (w : Workload) (outputs : Outputs) (o : Options) :
    (∃ f, convert w outputs o = .error f ∧ ∀ e, convert (w.only e) outputs o = .error f) ∨
      ∃ name kind, let step := assembleOne name kind (.ofWorkload name w outputs)
        convert w outputs o = inField name ((w.containers.toList.mapM step).map
          fun l => (manifests name w kind o l).map o.stamp) ∧
        ∀ e, convert (w.only e) outputs o = inField name ((step e).map
          fun a => (manifests name w kind o [a]).map o.stamp) := by
  -- name and kind are read before any container is, and each part has those of the whole
  cases hname : w.name?.filter (· ≠ "") with
  | none =>
    have hnone (e : String × Workload.Container) : (w.only e).name?.filter (· ≠ "") = none := hname
    refine .inl ⟨⟨["metadata.name"], .missingField⟩, ?_, fun e => ?_⟩
    · simp only [convert, hname]
    · simp only [convert, hnone]
  | some name =>
    have hsome (e : String × Workload.Container) :
        (w.only e).name?.filter (· ≠ "") = some name := hname
    simp only [convert, hname, hsome]
    cases hkind : WorkloadKind.ofMetadata w.metadata with
    | error c =>
      have honly (e : String × Workload.Container) :
          WorkloadKind.ofMetadata (w.only e).metadata = .error c := hkind
      refine .inl ⟨⟨[name, "metadata.annotations"], c⟩, ?_, fun e => ?_⟩
      · rw [convertNamed, hkind]
        rfl
      · rw [convertNamed, honly]
        rfl
    | ok kind =>
      have honly (e : String × Workload.Container) :
          WorkloadKind.ofMetadata (w.only e).metadata = .ok kind := hkind
      refine .inr ⟨name, kind, ?_, fun e => ?_⟩
      · rw [convertNamed, hkind]
        show inField name (w.containers.toList.mapM (assembleOne name kind _) >>=
          fun l => .ok ((manifests name w kind o l).map o.stamp)) = _
        cases w.containers.toList.mapM (assembleOne name kind (.ofWorkload name w outputs)) <;> rfl
      · rw [convertNamed, honly]
        show inField name ([e].mapM (assembleOne name kind (.ofWorkload name w outputs)) >>=
          fun l => .ok ((manifests name w kind o l).map o.stamp)) = _
        rw [List.mapM_cons]
        cases assembleOne name kind (.ofWorkload name w outputs) e <;> rfl

section
variable {w : Workload} {outputs : Outputs} {o : Options}

theorem isOk_convert (nonempty : w.containers.toList ≠ []) :
    (convert w outputs o).isOk = w.parts.all fun p => (convert p outputs o).isOk := by
  unfold Workload.parts
  rw [List.all_map]
  rcases convert_steps w outputs o with ⟨f, hw, hpart⟩ | ⟨name, kind, hw, hpart⟩
  · obtain ⟨e, es, hes⟩ := List.exists_cons_of_ne_nil nonempty
    rw [hw, hes, List.all_cons, Function.comp_apply, hpart]
    rfl
  · rw [hw, isOk_inField, isOk_map, isOk_mapM]
    simp only [Function.comp_def, hpart, isOk_inField, isOk_map]

theorem joined_of_convert {ms : List Manifest} (h : convert w outputs o = .ok ms) :
    ∃ mss, List.Forall₂ (fun p m => convert p outputs o = .ok m) w.parts mss ∧ Joined mss ms := by
  rcases convert_steps w outputs o with ⟨f, hw, -⟩ | ⟨name, kind, hw, hpart⟩
  · rw [hw] at h
    cases h
  · rw [hw] at h
    obtain ⟨l, hl, rfl⟩ := map_eq_ok.mp (inField_eq_ok.mp h)
    refine ⟨l.map fun a => (manifests name w kind o [a]).map o.stamp, ?_, ?_⟩
    · unfold Workload.parts
      refine List.forall₂_map_left_iff.mpr (List.forall₂_map_right_iff.mpr ?_)
      refine (forall₂_of_mapM_eq_ok hl).imp ?_
      intro e a ha
      rw [hpart, ha]
      rfl
    · exact manifests_joined w o (wired_of_mem (assembleAll_wired hl))

theorem part_of_convert_error (nonempty : w.containers.toList ≠ []) {f : Fault}
    (h : convert w outputs o = .error f) : ∃ before p after, w.parts = before ++ p :: after ∧
      (∀ q ∈ before, (convert q outputs o).isOk = true) ∧ convert p outputs o = .error f := by
  unfold Workload.parts
  rcases convert_steps w outputs o with ⟨f', hw, hpart⟩ | ⟨name, kind, hw, hpart⟩
  · obtain ⟨e, es, hes⟩ := List.exists_cons_of_ne_nil nonempty
    rw [hw] at h
    cases h
    exact ⟨[], w.only e, es.map w.only, by rw [hes]; rfl, by simp, hpart e⟩
  · rw [hw, inField_eq_error] at h
    obtain ⟨f', hf', rfl⟩ := h
    obtain ⟨before, e, after, hes, hbefore, he⟩ := mapM_eq_error.mp (map_eq_error.mp hf')
    refine ⟨before.map w.only, w.only e, after.map w.only, ?_, ?_, ?_⟩
    · rw [hes, List.map_append, List.map_cons]
    · intro q hq
      obtain ⟨e', he', rfl⟩ := List.mem_map.mp hq
      rw [hpart, isOk_inField, isOk_map]
      exact hbefore e' he'
    · rw [hpart, he]
      rfl

end

/-- A workload is converted as its containers are alone: all succeed or the first that fails is the
failure, and the manifests are joined in the order of the containers. -/
theorem convert_by_container {w : Workload} (outputs : Outputs) (o : Options)
    (nonempty : w.containers.toList ≠ []) :
    (convert w outputs o).isOk = w.parts.all (fun p => (convert p outputs o).isOk) ∧
      (∀ ms, convert w outputs o = .ok ms → ∃ mss,
        List.Forall₂ (fun p m => convert p outputs o = .ok m) w.parts mss ∧ Joined mss ms) ∧
      ∀ f, convert w outputs o = .error f → ∃ before p after, w.parts = before ++ p :: after ∧
        (∀ q ∈ before, (convert q outputs o).isOk = true) ∧ convert p outputs o = .error f :=
  ⟨isOk_convert nonempty, fun _ => joined_of_convert, fun _ => part_of_convert_error nonempty⟩

theorem convert_by_container_of_claims :
    let c : Workload.Container := { Workload.Container.ofImage "postgres" with
      volumes := [.ofSource "${resources.certs}" "/etc/certs",
        { Workload.Volume.ofSource "${resources.data}" "/data" with claim := some (.ofSize "1Gi") }]
      files := [.ofContent "/etc/app/a" "1"] }
    let metadata := (Metadata.ofName "db").annotate WorkloadKind.kindKey "StatefulSet"
    let w : Workload := (((({ Workload.ofName "db" with metadata := metadata }).addContainer "main"
      c).addContainer "side" c).addResource "certs" ⟨"secret", none, none⟩).addResource "data"
        ⟨"volume", none, none⟩
    let outputs := Outputs.empty.insert "certs" "secretName" "db-certs"
    w.containers.toList ≠ [] ∧ ∃ ms, convert w outputs .unset = .ok ms ∧ ∃ mss,
      List.Forall₂ (fun p m => convert p outputs .unset = .ok m) w.parts mss ∧ Joined mss ms := by
  intro c metadata w outputs
  have nonempty : w.containers.toList ≠ [] := by decide +kernel
  obtain ⟨ms, hms⟩ : ∃ ms, convert w outputs .unset = .ok ms := exists_eq_ok (by decide +kernel)
  obtain ⟨-, joined, -⟩ := convert_by_container outputs .unset nonempty
  exact ⟨nonempty, ms, hms, joined ms hms⟩

end Conversion
end Stowage
