import Stowage.Manifest.Rendering
import Stowage.Proofs.Independence

/-!
# Options as an overlay

Options change three things of a conversion: the namespace and the labels of every manifest, and the
labels of the pod template. No selector changes, and the label that all of them ask for wins over a
common one.
-/

namespace Stowage

namespace Manifest

/-! ## Selection -/

def Selects (selector labels : SortedMap String) : Prop :=
  ∀ e ∈ selector.toList, labels.get? e.1 = some e.2

def requirements : Manifest → List Requirement
  | deployment m => m.selector
  | statefulSet m => m.selector
  | _ => []

def mapTemplate (f : PodTemplate → PodTemplate) : Manifest → Manifest
  | deployment m => deployment { m with template := f m.template }
  | statefulSet m => statefulSet { m with template := f m.template }
  | m => m

theorem mapIdentity_mapIdentity (f g : Identity → Identity) (m : Manifest) :
    (m.mapIdentity f).mapIdentity g = m.mapIdentity fun i => g (f i) := by cases m <;> rfl

/-! ## Written identities -/

theorem lookup_optionalField (name k : String) (f : α → Json) (x : Option α) :
    (optionalField name f x).lookup k = if k = name then x.map f else none := by
  cases x with
  | none => simp [optionalField]
  | some a => exact lookup_cons_eq_ite k name (f a) []

theorem lookup_mapField (name k : String) (f : α → Json) (m : SortedMap α) :
    (mapField name f m).lookup k =
      if k = name ∧ m.isEmpty = false then some (.obj (m.toList.map fun e => (e.1, f e.2)))
      else none := by
  unfold mapField
  split
  · next h => simp [h]
  · next h => simp [h, lookup_cons_eq_ite]

theorem walk?_key (l : List (String × Json)) (k : String) :
    (Json.obj l).walk? [k] = l.lookup k := by
  cases h : l.lookup k <;> simp [Json.walk?, h]

theorem walk?_metadata (m : Manifest) (k : String) :
    m.json.walk? ["metadata", k] = m.identity.json.walk? [k] := by
  cases m <;> rfl

theorem walk?_namespace (i : Identity) : i.json.walk? ["namespace"] = i.inNamespace.map .str := by
  simp [Identity.json, walk?_key, List.lookup_append, lookup_optionalField, lookup_mapField]

theorem walk?_labels (i : Identity) : i.json.walk? ["labels"] =
    if i.labels.isEmpty then none else some (Json.ofMap i.labels) := by
  cases h : i.labels.isEmpty <;>
    simp [Identity.json, walk?_key, List.lookup_append, lookup_optionalField, lookup_mapField, h,
      Json.ofMap]

end Manifest

namespace Conversion
open Manifest

/-! ## Overlays -/

/-- Replaces what options may change in a manifest of the workload `name`. -/
def overlaid (name : String) (o : Options) (m : Manifest) : Manifest :=
  (m.mapIdentity fun i => ⟨i.name, o.inNamespace, o.commonLabels⟩).mapTemplate fun t =>
    { t with labels := o.commonLabels.insert selectorLabel name }

theorem identity_overlaid (name : String) (o : Options) (m : Manifest) :
    (overlaid name o m).identity = ⟨m.identity.name, o.inNamespace, o.commonLabels⟩ := by
  cases m <;> rfl

theorem stampIdentity_ofName (o : Options) (name : String) :
    o.stampIdentity (.ofName name) = ⟨some name, o.inNamespace, o.commonLabels⟩ := by
  simp [Options.stampIdentity, Identity.ofName, SortedMap.union, SortedMap.empty]

theorem stamp_eq_mapIdentity {m : Manifest} {n : String} (h : m.identity = .ofName n)
    (o : Options) :
    o.stamp m = m.mapIdentity fun i => ⟨i.name, o.inNamespace, o.commonLabels⟩ := by
  cases m <;>
    · simp only [identity] at h
      simp only [Options.stamp, mapIdentity, h, stampIdentity_ofName]
      rfl

/-! ## Manifests before options -/

theorem identity_of_configMap {workload name : String} {c : Workload.Container}
    {kind : WorkloadKind} {scope : Scope} {a : Assembled}
    (h : assemble workload name c kind scope = .ok a) {f : ConfigMap} (hf : f ∈ a.configMaps) :
    ∃ n, f.identity = .ofName n := by
  obtain ⟨vs, fs, l, h⟩ := assemble_eq_ok h
  rw [h.configMaps] at hf
  obtain ⟨m, hm, rfl⟩ := List.mem_map.mp hf
  obtain ⟨i, hi⟩ := List.getElem?_of_mem hm
  obtain ⟨d, -, hd⟩ := ofFile_of_files h.materialized hi
  obtain ⟨target, key, mode, content, -, -, -, rfl⟩ := Mount.ofFile_eq_ok hd
  exact ⟨Mount.configMapName workload name i, by cases content <;> rfl⟩

section
variable {name : String} {w : Workload} {kind : WorkloadKind} {scope : Scope} {l : List Assembled}

theorem identity_of_supporting (h : assembleAll name w kind scope = .ok l) {m : Manifest}
    (hm : m ∈ supporting name w kind l) : ∃ n, m.identity = .ofName n := by
  rcases List.mem_append.mp hm with hm | hm
  · obtain ⟨f, hf, rfl⟩ := List.mem_map.mp hm
    obtain ⟨a, ha, hf⟩ := List.mem_flatMap.mp hf
    obtain ⟨e, -, he⟩ := exists_left_of_mem (forall₂_of_mapM_eq_ok h) ha
    exact identity_of_configMap (inField_eq_ok.mp he) hf
  · obtain ⟨s, hs, rfl⟩ := List.mem_map.mp hm
    rcases List.mem_append.mp hs with hs | hs
    · exact ⟨_, name_of_service? name w (Option.mem_toList.mp hs)⟩
    · cases kind with
      | deployment => cases hs
      | statefulSet =>
        obtain rfl := List.mem_singleton.mp hs
        exact ⟨_, rfl⟩

theorem mapTemplate_of_supporting {m : Manifest} (hm : m ∈ supporting name w kind l)
    (f : PodTemplate → PodTemplate) (g : Identity → Identity) :
    (m.mapIdentity g).mapTemplate f = m.mapIdentity g := by
  rcases List.mem_append.mp hm with hm | hm
  · obtain ⟨x, -, rfl⟩ := List.mem_map.mp hm
    rfl
  · obtain ⟨x, -, rfl⟩ := List.mem_map.mp hm
    rfl

theorem identity_of_controller (o : Options) :
    (controller name o l kind).identity = .ofName name := by
  cases kind <;> rfl

theorem stamp_manifests (h : assembleAll name w kind scope = .ok l) (o : Options) :
    (manifests name w kind o l).map o.stamp =
      ((manifests name w kind .unset l).map Options.unset.stamp).map (overlaid name o) := by
  have hsupporting : (supporting name w kind l).map o.stamp =
      ((supporting name w kind l).map Options.unset.stamp).map (overlaid name o) := by
    rw [List.map_map]
    apply List.map_congr_left
    intro m hm
    obtain ⟨n, hn⟩ := identity_of_supporting h hm
    rw [Function.comp_apply, stamp_eq_mapIdentity hn, stamp_eq_mapIdentity hn, overlaid,
      mapIdentity_mapIdentity, mapTemplate_of_supporting hm]
  have hcontroller : o.stamp (controller name o l kind) =
      overlaid name o (Options.unset.stamp (controller name .unset l kind)) := by
    rw [stamp_eq_mapIdentity (identity_of_controller o),
      stamp_eq_mapIdentity (identity_of_controller .unset)]
    cases kind <;> rfl
  simp only [manifests_eq, List.map_append, List.map_singleton, hsupporting, hcontroller]

end

/-! ## Conversion under options -/

theorem convert_eq_overlaid (w : Workload) (outputs : Outputs) (o : Options) :
    convert w outputs o =
      (convert w outputs .unset).map (List.map (overlaid (w.name?.getD "") o)) := by
  unfold convert
  cases hname : w.name?.filter (· ≠ "") with
  | none => rfl
  | some name =>
    have hw : w.name? = some name := (Option.filter_eq_some_iff.mp hname).1
    simp only [hw, Option.getD_some, convertNamed]
    cases checked "metadata.annotations" (WorkloadKind.ofMetadata w.metadata) with
    | error f => rfl
    | ok kind =>
      cases hl : assembleAll name w kind (.ofWorkload name w outputs) with
      | error f => simp only [bind, Except.bind, hl]; rfl
      | ok l => simp only [bind, Except.bind, hl, stamp_manifests hl o]; rfl

/-- What options put on a manifest, as it stands and as it is written. -/
structure Stamped (o : Options) (m : Manifest) : Prop where
  inNamespace : m.identity.inNamespace = o.inNamespace
  labels : m.identity.labels = o.commonLabels
  written_namespace : m.json.walk? ["metadata", "namespace"] = o.inNamespace.map .str
  written_labels : m.json.walk? ["metadata", "labels"] =
    if o.commonLabels.isEmpty then none else some (Json.ofMap o.commonLabels)

/-- The services and the controller, which is the last manifest, find the pods of a template. -/
structure Selecting (name : String) (o : Options) (ms : List Manifest) (t : PodTemplate) :
    Prop where
  controller : ∃ before last, ms = before ++ [last] ∧ last.template? = some t ∧
    last.requirements ≠ [] ∧ ∀ r ∈ last.requirements, r.admits t.labels = true
  services : ∀ s ∈ servicesIn ms, s.selector.toList ≠ [] ∧ Selects s.selector t.labels
  labels : ∀ k, t.labels.get? k = if k = selectorLabel then some name else o.commonLabels.get? k

section
variable {w : Workload} {outputs : Outputs} {o : Options} {ms : List Manifest}

theorem stamped_of_convert (h : convert w outputs o = .ok ms) : ∀ m ∈ ms, Stamped o m := by
  rw [convert_eq_overlaid] at h
  obtain ⟨ms', -, rfl⟩ := map_eq_ok.mp h
  intro m hm
  obtain ⟨m', -, rfl⟩ := List.mem_map.mp hm
  have hi := identity_overlaid (w.name?.getD "") o m'
  refine ⟨by rw [hi], by rw [hi], ?_, ?_⟩
  · rw [walk?_metadata, walk?_namespace, hi]
  · rw [walk?_metadata, walk?_labels, hi]

theorem selector_of_services {name : String} {kind : WorkloadKind} {s : Service}
    (h : s ∈ services name w kind) : s.selector = selector name := by
  rcases List.mem_append.mp h with h | h
  · have h := Option.mem_toList.mp h
    unfold service? at h
    split at h
    · split at h
      · cases h
      · cases h
        rfl
    · cases h
  · cases kind with
    | deployment => cases h
    | statefulSet =>
      obtain rfl := List.mem_singleton.mp h
      rfl

theorem requirements_controller (name : String) (kind : WorkloadKind) (o : Options)
    (l : List Assembled) :
    (o.stamp (controller name o l kind)).requirements = [⟨selectorLabel, [name]⟩] := by
  cases kind <;> rfl

theorem selecting_of_convert (h : convert w outputs o = .ok ms) :
    ∃ name t, w.name? = some name ∧ Selecting name o ms t := by
  obtain ⟨name, kind, l, hname, hl, rfl⟩ := convert_eq_ok h
  have labels (k : String) : (podTemplate name o l).labels.get? k =
      if k = selectorLabel then some name else o.commonLabels.get? k :=
    SortedMap.get?_insert _ _ _ _
  have found : (podTemplate name o l).labels.get? selectorLabel = some name := by
    rw [labels, if_pos rfl]
  refine ⟨name, podTemplate name o l, hname, ⟨(supporting name w kind l).map o.stamp,
    o.stamp (controller name o l kind), ?_, ?_, ?_, ?_⟩, ?_, labels⟩
  · rw [manifests_eq, List.map_append, List.map_singleton]
  · exact (manifests_closed o (assembleAll_wired hl)).template
  · rw [requirements_controller]
    exact List.cons_ne_nil _ _
  · intro r hr
    rw [requirements_controller] at hr
    obtain rfl := List.mem_singleton.mp hr
    simp [Requirement.admits, found]
  · intro s hs
    rw [o.servicesIn_stamp, servicesIn_manifests] at hs
    obtain ⟨s', hs', rfl⟩ := List.mem_map.mp hs
    have hselector : s'.selector.toList = [(selectorLabel, name)] := by
      rw [selector_of_services hs']
      rfl
    refine ⟨?_, fun e he => ?_⟩
    · rw [hselector]
      exact List.cons_ne_nil _ _
    · rw [hselector] at he
      obtain rfl := List.mem_singleton.mp he
      exact found

end

/-- Under any options a workload is converted as under none, but for the namespace and the labels of
its manifests and of the pod template. All selectors find that template. -/
theorem convert_overlays (w : Workload) (outputs : Outputs) (o : Options) :
    convert w outputs o =
        (convert w outputs .unset).map (List.map (overlaid (w.name?.getD "") o)) ∧
      ∀ ms, convert w outputs o = .ok ms → (∀ m ∈ ms, Stamped o m) ∧
        ∃ name t, w.name? = some name ∧ Selecting name o ms t :=
  ⟨convert_eq_overlaid w outputs o,
    fun _ h => ⟨stamped_of_convert h, selecting_of_convert h⟩⟩

theorem convert_overlays_of_selector_label :
    let c : Workload.Container := { Workload.Container.ofImage "db" with
      files := [.ofContent "/etc/db/a" "1"] }
    let w : Workload := { (Workload.ofName "db").addContainer "main" c with
      metadata := (Metadata.ofName "db").annotate WorkloadKind.kindKey "StatefulSet"
      service := some ⟨OrderedMap.empty.insert "sql" ⟨5432, none, none⟩⟩ }
    let o : Options := ⟨some "prod", (SortedMap.singleton "team" "core").insert selectorLabel "x"⟩
    ∃ ms, convert w .empty o = .ok ms ∧ (∀ m ∈ ms, Stamped o m) ∧
      ∃ name t, w.name? = some name ∧ Selecting name o ms t := by
  intro c w o
  obtain ⟨ms, hms⟩ : ∃ ms, convert w .empty o = .ok ms := exists_eq_ok (by decide +kernel)
  exact ⟨ms, hms, (convert_overlays w .empty o).2 ms hms⟩

end Conversion
end Stowage
