import Stowage.Proofs.Ownership

/-!
# Wiring of containers

The mounts, volumes, claims and config maps of an assembled container refer to each other by name
only. Each name that is used is there, each that is there is used, and a name tells the container,
unless it is that of a resource.
-/

namespace Stowage

/-! ## Names and keys -/

namespace Manifest

def ClaimTemplate.name (t : ClaimTemplate) : String := t.identity.name.getD ""

def ConfigMap.name (m : ConfigMap) : String := m.identity.name.getD ""

def ConfigMap.keys (m : ConfigMap) : List String :=
  m.data.toList.map Prod.fst ++ m.binaryData.toList.map Prod.fst

inductive Serves (object key : String) : Mount → Volume → Prop
  | subPath {m v mode} : v.source = .configMap object mode → m.subPath = some key →
      Serves object key m v
  | item {m v sources items i} : v.source = .projected sources → m.subPath = none →
      ⟨.configMap object, some items⟩ ∈ sources → i ∈ items → i.key = key → Serves object key m v

end Manifest

namespace Conversion
open Merge

/-! ## Claims and files of a container -/

variable {workload name : String} {c : Workload.Container} {kind : WorkloadKind} {scope : Scope}
variable {vs : List Mount.Converted} {fs : List Mount.MaterializedFile} {l : List Point}
variable {a : Assembled}

theorem claim_of_ofVolume {i : Nat} {d : Workload.Volume} {v : Mount.Converted}
    {t : Manifest.ClaimTemplate} (h : Mount.OfVolume name i d kind scope v)
    (ht : v.claim = some t) : kind.supportsClaims = true ∧ t.name = numbered name .claim i ∧
      v.plan.mount.name = numbered name .claim i ∧ v.plan.volume = none := by
  cases h with
  | claim _ _ _ _ hkind htemplate =>
    cases ht
    refine ⟨hkind, ?_, claimName_eq name i, rfl⟩
    rw [Manifest.ClaimTemplate.name, Mount.name_of_claimTemplate htemplate, ← claimName_eq]
    rfl
  | _ => cases ht

theorem exists_claim_of_ofVolume {i : Nat} {d : Workload.Volume} {v : Mount.Converted}
    (h : Mount.OfVolume name i d kind scope v) (hv : v.plan.volume = none) :
    ∃ t, v.claim = some t := by
  cases h with
  | claim => exact ⟨_, rfl⟩
  | _ => cases hv

namespace AssembledFrom
variable (h : AssembledFrom workload name c kind scope vs fs l a)
include h

theorem exists_claim {e : Entry} (he : e ∈ entriesOf vs fs)
    (hv : e.plan.volume = none) : ∃ t ∈ a.claims, t.name = e.volumeName := by
  rw [h.claims]
  rcases mem_entriesOf.mp he with ⟨v, hvs, hplan⟩ | ⟨i, m, -, hfs, hplan⟩
  · obtain ⟨d, -, hd⟩ := ofVolume_of_volumes h.converted hvs
    rw [← hplan] at hv
    obtain ⟨t, ht⟩ := exists_claim_of_ofVolume hd hv
    refine ⟨t, List.mem_filterMap.mpr ⟨v, List.mem_of_getElem? hvs, ht⟩, ?_⟩
    obtain ⟨-, hname, hmount, -⟩ := claim_of_ofVolume hd ht
    rw [hname, Entry.volumeName, ← hplan, hmount]
  · obtain ⟨d, -, hd⟩ := ofFile_of_files h.materialized hfs
    obtain ⟨target, key, mode, content, -, -, -, rfl⟩ := Mount.ofFile_eq_ok hd
    rw [← hplan] at hv
    cases hv

theorem claim_mounted {t : Manifest.ClaimTemplate} (ht : t ∈ a.claims) :
    kind.supportsClaims = true ∧ (∃ i, t.name = numbered name .claim i) ∧
      ∃ m ∈ a.container.mounts, m.name = t.name := by
  rw [h.claims] at ht
  obtain ⟨v, hv, ht⟩ := List.mem_filterMap.mp ht
  obtain ⟨i, hi⟩ := List.getElem?_of_mem hv
  obtain ⟨d, -, hd⟩ := ofVolume_of_volumes h.converted hi
  obtain ⟨hkind, hname, hmount, hnone⟩ := claim_of_ofVolume hd ht
  refine ⟨hkind, ⟨i, hname⟩, ?_⟩
  have he : ⟨i, v.plan⟩ ∈ entriesOf vs fs := mem_entriesOf.mpr (.inl ⟨v, hi, rfl⟩)
  obtain ⟨o, ho, heo⟩ := List.mem_flatten.mp (h.owned_perm.mem_iff.mpr he)
  obtain ⟨m, hm, hmo⟩ := exists_left_of_mem h.owns ho
  cases hmo with
  | verbatim e =>
    obtain rfl := List.mem_singleton.mp heo
    exact ⟨_, hm, hmount.trans hname.symm⟩
  | projected _ _ hproj =>
    obtain ⟨p, -, hp⟩ := exists_right_of_mem hproj heo
    cases hp with
    | whole hv => exact absurd (hnone.symm.trans hv) (by simp)
    | key hv => exact absurd (hnone.symm.trans hv) (by simp)

theorem claims_nodup : (a.claims.map Manifest.ClaimTemplate.name).Nodup := by
  rw [h.claims]
  refine List.pairwise_map.mpr (List.pairwise_filterMap.mpr ?_)
  refine List.pairwise_iff_getElem.mpr fun i j hi hj hij t ht t' ht' heq => ?_
  -- a claim is numbered by the place of its volume
  have at_place {k : Nat} (hk : k < vs.length) {t : Manifest.ClaimTemplate}
      (ht : vs[k].claim = some t) : t.name = numbered name .claim k := by
    obtain ⟨d, -, hd⟩ := ofVolume_of_volumes h.converted (List.getElem?_eq_getElem hk)
    exact (claim_of_ofVolume hd ht).2.1
  rw [at_place hi ht, at_place hj ht'] at heq
  obtain ⟨-, -, rfl⟩ := numbered_inj heq
  exact absurd hij (Nat.lt_irrefl i)

/-! ## Volumes of a container -/

theorem volume_mounted {v : Manifest.Volume} (hv : v ∈ a.volumes) :
    ((∃ token, v.name = Mount.resourceVolumeName token) ∨
      ∃ w i, v.name = numbered name w i ∧ w ≠ .claim) ∧
      ∃ m ∈ a.container.mounts, m.name = v.name := by
  rw [h.volumes] at hv
  obtain ⟨x, hx, hxv⟩ := List.mem_filterMap.mp (Manifest.mem_of_mem_distinctVolumes hv)
  have hname := carry_emit h.listed.fresh h.listed.carries h.sound x hx v hxv
  refine ⟨?_, x.1, ?_, hname.symm⟩
  · rcases mem_emit h.listed.fresh h.sound hx with ⟨e, he, rfl, -⟩ | ⟨k, dir, ms, rfl⟩
    · exact (h.listed.form e he).volume_name hxv
    · cases hxv
      exact .inr ⟨.projected, k, projectedName_eq name k, by simp⟩
  · rw [h.mounts]
    exact List.mem_map_of_mem hx

theorem mount_resolves {m : Manifest.Mount} (hm : m ∈ a.container.mounts) :
    (∃ v ∈ a.volumes, v.name = m.name) ∨ ∃ t ∈ a.claims, t.name = m.name := by
  rw [h.mounts] at hm
  obtain ⟨x, hx, rfl⟩ := List.mem_map.mp hm
  cases hv : x.2 with
  | some v =>
    have hname := carry_emit h.listed.fresh h.listed.carries h.sound x hx v hv
    obtain ⟨u, hu, huv⟩ :=
      Manifest.exists_mem_distinctVolumes (List.mem_filterMap.mpr ⟨x, hx, hv⟩)
    rw [h.volumes]
    exact .inl ⟨u, hu, huv.trans hname⟩
  | none =>
    rcases mem_emit h.listed.fresh h.sound hx with ⟨e, he, rfl, -⟩ | ⟨k, dir, ms, rfl⟩
    · exact .inr (h.exists_claim he hv)
    · cases hv

/-! ## Files of a container -/

/-- The volume of a file is there as it was declared, or a projection brings the file to its place.
No other container names the one or the other. -/
theorem file_owned {i : Nat} {f : Mount.MaterializedFile} (hf : fs[i]? = some f) :
    ∃ m ∈ a.container.mounts, ∃ v ∈ a.volumes, v.name = m.name ∧
      (∃ w j, v.name = numbered name w j) ∧
      ((m = f.plan.mount ∧ f.plan.volume = some v) ∨
        ∃ sources, ∃ p ∈ sources, m.subPath = none ∧ v.source = .projected sources ∧
          Projects (entriesOf vs fs) m.path ⟨vs.length + i, f.plan⟩ p) := by
  have he : ⟨vs.length + i, f.plan⟩ ∈ entriesOf vs fs :=
    mem_entriesOf.mpr (.inr ⟨i, f, rfl, hf, rfl⟩)
  obtain ⟨d, -, hd⟩ := ofFile_of_files h.materialized hf
  obtain ⟨target, key, mode, content, -, -, -, rfl⟩ := Mount.ofFile_eq_ok hd
  obtain ⟨o, ho, heo⟩ := List.mem_flatten.mp (h.owned_perm.mem_iff.mpr he)
  obtain ⟨m, hm, hmo⟩ := exists_left_of_mem h.owns ho
  cases hmo with
  | verbatim e =>
    obtain rfl := List.mem_singleton.mp heo
    refine ⟨_, hm, ?_⟩
    obtain ⟨hmem, hemit⟩ := verbatim_mem_emit h.listed.fresh h.sound ho
    have hname := fileVolumeName_eq name i
    have hv := volumeNamed?_verbatim h.listed.fresh h.listed.carries h.sound hemit hmem
      fun e' he' heq => by rw [h.listed.eq_of_numbered hmem he' hname heq]
    rw [← h.volumes] at hv
    exact ⟨_, (Manifest.name_of_volumeNamed?_eq_some hv).1, rfl, ⟨_, _, hname⟩, .inl ⟨rfl, rfl⟩⟩
  | @projected n path owned sources _ hv hproj =>
    obtain ⟨p, hp, hpe⟩ := exists_right_of_mem hproj heo
    exact ⟨_, hm, _, (Manifest.name_of_volumeNamed?_eq_some hv).1, rfl,
      ⟨_, _, projectedName_eq name n⟩, .inr ⟨sources, p, hp, rfl, rfl, hpe⟩⟩

theorem file_served {i : Nat} {f : Mount.MaterializedFile} (hf : fs[i]? = some f) :
    f.configMap.name = Mount.configMapName workload name i ∧
      ∃ key, f.configMap.keys = [key] ∧ ∃ m ∈ a.container.mounts, ∃ v ∈ a.volumes,
        v.name = m.name ∧ (∃ w j, v.name = numbered name w j) ∧
          Manifest.Serves (Mount.configMapName workload name i) key m v := by
  obtain ⟨d, -, hd⟩ := ofFile_of_files h.materialized hf
  obtain ⟨m, hm, v, hv, hname, hnumbered, howned⟩ := h.file_owned hf
  obtain ⟨target, key, mode, content, -, -, -, rfl⟩ := Mount.ofFile_eq_ok hd
  refine ⟨by cases content <;> rfl, key, by cases content <;> rfl, m, hm, v, hv, hname, hnumbered,
    ?_⟩
  rcases howned with ⟨rfl, hvol⟩ | ⟨sources, p, hp, hwhole, hsource, hproj⟩
  · cases hvol
    exact .subPath rfl rfl
  · cases hproj with
    | whole _ _ hsub => cases hsub
    | key hvol hback hsub _ =>
      cases hvol
      cases hsub
      cases hback
      exact .item hsource hwhole hp (List.mem_singleton_self _) rfl

end AssembledFrom

/-! ## Wired containers -/

/-- What holds of the names in an assembled container. -/
structure Wired (workload name : String) (kind : WorkloadKind) (fileCount : Nat)
    (a : Assembled) : Prop where
  named : a.container.name = name
  volumes : (a.volumes.map Manifest.Volume.name).Nodup
  volume_mounted : ∀ v ∈ a.volumes, ((∃ token, v.name = Mount.resourceVolumeName token) ∨
    ∃ w i, v.name = numbered name w i ∧ w ≠ .claim) ∧ ∃ m ∈ a.container.mounts, m.name = v.name
  claims : (a.claims.map Manifest.ClaimTemplate.name).Nodup
  claim_mounted : ∀ t ∈ a.claims, kind.supportsClaims = true ∧
    (∃ i, t.name = numbered name .claim i) ∧ ∃ m ∈ a.container.mounts, m.name = t.name
  mount_resolves : ∀ m ∈ a.container.mounts,
    (∃ v ∈ a.volumes, v.name = m.name) ∨ ∃ t ∈ a.claims, t.name = m.name
  configMaps : a.configMaps.map Manifest.ConfigMap.name =
    (List.range fileCount).map (Mount.configMapName workload name)
  file_served : ∀ i < fileCount, ∃ f ∈ a.configMaps,
    f.name = Mount.configMapName workload name i ∧
      ∃ key, f.keys = [key] ∧ ∃ m ∈ a.container.mounts, ∃ v ∈ a.volumes,
        v.name = m.name ∧ (∃ w j, v.name = numbered name w j) ∧
          Manifest.Serves (Mount.configMapName workload name i) key m v

theorem assemble_wired (h : assemble workload name c kind scope = .ok a) :
    Wired workload name kind c.files.length a := by
  obtain ⟨vs, fs, l, h⟩ := assemble_eq_ok h
  have hlen := (getElem?_convertEach h.materialized).1
  refine ⟨h.named, h.volumes_nodup, fun v => h.volume_mounted, h.claims_nodup,
    fun t => h.claim_mounted, fun m => h.mount_resolves, ?_, fun i hi => ?_⟩
  · rw [h.configMaps, ← hlen]
    refine List.ext_getElem (by simp) fun i hi _ => ?_
    simp only [List.length_map] at hi
    simpa using (h.file_served (List.getElem?_eq_getElem hi)).1
  · have hf := List.getElem?_eq_getElem (hlen ▸ hi)
    obtain ⟨hname, key, hkey, hserved⟩ := h.file_served hf
    rw [h.configMaps]
    exact ⟨_, List.mem_map_of_mem (List.mem_of_getElem? hf), hname, key, hkey, hserved⟩

end Conversion
end Stowage
