import Stowage.Proofs.Emission

/-!
# Declared mounts

What the conversion of a volume or a file can give, and what the declarations of one container have
in common: each has an origin of its own, and a name that tells the origin unless a resource is
behind it.
-/

namespace Stowage

/-! ## Volumes and files -/

namespace Mount

/-- What a volume at place `i` can be converted to. -/
inductive OfVolume (container : String) (i : Nat) (v : Workload.Volume) (kind : WorkloadKind)
    (scope : Scope) : Converted → Prop
  | resource {target token name} : Path.normalize v.target = .ok target →
      scope.expand .volumeSource v.source = .ok token → v.claim = none →
      scope.resourceOf? token = some name →
      OfVolume container i v kind scope
        ⟨⟨.volume i, mountOf v target (resourceVolumeName token),
          some ⟨resourceVolumeName token, backing scope.outputs name⟩⟩, none⟩
  | host {target path} : Path.normalize v.target = .ok target →
      scope.expand .volumeSource v.source = .ok path → v.claim = none →
      scope.resourceOf? path = none → path.toList.head? = some '/' →
      OfVolume container i v kind scope
        ⟨⟨.volume i, mountOf v target (hostVolumeName container i),
          some ⟨hostVolumeName container i, .hostPath path⟩⟩, none⟩
  | claim {target token name c template} : Path.normalize v.target = .ok target →
      scope.expand .volumeSource v.source = .ok token → scope.resourceOf? token = some name →
      v.claim = some c → kind.supportsClaims = true →
      claimTemplate (claimName container i) c = .ok template →
      OfVolume container i v kind scope
        ⟨⟨.volume i, mountOf v target (claimName container i), none⟩, some template⟩

theorem classify_cases (scope : Scope) (text : String) :
    (∃ name, scope.resourceOf? text = some name ∧ classify scope text = .resource name text) ∨
      (scope.resourceOf? text = none ∧ text.toList.head? = some '/' ∧
        classify scope text = .host text) ∨ classify scope text = .invalid := by
  unfold classify
  cases scope.resourceOf? text with
  | some name => exact .inl ⟨name, rfl, rfl⟩
  | none =>
    simp only
    split
    · next hslash => exact .inr (.inl ⟨trivial, hslash, rfl⟩)
    · exact .inr (.inr rfl)

theorem ofVolume_eq_ok {container : String} {i : Nat} {v : Workload.Volume} {kind : WorkloadKind}
    {scope : Scope} {c : Converted} (h : ofVolume container i v kind scope = .ok c) :
    OfVolume container i v kind scope c := by
  unfold ofVolume at h
  split at h
  · cases h
  · next hkind =>
    obtain ⟨target, htarget, h⟩ := bind_eq_ok.mp h
    obtain ⟨text, htext, h⟩ := bind_eq_ok.mp h
    have htarget := checked_eq_ok.mp htarget
    have htext := resolved_eq_ok.mp htext
    cases hclaim : v.claim with
    | none =>
      simp only [hclaim] at h
      rcases classify_cases scope text with ⟨name, hname, hs⟩ | ⟨hname, hslash, hs⟩ | hs
      · rw [hs] at h
        cases h
        exact .resource htarget htext hclaim hname
      · rw [hs] at h
        cases h
        exact .host htarget htext hclaim hname hslash
      · rw [hs] at h
        cases h
    | some c =>
      simp only [hclaim] at h
      have hkind : kind.supportsClaims = true := by simpa [hclaim] using hkind
      rcases classify_cases scope text with ⟨name, hname, hs⟩ | ⟨-, -, hs⟩ | hs
      · rw [hs] at h
        obtain ⟨template, htemplate, h⟩ := bind_eq_ok.mp h
        cases h
        exact .claim htarget htext hname hclaim hkind (inField_eq_ok.mp htemplate)
      · rw [hs] at h
        cases h
      · rw [hs] at h
        cases h

theorem name_of_claimTemplate {name : String} {c : Workload.Claim} {t : Manifest.ClaimTemplate}
    (h : claimTemplate name c = .ok t) : t.identity = .ofName name := by
  obtain ⟨storage, -, h⟩ := bind_eq_ok.mp h
  cases h
  rfl

theorem ofFile_eq_ok {workload container : String} {i : Nat} {f : Workload.File} {scope : Scope}
    {m : MaterializedFile} (h : ofFile workload container i f scope = .ok m) :
    ∃ target key mode content, fileTarget f = .ok (target, key) ∧ fileMode f = .ok mode ∧
      fileContent f scope = .ok content ∧
      m = ⟨configMapOf (configMapName workload container i) key content,
        ⟨.file i, ⟨fileVolumeName container i, target, some key, some true⟩,
          some ⟨fileVolumeName container i,
            .configMap (configMapName workload container i) mode⟩⟩⟩ := by
  obtain ⟨⟨target, key⟩, htarget, h⟩ := bind_eq_ok.mp h
  obtain ⟨mode, hmode, h⟩ := bind_eq_ok.mp h
  obtain ⟨content, hcontent, h⟩ := bind_eq_ok.mp h
  cases h
  exact ⟨target, key, mode, content, htarget, hmode, hcontent, rfl⟩

end Mount

/-! ## Plans -/

inductive PlanForm (container : String) (scope : Scope) : Plan → Prop
  | resource {i path sub readOnly token name} : scope.resourceOf? token = some name →
      PlanForm container scope ⟨.volume i, ⟨Mount.resourceVolumeName token, path, sub, readOnly⟩,
        some ⟨Mount.resourceVolumeName token, Mount.backing scope.outputs name⟩⟩
  | host {i path sub readOnly source} :
      PlanForm container scope ⟨.volume i, ⟨numbered container .volume i, path, sub, readOnly⟩,
        some ⟨numbered container .volume i, .hostPath source⟩⟩
  | claim {i path sub readOnly} :
      PlanForm container scope ⟨.volume i, ⟨numbered container .claim i, path, sub, readOnly⟩, none⟩
  | file {i path key readOnly object mode} :
      PlanForm container scope ⟨.file i, ⟨numbered container .file i, path, some key, readOnly⟩,
        some ⟨numbered container .file i, .configMap object mode⟩⟩

def Word.origin? : Word → Nat → Option Origin
  | .volume, i | .claim, i => some (.volume i)
  | .file, i => some (.file i)
  | .projected, _ => none

section
variable {container : String} {scope : Scope} {p p' : Plan}

theorem Mount.OfVolume.form {i : Nat} {v : Workload.Volume} {kind : WorkloadKind}
    {c : Mount.Converted} (h : Mount.OfVolume container i v kind scope c) :
    PlanForm container scope c.plan ∧ c.plan.origin = .volume i := by
  cases h with
  | resource _ _ _ hname => exact ⟨.resource hname, rfl⟩
  | host =>
    rw [hostVolumeName_eq]
    exact ⟨.host, rfl⟩
  | claim =>
    rw [claimName_eq]
    exact ⟨.claim, rfl⟩

theorem form_of_ofFile {workload : String} {i : Nat} {f : Workload.File}
    {m : Mount.MaterializedFile} (h : Mount.ofFile workload container i f scope = .ok m) :
    PlanForm container scope m.plan ∧ m.plan.origin = .file i := by
  obtain ⟨target, key, mode, content, -, -, -, rfl⟩ := Mount.ofFile_eq_ok h
  rw [fileVolumeName_eq]
  exact ⟨.file, rfl⟩

namespace PlanForm

theorem name_cases (h : PlanForm container scope p) :
    (∃ token name, scope.resourceOf? token = some name ∧
        p.mount.name = Mount.resourceVolumeName token ∧
        p.volume = some ⟨p.mount.name, Mount.backing scope.outputs name⟩) ∨
      ∃ w i, p.mount.name = numbered container w i ∧ w.origin? i = some p.origin := by
  cases h with
  | resource hname => exact .inl ⟨_, _, hname, rfl, rfl⟩
  | host => exact .inr ⟨_, _, rfl, rfl⟩
  | claim => exact .inr ⟨_, _, rfl, rfl⟩
  | file => exact .inr ⟨_, _, rfl, rfl⟩

theorem fresh (h : PlanForm container scope p) (n : Nat) :
    p.mount.name ≠ Merge.projectedName container n := by
  rw [projectedName_eq]
  intro e
  rcases h.name_cases with ⟨token, -, -, hname, -⟩ | ⟨w, i, hname, hw⟩
  · exact resourceVolumeName_ne_numbered _ _ _ _ (hname.symm.trans e)
  · obtain ⟨-, rfl, -⟩ := numbered_inj (hname.symm.trans e)
    cases hw

theorem carries (h : PlanForm container scope p) :
    ∀ v, p.volume = some v → v.name = p.mount.name := by
  intro v hv
  cases h <;> cases hv <;> rfl

theorem not_projected (h : PlanForm container scope p) :
    ∀ v, p.volume = some v → ∀ sources, v.source ≠ .projected sources := by
  intro v hv sources hs
  cases h with
  | resource =>
    cases hv
    simp only [Mount.backing] at hs
    split at hs
    · cases hs
    · split at hs
      · cases hs
      · split at hs <;> cases hs
  | host => cases hv; cases hs
  | claim => cases hv
  | file => cases hv; cases hs

theorem volume_name (h : PlanForm container scope p) {v : Manifest.Volume}
    (hv : p.volume = some v) : (∃ token, v.name = Mount.resourceVolumeName token) ∨
      ∃ w i, v.name = numbered container w i ∧ w ≠ .claim := by
  cases h with
  | resource =>
    cases hv
    exact .inl ⟨_, rfl⟩
  | claim => cases hv
  | _ =>
    cases hv
    exact .inr ⟨_, _, rfl, by simp⟩

theorem same_name (h : PlanForm container scope p) (h' : PlanForm container scope p')
    (e : p.mount.name = p'.mount.name) : p.origin = p'.origin ∨
      ∃ token name token' name', scope.resourceOf? token = some name ∧
        scope.resourceOf? token' = some name' ∧
        Mount.resourceVolumeName token = Mount.resourceVolumeName token' ∧
        p.volume = some ⟨p.mount.name, Mount.backing scope.outputs name⟩ ∧
        p'.volume = some ⟨p'.mount.name, Mount.backing scope.outputs name'⟩ := by
  rcases h.name_cases with ⟨t, n, hn, hname, hv⟩ | ⟨w, i, hname, hw⟩
  · rcases h'.name_cases with ⟨t', n', hn', hname', hv'⟩ | ⟨w', i', hname', -⟩
    · exact .inr ⟨t, n, t', n', hn, hn', hname.symm.trans (e.trans hname'), hv, hv'⟩
    · exact absurd (hname.symm.trans (e.trans hname')) (resourceVolumeName_ne_numbered _ _ _ _)
  · rcases h'.name_cases with ⟨t', n', -, hname', -⟩ | ⟨w', i', hname', hw'⟩
    · exact absurd (hname'.symm.trans (e.symm.trans hname)) (resourceVolumeName_ne_numbered _ _ _ _)
    · obtain ⟨-, rfl, rfl⟩ := numbered_inj (hname.symm.trans (e.trans hname'))
      exact .inl (Option.some.inj (hw.symm.trans hw'))

end PlanForm
end

/-! ## Resources -/

namespace Scope

def tokens (s : Scope) : List String := s.resources.toList.map fun e => e.2.token s.workload e.1

/-- Different identity tokens name different volumes. -/
def NamesApart (s : Scope) : Prop :=
  ∀ t ∈ s.tokens, ∀ t' ∈ s.tokens,
    Mount.resourceVolumeName t = Mount.resourceVolumeName t' → t = t'

instance (s : Scope) : Decidable s.NamesApart :=
  inferInstanceAs (Decidable (∀ t ∈ s.tokens, ∀ t' ∈ s.tokens, _))

theorem mem_of_resourceOf? {s : Scope} {token name : String} (h : s.resourceOf? token = some name) :
    ∃ r, (name, r) ∈ s.resources.toList ∧ r.token s.workload name = token := by
  obtain ⟨e, he, rfl⟩ := Option.map_eq_some_iff.mp h
  exact ⟨e.2, List.mem_of_find?_eq_some he, by simpa using List.find?_some he⟩

theorem mem_tokens {s : Scope} {token name : String} (h : s.resourceOf? token = some name) :
    token ∈ s.tokens := by
  obtain ⟨r, hr, htoken⟩ := mem_of_resourceOf? h
  exact List.mem_map.mpr ⟨_, hr, htoken⟩

theorem resourceOf?_eq_none_iff {s : Scope} {text : String} :
    s.resourceOf? text = none ↔ text ∉ s.tokens := by
  simp only [resourceOf?, tokens, Option.map_eq_none_iff, List.find?_eq_none, beq_iff_eq,
    List.mem_map, not_exists, not_and]

end Scope

/-! ## The declarations of a container -/

namespace Conversion
open Merge

/-- The mounts of volumes, and after them the mounts of files. -/
def entriesOf (vs : List Mount.Converted) (fs : List Mount.MaterializedFile) : List Entry :=
  entriesFrom 0 (vs.map Mount.Converted.plan ++ fs.map Mount.MaterializedFile.plan)

/-- The mounts that a container declares, in their order. -/
def declarations (workload name : String) (c : Workload.Container) (kind : WorkloadKind)
    (scope : Scope) : Except Fault (List Entry) := do
  let vs ← volumes name kind scope c.volumes
  let fs ← files workload name scope c.files
  .ok (entriesOf vs fs)

theorem getElem?_entriesOf_volume {vs : List Mount.Converted} (fs : List Mount.MaterializedFile)
    {i : Nat} {v : Mount.Converted} (hv : vs[i]? = some v) :
    (entriesOf vs fs)[i]? = some ⟨i, v.plan⟩ := by
  have hlt : i < (vs.map Mount.Converted.plan).length := by
    rw [List.length_map]
    exact (List.getElem?_eq_some_iff.mp hv).1
  rw [entriesOf, getElem?_entriesFrom, List.getElem?_append_left hlt, List.getElem?_map, hv]
  rfl

theorem getElem?_entriesOf_file (vs : List Mount.Converted) {fs : List Mount.MaterializedFile}
    {i : Nat} {m : Mount.MaterializedFile} (hm : fs[i]? = some m) :
    (entriesOf vs fs)[vs.length + i]? = some ⟨vs.length + i, m.plan⟩ := by
  have hle : (vs.map Mount.Converted.plan).length ≤ vs.length + i := by
    rw [List.length_map]
    exact Nat.le_add_right _ _
  rw [entriesOf, getElem?_entriesFrom, List.getElem?_append_right hle, List.length_map,
    Nat.add_sub_cancel_left, List.getElem?_map, hm]
  rfl

theorem mem_entriesOf {vs : List Mount.Converted} {fs : List Mount.MaterializedFile} {e : Entry} :
    e ∈ entriesOf vs fs ↔ (∃ v, vs[e.position]? = some v ∧ v.plan = e.plan) ∨
      ∃ i m, e.position = vs.length + i ∧ fs[i]? = some m ∧ m.plan = e.plan := by
  constructor
  · intro he
    rw [entriesOf, mem_entriesFrom, List.getElem?_append, List.length_map, List.getElem?_map,
      List.getElem?_map] at he
    split at he
    · exact .inl (Option.map_eq_some_iff.mp he)
    · obtain ⟨m, hm, hplan⟩ := Option.map_eq_some_iff.mp he
      exact .inr ⟨e.position - vs.length, m, by omega, hm, hplan⟩
  · obtain ⟨position, plan⟩ := e
    rintro (⟨v, hv, rfl⟩ | ⟨i, m, rfl, hm, rfl⟩)
    · exact List.mem_of_getElem? (getElem?_entriesOf_volume fs hv)
    · exact List.mem_of_getElem? (getElem?_entriesOf_file vs hm)

structure Listed (container : String) (scope : Scope) (es : List Entry) : Prop where
  nodup : es.Nodup
  form : ∀ e ∈ es, PlanForm container scope e.plan
  origin : ∀ e ∈ es, ∀ e' ∈ es, e.plan.origin = e'.plan.origin → e = e'

section
variable {workload name : String} {c : Workload.Container} {kind : WorkloadKind} {scope : Scope}

theorem ofVolume_of_volumes {vs : List Mount.Converted}
    (h : volumes name kind scope c.volumes = .ok vs) {i : Nat} {v : Mount.Converted}
    (hv : vs[i]? = some v) :
    ∃ d, c.volumes[i]? = some d ∧ Mount.OfVolume name i d kind scope v := by
  obtain ⟨d, hd, hf⟩ := (getElem?_convertEach h).2 i v hv
  rw [Nat.zero_add] at hf
  exact ⟨d, hd, Mount.ofVolume_eq_ok (inField_eq_ok.mp hf)⟩

theorem ofFile_of_files {fs : List Mount.MaterializedFile}
    (h : files workload name scope c.files = .ok fs) {i : Nat} {m : Mount.MaterializedFile}
    (hm : fs[i]? = some m) :
    ∃ d, c.files[i]? = some d ∧ Mount.ofFile workload name i d scope = .ok m := by
  obtain ⟨d, hd, hf⟩ := (getElem?_convertEach h).2 i m hm
  rw [Nat.zero_add] at hf
  exact ⟨d, hd, inField_eq_ok.mp hf⟩

/-- One declaration for each volume, and after them one for each file, each at its place. -/
theorem getElem?_declarations {es : List Entry}
    (h : declarations workload name c kind scope = .ok es) :
    es.length = c.volumes.length + c.files.length ∧
      (∀ i v, c.volumes[i]? = some v → ∃ u, Mount.ofVolume name i v kind scope = .ok u ∧
        es[i]? = some ⟨i, u.plan⟩) ∧
      ∀ i f, c.files[i]? = some f → ∃ m, Mount.ofFile workload name i f scope = .ok m ∧
        es[c.volumes.length + i]? = some ⟨c.volumes.length + i, m.plan⟩ := by
  obtain ⟨vs, hvs, h⟩ := bind_eq_ok.mp h
  obtain ⟨fs, hfs, h⟩ := bind_eq_ok.mp h
  cases h
  have hvlen : vs.length = c.volumes.length := (getElem?_convertEach hvs).1
  have hflen : fs.length = c.files.length := (getElem?_convertEach hfs).1
  refine ⟨?_, fun i v hv => ?_, fun i f hf => ?_⟩
  · rw [entriesOf, length_entriesFrom, List.length_append, List.length_map, List.length_map,
      hvlen, hflen]
  · obtain ⟨u, hu, hof⟩ := exists_getElem?_of_convertEach hvs hv
    rw [Nat.zero_add] at hof
    exact ⟨u, inField_eq_ok.mp hof, getElem?_entriesOf_volume fs hu⟩
  · obtain ⟨m, hm, hof⟩ := exists_getElem?_of_convertEach hfs hf
    rw [Nat.zero_add] at hof
    rw [← hvlen]
    exact ⟨m, inField_eq_ok.mp hof, getElem?_entriesOf_file vs hm⟩

theorem declarations_listed {es : List Entry}
    (h : declarations workload name c kind scope = .ok es) : Listed name scope es := by
  obtain ⟨vs, hvs, h⟩ := bind_eq_ok.mp h
  obtain ⟨fs, hfs, h⟩ := bind_eq_ok.mp h
  cases h
  -- an origin tells the place in the list
  have key : ∀ e ∈ entriesOf vs fs, PlanForm name scope e.plan ∧
      ((e.position < vs.length ∧ e.plan.origin = .volume e.position) ∨
        ∃ i, e.position = vs.length + i ∧ e.plan.origin = .file i) := by
    intro e he
    rcases mem_entriesOf.mp he with ⟨v, hv, hplan⟩ | ⟨i, m, hpos, hm, hplan⟩
    · obtain ⟨d, -, hd⟩ := ofVolume_of_volumes hvs hv
      rw [← hplan]
      exact ⟨hd.form.1, .inl ⟨(List.getElem?_eq_some_iff.mp hv).1, hd.form.2⟩⟩
    · obtain ⟨d, -, hd⟩ := ofFile_of_files hfs hm
      rw [← hplan]
      exact ⟨(form_of_ofFile hd).1, .inr ⟨i, hpos, (form_of_ofFile hd).2⟩⟩
  refine ⟨nodup_entriesFrom _, fun e he => (key e he).1, fun e he e' he' ho => ?_⟩
  refine eq_of_position_eq he he' ?_
  rcases (key e he).2 with ⟨-, h₁⟩ | ⟨i, hi, h₁⟩
  · rcases (key e' he').2 with ⟨-, h₂⟩ | ⟨j, -, h₂⟩
    · exact Origin.volume.inj (h₁.symm.trans (ho.trans h₂))
    · cases h₁.symm.trans (ho.trans h₂)
  · rcases (key e' he').2 with ⟨-, h₂⟩ | ⟨j, hj, h₂⟩
    · cases h₁.symm.trans (ho.trans h₂)
    · rw [hi, hj, Origin.file.inj (h₁.symm.trans (ho.trans h₂))]

end

namespace Listed
variable {container : String} {scope : Scope} {es : List Entry} (h : Listed container scope es)
include h

theorem fresh : Fresh container es := fun e he n => (h.form e he).fresh n

theorem carries : Carries es := fun e he v hv => (h.form e he).carries v hv

theorem agree (apart : scope.NamesApart) {e e' : Entry} (he : e ∈ es) (he' : e' ∈ es)
    (hname : e'.volumeName = e.volumeName) : e'.plan.volume = e.plan.volume := by
  rcases (h.form e' he').same_name (h.form e he) hname with
    ho | ⟨t, n, t', n', ht, ht', htt, hv, hv'⟩
  · rw [h.origin e' he' e he ho]
  · obtain rfl := apart t (Scope.mem_tokens ht) t' (Scope.mem_tokens ht') htt
    obtain rfl := Option.some.inj (ht.symm.trans ht')
    rw [hv, hv', show e'.plan.mount.name = e.plan.mount.name from hname]

theorem eq_of_numbered {e e' : Entry} (he : e ∈ es) (he' : e' ∈ es) {w : Word} {i : Nat}
    (hw : e.volumeName = numbered container w i) (hname : e'.volumeName = e.volumeName) :
    e' = e := by
  rcases (h.form e he).name_cases with ⟨t, -, -, ht, -⟩ | ⟨w₁, i₁, h₁, ho₁⟩
  · exact absurd (ht.symm.trans hw) (resourceVolumeName_ne_numbered _ _ _ _)
  · rcases (h.form e' he').name_cases with ⟨t, -, -, ht, -⟩ | ⟨w₂, i₂, h₂, ho₂⟩
    · exact absurd (ht.symm.trans (hname.trans hw)) (resourceVolumeName_ne_numbered _ _ _ _)
    · obtain ⟨-, rfl, rfl⟩ := numbered_inj (h₂.symm.trans (hname.trans h₁))
      exact h.origin e' he' e he (Option.some.inj (ho₂.symm.trans ho₁))

end Listed

/-! ## The assembled container -/

structure AssembledFrom (workload name : String) (c : Workload.Container) (kind : WorkloadKind)
    (scope : Scope) (vs : List Mount.Converted) (fs : List Mount.MaterializedFile)
    (l : List Point) (a : Assembled) : Prop where
  converted : volumes name kind scope c.volumes = .ok vs
  materialized : files workload name scope c.files = .ok fs
  points : finalPoints (vs.map Mount.Converted.plan ++ fs.map Mount.MaterializedFile.plan) = .ok l
  named : a.container.name = name
  mounts : a.container.mounts = (result name l).mounts
  volumes : a.volumes = (result name l).volumes
  claims : a.claims = vs.filterMap Mount.Converted.claim
  configMaps : a.configMaps = fs.map Mount.MaterializedFile.configMap

theorem assemble_eq_ok {workload name : String} {c : Workload.Container} {kind : WorkloadKind}
    {scope : Scope} {a : Assembled} (h : assemble workload name c kind scope = .ok a) :
    ∃ vs fs l, AssembledFrom workload name c kind scope vs fs l a := by
  obtain ⟨compute, -, h⟩ := bind_eq_ok.mp h
  obtain ⟨env, -, h⟩ := bind_eq_ok.mp h
  obtain ⟨vs, hvs, h⟩ := bind_eq_ok.mp h
  obtain ⟨fs, hfs, h⟩ := bind_eq_ok.mp h
  obtain ⟨merged, hm, h⟩ := bind_eq_ok.mp h
  obtain ⟨l, hl, rfl⟩ := map_eq_ok.mp hm
  cases h
  exact ⟨vs, fs, l, hvs, hfs, hl, rfl, rfl, rfl, rfl, rfl⟩

end Conversion
end Stowage
