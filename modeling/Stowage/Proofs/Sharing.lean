import Stowage.Proofs.Closure

/-!
# Shared volumes

Containers and pods keep the first volume of each name. Nothing is lost by that, since volumes of
one name are equal: a numbered name belongs to one declaration or projection of one container, and
the name of a resource tells its identity token, by which the outputs are chosen.
-/

namespace Stowage

namespace Manifest

def volumesOf (out : List (Mount × Option Volume)) : List Volume := out.filterMap Prod.snd

theorem mem_volumesOf {out : List (Mount × Option Volume)} {v : Volume} :
    v ∈ volumesOf out ↔ ∃ x ∈ out, x.2 = some v := List.mem_filterMap

theorem mem_distinctVolumes_of_agree {vs : List Volume} {v : Volume} (hv : v ∈ vs)
    (agree : ∀ u ∈ vs, u.name = v.name → u = v) : v ∈ distinctVolumes vs := by
  obtain ⟨u, hu, hname⟩ := exists_mem_distinctVolumes hv
  have huv : u = v := agree u (mem_of_mem_distinctVolumes hu) hname
  rwa [huv] at hu

/-- Taking the first of each name within the parts first makes no difference for a look-up. -/
theorem volumeNamed?_flatMap_distinctVolumes (outs : List (List (Mount × Option Volume)))
    (name : String) :
    volumeNamed? (outs.flatMap fun out => distinctVolumes (volumesOf out)) name =
      volumeNamed? (volumesOf outs.flatten) name := by
  induction outs with
  | nil => rfl
  | cons out outs ih =>
    have hparts : volumesOf (out :: outs).flatten = volumesOf out ++ volumesOf outs.flatten := by
      rw [List.flatten_cons, volumesOf, List.filterMap_append]
      rfl
    have hout := volumeNamed?_distinctVolumes (volumesOf out) name
    unfold volumeNamed? at ih hout ⊢
    rw [List.flatMap_cons, hparts, List.find?_append, List.find?_append, hout, ih]

end Manifest

namespace Conversion
open Manifest Merge

/-! ## What a container brings -/

/-- The mounts of a container, each with the volume that it is made for. -/
def brought (workload name : String) (c : Workload.Container) (kind : WorkloadKind)
    (scope : Scope) : Except Fault (List (Mount × Option Volume)) := do
  let vs ← volumes name kind scope c.volumes
  let fs ← files workload name scope c.files
  let l ← finalPoints (vs.map Mount.Converted.plan ++ fs.map Mount.MaterializedFile.plan)
  .ok (emit name 0 l)

structure Carried (out : List (Mount × Option Volume)) (a : Assembled) : Prop where
  mounts : a.container.mounts = out.map Prod.fst
  volumes : a.volumes = distinctVolumes (volumesOf out)

structure BroughtFrom (name : String) (scope : Scope) (es : List Entry) (l : List Point)
    (out : List (Mount × Option Volume)) : Prop where
  listed : Listed name scope es
  sound : ∀ p ∈ l, p.Sound es
  emitted : out = emit name 0 l

section
variable {workload name : String} {c : Workload.Container} {kind : WorkloadKind} {scope : Scope}

theorem brought_of_assemble {a : Assembled} (h : assemble workload name c kind scope = .ok a) :
    ∃ out, brought workload name c kind scope = .ok out ∧ Carried out a := by
  obtain ⟨vs, fs, l, h⟩ := assemble_eq_ok h
  refine ⟨emit name 0 l, ?_, h.mounts, h.volumes⟩
  simp only [brought, h.converted, h.materialized, bind, Except.bind, h.points]

theorem brought_eq_ok {out : List (Mount × Option Volume)}
    (h : brought workload name c kind scope = .ok out) :
    ∃ es l, BroughtFrom name scope es l out := by
  obtain ⟨vs, hvs, h⟩ := bind_eq_ok.mp h
  obtain ⟨fs, hfs, h⟩ := bind_eq_ok.mp h
  obtain ⟨l, hl, h⟩ := bind_eq_ok.mp h
  cases h
  have declared : declarations workload name c kind scope = .ok (entriesOf vs fs) := by
    simp only [declarations, hvs, hfs]
    rfl
  exact ⟨_, l, declarations_listed declared, finalPoints_sound hl, rfl⟩

end

/-! ## Equal names -/

namespace BroughtFrom
variable {name name' : String} {scope : Scope} {es es' : List Entry} {l l' : List Point}
variable {out out' : List (Mount × Option Volume)} {x y : Mount × Option Volume}
variable (h : BroughtFrom name scope es l out)
include h

theorem carry : ∀ x ∈ out, ∀ v, x.2 = some v → v.name = x.1.name := by
  rw [h.emitted]
  exact carry_emit h.listed.fresh h.listed.carries h.sound

theorem name_cases (hx : x ∈ out) :
    (∃ token resource, scope.resourceOf? token = some resource ∧
        x.1.name = Mount.resourceVolumeName token ∧
        x.2 = some ⟨x.1.name, Mount.backing scope.outputs resource⟩) ∨
      ∃ w i, x.1.name = numbered name w i := by
  rw [h.emitted] at hx
  rcases mem_emit h.listed.fresh h.sound hx with ⟨e, he, rfl, -⟩ | ⟨k, dir, ms, rfl⟩
  · rcases (h.listed.form e he).name_cases with ⟨t, r, hr, hname, hv⟩ | ⟨w, i, hname, -⟩
    · exact .inl ⟨t, r, hr, hname, hv⟩
    · exact .inr ⟨w, i, hname⟩
  · exact .inr ⟨.projected, k, projectedName_eq name k⟩

theorem eq_of_numbered (hx : x ∈ out) (hy : y ∈ out) {w : Word} {i : Nat}
    (hw : x.1.name = numbered name w i) (hname : y.1.name = x.1.name) : y.2 = x.2 := by
  have fresh := h.listed.fresh
  rw [h.emitted] at hx hy
  rcases mem_emit fresh h.sound hx with ⟨e, he, hxe, hnot⟩ | ⟨k, dir, ms, hxk⟩
  · rcases mem_emit fresh h.sound hy with ⟨e', he', hye, -⟩ | ⟨k', dir', ms', hyk⟩
    · rw [hxe] at hw hname ⊢
      rw [hye] at hname ⊢
      rw [h.listed.eq_of_numbered he he' hw hname]
    · have : x.1.name = projectedName name k' := by rw [← hname, hyk]; rfl
      exact absurd this (hnot k')
  · have hk : x.1.name = projectedName name k := by rw [hxk]; rfl
    rw [emit_eq_of_name_eq fresh h.sound hy hx (hname.trans hk) hk]

theorem agree (apart : scope.NamesApart) (h' : BroughtFrom name' scope es' l' out')
    (same : name = name' → out = out') (hx : x ∈ out) (hy : y ∈ out')
    (hname : y.1.name = x.1.name) : y.2 = x.2 := by
  rcases h.name_cases hx with ⟨t, r, hr, hxt, hxv⟩ | ⟨w, i, hxw⟩
  · rcases h'.name_cases hy with ⟨t', r', hr', hyt, hyv⟩ | ⟨w', i', hyw⟩
    · -- the token decides which outputs are looked at
      have htt : t' = t := apart t' (Scope.mem_tokens hr') t (Scope.mem_tokens hr)
        (hyt.symm.trans (hname.trans hxt))
      rw [htt] at hr'
      have hrr : r' = r := Option.some.inj (hr'.symm.trans hr)
      rw [hyv, hxv, hname, hrr]
    · exact absurd (hxt.symm.trans (hname.symm.trans hyw)) (resourceVolumeName_ne_numbered _ _ _ _)
  · rcases h'.name_cases hy with ⟨t', r', -, hyt, -⟩ | ⟨w', i', hyw⟩
    · exact absurd (hyt.symm.trans (hname.trans hxw)) (resourceVolumeName_ne_numbered _ _ _ _)
    · obtain ⟨hown, -⟩ := numbered_inj (hxw.symm.trans (hname.symm.trans hyw))
      have hout := same hown
      subst hout
      exact h.eq_of_numbered hx hy hxw hname

end BroughtFrom

/-! ## Pods -/

/-- Volumes that containers bring to a pod may share a name only if they are equal, so that none is
given up for another one. -/
structure SharesVolumes (outs : List (List (Mount × Option Volume))) (t : PodTemplate) : Prop where
  mounts : t.containers.map Container.mounts = outs.map (List.map Prod.fst)
  volumes : t.volumes = distinctVolumes (outs.flatMap fun out => distinctVolumes (volumesOf out))
  equal : ∀ u ∈ volumesOf outs.flatten, ∀ v ∈ volumesOf outs.flatten, u.name = v.name → u = v
  kept_by_container : ∀ out ∈ outs, ∀ v ∈ volumesOf out, v ∈ distinctVolumes (volumesOf out)
  kept_by_pod : ∀ v ∈ volumesOf outs.flatten, v ∈ t.volumes
  reads_own : ∀ out ∈ outs, ∀ x ∈ out,
    volumeNamed? (distinctVolumes (volumesOf out)) x.1.name = x.2
  reads : ∀ out ∈ outs, ∀ x ∈ out, volumeNamed? t.volumes x.1.name = x.2

section
variable {outs : List (List (Mount × Option Volume))} {l : List Assembled}
variable (h : List.Forall₂ Carried outs l)
include h

theorem volumes_of_carried :
    l.flatMap Assembled.volumes = outs.flatMap fun out => distinctVolumes (volumesOf out) := by
  induction h with
  | nil => rfl
  | cons ha _ ih => rw [List.flatMap_cons, List.flatMap_cons, ha.volumes, ih]

theorem mounts_of_carried : l.map (·.container.mounts) = outs.map (List.map Prod.fst) := by
  induction h with
  | nil => rfl
  | cons ha _ ih => rw [List.map_cons, List.map_cons, ha.mounts, ih]

end

section
variable {workload : String} {kind : WorkloadKind} {scope : Scope} {o : Options}
variable {containers : List (String × Workload.Container)}
variable {l : List Assembled} {outs : List (List (Mount × Option Volume))}
variable (distinct : (containers.map Prod.fst).Nodup) (apart : scope.NamesApart)
variable (hbrought : List.Forall₂ (fun e out => brought workload e.1 e.2 kind scope = .ok out)
  containers outs)
variable (hcarried : List.Forall₂ Carried outs l)
include hbrought

theorem exists_broughtFrom {out : List (Mount × Option Volume)} (hout : out ∈ outs) :
    ∃ e ∈ containers, brought workload e.1 e.2 kind scope = .ok out ∧
      ∃ es l, BroughtFrom e.1 scope es l out := by
  obtain ⟨e, he, hb⟩ := exists_left_of_mem hbrought hout
  exact ⟨e, he, hb, brought_eq_ok hb⟩

include distinct apart in
theorem agree_flatten {x y : Mount × Option Volume} (hx : x ∈ outs.flatten) (hy : y ∈ outs.flatten)
    (hname : y.1.name = x.1.name) : y.2 = x.2 := by
  obtain ⟨out, hout, hx⟩ := List.mem_flatten.mp hx
  obtain ⟨out', hout', hy⟩ := List.mem_flatten.mp hy
  obtain ⟨e, he, hb, es, l, hfrom⟩ := exists_broughtFrom hbrought hout
  obtain ⟨e', he', hb', es', l', hfrom'⟩ := exists_broughtFrom hbrought hout'
  refine hfrom.agree apart hfrom' (fun hown => ?_) hx hy hname
  obtain rfl := List.inj_on_of_nodup_map distinct he he' hown
  rw [hb] at hb'
  exact Except.ok.inj hb'

theorem carry_flatten : ∀ x ∈ outs.flatten, ∀ v, x.2 = some v → v.name = x.1.name := by
  intro x hx v hv
  obtain ⟨out, hout, hx⟩ := List.mem_flatten.mp hx
  obtain ⟨e, -, -, es, l, hfrom⟩ := exists_broughtFrom hbrought hout
  exact hfrom.carry x hx v hv

include distinct apart in
theorem equal_of_name_eq {u v : Volume} (hu : u ∈ volumesOf outs.flatten)
    (hv : v ∈ volumesOf outs.flatten) (hname : u.name = v.name) : u = v := by
  obtain ⟨x, hx, hxu⟩ := mem_volumesOf.mp hu
  obtain ⟨y, hy, hyv⟩ := mem_volumesOf.mp hv
  have hxy : x.1.name = y.1.name := by
    rw [← carry_flatten hbrought x hx u hxu, hname, carry_flatten hbrought y hy v hyv]
  have hread := agree_flatten distinct apart hbrought hy hx hxy
  rw [hxu, hyv] at hread
  exact Option.some.inj hread

include distinct apart hcarried in
theorem podTemplate_sharesVolumes : SharesVolumes outs (podTemplate workload o l) where
  mounts := by
    rw [podTemplate, List.map_map]
    exact mounts_of_carried hcarried
  volumes := by rw [podTemplate, volumes_of_carried hcarried]
  equal := fun u hu v hv => equal_of_name_eq distinct apart hbrought hu hv
  kept_by_container := by
    intro out hout v hv
    have part : ∀ u ∈ volumesOf out, u ∈ volumesOf outs.flatten := by
      intro u hu
      obtain ⟨x, hx, hxu⟩ := mem_volumesOf.mp hu
      exact mem_volumesOf.mpr ⟨x, List.mem_flatten.mpr ⟨out, hout, hx⟩, hxu⟩
    exact mem_distinctVolumes_of_agree hv fun u hu =>
      equal_of_name_eq distinct apart hbrought (part u hu) (part v hv)
  kept_by_pod := by
    intro v hv
    obtain ⟨x, hx, hxv⟩ := mem_volumesOf.mp hv
    have hfound : volumeNamed? (volumesOf outs.flatten) x.1.name = some v := by
      rw [← hxv]
      exact volumeNamed?_of_agree (carry_flatten hbrought) hx fun y hy =>
        agree_flatten distinct apart hbrought hx hy
    rw [← volumeNamed?_flatMap_distinctVolumes, ← volumeNamed?_distinctVolumes,
      ← volumes_of_carried hcarried] at hfound
    exact (name_of_volumeNamed?_eq_some hfound).1
  reads_own := by
    intro out hout x hx
    have part : ∀ y ∈ out, y ∈ outs.flatten := fun y hy => List.mem_flatten.mpr ⟨out, hout, hy⟩
    rw [volumeNamed?_distinctVolumes]
    exact volumeNamed?_of_agree (fun y hy => carry_flatten hbrought y (part y hy)) hx
      fun y hy => agree_flatten distinct apart hbrought (part x hx) (part y hy)
  reads := by
    intro out hout x hx
    have hx : x ∈ outs.flatten := List.mem_flatten.mpr ⟨out, hout, hx⟩
    rw [podTemplate, volumes_of_carried hcarried, volumeNamed?_distinctVolumes,
      volumeNamed?_flatMap_distinctVolumes]
    exact volumeNamed?_of_agree (carry_flatten hbrought) hx fun y hy =>
      agree_flatten distinct apart hbrought hx hy

end

/-! ## Runs -/

theorem brought_of_assembleAll {workload : String} {kind : WorkloadKind} {scope : Scope}
    {containers : List (String × Workload.Container)} {l : List Assembled}
    (h : List.Forall₂ (fun e a => assemble workload e.1 e.2 kind scope = .ok a) containers l) :
    ∃ outs, List.Forall₂ (fun e out => brought workload e.1 e.2 kind scope = .ok out)
      containers outs ∧ List.Forall₂ Carried outs l := by
  induction h with
  | nil => exact ⟨[], .nil, .nil⟩
  | cons ha _ ih =>
    obtain ⟨out, hout, hcarried⟩ := brought_of_assemble ha
    obtain ⟨outs, houts, hrest⟩ := ih
    exact ⟨out :: outs, .cons hout houts, .cons hcarried hrest⟩

/-- Every mount of a pod reads the volume that its container brought for it. -/
theorem convert_shares_volumes {w : Workload} {outputs : Outputs} {o : Options}
    {ms : List Manifest} {name : String} (hname : w.name? = some name)
    (apart : (Scope.ofWorkload name w outputs).NamesApart) (h : convert w outputs o = .ok ms) :
    ∃ kind last t outs l, ms.getLast? = some last ∧ last.template? = some t ∧
      assembleAll name w kind (.ofWorkload name w outputs) = .ok l ∧
      List.Forall₂ (fun e out =>
        brought name e.1 e.2 kind (.ofWorkload name w outputs) = .ok out) w.containers.toList outs ∧
      List.Forall₂ Carried outs l ∧ SharesVolumes outs t := by
  obtain ⟨name', kind, l, hname', hl, rfl⟩ := convert_eq_ok h
  rw [hname] at hname'
  obtain rfl := Option.some.inj hname'
  have hruns := (forall₂_of_mapM_eq_ok hl).imp fun _ _ ha => inField_eq_ok.mp ha
  obtain ⟨outs, hbrought, hcarried⟩ := brought_of_assembleAll hruns
  refine ⟨kind, o.stamp (controller name o l kind), podTemplate name o l, outs, l, ?_, ?_, hl,
    hbrought, hcarried, podTemplate_sharesVolumes w.containers.distinct apart hbrought hcarried⟩
  · rw [manifests_eq, List.map_append, List.map_singleton, List.getLast?_concat]
  · exact (manifests_closed o (assembleAll_wired hl)).template

theorem convert_shares_volumes_of_secret :
    let c : Workload.Container := { Workload.Container.ofImage "app" with
      volumes := [.ofSource "${resources.certs}" "/etc/certs", .ofSource "/srv" "/srv"]
      files := [.ofContent "/etc/app/a" "1", .ofContent "/etc/app/b" "2"] }
    let w : Workload := ((((Workload.ofName "api").addContainer "web" c).addContainer "side" c)
      ).addResource "certs" ⟨"secret", none, none⟩
    let outputs := Outputs.empty.insert "certs" "secretName" "api-certs"
    let scope : Scope := .ofWorkload "api" w outputs
    ∃ ms, convert w outputs .unset = .ok ms ∧
      ∃ kind last t outs l, ms.getLast? = some last ∧ last.template? = some t ∧
        assembleAll "api" w kind scope = .ok l ∧
        List.Forall₂ (fun e out => brought "api" e.1 e.2 kind scope = .ok out)
          w.containers.toList outs ∧
        List.Forall₂ Carried outs l ∧ SharesVolumes outs t := by
  intro c w outputs scope
  obtain ⟨ms, hms⟩ : ∃ ms, convert w outputs .unset = .ok ms := exists_eq_ok (by decide +kernel)
  exact ⟨ms, hms, convert_shares_volumes rfl (by decide +kernel) hms⟩

end Conversion
end Stowage
