import Stowage.Proofs.Wiring

/-!
# Claims and kinds

The kind of a workload decides only whether volumes may carry claims. A deployment fails at the
first claim that it comes to; a stateful set has one template for each claim and one mount for each
template, which is never merged with others.
-/

namespace Stowage

namespace Conversion
open Merge

/-! ## Volumes without claims -/

section
variable {workload name : String} {c : Workload.Container} {scope : Scope}

theorem ofVolume_of_unclaimed {v : Workload.Volume} (h : v.claim = none) (i : Nat)
    (kind kind' : WorkloadKind) :
    Mount.ofVolume name i v kind scope = Mount.ofVolume name i v kind' scope := by
  simp [Mount.ofVolume, h]

theorem assemble_of_unclaimed (h : ∀ v ∈ c.volumes, v.claim = none) (kind kind' : WorkloadKind) :
    assemble workload name c kind scope = assemble workload name c kind' scope := by
  have hvolumes : volumes name kind scope c.volumes = volumes name kind' scope c.volumes :=
    convertEach_congr fun i v hv => by rw [ofVolume_of_unclaimed (h v hv) i kind kind']
  rw [assemble, assemble, hvolumes]

/-! ## Claims of a deployment -/

theorem ofVolume_of_deployment {v : Workload.Volume} (h : v.claim ≠ none) (i : Nat) :
    Mount.ofVolume name i v .deployment scope =
      .error ⟨["claim"], .claimContext "Deployment"⟩ := by
  obtain ⟨claim, hclaim⟩ := Option.ne_none_iff_exists'.mp h
  rw [Mount.ofVolume, hclaim]
  rfl

theorem deployment_of_claim (h : ∃ v ∈ c.volumes, v.claim ≠ none) :
    ∃ f, assemble workload name c .deployment scope = .error f := by
  cases ha : assemble workload name c .deployment scope with
  | error f => exact ⟨f, rfl⟩
  | ok a =>
    obtain ⟨v, hv, hclaim⟩ := h
    obtain ⟨vs, fs, l, ha⟩ := assemble_eq_ok ha
    obtain ⟨i, hi⟩ := List.getElem?_of_mem hv
    obtain ⟨b, -, hb⟩ := exists_getElem?_of_convertEach ha.converted hi
    rw [ofVolume_of_deployment hclaim] at hb
    cases hb

theorem deployment_of_first_claim {a : Assembled} {before after : List Workload.Volume}
    {v : Workload.Volume} (h : assemble workload name c .statefulSet scope = .ok a)
    (split : c.volumes = before ++ v :: after) (unclaimed : ∀ u ∈ before, u.claim = none)
    (claimed : v.claim ≠ none) : assemble workload name c .deployment scope =
      .error ⟨[(Origin.volume before.length).text, "claim"], .claimContext "Deployment"⟩ := by
  obtain ⟨compute, hcompute, h⟩ := bind_eq_ok.mp h
  obtain ⟨env, henv, h⟩ := bind_eq_ok.mp h
  obtain ⟨vs, hvs, -⟩ := bind_eq_ok.mp h
  -- all that comes before the first claim is the same in a stateful set
  have hvolumes : volumes name .deployment scope c.volumes =
      .error ⟨[(Origin.volume before.length).text, "claim"], .claimContext "Deployment"⟩ := by
    rw [split] at hvs ⊢
    apply convertEach_of_error
    · intro i u hu
      have hi : i < before.length := (List.getElem?_eq_some_iff.mp hu).1
      have hall : (before ++ v :: after)[i]? = some u := by
        rw [List.getElem?_append_left hi, hu]
      obtain ⟨b, -, hb⟩ := exists_getElem?_of_convertEach hvs hall
      rw [ofVolume_of_unclaimed (unclaimed u (List.mem_of_getElem? hu)) _ .deployment
        .statefulSet, hb]
      rfl
    · rw [ofVolume_of_deployment claimed, Nat.zero_add]
      rfl
  exact bind_eq_error.mpr (.inr ⟨compute, hcompute,
    bind_eq_error.mpr (.inr ⟨env, henv, bind_eq_error.mpr (.inl hvolumes)⟩)⟩)

end

/-! ## Claims of a stateful set -/

/-- The claims among volumes, with the places of the volumes counted from `n`. -/
def claimsFrom (n : Nat) (vs : List Workload.Volume) : List (Nat × Workload.Claim) :=
  (vs.zipIdx n).filterMap fun x => x.1.claim.map fun c => (x.2, c)

theorem templates_of_convertEach {name : String} {kind : WorkloadKind} {scope : Scope} {n : Nat}
    {ds : List Workload.Volume} {vs : List Mount.Converted}
    (h : convertEach (fun i v =>
      inField (Origin.volume i).text (Mount.ofVolume name i v kind scope)) n ds = .ok vs) :
    List.Forall₂ (fun x t => Mount.claimTemplate (Mount.claimName name x.1) x.2 = .ok t)
      (claimsFrom n ds) (vs.filterMap Mount.Converted.claim) := by
  induction ds generalizing n vs with
  | nil =>
    cases h
    exact .nil
  | cons d ds ih =>
    obtain ⟨v, hv, h⟩ := bind_eq_ok.mp h
    obtain ⟨rest, hrest, h⟩ := bind_eq_ok.mp h
    cases h
    have hds : claimsFrom n (d :: ds) =
        (d.claim.map fun c => (n, c)).toList ++ claimsFrom (n + 1) ds := by
      cases hd : d.claim <;> simp [claimsFrom, hd]
    rw [hds]
    have hrest := ih hrest
    cases Mount.ofVolume_eq_ok (inField_eq_ok.mp hv) with
    | resource _ _ hclaim => simpa [hclaim] using hrest
    | host _ _ hclaim => simpa [hclaim] using hrest
    | claim _ _ _ hclaim _ htemplate =>
      simp only [hclaim, Option.map_some, Option.toList_some, List.singleton_append]
      exact .cons htemplate hrest

end Conversion

namespace Merge

/-- A name that is not generated, and behind which no volume stands, is kept by its own mounts. -/
theorem filter_mounts {container name : String} {es : List Entry} {volumes : List Manifest.Volume}
    {mounts : List Manifest.Mount} {owned : List (List Entry)}
    (h : List.Forall₂ (Owns container es volumes) mounts owned)
    (fresh : ∀ n, name ≠ projectedName container n)
    (unbacked : ∀ e ∈ owned.flatten, e.volumeName = name → e.plan.volume = none) :
    mounts.filter (·.name = name) =
      (owned.flatten.filter (·.volumeName = name)).map (·.plan.mount) := by
  induction h with
  | nil => rfl
  | @cons m o mounts owned hmo _ ih =>
    have ih := ih fun e he => unbacked e (List.mem_append_right o he)
    have hfirst : (if m.name = name then [m] else []) =
        (o.filter (·.volumeName = name)).map (·.plan.mount) := by
      cases hmo with
      | verbatim e =>
        by_cases hname : e.volumeName = name
        · have : e.plan.mount.name = name := hname
          simp [hname, this]
        · have : ¬e.plan.mount.name = name := hname
          simp [hname, this]
      | projected _ _ hproj =>
        have hnone : o.filter (·.volumeName = name) = [] := by
          refine List.filter_eq_nil_iff.mpr fun e he hname => ?_
          have hvolume := unbacked e (List.mem_append_left _ he) (of_decide_eq_true hname)
          obtain ⟨p, -, hp⟩ := exists_right_of_mem hproj he
          cases hp with
          | whole hv => cases hvolume.symm.trans hv
          | key hv => cases hvolume.symm.trans hv
        rw [hnone, if_neg (fresh _).symm]
        rfl
    rw [List.flatten_cons, List.filter_append, List.map_append, ← ih, ← hfirst, List.filter_cons]
    by_cases hm : m.name = name <;> simp [hm]

end Merge

namespace Conversion
open Merge

/-- The claims of an assembled container: a template for each, and for each template one mount, as
its volume asks for. -/
structure ClaimsMounted (name : String) (c : Workload.Container) (a : Assembled) : Prop where
  templates : List.Forall₂ (fun x t => Mount.claimTemplate (Mount.claimName name x.1) x.2 = .ok t ∧
    t.name = Mount.claimName name x.1) (claimsFrom 0 c.volumes) a.claims
  mounts : ∀ i v, c.volumes[i]? = some v → v.claim ≠ none →
    ∃ target, Path.normalize v.target = .ok target ∧
      a.container.mounts.filter (·.name = Mount.claimName name i) =
        [Mount.mountOf v target (Mount.claimName name i)]
  unbacked : ∀ i, ∀ u ∈ a.volumes, u.name ≠ Mount.claimName name i

section
variable {workload name : String} {c : Workload.Container} {kind : WorkloadKind} {scope : Scope}
variable {vs : List Mount.Converted} {fs : List Mount.MaterializedFile} {l : List Point}
variable {a : Assembled} (h : AssembledFrom workload name c kind scope vs fs l a)
include h

theorem filter_mounts_of_claim {e : Entry} (he : e ∈ entriesOf vs fs) {i : Nat}
    (hname : e.volumeName = numbered name .claim i) (hvolume : e.plan.volume = none) :
    a.container.mounts.filter (·.name = numbered name .claim i) = [e.plan.mount] := by
  have only : ∀ e' ∈ entriesOf vs fs, e'.volumeName = numbered name .claim i → e' = e :=
    fun e' he' hname' => h.listed.eq_of_numbered he he' hname (hname'.trans hname.symm)
  have hfresh : ∀ n, numbered name .claim i ≠ projectedName name n := fun n heq =>
    absurd (numbered_inj (heq.trans (projectedName_eq name n))).2.1 (by decide)
  have hperm := h.owned_perm
  rw [filter_mounts h.owns hfresh fun e' he' hname' => by
    rw [only e' (hperm.mem_iff.mp he') hname', hvolume]]
  have hone : ((l.map Point.entries).flatten.filter (·.volumeName = numbered name .claim i)).Perm
      [e] := by
    have hnodup := (hperm.nodup_iff.mpr h.listed.nodup).filter
      (·.volumeName = numbered name .claim i)
    refine (List.perm_ext_iff_of_nodup hnodup (List.nodup_singleton e)).mpr fun e' => ?_
    simp only [List.mem_filter, hperm.mem_iff, decide_eq_true_eq, List.mem_singleton]
    exact ⟨fun he' => only e' he'.1 he'.2, fun heq => heq ▸ ⟨he, hname⟩⟩
  rw [List.perm_singleton.mp hone]
  rfl

theorem claimsMounted : ClaimsMounted name c a where
  templates := by
    rw [h.claims]
    refine (templates_of_convertEach h.converted).imp fun x t ht => ⟨ht, ?_⟩
    rw [Manifest.ClaimTemplate.name, Mount.name_of_claimTemplate ht]
    rfl
  mounts := by
    intro i v hv hclaim
    obtain ⟨b, hb, hconv⟩ := exists_getElem?_of_convertEach h.converted hv
    rw [Nat.zero_add] at hconv
    have he : ⟨i, b.plan⟩ ∈ entriesOf vs fs := mem_entriesOf.mpr (.inl ⟨b, hb, rfl⟩)
    cases Mount.ofVolume_eq_ok (inField_eq_ok.mp hconv) with
    | resource _ _ hnone => exact absurd hnone hclaim
    | host _ _ hnone => exact absurd hnone hclaim
    | @claim target _ _ _ _ htarget =>
      refine ⟨target, htarget, ?_⟩
      have hmount := filter_mounts_of_claim h he (i := i) (claimName_eq name i) rfl
      rwa [← claimName_eq] at hmount
  unbacked := by
    intro i u hu heq
    rw [claimName_eq] at heq
    rcases (h.volume_mounted hu).1 with ⟨token, htoken⟩ | ⟨w, j, hw, hne⟩
    · exact resourceVolumeName_ne_numbered _ _ _ _ (htoken.symm.trans heq)
    · exact hne (numbered_inj (hw.symm.trans heq)).2.1

end

/-- Without claims a container is assembled alike for every kind of workload. With claims it cannot
be part of a deployment, and where a stateful set takes it, the first claim is what a deployment
fails at. -/
theorem assemble_by_claims (workload name : String) (c : Workload.Container) (scope : Scope) :
    ((∀ v ∈ c.volumes, v.claim = none) → ∀ kind kind',
      assemble workload name c kind scope = assemble workload name c kind' scope) ∧
    ((∃ v ∈ c.volumes, v.claim ≠ none) →
      (∃ f, assemble workload name c .deployment scope = .error f) ∧
      ∀ a, assemble workload name c .statefulSet scope = .ok a →
        (∃ before v after, c.volumes = before ++ v :: after ∧ (∀ u ∈ before, u.claim = none) ∧
          v.claim ≠ none ∧ assemble workload name c .deployment scope = .error
            ⟨[(Origin.volume before.length).text, "claim"], .claimContext "Deployment"⟩) ∧
        ClaimsMounted name c a) := by
  refine ⟨assemble_of_unclaimed, fun claimed => ⟨deployment_of_claim claimed, fun a ha => ?_⟩⟩
  obtain ⟨before, v, after, split, hbefore, hv⟩ := exists_first claimed
  have unclaimed : ∀ u ∈ before, u.claim = none := fun u hu => not_not.mp (hbefore u hu)
  refine ⟨⟨before, v, after, split, unclaimed, hv,
    deployment_of_first_claim ha split unclaimed hv⟩, ?_⟩
  obtain ⟨vs, fs, l, h⟩ := assemble_eq_ok ha
  exact claimsMounted h

theorem assemble_by_claims_of_two :
    let claim : Workload.Claim := .ofSize "1Gi"
    let host : Workload.Volume := .ofSource "/srv" "/srv"
    let plain : Workload.Container := { Workload.Container.ofImage "db" with
      volumes := [host]
      files := [.ofContent "/etc/db/a" "1", .ofContent "/etc/db/b" "2"] }
    let c := { plain with volumes := [host,
      { Workload.Volume.ofSource "${resources.data}" "/data" with claim := some claim },
      { Workload.Volume.ofSource "${resources.data}" "/log" with claim := some claim }] }
    let scope : Scope :=
      .ofWorkload "db" ((Workload.ofName "db").addResource "data" ⟨"volume", none, none⟩) .empty
    ((∀ v ∈ plain.volumes, v.claim = none) ∧
      assemble "db" "main" plain .deployment scope =
        assemble "db" "main" plain .statefulSet scope) ∧
    (∃ v ∈ c.volumes, v.claim ≠ none) ∧
      ∃ a, assemble "db" "main" c .statefulSet scope = .ok a ∧
        (∃ before v after, c.volumes = before ++ v :: after ∧ (∀ u ∈ before, u.claim = none) ∧
          v.claim ≠ none ∧ assemble "db" "main" c .deployment scope = .error
            ⟨[(Origin.volume before.length).text, "claim"], .claimContext "Deployment"⟩) ∧
        ClaimsMounted "main" c a := by
  intro claim host plain c scope
  have unclaimed : ∀ v ∈ plain.volumes, v.claim = none := by decide
  have claimed : ∃ v ∈ c.volumes, v.claim ≠ none :=
    ⟨_, List.mem_cons_of_mem _ List.mem_cons_self, by decide⟩
  obtain ⟨a, ha⟩ : ∃ a, assemble "db" "main" c .statefulSet scope = .ok a :=
    exists_eq_ok (by decide +kernel)
  exact ⟨⟨unclaimed, (assemble_by_claims "db" "main" plain scope).1 unclaimed _ _⟩, claimed, a, ha,
    ((assemble_by_claims "db" "main" c scope).2 claimed).2 a ha⟩

end Conversion
end Stowage
