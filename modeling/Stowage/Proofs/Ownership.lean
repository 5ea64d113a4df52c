import Stowage.Proofs.Declarations

/-!
# Owners of declarations

Every mount of an assembled container stands for declarations of its own: one that it repeats as it
is, or several that its projected volume brings together. No declaration is lost, doubled or moved.
-/

namespace Stowage

/-! ## Projected declarations -/

inductive Manifest.Backs : VolumeSource → ProjectedObject → Option Int → Prop
  | configMap (name mode) : Backs (.configMap name mode) (.configMap name) mode
  | secret (name mode) : Backs (.secret (some name) mode) (.secret name) mode

namespace Merge

theorem backs_of_sourceOf? {v : Manifest.VolumeSource} {s : Source} (h : sourceOf? v = some s) :
    Manifest.Backs v s.object s.mode := by
  unfold sourceOf? at h
  split at h
  · cases h
    exact .configMap _ _
  · cases h
    exact .secret _ _
  · cases h

theorem Entry.volume_of_source? {e : Entry} {s : Source} (h : e.source? = some s) :
    ∃ v, e.plan.volume = some v ∧ Manifest.Backs v.source s.object s.mode := by
  unfold Entry.source? at h
  split at h
  · cases h
  · obtain ⟨v, hv, hs⟩ := Option.bind_eq_some_iff.mp h
    exact ⟨v, hv, backs_of_sourceOf? hs⟩

/-- A projection that brings a declaration to its place, seen from a directory. -/
inductive Projects (es : List Entry) (dir : String) : Entry → Manifest.Projection → Prop
  | whole {e v object mode} : e.plan.volume = some v → Manifest.Backs v.source object mode →
      e.subPath = none → dir = e.target → Projects es dir e ⟨object, none⟩
  | key {e v object mode key path} : e.plan.volume = some v → Manifest.Backs v.source object mode →
      e.subPath = some key →
      Path.segments dir.toList ++ Path.segments path.toList = location es e →
      Projects es dir e ⟨object, some [⟨key, path, mode⟩]⟩

theorem Member.Fits.projects {es : List Entry} {dir : String} {m : Member} (h : m.Fits es dir) :
    Projects es dir m.entry m.projection := by
  obtain ⟨v, hv, hback⟩ := Entry.volume_of_source? h.source
  cases hs : m.entry.subPath with
  | none =>
    obtain ⟨hitems, hdir⟩ := h.whole hs
    rw [Member.projection, hitems]
    exact .whole hv hback hs hdir
  | some key =>
    obtain ⟨path, hitems, hloc⟩ := h.keyed key hs
    rw [Member.projection, hitems]
    exact .key hv hback hs hloc

/-! ## Mounts -/

/-- The declarations that a mount stands for. -/
inductive Owns (container : String) (es : List Entry) (volumes : List Manifest.Volume) :
    Manifest.Mount → List Entry → Prop
  | verbatim (e) : (∀ n, e.volumeName ≠ projectedName container n) →
      Owns container es volumes e.plan.mount [e]
  | projected {n path owned sources} : 1 < owned.length →
      Manifest.volumeNamed? volumes (projectedName container n) =
        some ⟨projectedName container n, .projected sources⟩ →
      List.Forall₂ (Projects es path) owned sources →
      Owns container es volumes ⟨projectedName container n, path, none, some true⟩ owned

section
variable {container : String} {es : List Entry} {l : List Point}
variable (fresh : Fresh container es) (carries : Carries es) (sound : ∀ p ∈ l, p.Sound es)
include fresh sound

include carries in
theorem result_owns : List.Forall₂ (Owns container es (result container l).volumes)
    (result container l).mounts (l.map Point.entries) := by
  refine List.forall₂_map_left_iff.mpr (List.forall₂_map_right_iff.mpr ?_)
  refine (forall₂_mem (emit_emits sound 0)).flip.imp fun x p ⟨hp, hx, hpx⟩ => ?_
  cases hpx with
  | plain e => exact .verbatim e (fresh e ((sound _ hp).mem e List.mem_cons_self))
  | single dir m => exact .verbatim m.entry (fresh _ ((sound _ hp).fits m List.mem_cons_self).mem)
  | @merged dir ms n hlen =>
    refine .projected (by simpa [Point.entries] using hlen)
      (volumeNamed?_generated fresh carries sound hx rfl) ?_
    refine List.forall₂_map_left_iff.mpr (List.forall₂_map_right_iff.mpr ?_)
    exact List.forall₂_same.mpr fun m hm => ((sound _ hp).fits m hm).projects

theorem verbatim_mem_emit {e : Entry} (h : [e] ∈ l.map Point.entries) :
    e ∈ es ∧ verbatim e ∈ emit container 0 l := by
  obtain ⟨p, hp, he⟩ := List.mem_map.mp h
  obtain ⟨x, hx, hpx⟩ := exists_right_of_mem (emit_emits sound 0) hp
  refine ⟨(sound p hp).mem e (by simp [he]), ?_⟩
  rcases hpx.name_cases fresh (sound p hp) with ⟨e', he', rfl, -⟩ | ⟨n, dir, ms, hlen, rfl, -⟩
  · obtain rfl : e' = e := by simpa [he] using he'.symm
    exact hx
  · have := congrArg List.length he
    simp only [Point.entries, List.length_map, List.length_singleton] at this
    omega

end
end Merge

/-! ## Containers -/

namespace Conversion
open Merge

variable {workload name : String} {c : Workload.Container} {kind : WorkloadKind} {scope : Scope}
variable {vs : List Mount.Converted} {fs : List Mount.MaterializedFile} {l : List Point}
variable {a : Assembled}

namespace AssembledFrom
variable (h : AssembledFrom workload name c kind scope vs fs l a)
include h

theorem declared : declarations workload name c kind scope = .ok (entriesOf vs fs) := by
  simp only [declarations, h.converted, h.materialized]
  rfl

theorem listed : Listed name scope (entriesOf vs fs) := declarations_listed h.declared

theorem sound : ∀ p ∈ l, p.Sound (entriesOf vs fs) := finalPoints_sound h.points

theorem owns : List.Forall₂ (Owns name (entriesOf vs fs) a.volumes) a.container.mounts
    (l.map Point.entries) := by
  rw [h.mounts, h.volumes]
  exact result_owns h.listed.fresh h.listed.carries h.sound

theorem owned_perm : (l.map Point.entries).flatten.Perm (entriesOf vs fs) := by
  rw [← List.flatMap_def]
  exact finalPoints_entries_perm h.points

theorem volumes_nodup : (a.volumes.map Manifest.Volume.name).Nodup := by
  rw [h.volumes]
  exact Manifest.nodup_distinctVolumes _

end AssembledFrom

/-- The declarations of a container are dealt out to its mounts. -/
theorem assemble_owns (apart : scope.NamesApart)
    (h : assemble workload name c kind scope = .ok a) :
    ∃ es owned, declarations workload name c kind scope = .ok es ∧ es.Nodup ∧
      owned.flatten.Perm es ∧ (a.volumes.map Manifest.Volume.name).Nodup ∧
      List.Forall₂ (Owns name es a.volumes) a.container.mounts owned ∧
      ∀ e, [e] ∈ owned → Manifest.volumeNamed? a.volumes e.volumeName = e.plan.volume := by
  obtain ⟨vs, fs, l, h⟩ := assemble_eq_ok h
  refine ⟨_, l.map Point.entries, h.declared, h.listed.nodup, h.owned_perm, h.volumes_nodup,
    h.owns, ?_⟩
  intro e he
  obtain ⟨hmem, hemit⟩ := verbatim_mem_emit h.listed.fresh h.sound he
  rw [h.volumes]
  exact volumeNamed?_verbatim h.listed.fresh h.listed.carries h.sound hemit hmem
    fun e' he' hname => h.listed.agree apart hmem he' hname

/-- Three files share a directory, one of them by folding, and two mounts share the volume of a
resource. -/
theorem assemble_owns_of_shared_volume :
    let scope : Scope :=
      .ofWorkload "api" ((Workload.ofName "api").addResource "data" ⟨"volume", none, none⟩) .empty
    let c : Workload.Container := { Workload.Container.ofImage "app" with
      volumes := [.ofSource "${resources.data}" "/data", .ofSource "${resources.data}" "/var/data"]
      files := [.ofContent "/etc/app/a" "1", .ofContent "/etc/app/b" "2",
        .ofContent "/etc/app/sub/c" "3"] }
    ∃ a, assemble "api" "web" c .deployment scope = .ok a ∧
      ∃ es owned, declarations "api" "web" c .deployment scope = .ok es ∧ es.Nodup ∧
        owned.flatten.Perm es ∧ (a.volumes.map Manifest.Volume.name).Nodup ∧
        List.Forall₂ (Owns "web" es a.volumes) a.container.mounts owned ∧
        ∀ e, [e] ∈ owned → Manifest.volumeNamed? a.volumes e.volumeName = e.plan.volume := by
  intro scope c
  obtain ⟨a, ha⟩ : ∃ a, assemble "api" "web" c .deployment scope = .ok a :=
    exists_eq_ok (by decide +kernel)
  exact ⟨a, ha, assemble_owns (by decide +kernel) ha⟩

end Conversion
end Stowage
