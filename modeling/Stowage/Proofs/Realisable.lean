import Stowage.Proofs.Overlap

/-!
# Realisable projections

The items of a projected volume are files of one directory, so no item may be at another one or
below it. The items stand where the keyed declarations are located, and no check compares these
places: a projection is realisable exactly if they are apart.
-/

namespace Stowage

/-! ## Items -/

namespace Path

theorem apart_append_iff {s t u : List (List Char)} : Apart (s ++ t) (s ++ u) ↔ Apart t u := by
  unfold Apart
  rw [List.prefix_append_right_inj, List.prefix_append_right_inj]

end Path

namespace Manifest

def itemPlaces (sources : List Projection) : List (List (List Char)) :=
  sources.flatMap fun p => (p.items.getD []).map fun i => Path.segments i.path.toList

def Volume.projections (v : Volume) : List Projection :=
  match v.source with
  | .projected sources => sources
  | _ => []

/-- No two items are at one place, and none is below another one. -/
def Volume.Realisable (v : Volume) : Prop := (itemPlaces v.projections).Pairwise Path.Apart

instance (v : Volume) : Decidable v.Realisable := inferInstanceAs (Decidable (List.Pairwise _ _))

end Manifest

namespace Merge

/-- Where the declarations that bring an item are located. -/
def keyedPlaces (es l : List Entry) : List (List (List Char)) :=
  (l.filter fun e => e.source?.isSome && e.subPath.isSome).map (location es)

theorem keyedPlaces_perm (es : List Entry) {l l' : List Entry} (h : l.Perm l') :
    (keyedPlaces es l).Perm (keyedPlaces es l') := (h.filter _).map _

theorem keyedPlaces_flatMap (es : List Entry) (l : List Point) :
    keyedPlaces es (l.flatMap Point.entries) = l.flatMap fun p => keyedPlaces es p.entries := by
  unfold keyedPlaces
  rw [List.filter_flatMap, List.map_flatMap]

theorem pairwise_keyedPlaces_singleton (es : List Entry) (e : Entry) :
    (keyedPlaces es [e]).Pairwise Path.Apart := by
  unfold keyedPlaces
  rw [List.filter_singleton]
  cases e.source?.isSome && e.subPath.isSome with
  | true => exact List.pairwise_singleton _ _
  | false => exact List.Pairwise.nil

theorem keyedPlaces_members {es : List Entry} {dir : String} {ms : List Member}
    (h : ∀ m ∈ ms, m.Fits es dir) : keyedPlaces es (ms.map Member.entry) =
      (Manifest.itemPlaces (ms.map Member.projection)).map (Path.segments dir.toList ++ ·) := by
  induction ms with
  | nil => rfl
  | cons m ms ih =>
    have hm := h m List.mem_cons_self
    have ih := ih fun m' hm' => h m' (List.mem_cons_of_mem m hm')
    unfold keyedPlaces Manifest.itemPlaces at ih ⊢
    rw [List.map_cons, List.map_cons, List.flatMap_cons, List.map_append, ← ih]
    cases hs : m.entry.subPath with
    | none =>
      obtain ⟨hitems, -⟩ := hm.whole hs
      simp [hs, Member.projection, hitems]
    | some key =>
      obtain ⟨path, hitems, hloc⟩ := hm.keyed key hs
      simp [hs, hm.source, Member.projection, hitems, hloc]

theorem realisable_iff {es : List Entry} {dir : String} {ms : List Member}
    (h : ∀ m ∈ ms, m.Fits es dir) {v : Manifest.Volume}
    (hv : v.source = .projected (ms.map Member.projection)) :
    v.Realisable ↔ (keyedPlaces es (ms.map Member.entry)).Pairwise Path.Apart := by
  have hsources : v.projections = ms.map Member.projection := by
    simp [Manifest.Volume.projections, hv]
  rw [keyedPlaces_members h, List.pairwise_map, Manifest.Volume.Realisable, hsources]
  constructor
  · exact fun hap => hap.imp Path.apart_append_iff.mpr
  · exact fun hap => hap.imp Path.apart_append_iff.mp

/-! ## Points -/

section
variable {container : String} {scope : Scope} {es : List Entry} {l : List Point}

theorem projected_mem_result_iff (listed : Conversion.Listed container scope es)
    (sound : ∀ p ∈ l, p.Sound es) {sources : List Manifest.Projection} :
    (∃ v ∈ (result container l).volumes, v.source = .projected sources) ↔
      ∃ dir ms, .projection dir ms ∈ l ∧ 1 < ms.length ∧ sources = ms.map Member.projection := by
  constructor
  · rintro ⟨v, hv, hs⟩
    obtain ⟨x, hx, hxv⟩ := List.mem_filterMap.mp (Manifest.mem_of_mem_distinctVolumes hv)
    obtain ⟨p, hp, hpx⟩ := exists_left_of_mem (emit_emits sound 0) hx
    cases hpx with
    | plain e =>
      have he := (sound _ hp).mem e List.mem_cons_self
      exact absurd hs ((listed.form e he).not_projected v hxv sources)
    | single dir m =>
      have hm := (sound _ hp).fits m List.mem_cons_self
      exact absurd hs ((listed.form _ hm.mem).not_projected v hxv sources)
    | @merged dir ms n hlen =>
      cases hxv
      cases hs
      exact ⟨dir, ms, hp, hlen, rfl⟩
  · rintro ⟨dir, ms, hp, hlen, rfl⟩
    obtain ⟨x, hx, hpx⟩ := exists_right_of_mem (emit_emits sound 0) hp
    cases hpx with
    | single => simp at hlen
    | merged n =>
      have hv := volumeNamed?_generated listed.fresh listed.carries sound hx rfl
      exact ⟨_, (Manifest.name_of_volumeNamed?_eq_some hv).1, rfl⟩

theorem realisable_result_iff (listed : Conversion.Listed container scope es)
    (sound : ∀ p ∈ l, p.Sound es) :
    (∀ v ∈ (result container l).volumes, v.Realisable) ↔
      ∀ p ∈ l, (keyedPlaces es p.entries).Pairwise Path.Apart := by
  constructor
  · intro hr p hp
    cases sound p hp with
    | plain => exact pairwise_keyedPlaces_singleton es _
    | single => exact pairwise_keyedPlaces_singleton es _
    | @merged dir ms hlen hms =>
      obtain ⟨v, hv, hs⟩ := (projected_mem_result_iff listed sound).mpr ⟨dir, ms, hp, hlen, rfl⟩
      exact (realisable_iff hms hs).mp (hr v hv)
  · intro hap v hv
    cases hs : v.source with
    | projected sources =>
      obtain ⟨dir, ms, hp, -, rfl⟩ := (projected_mem_result_iff listed sound).mp ⟨v, hv, hs⟩
      exact (realisable_iff ((sound _ hp).fits) hs).mpr (hap _ hp)
    | _ => simp [Manifest.Volume.Realisable, Manifest.Volume.projections, hs, Manifest.itemPlaces]

end

/-- In directories that are apart, only declarations of one point can be in each other's way. -/
theorem keyedPlaces_apart_iff {es : List Entry} {l : List Point}
    (perm : (l.flatMap Point.entries).Perm es) (sound : ∀ p ∈ l, p.Sound es)
    (apart : l.Pairwise fun p q =>
      Path.Apart (Path.segments p.path.toList) (Path.segments q.path.toList)) :
    (∀ p ∈ l, (keyedPlaces es p.entries).Pairwise Path.Apart) ↔
      (keyedPlaces es es).Pairwise Path.Apart := by
  rw [← (keyedPlaces_perm es perm).pairwise_iff fun {_ _} => Path.Apart.symm, keyedPlaces_flatMap,
    List.pairwise_flatMap]
  refine ⟨fun h => ⟨h, ?_⟩, fun h => h.1⟩
  refine apart.imp_of_mem fun {p q} hp hq hpq s hs t ht => ?_
  obtain ⟨e, he, rfl⟩ := List.mem_map.mp hs
  obtain ⟨e', he', rfl⟩ := List.mem_map.mp ht
  have hp := (sound p hp).path_prefix_location e (List.mem_filter.mp he).1
  have hq := (sound q hq).path_prefix_location e' (List.mem_filter.mp he').1
  -- both directories would lead to the inner place
  constructor
  · intro h
    rcases List.prefix_or_prefix_of_prefix (hp.trans h) hq with h | h
    · exact hpq.1 h
    · exact hpq.2 h
  · intro h
    rcases List.prefix_or_prefix_of_prefix hp (hq.trans h) with h | h
    · exact hpq.1 h
    · exact hpq.2 h

end Merge

/-! ## Containers -/

namespace Conversion
open Merge

variable {workload name : String} {c : Workload.Container} {kind : WorkloadKind} {scope : Scope}
variable {a : Assembled}

/-- The projected volumes are realisable exactly if the keyed declarations of each mount are apart.
Where no declared target has an empty segment, these are just the keyed declarations. -/
theorem projections_realisable_iff (h : assemble workload name c kind scope = .ok a) :
    ∃ es owned, declarations workload name c kind scope = .ok es ∧ owned.flatten.Perm es ∧
      List.Forall₂ (Owns name es a.volumes) a.container.mounts owned ∧
      ((∀ v ∈ a.volumes, v.Realisable) ↔
        ∀ o ∈ owned, (keyedPlaces es o).Pairwise Path.Apart) ∧
      ((∀ e ∈ es, Path.Canonical e.target.toList) →
        ((∀ v ∈ a.volumes, v.Realisable) ↔ (keyedPlaces es es).Pairwise Path.Apart)) := by
  obtain ⟨vs, fs, l, h⟩ := assemble_eq_ok h
  have hiff := realisable_result_iff h.listed h.sound
  rw [← h.volumes] at hiff
  refine ⟨_, l.map Point.entries, h.declared, h.owned_perm, h.owns, ?_, fun canonical => ?_⟩
  · rw [hiff, List.forall_mem_map]
  · rw [hiff]
    exact keyedPlaces_apart_iff (finalPoints_entries_perm h.points) h.sound
      (finalPoints_apart h.points canonical)

theorem projections_realisable_iff_of_folded_file :
    let scope : Scope := .ofWorkload "api" (.ofName "api") .empty
    let c : Workload.Container := { Workload.Container.ofImage "app" with
      files := [.ofContent "/etc/app/a" "1", .ofContent "/etc/app/b" "2",
        .ofContent "/etc/app/sub/c" "3"] }
    ∃ a, assemble "api" "web" c .deployment scope = .ok a ∧
      ∃ es owned, declarations "api" "web" c .deployment scope = .ok es ∧ owned.flatten.Perm es ∧
        List.Forall₂ (Owns "web" es a.volumes) a.container.mounts owned ∧
        ((∀ v ∈ a.volumes, v.Realisable) ↔
          ∀ o ∈ owned, (keyedPlaces es o).Pairwise Path.Apart) ∧
        ((∀ e ∈ es, Path.Canonical e.target.toList) →
          ((∀ v ∈ a.volumes, v.Realisable) ↔ (keyedPlaces es es).Pairwise Path.Apart)) := by
  intro scope c
  obtain ⟨a, ha⟩ : ∃ a, assemble "api" "web" c .deployment scope = .ok a :=
    exists_eq_ok (by decide +kernel)
  exact ⟨a, ha, projections_realisable_iff ha⟩

/-- A file and a directory of one name go into one projection. -/
theorem projection_not_realisable_of_file_below_file :
    let c : Workload.Container := { Workload.Container.ofImage "app" with
      files := [.ofContent "/etc/cfg/a" "1", .ofContent "/etc/cfg/b" "2",
        .ofContent "/etc/cfg/a/c" "3"] }
    ∃ a, assemble "api" "web" c .deployment (.ofWorkload "api" (.ofName "api") .empty) = .ok a ∧
      ¬∀ v ∈ a.volumes, v.Realisable := by
  intro c
  have found : (assemble "api" "web" c .deployment
      (.ofWorkload "api" (.ofName "api") .empty)).map
        (fun a => decide (∀ v ∈ a.volumes, v.Realisable)) = .ok false := by decide +kernel
  obtain ⟨a, ha, hbroken⟩ := map_eq_ok.mp found
  exact ⟨a, ha, of_decide_eq_false hbroken⟩

end Conversion
end Stowage
