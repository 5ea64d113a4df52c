import Stowage.Proofs.Ownership

/-!
# Order of mounts

The members of a point are put in the order of declaration again after every fold, and the points
after the last one. No declaration belongs to two points, so the order of both is strict, and the
projected volumes are numbered along it.
-/

namespace Stowage

/-! ## Names of volumes -/

namespace Manifest

theorem map_name_foldl_addVolume (vs acc : List Volume) :
    (vs.foldl addVolume acc).map Volume.name = acc.map Volume.name ++
      ((vs.map Volume.name).filter fun n => !(acc.map Volume.name).contains n).eraseDups := by
  induction vs generalizing acc with
  | nil => simp
  | cons v vs ih =>
    rw [List.foldl_cons, ih, addVolume, List.map_cons, List.filter_cons]
    by_cases hv : v.name ∈ acc.map Volume.name
    · have hany : acc.any (·.name == v.name) = true := by simpa using hv
      simp [hany, hv]
    · have hany : acc.any (·.name == v.name) = false := by simpa using hv
      have hkept : (!(acc.map Volume.name).contains v.name) = true := by simpa using hv
      rw [hany, if_pos hkept, List.eraseDups_cons, List.filter_filter]
      simp [Bool.and_comm, Bool.beq_eq_decide_eq]

theorem map_name_distinctVolumes (vs : List Volume) :
    (distinctVolumes vs).map Volume.name = (vs.map Volume.name).eraseDups := by
  have hnames := map_name_foldl_addVolume vs []
  have hall : (vs.map Volume.name).filter (fun n => !([] : List String).contains n) =
      vs.map Volume.name := by simp
  rw [List.map_nil, List.nil_append, hall] at hnames
  exact hnames

theorem map_name_filterMap {out : List (Mount × Option Volume)}
    (carry : ∀ x ∈ out, ∀ v, x.2 = some v → v.name = x.1.name) :
    (out.filterMap Prod.snd).map Volume.name = (out.filter (·.2.isSome)).map (·.1.name) := by
  induction out with
  | nil => rfl
  | cons x out ih =>
    have htail := ih fun y hy => carry y (List.mem_cons_of_mem x hy)
    cases hx : x.2 with
    | none => simp [hx, htail]
    | some v => simp [hx, htail, carry x List.mem_cons_self v hx]

end Manifest

namespace Merge

/-! ## Realised declarations -/

/-- A mount, with the volume that it brings, stands for these declarations. -/
inductive Realises (container : String) (es : List Entry) :
    List Entry → Manifest.Mount × Option Manifest.Volume → Prop
  | verbatim (e) : Realises container es [e] (e.plan.mount, e.plan.volume)
  | projected {owned dir sources} (n) : 1 < owned.length →
      List.Forall₂ (Projects es dir) owned sources →
      Realises container es owned
        (⟨projectedName container n, dir, none, some true⟩,
          some ⟨projectedName container n, .projected sources⟩)

/-- The mounts of a result, with the volumes that they bring, and the declarations that each of them
stands for. -/
structure Realised (container : String) (plans : List Plan) (r : Result) (owned : List (List Entry))
    (out : List (Manifest.Mount × Option Manifest.Volume)) : Prop where
  mounts : r.mounts = out.map Prod.fst
  volumes : r.volumes = Manifest.distinctVolumes (out.filterMap Prod.snd)
  each : List.Forall₂ (Realises container (entriesFrom 0 plans)) owned out
  all : owned.flatten.Perm (entriesFrom 0 plans)

theorem Emits.realises {container : String} {es : List Entry} {p : Point}
    {x : Manifest.Mount × Option Manifest.Volume} (h : Emits container p x) (hp : p.Sound es) :
    Realises container es p.entries x := by
  cases h with
  | plain e => exact .verbatim e
  | single dir m => exact .verbatim m.entry
  | @merged dir ms n hlen =>
    refine .projected n (by simpa [Point.entries] using hlen) ?_
    refine List.forall₂_map_left_iff.mpr (List.forall₂_map_right_iff.mpr ?_)
    exact List.forall₂_same.mpr fun m hm => (hp.fits m hm).projects

section
variable {container : String} {plans : List Plan} {l : List Point}
variable (h : finalPoints plans = .ok l)
include h

theorem realised_result : Realised container plans (result container l) (l.map Point.entries)
    (emit container 0 l) where
  mounts := rfl
  volumes := rfl
  each := by
    have sound := finalPoints_sound h
    refine List.forall₂_map_left_iff.mpr ((forall₂_mem (emit_emits sound 0)).imp ?_)
    exact fun p x ⟨hp, _, hx⟩ => hx.realises (sound p hp)
  all := by
    rw [← List.flatMap_def]
    exact finalPoints_entries_perm h

end

/-! ## Members in order -/

def Point.Sorted (p : Point) : Prop := p.entries.Pairwise fun e e' => e.position ≤ e'.position

theorem sorted_inOrder (dir : String) (l : List Member) :
    (Point.projection dir (inOrder l)).Sorted := by
  refine List.pairwise_map.mpr ((pairwise_sortBy ?_ ?_ l).imp of_decide_eq_true)
  · intro m m'
    simp only [decide_eq_true_eq]
    exact Nat.le_total _ _
  · intro m m' m''
    simp only [decide_eq_true_eq]
    exact Nat.le_trans

theorem points_sorted {ps : List Placement} {pts : List Point} (h : points ps = .ok pts) :
    ∀ p ∈ pts, p.Sorted := by
  intro p hp
  rw [points_eq_ok h, List.mem_append] at hp
  rcases hp with hp | hp
  · obtain ⟨q, -, hq⟩ := List.mem_filterMap.mp hp
    cases q with
    | plain e =>
      cases hq
      exact List.pairwise_singleton _ _
    | anchored a m => cases hq
  · obtain ⟨a, -, rfl⟩ := List.mem_map.mp hp
    exact sorted_inOrder a _

theorem addPoint_sorted {kept kept' : List Point} {p : Point} (h : addPoint kept p = .ok kept')
    (hp : p.Sorted) (hkept : ∀ k ∈ kept, k.Sorted) : ∀ k ∈ kept', k.Sorted := by
  intro k hk
  rcases addPoint_eq_ok h with ⟨-, rfl⟩ | ⟨o, -, -, -, -, -, rfl⟩
  · rcases List.mem_append.mp hk with hk | hk
    · exact hkept k hk
    · exact List.mem_singleton.mp hk ▸ hp
  · obtain ⟨k', hk', rfl⟩ := List.mem_map.mp hk
    split
    · exact sorted_inOrder _ _
    · exact hkept k' hk'

theorem fold_sorted {l kept : List Point} (h : fold l = .ok kept) (hl : ∀ p ∈ l, p.Sorted) :
    ∀ k ∈ kept, k.Sorted := by
  refine foldlM_induction (fun _ kept => ∀ k ∈ kept, k.Sorted) h (by simp) ?_
  exact fun done p kept kept' hp hkept hadd =>
    addPoint_sorted hadd (hl p (mem_sortBy.mp hp)) hkept

/-! ## Strict order -/

def Precedes (o o' : List Entry) : Prop := ∃ e ∈ o, ∀ e' ∈ o', e.position < e'.position

theorem position_eq {p : Point} {e : Entry} {rest : List Entry} (h : p.entries = e :: rest) :
    p.position = e.position := by
  cases p with
  | plain e' =>
    cases h
    rfl
  | projection dir ms =>
    cases ms with
    | nil => cases h
    | cons m ms =>
      cases h
      rfl

section
variable {plans : List Plan} {l : List Point} (h : finalPoints plans = .ok l)
include h

theorem finalPoints_sorted : ∀ p ∈ l, p.Sorted := by
  obtain ⟨ps, -, h⟩ := bind_eq_ok.mp h
  obtain ⟨pts, hpts, h⟩ := bind_eq_ok.mp h
  obtain ⟨kept, hkept, h⟩ := bind_eq_ok.mp h
  cases h
  exact fun p hp => fold_sorted hkept (points_sorted hpts) p (mem_sortBy.mp hp)

theorem byDeclaration_finalPoints : l.Pairwise fun p q => p.position ≤ q.position := by
  obtain ⟨ps, -, h⟩ := bind_eq_ok.mp h
  obtain ⟨pts, -, h⟩ := bind_eq_ok.mp h
  obtain ⟨kept, -, h⟩ := bind_eq_ok.mp h
  cases h
  refine (pairwise_sortBy ?_ ?_ kept).imp of_decide_eq_true
  · intro p q
    simp only [decide_eq_true_eq]
    exact Nat.le_total _ _
  · intro p q r
    simp only [decide_eq_true_eq]
    exact Nat.le_trans

theorem nodup_entries_finalPoints :
    (∀ p ∈ l, p.entries.Nodup) ∧ l.Pairwise fun p q => p.entries.Disjoint q.entries := by
  have hnodup := (finalPoints_entries_perm h).nodup_iff.mpr (nodup_entriesFrom plans)
  exact List.nodup_flatMap.mp hnodup

theorem ordered_finalPoints :
    ∀ p ∈ l, p.entries.Pairwise fun e e' => e.position < e'.position := by
  intro p hp
  have hmem := (finalPoints_sound h p hp).mem
  have hnodup := (nodup_entries_finalPoints h).1 p hp
  refine ((finalPoints_sorted h p hp).and hnodup).imp_of_mem fun {e e'} he he' hlt => ?_
  exact Nat.lt_of_le_of_ne hlt.1 fun heq =>
    hlt.2 (eq_of_position_eq (hmem e he) (hmem e' he') heq)

theorem precedes_finalPoints : (l.map Point.entries).Pairwise Precedes := by
  have sound := finalPoints_sound h
  have hboth := (byDeclaration_finalPoints h).and (nodup_entries_finalPoints h).2
  refine List.pairwise_map.mpr (hboth.imp_of_mem fun {p q} hp hq hpq => ?_)
  obtain ⟨e, rest, he⟩ := List.exists_cons_of_ne_nil (sound p hp).entries_ne_nil
  obtain ⟨e', rest', he'⟩ := List.exists_cons_of_ne_nil (sound q hq).entries_ne_nil
  have hhead : e ∈ p.entries := by simp [he]
  have hhead' : e' ∈ q.entries := by simp [he']
  have hle : e.position ≤ e'.position := by
    rw [← position_eq he, ← position_eq he']
    exact hpq.1
  have hlt : e.position < e'.position := by
    refine Nat.lt_of_le_of_ne hle fun heq => hpq.2 hhead ?_
    exact eq_of_position_eq ((sound p hp).mem e hhead) ((sound q hq).mem e' hhead') heq ▸ hhead'
  refine ⟨e, hhead, fun x hx => ?_⟩
  rw [he'] at hx
  rcases List.mem_cons.mp hx with rfl | hx
  · exact hlt
  · have hordered := ordered_finalPoints h q hq
    rw [he'] at hordered
    exact hlt.trans (List.rel_of_pairwise_cons hordered hx)

end

/-! ## Numbers of projected volumes -/

theorem names_of_projected {container : String} {es : List Entry} {n : Nat} {l : List Point}
    (sound : ∀ p ∈ l, p.Sound es) :
    ∃ k, (((l.map Point.entries).zip (emit container n l)).filter (1 < ·.1.length)).map
      (·.2.1.name) = (List.range' n k).map (projectedName container) := by
  induction n, l using emit.induct with
  | case1 n => exact ⟨0, rfl⟩
  | case2 n e l ih =>
    obtain ⟨k, hk⟩ := ih fun p hp => sound p (List.mem_cons_of_mem _ hp)
    refine ⟨k, ?_⟩
    simpa [emit, Point.entries] using hk
  | case3 n d m l ih =>
    obtain ⟨k, hk⟩ := ih fun p hp => sound p (List.mem_cons_of_mem _ hp)
    refine ⟨k, ?_⟩
    simpa [emit, Point.entries] using hk
  | case4 n d ms l hms ih =>
    obtain ⟨k, hk⟩ := ih fun p hp => sound p (List.mem_cons_of_mem _ hp)
    refine ⟨k + 1, ?_⟩
    have hlen : 1 < ms.length := by
      cases sound _ List.mem_cons_self with
      | single => exact absurd rfl (hms _)
      | merged hlen _ => exact hlen
    rw [List.map_cons, emit]
    · simp [Point.entries, hlen, generated, List.range'_succ, hk]
    · exact hms

/-! ## Results in order -/

structure InOrder (container : String) (plans : List Plan) (r : Result) (owned : List (List Entry))
    (out : List (Manifest.Mount × Option Manifest.Volume)) : Prop
    extends Realised container plans r owned out where
  mounts_ordered : owned.Pairwise Precedes
  sources_ordered : ∀ o ∈ owned, o.Pairwise fun e e' => e.position < e'.position
  numbered : ∃ k, ((owned.zip out).filter (1 < ·.1.length)).map (·.2.1.name) =
    (List.range k).map (projectedName container)
  volumes_ordered : Carries (entriesFrom 0 plans) → r.volumes.map Manifest.Volume.name =
    ((out.filter (·.2.isSome)).map (·.1.name)).eraseDups

theorem Realises.carries {container : String} {es owned : List Entry}
    {x : Manifest.Mount × Option Manifest.Volume} (h : Realises container es owned x)
    (howned : ∀ e ∈ owned, e ∈ es) (carries : Carries es) :
    ∀ v, x.2 = some v → v.name = x.1.name := by
  intro v hv
  cases h with
  | verbatim e => exact carries e (howned e List.mem_cons_self) v hv
  | projected n _ _ =>
    cases hv
    rfl

/-- Mounts, their sources, the numbers of projected volumes and the names of all volumes follow the
order of declaration. -/
theorem mounts_inOrder {container : String} {plans : List Plan} {r : Result}
    (h : mounts container plans = .ok r) : ∃ owned out, InOrder container plans r owned out := by
  obtain ⟨l, hl, rfl⟩ := map_eq_ok.mp h
  have realised : Realised container plans _ _ _ := realised_result hl
  refine ⟨_, _, realised, precedes_finalPoints hl, ?_, ?_, fun carries => ?_⟩
  · exact List.forall_mem_map.mpr (ordered_finalPoints hl)
  · simp only [List.range_eq_range']
    exact names_of_projected (finalPoints_sound hl)
  · rw [realised.volumes, Manifest.map_name_distinctVolumes, Manifest.map_name_filterMap]
    intro x hx
    obtain ⟨o, ho, hox⟩ := exists_left_of_mem realised.each hx
    refine hox.carries (fun e he => ?_) carries
    exact realised.all.mem_iff.mp (List.mem_flatten.mpr ⟨o, ho, he⟩)

theorem mounts_inOrder_of_early_file :
    let plans : List Plan := [
      ⟨.file 0, ⟨"f0", "/etc/app/d/a", some "a", some true⟩, some ⟨"f0", .configMap "f0" none⟩⟩,
      ⟨.volume 0, ⟨"data", "/data", none, none⟩, none⟩,
      ⟨.volume 1, ⟨"certs", "/etc/app", none, none⟩, some ⟨"certs", .secret (some "certs") none⟩⟩,
      ⟨.file 1, ⟨"f1", "/srv/b", some "b", some true⟩, some ⟨"f1", .configMap "f1" none⟩⟩,
      ⟨.file 2, ⟨"f2", "/srv/c", some "c", some true⟩, some ⟨"f2", .configMap "f2" none⟩⟩]
    ∃ r, mounts "web" plans = .ok r ∧
      r.mounts.map Manifest.Mount.name = ["web-projected-0", "data", "web-projected-1"] ∧
      ∃ owned out, InOrder "web" plans r owned out := by
  intro plans
  have names : (mounts "web" plans).map (fun r => r.mounts.map Manifest.Mount.name) =
      .ok ["web-projected-0", "data", "web-projected-1"] := by decide +kernel
  obtain ⟨r, hr, hnames⟩ := map_eq_ok.mp names
  exact ⟨r, hr, hnames, mounts_inOrder hr⟩

end Merge
end Stowage
