import Stowage.Proofs.Compatible
import Stowage.Proofs.MountOrder
import Stowage.Proofs.Tracing

/-!
# Mounts that stay as they are

A declaration keeps its own mount exactly if no other one has its anchor and no mount point lies
under its target or over it. Those that cannot meet others always do, where merging succeeds.
-/

namespace Stowage

namespace Merge

/-! ## Meeting and lying under -/

def Meets (es : List Entry) (e : Entry) : Prop :=
  ∃ e' ∈ es, e' ≠ e ∧ anchorOf? es e ≠ none ∧ anchorOf? es e' = anchorOf? es e

instance (es : List Entry) (e : Entry) : Decidable (Meets es e) :=
  inferInstanceAs (Decidable (∃ e' ∈ es, _))

/-- Where a declaration is mounted before nesting is looked at. -/
def mountPoint (es : List Entry) (e : Entry) : String :=
  if Meets es e then (anchorOf? es e).getD e.target else e.target

/-- No other mount point lies under the target or over it. -/
def Isolated (es : List Entry) (e : Entry) : Prop :=
  ∀ e' ∈ es, e' ≠ e → Path.isNested (mountPoint es e').toList e.target.toList = false ∧
    Path.isNested e.target.toList (mountPoint es e').toList = false

instance (es : List Entry) (e : Entry) : Decidable (Isolated es e) :=
  inferInstanceAs (Decidable (∀ e' ∈ es, _))

def Entry.InRoot (es : List Entry) (e : Entry) : Prop :=
  e.subPath.isSome = true ∧ ¬Shared es e ∧ Path.depth e.target.toList ≤ 1

theorem anchorOf?_of_inRoot {es : List Entry} {e : Entry} (h : e.InRoot es)
    (canonical : Path.Canonical e.target.toList) : anchorOf? es e = none := by
  obtain ⟨hkey, hn, hdepth⟩ := h
  obtain ⟨key, hkey⟩ := Option.isSome_iff_exists.mp hkey
  have hparent : Path.parent? e.target.toList = none := by
    cases hd : Path.parent? e.target.toList with
    | none => rfl
    | some d => exact absurd (canonical.depth_of_parent hd) (by omega)
  rw [anchorOf?, if_neg hn, hkey, hparent]
  split <;> rfl

namespace Site

def entries (es : List Entry) : Site → List Entry
  | plain e => [e]
  | anchor dir => meeting es dir

end Site

theorem mem_meeting {es : List Entry} {a : String} {e : Entry} :
    e ∈ meeting es a ↔ e ∈ es ∧ anchorOf? es e = some a := by
  simp [meeting]

theorem target_of_alone {es : List Entry} {a : String} {e : Entry} (h : anchorOf? es e = some a)
    (hkey : ¬(e.subPath.isSome = true ∧ ¬Shared es e)) : a = e.target := by
  unfold anchorOf? at h
  split at h
  · exact (Option.some.inj h).symm
  · next hn =>
    split at h
    · cases hs : e.subPath with
      | none =>
        rw [hs] at h
        exact (Option.some.inj h).symm
      | some key => exact absurd ⟨by rw [hs]; rfl, hn⟩ hkey
    · cases h

section
variable {es : List Entry} (nodup : es.Nodup) {s : Site} {e : Entry}
variable (hs : s ∈ sites es) (he : e ∈ s.entries es)
include nodup hs he

theorem site_cases : (s.entries es = [e] ∧ ¬Meets es e ∧ s.path es = e.target) ∨
    (s.entries es ≠ [e] ∧ Meets es e ∧ anchorOf? es e = some (s.path es)) := by
  cases s with
  | plain e' =>
    obtain rfl := List.mem_singleton.mp he
    have hnone : anchorOf? es e = none := by
      rcases List.mem_append.mp hs with hs | hs
      · obtain ⟨e', he', h⟩ := List.mem_map.mp hs
        cases h
        simpa using (List.mem_filter.mp he').2
      · obtain ⟨a, -, h⟩ := List.mem_map.mp hs
        cases h
    exact .inl ⟨rfl, fun ⟨_, _, _, h, _⟩ => h hnone, rfl⟩
  | anchor a =>
    obtain ⟨-, ha⟩ := mem_meeting.mp he
    by_cases hone : meeting es a = [e]
    · refine .inl ⟨hone, ?_, ?_⟩
      · rintro ⟨e', he', hne, -, hsame⟩
        have : e' ∈ meeting es a := mem_meeting.mpr ⟨he', hsame.trans ha⟩
        rw [hone] at this
        exact hne (List.mem_singleton.mp this)
      · simp only [Site.path, hone]
        split
        · rfl
        · next hkey => exact target_of_alone ha hkey
    · have several : ∀ e', meeting es a ≠ [e'] := by
        intro e' h
        rw [Site.entries, h] at he
        exact hone (List.mem_singleton.mp he ▸ h)
      obtain ⟨e', he', hne⟩ := exists_ne_of_nodup (nodup.filter _) several he
      obtain ⟨hmem', ha'⟩ := mem_meeting.mp he'
      refine .inr ⟨hone, ⟨e', hmem', hne, by simp [ha], ha'.trans ha.symm⟩, ?_⟩
      rw [ha, Site.path]
      split
      · next e'' h => exact absurd h (several e'')
      · rfl

theorem path_eq_mountPoint : s.path es = mountPoint es e := by
  rcases site_cases nodup hs he with ⟨-, hn, hpath⟩ | ⟨-, hmeets, ha⟩
  · rw [mountPoint, if_neg hn, hpath]
  · rw [mountPoint, if_pos hmeets, ha, Option.getD_some]

theorem entries_eq_singleton_iff : s.entries es = [e] ↔ ¬Meets es e := by
  rcases site_cases nodup hs he with ⟨h, hn, -⟩ | ⟨h, hmeets, -⟩
  · exact ⟨fun _ => hn, fun _ => h⟩
  · exact ⟨fun h' => absurd h' h, fun hn => absurd hmeets hn⟩

end

/-! ## Points before nesting -/

theorem Point.related_iff {p q : Point} : p.Related q ↔
    Path.isNested q.path.toList p.path.toList = true ∨
      Path.isNested p.path.toList q.path.toList = true := by
  have hencl (o v : Point) : o.view.encloses v.view = true ↔
      Path.isNested v.path.toList o.path.toList = true := by
    unfold View.encloses
    rw [Bool.and_eq_true_iff]
    refine ⟨And.right, fun hn => ⟨decide_eq_true fun heq => ?_, hn⟩⟩
    have heq : o.path = v.path := heq
    rw [heq, Path.isNested_self] at hn
    cases hn
  rw [Related, hencl, hencl]

section
variable {es : List Entry} {ps : List Placement} {pts : List Point} {d q : Point} {e : Entry}
variable (nodup : es.Nodup) (hps : placements es = .ok ps) (hpts : points ps = .ok pts)
include nodup hps hpts

theorem exists_site (hd : d ∈ pts) : ∃ s ∈ sites es,
    d = pointOf ps s ∧ d.path = s.path es ∧ d.entries.Perm (s.entries es) := by
  have agree := ((placements_eq_ok_iff nodup).mp hps).1
  have perm := placements_perm_map nodup hps
  obtain ⟨s, hs, rfl⟩ := List.mem_map.mp ((points_perm_sites agree perm hpts).mem_iff.mp hd)
  refine ⟨s, hs, rfl, path_pointOf agree perm s, ?_⟩
  cases s with
  | plain e => exact .refl _
  | anchor a => exact entries_anchoredAt? agree perm a

theorem exists_point (he : e ∈ es) : ∃ d ∈ pts, e ∈ d.entries := by
  have perm := (points_entries_perm hpts).trans (placements_placed nodup hps).1
  exact List.mem_flatMap.mp (perm.mem_iff.mpr he)

theorem path_of_mem_entries (hd : d ∈ pts) (he : e ∈ d.entries) : d.path = mountPoint es e := by
  obtain ⟨s, hs, -, hpath, hperm⟩ := exists_site nodup hps hpts hd
  rw [hpath, path_eq_mountPoint nodup hs (hperm.mem_iff.mp he)]

theorem alone_iff (hd : d ∈ pts) (he : e ∈ d.entries) : d.entries = [e] ↔ ¬Meets es e := by
  obtain ⟨s, hs, -, -, hperm⟩ := exists_site nodup hps hpts hd
  rw [← entries_eq_singleton_iff nodup hs (hperm.mem_iff.mp he)]
  constructor
  · intro h
    rw [h] at hperm
    exact List.perm_singleton.mp hperm.symm
  · intro h
    rw [h] at hperm
    exact List.perm_singleton.mp hperm

theorem plain_mem_points (he : e ∈ es) (h : anchorOf? es e = none) : .plain e ∈ pts := by
  obtain ⟨d, hd, hed⟩ := exists_point nodup hps hpts he
  obtain ⟨s, -, rfl, -, hperm⟩ := exists_site nodup hps hpts hd
  have hes := hperm.mem_iff.mp hed
  cases s with
  | plain e' =>
    obtain rfl := List.mem_singleton.mp hes
    exact hd
  | anchor a =>
    have ha := (mem_meeting.mp hes).2
    rw [h] at ha
    cases ha

theorem not_related_of_mem (hd : d ∈ pts) (hq : q ∈ pts) (hed : e ∈ d.entries)
    (heq : e ∈ q.entries) : ¬d.Related q := by
  rw [Point.related_iff, path_of_mem_entries nodup hps hpts hd hed,
    path_of_mem_entries nodup hps hpts hq heq, Path.isNested_self]
  simp

theorem isolated_iff (sound : ∀ p ∈ pts, p.Sound es) (hd : d ∈ pts) (halone : d.entries = [e]) :
    Isolated es e ↔ ∀ q ∈ pts, ¬d.Related q := by
  have hed : e ∈ d.entries := by simp [halone]
  have htarget : mountPoint es e = e.target :=
    if_neg ((alone_iff nodup hps hpts hd hed).mp halone)
  have hrelated {e' : Entry} {q : Point} (hq : q ∈ pts) (he' : e' ∈ q.entries) : ¬d.Related q ↔
      Path.isNested (mountPoint es e').toList e.target.toList = false ∧
        Path.isNested e.target.toList (mountPoint es e').toList = false := by
    rw [Point.related_iff, path_of_mem_entries nodup hps hpts hd hed,
      path_of_mem_entries nodup hps hpts hq he', htarget, not_or, Bool.not_eq_true,
      Bool.not_eq_true]
  constructor
  · intro h q hq
    obtain ⟨e', he'⟩ := List.exists_mem_of_ne_nil _ (sound q hq).entries_ne_nil
    by_cases heq : e' = e
    · exact not_related_of_mem nodup hps hpts hd hq hed (heq ▸ he')
    · exact (hrelated hq he').mpr (h e' ((sound q hq).mem e' he') heq)
  · intro h e' he' hne
    obtain ⟨q, hq, heq⟩ := exists_point nodup hps hpts he'
    exact (hrelated hq heq).mp (h q hq)

end

/-! ## Kept declarations -/

/-- The mount of a declaration is there with its volume, and stands for it alone. -/
def Untouched (owned : List (List Entry)) (out : List (Manifest.Mount × Option Manifest.Volume))
    (e : Entry) : Prop :=
  ([e], verbatim e) ∈ owned.zip out

theorem untouched_iff {container : String} {es : List Entry} {owned : List (List Entry)}
    {out : List (Manifest.Mount × Option Manifest.Volume)} {e : Entry}
    (h : List.Forall₂ (Realises container es) owned out) : Untouched owned out e ↔ [e] ∈ owned := by
  refine ⟨fun he => (List.of_mem_zip he).1, fun he => ?_⟩
  unfold Untouched
  induction h with
  | nil => cases he
  | cons hx _ ih =>
    rw [List.zip_cons_cons]
    rcases List.mem_cons.mp he with rfl | he
    · cases hx with
      | verbatim => exact List.mem_cons_self
      | projected _ hlen => simp at hlen
    · exact List.mem_cons_of_mem _ (ih he)

section
variable {plans : List Plan} {l : List Point} {e : Entry}
variable (h : finalPoints plans = .ok l)
include h

theorem eq_of_mem_entries {p q : Point} (hp : p ∈ l) (hq : q ∈ l) (hep : e ∈ p.entries)
    (heq : e ∈ q.entries) : p = q := by
  by_contra hne
  have hdisjoint := (nodup_entries_finalPoints h).2
  have : Std.Symm fun p q : Point => p.entries.Disjoint q.entries := ⟨fun _ _ => List.Disjoint.symm⟩
  exact hdisjoint.forall hp hq hne hep heq

variable (canonical : ∀ p ∈ plans, Path.Canonical p.mount.path.toList)
include canonical

theorem finalPoints_traced : ∃ ps pts, placements (entriesFrom 0 plans) = .ok ps ∧
    points ps = .ok pts ∧ (∀ p ∈ pts, p.Sound (entriesFrom 0 plans)) ∧ Traced pts l := by
  obtain ⟨ps, hps, h⟩ := bind_eq_ok.mp h
  obtain ⟨pts, hpts, h⟩ := bind_eq_ok.mp h
  obtain ⟨kept, hkept, h⟩ := bind_eq_ok.mp h
  cases h
  obtain ⟨perm, placed⟩ := placements_placed (nodup_entriesFrom plans) hps
  have hcanonical := points_canonical placed (canonical_target canonical) hpts
  refine ⟨ps, pts, hps, hpts, points_sound perm placed hpts, ?_⟩
  exact (fold_traced hcanonical hkept).congr (fun p => mem_sortBy) fun p => mem_sortBy.symm

variable (he : e ∈ entriesFrom 0 plans)
include he

theorem alone_of_no_anchor (hnone : anchorOf? (entriesFrom 0 plans) e = none) :
    [e] ∈ l.map Point.entries := by
  obtain ⟨ps, pts, hps, hpts, -, traced⟩ := finalPoints_traced h canonical
  have hplain := plain_mem_points (nodup_entriesFrom plans) hps hpts he hnone
  exact List.mem_map.mpr ⟨.plain e, traced.plain e hplain, rfl⟩

/-- Whatever is folded ends up with a declaration that lies under its target or over it. -/
theorem alone_mem_iff : [e] ∈ l.map Point.entries ↔
    ¬Meets (entriesFrom 0 plans) e ∧ Isolated (entriesFrom 0 plans) e := by
  obtain ⟨ps, pts, hps, hpts, sound, traced⟩ := finalPoints_traced h canonical
  have nodup := nodup_entriesFrom plans
  obtain ⟨d, hd, hed⟩ := exists_point nodup hps hpts he
  constructor
  · intro hmem
    obtain ⟨k, hk, hke⟩ := List.mem_map.mp hmem
    have hek : e ∈ k.entries := by simp [hke]
    -- no other point has put anything into the one of this declaration
    have hkept : d ∈ l ∧ ∀ q ∈ pts, ¬d.Related q := by
      refine (traced.fate d hd).resolve_right ?_
      rintro ⟨k', hk', q, hq, hrel, hsub, hsub'⟩
      obtain rfl := eq_of_mem_entries h hk' hk (hsub hed) hek
      obtain ⟨e', he'⟩ := List.exists_mem_of_ne_nil _ (sound q hq).entries_ne_nil
      have heq : e' = e := by simpa [hke] using hsub' he'
      exact not_related_of_mem nodup hps hpts hd hq hed (heq ▸ he') hrel
    have halone : d.entries = [e] := eq_of_mem_entries h hkept.1 hk hed hek ▸ hke
    exact ⟨(alone_iff nodup hps hpts hd hed).mp halone,
      (isolated_iff nodup hps hpts sound hd halone).mpr hkept.2⟩
  · rintro ⟨hfree, hisolated⟩
    have halone := (alone_iff nodup hps hpts hd hed).mpr hfree
    have hapart := (isolated_iff nodup hps hpts sound hd halone).mp hisolated
    rcases traced.fate d hd with ⟨hkept, -⟩ | ⟨k, -, q, hq, hrel, -⟩
    · exact List.mem_map.mpr ⟨d, hkept, halone⟩
    · exact absurd hrel (hapart q hq)

end

/-! ## Nothing to merge -/

theorem pairwise_entriesFrom (plans : List Plan) :
    (entriesFrom 0 plans).Pairwise fun e e' => e.position < e'.position := by
  have hpositions : (entriesFrom 0 plans).map Entry.position = List.range' 0 plans.length := by
    rw [entriesFrom_eq, List.map_map]
    exact List.zipIdx_map_snd 0 plans
  rw [← List.pairwise_map (f := Entry.position) (R := (· < ·)), hpositions]
  exact List.pairwise_lt_range'

theorem map_plan_entriesFrom (plans : List Plan) :
    (entriesFrom 0 plans).map Entry.plan = plans := by
  rw [entriesFrom_eq, List.map_map]
  exact List.zipIdx_map_fst 0 plans

theorem emit_of_alone {container : String} {n : Nat} {l : List Point}
    (alone : ∀ p ∈ l, ∃ e, p.entries = [e]) :
    emit container n l = (l.flatMap Point.entries).map verbatim := by
  induction n, l using emit.induct with
  | case1 n => rfl
  | case2 n e l ih =>
    rw [emit, ih fun p hp => alone p (List.mem_cons_of_mem _ hp)]
    rfl
  | case3 n d m l ih =>
    rw [emit, ih fun p hp => alone p (List.mem_cons_of_mem _ hp)]
    rfl
  | case4 n d ms l hms ih =>
    obtain ⟨e, he⟩ := alone _ List.mem_cons_self
    obtain ⟨m, rfl, -⟩ := List.map_eq_singleton_iff.mp he
    exact absurd rfl (hms m)

theorem flatMap_entries_of_alone {plans : List Plan} {l : List Point}
    (h : finalPoints plans = .ok l) (alone : ∀ p ∈ l, ∃ e, p.entries = [e]) :
    l.flatMap Point.entries = entriesFrom 0 plans := by
  have hsorted : (l.flatMap Point.entries).Pairwise fun e e' => e.position < e'.position := by
    refine List.pairwise_flatMap.mpr ⟨ordered_finalPoints h, ?_⟩
    refine (List.pairwise_map.mp (precedes_finalPoints h)).imp_of_mem fun {p q} hp _ hpq => ?_
    obtain ⟨e, he, hlt⟩ := hpq
    obtain ⟨e', halone⟩ := alone p hp
    rw [halone] at he ⊢
    obtain rfl := List.mem_singleton.mp he
    exact List.forall_mem_singleton.mpr hlt
  refine (finalPoints_entries_perm h).eq_of_pairwise ?_ hsorted (pairwise_entriesFrom plans)
  intro e e' _ _ hlt hgt
  omega

/-! ## Merging -/

structure MergedOnDemand (container : String) (plans : List Plan) (r : Result)
    (owned : List (List Entry)) (out : List (Manifest.Mount × Option Manifest.Volume)) : Prop
    extends Realised container plans r owned out where
  fixed : ∀ e ∈ entriesFrom 0 plans, ¬e.Projectable ∨ e.InRoot (entriesFrom 0 plans) →
    Untouched owned out e
  untouched_iff : ∀ e ∈ entriesFrom 0 plans, Untouched owned out e ↔
    ¬Meets (entriesFrom 0 plans) e ∧ Isolated (entriesFrom 0 plans) e
  unmerged : (∀ e ∈ entriesFrom 0 plans, ¬Meets (entriesFrom 0 plans) e ∧
      ∀ e' ∈ entriesFrom 0 plans, Path.isNested e'.target.toList e.target.toList = false) →
    r.mounts = plans.map Plan.mount

section
variable {container : String} {plans : List Plan}
variable (canonical : ∀ p ∈ plans, Path.Canonical p.mount.path.toList)
include canonical

theorem anchorOf?_of_fixed {ps : List Placement} (h : placements (entriesFrom 0 plans) = .ok ps)
    {e : Entry} (he : e ∈ entriesFrom 0 plans)
    (fixed : ¬e.Projectable ∨ e.InRoot (entriesFrom 0 plans)) :
    anchorOf? (entriesFrom 0 plans) e = none := by
  rcases fixed with hn | hroot
  · have agree := ((placements_eq_ok_iff (nodup_entriesFrom plans)).mp h).1
    have hshared : ¬Shared (entriesFrom 0 plans) e := fun hs =>
      hn (projectable_of_shared agree he hs)
    rw [anchorOf?, if_neg hshared, if_neg hn]
  · exact anchorOf?_of_inRoot hroot (canonical_target canonical e he)

/-- What cannot meet others keeps its mount. Any other declaration keeps it exactly if none has the
same anchor and no mount point lies under its target or over it. -/
theorem mounts_mergedOnDemand {r : Result} (h : mounts container plans = .ok r) :
    ∃ owned out, MergedOnDemand container plans r owned out := by
  obtain ⟨l, hl, rfl⟩ := map_eq_ok.mp h
  have realised : Realised container plans _ _ _ := realised_result hl
  have kept (e : Entry) : Untouched (l.map Point.entries) (emit container 0 l) e ↔
      [e] ∈ l.map Point.entries := untouched_iff realised.each
  refine ⟨_, _, realised, ?_, ?_, ?_⟩
  · intro e he hfixed
    obtain ⟨ps, -, hps, -⟩ := finalPoints_traced hl canonical
    have hnone := anchorOf?_of_fixed canonical hps he hfixed
    exact (kept e).mpr (alone_of_no_anchor hl canonical he hnone)
  · intro e he
    rw [kept, alone_mem_iff hl canonical he]
  · intro apart
    have hpoint {e : Entry} (he : e ∈ entriesFrom 0 plans) :
        mountPoint (entriesFrom 0 plans) e = e.target := if_neg (apart e he).1
    have alone : ∀ p ∈ l, ∃ e, p.entries = [e] := by
      intro p hp
      obtain ⟨e, hep⟩ := List.exists_mem_of_ne_nil _ (finalPoints_sound hl p hp).entries_ne_nil
      have he := (finalPoints_sound hl p hp).mem e hep
      have hisolated : Isolated (entriesFrom 0 plans) e := by
        intro e' he' _
        rw [hpoint he']
        exact ⟨(apart e he).2 e' he', (apart e' he').2 e he⟩
      obtain ⟨k, hk, hke⟩ :=
        List.mem_map.mp ((alone_mem_iff hl canonical he).mpr ⟨(apart e he).1, hisolated⟩)
      refine ⟨e, ?_⟩
      rw [← hke, eq_of_mem_entries hl hp hk hep (by simp [hke])]
    calc (result container l).mounts
        = ((entriesFrom 0 plans).map verbatim).map Prod.fst := by
          rw [realised.mounts, emit_of_alone alone, flatMap_entries_of_alone hl alone]
      _ = ((entriesFrom 0 plans).map Entry.plan).map Plan.mount := by
          rw [List.map_map, List.map_map]
          rfl
      _ = plans.map Plan.mount := by rw [map_plan_entriesFrom]

end

theorem mounts_mergedOnDemand_of_three_files :
    let plans : List Plan := [
      ⟨.file 0, ⟨"f0", "/etc/app/a", some "a", some true⟩, some ⟨"f0", .configMap "f0" none⟩⟩,
      ⟨.volume 0, ⟨"data", "/data", none, none⟩, none⟩,
      ⟨.file 1, ⟨"f1", "/banner", some "banner", some true⟩, some ⟨"f1", .configMap "f1" none⟩⟩,
      ⟨.file 2, ⟨"f2", "/etc/app/d/b", some "b", some true⟩, some ⟨"f2", .configMap "f2" none⟩⟩,
      ⟨.file 3, ⟨"f3", "/etc/app/c", some "c", some true⟩, some ⟨"f3", .configMap "f3" none⟩⟩,
      ⟨.file 4, ⟨"f4", "/srv/x", some "x", some true⟩, some ⟨"f4", .configMap "f4" none⟩⟩]
    (∀ p ∈ plans, Path.Canonical p.mount.path.toList) ∧ ∃ r, mounts "web" plans = .ok r ∧
      r.mounts.map Manifest.Mount.name = ["web-projected-0", "data", "f1", "f4"] ∧
      ∃ owned out, MergedOnDemand "web" plans r owned out := by
  intro plans
  have canonical : ∀ p ∈ plans, Path.Canonical p.mount.path.toList := by decide +kernel
  have names : (mounts "web" plans).map (fun r => r.mounts.map Manifest.Mount.name) =
      .ok ["web-projected-0", "data", "f1", "f4"] := by decide +kernel
  obtain ⟨r, hr, hnames⟩ := map_eq_ok.mp names
  exact ⟨canonical, r, hr, hnames, mounts_mergedOnDemand canonical hr⟩

end Merge
end Stowage
