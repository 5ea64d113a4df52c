import Stowage.Proofs.Anchoring

/-!
# Folding nested points

One step either keeps a point that no kept one covers, or moves its members into a kept one. The
kept points own every declaration once, hold it where it belongs, and none is covered by an earlier
one.
-/

namespace Stowage.Merge

/-! ## Covering points -/

theorem covers_iff {o p : Point} :
    covers o p = true ↔ Path.Within p.path.toList o.path.toList := by
  rw [Path.within_iff, covers, Bool.or_eq_true, decide_eq_true_eq, String.toList_inj]

theorem outer?_eq_none {kept : List Point} {p : Point} (h : outer? kept p = none) :
    ∀ k ∈ kept, covers k p = false := by
  have := eq_nil_of_foldl_eq_none (fun best k => ?_) h
  · simpa [List.filter_eq_nil_iff] using this
  · cases best with
    | none => simp
    | some b =>
      simp only
      split <;> simp

theorem mem_of_outer?_eq_some {kept : List Point} {p o : Point} (h : outer? kept p = some o) :
    o ∈ kept ∧ covers o p = true := by
  refine List.mem_filter.mp ((mem_of_foldl_eq_some (fun best k b hb => ?_) h).resolve_left ?_)
  · cases best with
    | none => exact .inl (Option.some.inj hb).symm
    | some b' =>
      simp only at hb
      split at hb
      · exact .inl (Option.some.inj hb).symm
      · exact .inr hb
  · simp

theorem addPoint_eq_ok {kept kept' : List Point} {p : Point} (h : addPoint kept p = .ok kept') :
    ((∀ k ∈ kept, covers k p = false) ∧ kept' = kept ++ [p]) ∨
      ∃ o ∈ kept, covers o p = true ∧ o.path ≠ p.path ∧ o.aggregates = true ∧ p.isKeyed = true ∧
        kept' = kept.map fun k => if k.path = o.path then absorb o p else k := by
  unfold addPoint at h
  cases ho : outer? kept p with
  | none =>
    simp only [ho, Except.ok.injEq] at h
    exact .inl ⟨outer?_eq_none ho, h.symm⟩
  | some o =>
    obtain ⟨hmem, hcov⟩ := mem_of_outer?_eq_some ho
    simp only [ho] at h
    split at h
    · cases h
    · next hne =>
      split at h
      · next hf =>
        simp only [Bool.and_eq_true] at hf
        simp only [Except.ok.injEq] at h
        exact .inr ⟨o, hmem, hcov, hne, hf.1, hf.2, h.symm⟩
      · cases h

/-! ## Moving members -/

theorem segments_below (way : List Char) (i : Manifest.Item) :
    Path.segments (below way i).path.toList =
      Path.segments way ++ Path.segments i.path.toList := by
  unfold below
  by_cases h : way = []
  · simp [h]
  · rw [if_neg (by simpa using h), String.toList_append, String.toList_append, String.toList_ofList,
      List.append_assoc]
    exact Path.segments_append_slash _ _

theorem Point.Sound.dir_within {es : List Entry} {p : Point} (h : p.Sound es)
    {outer : List Char} (hw : Path.Within p.path.toList outer) (hne : p.path.toList ≠ outer) :
    Path.Within p.dir.toList outer := by
  cases h with
  | plain => exact hw
  | @single dir m hm _ hd =>
    by_cases hk : m.isKeyed = true
    · obtain ⟨hsplit, -⟩ := Path.parent?_eq_some (hd hk)
      have hpath : (Point.projection dir [m]).path = m.entry.target := by simp [Point.path, hk]
      rw [hpath] at hw hne
      rw [hsplit] at hw hne
      exact hw.parent (Path.not_mem_baseName _) hne
    · have hpath : (Point.projection dir [m]).path = dir := by simp [Point.path, hk]
      rwa [hpath] at hw
  | @merged dir ms hlen _ =>
    rwa [path_eq_dir (by simp [Point.aggregates, hlen])] at hw

/-- A member as it stands from a directory that lies `way` above its own. -/
def Member.shift (way : List Char) (m : Member) : Member :=
  { m with items := m.items.map fun l => l.map (below way) }

theorem shifted_eq (o p : Point) : shifted o p =
    p.members.map (Member.shift (Path.relative p.dir.toList o.path.toList)) := rfl

theorem Member.Fits.shift {es : List Entry} {dir outer : String} {m : Member} (h : m.Fits es dir)
    (hk : m.isKeyed = true) (hw : Path.Within dir.toList outer.toList) :
    (m.shift (Path.relative dir.toList outer.toList)).Fits es outer := by
  rw [h.isKeyed] at hk
  refine ⟨h.mem, h.source, fun hn => ?_, fun key hkey => ?_⟩
  · have : m.entry.subPath = none := hn
    simp [this] at hk
  · obtain ⟨path, hitems, hloc⟩ := h.keyed key hkey
    let i : Manifest.Item := ⟨key, path, m.source.mode⟩
    refine ⟨(below (Path.relative dir.toList outer.toList) i).path, ?_, ?_⟩
    · simp only [Member.shift, hitems, Option.map_some, List.map_cons, List.map_nil,
        Option.some.injEq, List.cons.injEq, and_true]
      unfold below
      split <;> rfl
    · rw [segments_below, ← List.append_assoc, hw.segments_relative]
      exact hloc

section
variable {es : List Entry} {o p : Point} (ho : o.Sound es) (hp : p.Sound es)
variable (hcov : covers o p = true) (hne : o.path ≠ p.path)
variable (hagg : o.aggregates = true) (hkey : p.isKeyed = true)

theorem entries_absorb : (absorb o p).entries.Perm (o.members.map Member.entry ++
    p.members.map Member.entry) := by
  have := (inOrder_perm (o.members ++ shifted o p)).map Member.entry
  rw [List.map_append] at this
  have same : (shifted o p).map Member.entry = p.members.map Member.entry := by
    rw [shifted_eq, List.map_map]
    rfl
  rwa [same] at this

include hagg in
theorem path_eq_dir_of_aggregates : o.path = o.dir := by
  cases o with
  | plain e => cases hagg
  | projection dir ms => exact Point.Sound.path_eq_dir hagg

include hagg hkey in
theorem entries_absorb_perm : (absorb o p).entries.Perm (o.entries ++ p.entries) := by
  cases o with
  | plain e => cases hagg
  | projection dir ms =>
    cases p with
    | plain e => cases hkey
    | projection dir' ms' => exact entries_absorb

include ho hp hcov hne hagg hkey

theorem absorb_sound : (absorb o p).Sound es ∧ (absorb o p).path = o.path := by
  have hdir := path_eq_dir_of_aggregates hagg
  have hperm := inOrder_perm (o.members ++ shifted o p)
  have hlen : 1 < (inOrder (o.members ++ shifted o p)).length := by
    have h1 := List.length_pos_iff.mpr ho.entries_ne_nil
    have h2 := List.length_pos_iff.mpr hp.entries_ne_nil
    have h3 := (entries_absorb_perm hagg hkey).length_eq
    simp only [absorb, Point.entries, List.length_map, List.length_append] at h1 h2 h3 ⊢
    omega
  refine ⟨.merged hlen fun m hm => ?_, ?_⟩
  -- the outer members stay, and the inner ones move up by the way between the directories
  · rcases List.mem_append.mp (hperm.mem_iff.mp hm) with hm | hm
    · cases o with
      | plain e => cases hm
      | projection dir ms => exact ho.fits m hm
    · obtain ⟨m', hm', rfl⟩ := List.mem_map.mp hm
      cases p with
      | plain e => cases hm'
      | projection dir ms =>
        have hw := hp.dir_within (covers_iff.mp hcov) fun e => hne (String.toList_inj.mp e).symm
        have hk := List.all_eq_true.mp hkey m' hm'
        rw [← hdir]
        exact (hp.fits m' hm').shift hk hw
  · rw [hdir]
    exact Point.Sound.path_eq_dir (by simp [Point.aggregates, hlen])

end

/-! ## The run -/

/-- What the kept points are after the points `done`. -/
structure Settled (es : List Entry) (done kept : List Point) : Prop where
  entries : (kept.flatMap Point.entries).Perm (done.flatMap Point.entries)
  sound : ∀ k ∈ kept, k.Sound es
  paths : List.Sublist (kept.map Point.path) (done.map Point.path)
  apart : kept.Pairwise fun k k' => covers k k' = false

theorem Settled.nil {es : List Entry} : Settled es [] [] :=
  ⟨.refl _, by simp, .refl _, .nil⟩

theorem covers_congr {k k' o o' : Point} (h : k.path = o.path) (h' : k'.path = o'.path) :
    covers k k' = covers o o' := by
  unfold covers
  rw [h, h']

/-- Only the covering point has its path, so it alone takes the members. -/
theorem replace_eq {kept : List Point} (apart : kept.Pairwise fun k k' => covers k k' = false)
    {o q : Point} (ho : o ∈ kept) :
    ∃ l₁ l₂, kept = l₁ ++ o :: l₂ ∧
      (kept.map fun k => if k.path = o.path then q else k) = l₁ ++ q :: l₂ := by
  obtain ⟨l₁, l₂, rfl⟩ := List.append_of_mem ho
  obtain ⟨-, h₂, h₁₂⟩ := List.pairwise_append.mp apart
  have hcov {k k' : Point} (h : covers k k' = false) : k.path ≠ k'.path := by
    intro e
    simp [covers, e] at h
  have keep {l : List Point} (h : ∀ k ∈ l, k.path ≠ o.path) :
      l.map (fun k => if k.path = o.path then q else k) = l := by
    conv => rhs; rw [← List.map_id l]
    exact List.map_congr_left fun k hk => if_neg (h k hk)
  have e₁ := keep fun k hk => hcov (h₁₂ k hk o List.mem_cons_self)
  have e₂ := keep fun k hk => Ne.symm (hcov (List.rel_of_pairwise_cons h₂ hk))
  exact ⟨l₁, l₂, rfl, by simp [e₁, e₂]⟩

section
variable {es : List Entry} {done kept : List Point} {p : Point}
variable (h : Settled es done kept) (hp : p.Sound es)
include h hp

theorem Settled.keep (hcov : ∀ k ∈ kept, covers k p = false) :
    Settled es (done ++ [p]) (kept ++ [p]) where
  entries := by simpa using h.entries.append_right p.entries
  sound := by simpa [or_imp, forall_and] using ⟨h.sound, hp⟩
  paths := by simpa using h.paths.append (.refl [p.path])
  apart := by
    refine List.pairwise_append.mpr ⟨h.apart, List.pairwise_singleton _ _, ?_⟩
    simpa using hcov

theorem Settled.fold {o : Point} (ho : o ∈ kept) (hcov : covers o p = true) (hne : o.path ≠ p.path)
    (hagg : o.aggregates = true) (hkey : p.isKeyed = true) :
    Settled es (done ++ [p]) (kept.map fun k => if k.path = o.path then absorb o p else k) := by
  obtain ⟨hsound, hpath⟩ := absorb_sound (h.sound o ho) hp hcov hne hagg hkey
  have same : ∀ k : Point, (if k.path = o.path then absorb o p else k).path = k.path := by
    intro k
    split
    · next e => exact hpath.trans e.symm
    · rfl
  refine ⟨?_, ?_, ?_, ?_⟩
  · obtain ⟨l₁, l₂, rfl, hmap⟩ := replace_eq (q := absorb o p) h.apart ho
    have grow : (l₁.flatMap Point.entries ++
        ((absorb o p).entries ++ l₂.flatMap Point.entries)).Perm
        (l₁.flatMap Point.entries ++ (o.entries ++ l₂.flatMap Point.entries) ++ p.entries) := by
      rw [List.append_assoc, List.append_assoc]
      refine .append_left _ ?_
      refine ((entries_absorb_perm hagg hkey).append_right _).trans ?_
      rw [List.append_assoc]
      exact .append_left _ List.perm_append_comm
    have hentries := h.entries
    simp only [List.flatMap_append, List.flatMap_cons] at hentries
    rw [hmap, List.flatMap_append, List.flatMap_append, List.flatMap_cons, List.flatMap_singleton]
    exact grow.trans (hentries.append_right _)
  · intro k hk
    obtain ⟨k', hk', rfl⟩ := List.mem_map.mp hk
    split
    · exact hsound
    · exact h.sound k' hk'
  · have : (kept.map fun k => if k.path = o.path then absorb o p else k).map Point.path =
        kept.map Point.path := by
      rw [List.map_map]
      exact List.map_congr_left fun k _ => same k
    rw [this, List.map_append]
    exact h.paths.trans (List.sublist_append_left _ _)
  · refine List.pairwise_map.mpr (h.apart.imp fun {k k'} hkk => ?_)
    rwa [covers_congr (same k) (same k')]

theorem Settled.step {kept' : List Point} (hk : addPoint kept p = .ok kept') :
    Settled es (done ++ [p]) kept' := by
  rcases addPoint_eq_ok hk with ⟨hcov, rfl⟩ | ⟨o, ho, hcov, hne, hagg, hkey, rfl⟩
  · exact h.keep hp hcov
  · exact h.fold hp ho hcov hne hagg hkey

end

theorem fold_settled {es : List Entry} {l kept : List Point} (sound : ∀ p ∈ l, p.Sound es)
    (h : fold l = .ok kept) : Settled es (outward l) kept := by
  refine foldlM_induction (Settled es) h .nil fun done p kept kept' hp hs hk => hs.step ?_ hk
  exact sound p ((sortBy_perm l).mem_iff.mp hp)

/-! ## The final points -/

theorem finalPoints_settled {plans : List Plan} {l : List Point} (h : finalPoints plans = .ok l) :
    ∃ ps pts kept, (ps.map Placement.entry).Perm (entriesFrom 0 plans) ∧
      (∀ p ∈ ps, Placed (entriesFrom 0 plans) p) ∧ points ps = .ok pts ∧
      Settled (entriesFrom 0 plans) (outward pts) kept ∧ l = byDeclaration kept := by
  obtain ⟨ps, hps, h⟩ := bind_eq_ok.mp h
  obtain ⟨pts, hpts, h⟩ := bind_eq_ok.mp h
  obtain ⟨kept, hkept, h⟩ := bind_eq_ok.mp h
  cases h
  obtain ⟨perm, placed⟩ := placements_placed (nodup_entriesFrom plans) hps
  have sound := points_sound perm placed hpts
  exact ⟨ps, pts, kept, perm, placed, hpts, fold_settled sound hkept, rfl⟩

section
variable {plans : List Plan} {l : List Point} (h : finalPoints plans = .ok l)
include h

theorem finalPoints_sound : ∀ p ∈ l, p.Sound (entriesFrom 0 plans) := by
  obtain ⟨ps, pts, kept, -, -, -, hs, rfl⟩ := finalPoints_settled h
  exact fun p hp => hs.sound p (mem_sortBy.mp hp)

theorem finalPoints_entries_perm : (l.flatMap Point.entries).Perm (entriesFrom 0 plans) := by
  obtain ⟨ps, pts, kept, perm, -, hpts, hs, rfl⟩ := finalPoints_settled h
  have hout : ((outward pts).flatMap Point.entries).Perm (pts.flatMap Point.entries) :=
    (sortBy_perm pts).flatMap_right _
  have hkept := hs.entries.trans (hout.trans ((points_entries_perm hpts).trans perm))
  exact ((sortBy_perm kept).flatMap_right _).trans hkept

theorem finalPoints_path : ∀ p ∈ l, ∃ e ∈ entriesFrom 0 plans, p.path = e.target ∨
    Path.parent? e.target.toList = some p.path.toList := by
  obtain ⟨ps, pts, kept, -, placed, hpts, hs, rfl⟩ := finalPoints_settled h
  intro p hp
  obtain ⟨q, hq, hqp⟩ := List.mem_map.mp
    (hs.paths.subset (List.mem_map_of_mem (mem_sortBy.mp hp)))
  rw [← hqp]
  exact points_path placed hpts q (mem_sortBy.mp hq)

end

end Stowage.Merge
