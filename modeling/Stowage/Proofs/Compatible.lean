import Stowage.Proofs.Ownership
import Stowage.Proofs.Reordering

/-!
# Mounts without conflict

Which mounts can be merged is told by the declarations alone: by those that share a target, by those
that meet at an anchor, and by how the mount points lie to each other. Where nothing is wrong with
these, merging succeeds, whatever the run has folded before it looks at a point.
-/

namespace Stowage.Merge

/-! ## The policy -/

def Entry.Projectable (e : Entry) : Prop :=
  (∃ v object mode, e.plan.volume = some v ∧ Manifest.Backs v.source object mode) ∧
    ∀ key, e.subPath = some key → '/' ∉ key.toList

theorem sourceOf?_of_backs {v : Manifest.VolumeSource} {object : Manifest.ProjectedObject}
    {mode : Option Int} (h : Manifest.Backs v object mode) : sourceOf? v = some ⟨object, mode⟩ := by
  cases h <;> rfl

theorem Entry.projectable_iff {e : Entry} : e.Projectable ↔ e.source?.isSome = true := by
  have hslash : (∀ key, e.subPath = some key → '/' ∉ key.toList) ↔
      e.subPath.any (·.toList.contains '/') = false := by
    cases e.subPath <;> simp
  unfold Projectable source?
  rw [hslash]
  cases e.subPath.any (·.toList.contains '/') with
  | true => simp
  | false =>
    constructor
    · rintro ⟨⟨v, object, mode, hv, hback⟩, -⟩
      simp [hv, sourceOf?_of_backs hback]
    · intro hs
      obtain ⟨s, hs⟩ := Option.isSome_iff_exists.mp hs
      obtain ⟨v, hv, hs⟩ := Option.bind_eq_some_iff.mp hs
      exact ⟨⟨v, s.object, s.mode, hv, backs_of_sourceOf? hs⟩, rfl⟩

instance (e : Entry) : Decidable e.Projectable := decidable_of_iff _ Entry.projectable_iff.symm

def anchorOf? (es : List Entry) (e : Entry) : Option String :=
  if Shared es e then some e.target
  else if e.Projectable then
    match e.subPath with
    | none => some e.target
    | some _ => (Path.parent? e.target.toList).map String.ofList
  else none

def meeting (es : List Entry) (anchor : String) : List Entry :=
  es.filter (anchorOf? es · = some anchor)

def anchorsOf (es : List Entry) : List String := (es.filterMap (anchorOf? es)).eraseDups

/-- A declaration that meets no others, or an anchor with those that meet there. -/
inductive Site
  | plain (e : Entry)
  | anchor (dir : String)
deriving DecidableEq

def sites (es : List Entry) : List Site :=
  (es.filter (anchorOf? es · = none)).map .plain ++ (anchorsOf es).map .anchor

namespace Site

/-- The mount point. A key that no other declaration meets stays at its target. -/
def path (es : List Entry) : Site → String
  | plain e => e.target
  | anchor dir =>
    match meeting es dir with
    | [e] => if e.subPath.isSome ∧ ¬Shared es e then e.target else dir
    | _ => dir

def gathers (es : List Entry) : Site → Bool
  | plain _ => false
  | anchor dir => 1 < (meeting es dir).length || (meeting es dir).any (·.subPath.isNone)

def keyed (es : List Entry) : Site → Bool
  | plain _ => false
  | anchor dir => (meeting es dir).all (·.subPath.isSome)

end Site

/-- Declarations of one target can be projected and ask for different things. -/
def TargetsAgree (es : List Entry) : Prop :=
  ∀ e ∈ es, ∀ e' ∈ es, e ≠ e' → e.target = e'.target → e.Projectable ∧ e.subPath ≠ e'.subPath

/-- Not two mounts of one volume, at least one of them whole. -/
def Entry.Tolerates (e e' : Entry) : Prop :=
  e.volumeName = e'.volumeName → e.subPath.isSome = true ∧ e'.subPath.isSome = true

instance : Std.Symm Entry.Tolerates := ⟨fun _ _ h hn => (h hn.symm).symm⟩

instance (e e' : Entry) : Decidable (e.Tolerates e') :=
  inferInstanceAs (Decidable (e.volumeName = e'.volumeName → _))

def VolumesAgree (es : List Entry) : Prop :=
  ∀ a ∈ anchorsOf es, (meeting es a).Pairwise Entry.Tolerates

/-- Sites have mount points of their own, and lie under each other only where the outer one is a
directory to which the inner one adds items. -/
def SitesAgree (es : List Entry) : Prop :=
  ∀ s ∈ sites es, ∀ t ∈ sites es, s ≠ t → s.path es ≠ t.path es ∧
    (Path.isNested (t.path es).toList (s.path es).toList = true →
      s.gathers es = true ∧ t.keyed es = true)

structure Compatible (es : List Entry) : Prop where
  targets : TargetsAgree es
  volumes : VolumesAgree es
  sites : SitesAgree es

section
variable (es : List Entry)

instance : Decidable (TargetsAgree es) :=
  inferInstanceAs (Decidable (∀ e ∈ es, ∀ e' ∈ es, _))

instance : Decidable (VolumesAgree es) := inferInstanceAs (Decidable (∀ a ∈ anchorsOf es, _))

instance : Decidable (SitesAgree es) :=
  inferInstanceAs (Decidable (∀ s ∈ sites es, ∀ t ∈ sites es, _))

end

/-! ## Places -/

def placeOf (es : List Entry) (e : Entry) : Placement :=
  if Shared es e then placeIn e.target e else placeAlone e

theorem placeOf_cases {es : List Entry} {e : Entry} (h : Shared es e → e.Projectable) :
    (anchorOf? es e = none ∧ placeOf es e = .plain e) ∨
      ∃ a m, anchorOf? es e = some a ∧ placeOf es e = .anchored a m ∧ m.entry = e ∧
        m.isKeyed = e.subPath.isSome := by
  unfold anchorOf? placeOf
  by_cases hshared : Shared es e
  · obtain ⟨s, hs⟩ := Option.isSome_iff_exists.mp (Entry.projectable_iff.mp (h hshared))
    rw [if_pos hshared, if_pos hshared, placeIn, hs]
    right
    cases e.subPath with
    | none => exact ⟨_, _, rfl, rfl, rfl, rfl⟩
    | some key => exact ⟨_, _, rfl, rfl, rfl, rfl⟩
  · rw [if_neg hshared, if_neg hshared, placeAlone]
    by_cases hp : e.Projectable
    · obtain ⟨s, hs⟩ := Option.isSome_iff_exists.mp (Entry.projectable_iff.mp hp)
      rw [if_pos hp, hs]
      cases e.subPath with
      | none => exact .inr ⟨_, _, rfl, rfl, rfl, rfl⟩
      | some key =>
        simp only
        cases Path.parent? e.target.toList with
        | none => exact .inl ⟨rfl, rfl⟩
        | some dir => exact .inr ⟨_, _, rfl, rfl, rfl, rfl⟩
    · have hs : e.source? = none := by simpa [Entry.projectable_iff] using hp
      rw [if_neg hp, hs]
      exact .inl ⟨rfl, rfl⟩

theorem placeShared_iff_agree {t : String} {l : List Entry} {ps : List Placement} (nodup : l.Nodup)
    (same : ∀ e ∈ l, e.target = t) (several : ∀ e, l ≠ [e]) :
    placeShared t [] l = .ok ps ↔ TargetsAgree l ∧ ps = l.map (placeIn t) := by
  rw [placeShared_eq_ok_iff, ← and_assoc, List.nodup_map_iff_inj_on nodup]
  apply and_congr_left
  intro _
  constructor
  · rintro ⟨hall, hinj⟩ e he e' he' hne -
    refine ⟨Entry.projectable_iff.mpr (hall e he).1, ?_⟩
    intro hsub
    exact hne (hinj e he e' he' hsub)
  · intro agree
    constructor
    · intro e he
      obtain ⟨e', he', hne⟩ := exists_ne_of_nodup nodup several he
      have ht := (same e he).trans (same e' he').symm
      exact ⟨Entry.projectable_iff.mp (agree e he e' he' hne.symm ht).1, List.not_mem_nil⟩
    · intro e he e' he' hsub
      by_contra hne
      exact (agree e he e' he' hne ((same e he).trans (same e' he').symm)).2 hsub

section
variable {es : List Entry} (nodup : es.Nodup)
include nodup

theorem placeGroup_eq_ok_iff {t : String} {ps : List Placement} :
    placeGroup t (es.filter (·.target = t)) = .ok ps ↔
      TargetsAgree (es.filter (·.target = t)) ∧
        ps = (es.filter (·.target = t)).map (placeOf es) := by
  have hmem {e : Entry} : e ∈ es.filter (·.target = t) ↔ e ∈ es ∧ e.target = t := by simp
  have hgroup := nodup.filter (·.target = t)
  by_cases hone : ∃ e, es.filter (·.target = t) = [e]
  · obtain ⟨e, he⟩ := hone
    have hn : ¬Shared es e := by
      rintro ⟨e', he', hne, ht⟩
      have : e.target = t := (hmem.mp (by simp [he])).2
      have : e' ∈ es.filter (·.target = t) := hmem.mpr ⟨he', ht.trans this⟩
      exact hne (by simpa [he] using this)
    have alone : TargetsAgree [e] := by simp [TargetsAgree]
    rw [he, List.map_singleton, placeOf, if_neg hn, and_iff_right alone]
    show Except.ok [placeAlone e] = .ok ps ↔ _
    rw [Except.ok.injEq, eq_comm]
  · have several : ∀ e, es.filter (·.target = t) ≠ [e] := fun e he => hone ⟨e, he⟩
    have hplaces : (es.filter (·.target = t)).map (placeOf es) =
        (es.filter (·.target = t)).map (placeIn t) := by
      apply List.map_congr_left
      intro e he
      obtain ⟨e', he', hne⟩ := exists_ne_of_nodup hgroup several he
      have ht := (hmem.mp he).2
      rw [placeOf, if_pos ⟨e', (hmem.mp he').1, hne, (hmem.mp he').2.trans ht.symm⟩, ht]
    rw [placeGroup_of_several several, hplaces]
    exact placeShared_iff_agree hgroup (fun e he => (hmem.mp he).2) several

theorem placements_eq_ok_iff {ps : List Placement} : placements es = .ok ps ↔
    TargetsAgree es ∧
      ps = (targets es).flatMap fun t => (es.filter (·.target = t)).map (placeOf es) := by
  have hgroups {r : List (List Placement)} := mapM_eq_ok_iff (l := targets es) (r := r) fun t _ _ =>
    placeGroup_eq_ok_iff nodup (t := t)
  have hagree : (∀ t ∈ targets es, TargetsAgree (es.filter (·.target = t))) ↔
      TargetsAgree es := by
    constructor
    · intro h e he e' he' hne ht
      have htarget : e.target ∈ targets es := by
        rw [targets, List.mem_eraseDups]
        exact List.mem_map_of_mem he
      exact h e.target htarget e (by simp [he]) e' (by simp [he', ht]) hne ht
    · intro h t _ e he e' he'
      exact h e (List.mem_filter.mp he).1 e' (List.mem_filter.mp he').1
  rw [placements, map_eq_ok]
  constructor
  · rintro ⟨r, hr, rfl⟩
    obtain ⟨h, rfl⟩ := hgroups.mp hr
    exact ⟨hagree.mp h, List.flatMap_def.symm⟩
  · rintro ⟨h, rfl⟩
    exact ⟨_, hgroups.mpr ⟨hagree.mpr h, rfl⟩, List.flatMap_def.symm⟩

theorem placements_perm_map {ps : List Placement} (h : placements es = .ok ps) :
    ps.Perm (es.map (placeOf es)) := by
  obtain ⟨-, rfl⟩ := (placements_eq_ok_iff nodup).mp h
  rw [← List.map_flatMap]
  refine (flatMap_filter_perm Entry.target (nodup_eraseDups _) fun e he => ?_).map _
  rw [List.mem_eraseDups]
  exact List.mem_map_of_mem he

end

/-! ## Meeting at an anchor -/

section
variable {es : List Entry} {ps : List Placement} (agree : TargetsAgree es)
variable (perm : ps.Perm (es.map (placeOf es)))

include agree in
theorem projectable_of_shared {e : Entry} (he : e ∈ es) (h : Shared es e) : e.Projectable := by
  obtain ⟨e', he', hne, ht⟩ := h
  exact (agree e he e' he' hne.symm ht.symm).1

include agree perm

theorem entries_anchoredAt? (a : String) :
    ((inOrder (ps.filterMap (anchoredAt? a))).map Member.entry).Perm (meeting es a) := by
  have hplaces := ((inOrder_perm _).trans (perm.filterMap (anchoredAt? a))).map Member.entry
  refine hplaces.trans (.of_eq ?_)
  rw [List.filterMap_map, List.map_filterMap, meeting, ← List.filterMap_eq_filter]
  apply List.filterMap_congr
  intro e he
  rcases placeOf_cases (projectable_of_shared agree he) with ⟨ha, hp⟩ | ⟨b, m, hb, hp, hm, -⟩
  · simp [Option.guard, ha, hp, anchoredAt?]
  · by_cases hba : b = a
    · simp [Option.guard, hb, hp, anchoredAt?, hba, hm]
    · simp [Option.guard, hb, hp, anchoredAt?, hba]

theorem isKeyed_of_mem_anchoredAt? {a : String} {m : Member}
    (h : m ∈ inOrder (ps.filterMap (anchoredAt? a))) : m.isKeyed = m.entry.subPath.isSome := by
  have hm := mem_filterMap_anchoredAt?.mp ((inOrder_perm _).mem_iff.mp h)
  obtain ⟨e, he, hp⟩ := List.mem_map.mp (perm.mem_iff.mp hm)
  rcases placeOf_cases (projectable_of_shared agree he) with ⟨-, hp'⟩ | ⟨b, m', -, hp', hm', hk⟩
  · rw [hp'] at hp
    cases hp
  · rw [hp'] at hp
    cases hp
    rw [hk, hm']

theorem anchors_perm : (anchors ps).Perm (anchorsOf es) := by
  unfold anchors anchorsOf
  apply eraseDups_perm
  refine (perm.filterMap anchor?).trans (.of_eq ?_)
  rw [List.filterMap_map]
  apply List.filterMap_congr
  intro e he
  rcases placeOf_cases (projectable_of_shared agree he) with ⟨ha, hp⟩ | ⟨b, m, hb, hp, -, -⟩
  · rw [Function.comp_apply, hp, ha]
    rfl
  · rw [Function.comp_apply, hp, hb]
    rfl

theorem plain_perm : (ps.filterMap plain?).Perm
    ((es.filter (anchorOf? es · = none)).map .plain) := by
  refine (perm.filterMap plain?).trans (.of_eq ?_)
  rw [List.filterMap_map, ← List.filterMap_eq_filter, List.map_filterMap]
  apply List.filterMap_congr
  intro e he
  rcases placeOf_cases (projectable_of_shared agree he) with ⟨ha, hp⟩ | ⟨b, m, hb, hp, -, -⟩
  · simp [Option.guard, ha, hp, plain?]
  · simp [Option.guard, hb, hp, plain?]

end

/-! ## Points of the sites -/

theorem Member.isWhole_eq (m : Member) : m.isWhole = !m.isKeyed := by
  unfold isWhole isKeyed
  cases m.items <;> rfl

theorem Member.overlaps_eq_false_iff {m m' : Member} (h : m.isKeyed = m.entry.subPath.isSome)
    (h' : m'.isKeyed = m'.entry.subPath.isSome) :
    m.overlaps m' = false ↔ m.entry.Tolerates m'.entry := by
  unfold overlaps Entry.Tolerates
  rw [isWhole_eq, isWhole_eq, h, h']
  simp

def pointOf (ps : List Placement) : Site → Point
  | .plain e => .plain e
  | .anchor a => .projection a (inOrder (ps.filterMap (anchoredAt? a)))

section
variable {es : List Entry} {ps : List Placement} (agree : TargetsAgree es)
variable (perm : ps.Perm (es.map (placeOf es)))
include agree perm

theorem pointAt_eq_ok_iff {a : String} {p : Point} : pointAt ps a = .ok p ↔
    (meeting es a).Pairwise Entry.Tolerates ∧ p = pointOf ps (.anchor a) := by
  have hpair : (inOrder (ps.filterMap (anchoredAt? a))).Pairwise
      (fun m m' => m'.overlaps m = false) ↔ (meeting es a).Pairwise Entry.Tolerates := by
    rw [← (entries_anchoredAt? agree perm a).pairwise_iff fun h => Std.Symm.symm _ _ h,
      List.pairwise_map]
    refine List.Pairwise.iff_of_mem fun {m m'} hm hm' => ?_
    rw [Member.overlaps_comm]
    exact Member.overlaps_eq_false_iff (isKeyed_of_mem_anchoredAt? agree perm hm)
      (isKeyed_of_mem_anchoredAt? agree perm hm')
  rw [← hpair]
  unfold pointAt
  simp only
  cases hfirst : firstOverlap? [] (inOrder (ps.filterMap (anchoredAt? a))) with
  | none =>
    have hnone := (firstOverlap?_eq_none_iff.mp hfirst).2
    simp only [hnone, true_and, Except.ok.injEq]
    exact eq_comm
  | some m =>
    have hsome : ¬(inOrder (ps.filterMap (anchoredAt? a))).Pairwise
        fun m m' => m'.overlaps m = false := by
      intro h
      rw [firstOverlap?_eq_none_iff.mpr ⟨fun _ _ _ he => absurd he List.not_mem_nil, h⟩] at hfirst
      cases hfirst
    simp [hsome]

theorem points_eq_ok_iff {l : List Point} : points ps = .ok l ↔ VolumesAgree es ∧
    l = ps.filterMap plain? ++ (anchors ps).map fun a => pointOf ps (.anchor a) := by
  have hpoints {r : List Point} := mapM_eq_ok_iff (l := anchors ps) (r := r) fun a _ _ =>
    pointAt_eq_ok_iff agree perm (a := a)
  have hagree : (∀ a ∈ anchors ps, (meeting es a).Pairwise Entry.Tolerates) ↔
      VolumesAgree es := by
    have hanchors := anchors_perm agree perm
    exact forall_congr' fun a => by rw [hanchors.mem_iff]
  rw [points, map_eq_ok]
  constructor
  · rintro ⟨r, hr, rfl⟩
    obtain ⟨h, rfl⟩ := hpoints.mp hr
    exact ⟨hagree.mp h, rfl⟩
  · rintro ⟨h, rfl⟩
    exact ⟨_, hpoints.mpr ⟨hagree.mpr h, rfl⟩, rfl⟩

theorem points_perm_sites {l : List Point} (h : points ps = .ok l) :
    l.Perm ((sites es).map (pointOf ps)) := by
  obtain ⟨-, rfl⟩ := (points_eq_ok_iff agree perm).mp h
  rw [sites, List.map_append, List.map_map, List.map_map]
  exact (plain_perm agree perm).append ((anchors_perm agree perm).map _)

theorem path_pointOf (s : Site) : (pointOf ps s).path = s.path es := by
  cases s with
  | plain e => rfl
  | anchor a =>
    have hentries := entries_anchoredAt? agree perm a
    have hkeyed {m : Member} := isKeyed_of_mem_anchoredAt? agree perm (a := a) (m := m)
    simp only [pointOf, Site.path]
    rcases singletons_or_several (by simpa using hentries.length_eq) with
      ⟨m, e, hms, hes⟩ | ⟨hms, hes⟩
    · rw [hms] at hentries hkeyed ⊢
      rw [hes] at hentries ⊢
      have he : m.entry = e := by simpa using hentries
      have hk : m.isKeyed = e.subPath.isSome := he ▸ hkeyed List.mem_cons_self
      simp only [Point.path, hk, he]
      -- a shared target is the anchor itself, so both cases give the same path
      by_cases hs : Shared es e
      · have hmem : e ∈ meeting es a := by simp [hes]
        have ha : anchorOf? es e = some a := by simpa using (List.mem_filter.mp hmem).2
        rw [anchorOf?, if_pos hs, Option.some.injEq] at ha
        simp [ha]
      · simp [hs]
    · rw [path_projection_of_several hms]
      cases hl : meeting es a with
      | nil => rfl
      | cons e l =>
        cases l with
        | nil => exact absurd hl (hes e)
        | cons e' l => rfl

theorem isKeyed_pointOf (s : Site) : (pointOf ps s).isKeyed = s.keyed es := by
  cases s with
  | plain e => rfl
  | anchor a =>
    have hkeyed : ∀ m ∈ inOrder (ps.filterMap (anchoredAt? a)),
        m.isKeyed = m.entry.subPath.isSome := fun m => isKeyed_of_mem_anchoredAt? agree perm
    have hall := (entries_anchoredAt? agree perm a).all_eq (f := fun e => e.subPath.isSome)
    rw [List.all_map] at hall
    rw [Site.keyed, ← hall]
    show (inOrder (ps.filterMap (anchoredAt? a))).all Member.isKeyed = _
    rw [Bool.eq_iff_iff, List.all_eq_true, List.all_eq_true]
    exact forall₂_congr fun m hm => by rw [hkeyed m hm, Function.comp_apply]

theorem aggregates_pointOf (s : Site) : (pointOf ps s).aggregates = s.gathers es := by
  cases s with
  | plain e => rfl
  | anchor a =>
    have hlen := (entries_anchoredAt? agree perm a).length_eq
    have hkeyed := congrArg not (isKeyed_pointOf agree perm (.anchor a))
    rw [List.length_map] at hlen
    simp only [pointOf, Point.isKeyed, Site.keyed, List.not_all_eq_any_not,
      ← Member.isWhole_eq] at hkeyed
    simp only [pointOf, Point.aggregates, Site.gathers, hlen, hkeyed, Option.not_isSome]

end

/-! ## Folding -/

/-- Points that may both be there, with `p` folded into `o` if it lies under it. -/
def Point.Admits (o p : Point) : Prop :=
  o.path ≠ p.path ∧ (Path.isNested p.path.toList o.path.toList = true →
    o.aggregates = true ∧ p.isKeyed = true)

/-- Each kept point stands where one of the points `done` does, and is a directory if that is. -/
def KeptFrom (done kept : List Point) : Prop :=
  ∀ k ∈ kept, ∃ d ∈ done, d.path = k.path ∧ (d.aggregates = true → k.aggregates = true)

theorem addPoint_of_admits {done kept : List Point} {p : Point} (hfrom : KeptFrom done kept)
    (admits : ∀ d ∈ done, d.Admits p) :
    ∃ kept', addPoint kept p = .ok kept' ∧ KeptFrom (done ++ [p]) kept' := by
  unfold addPoint
  cases houter : outer? kept p with
  | none =>
    refine ⟨_, rfl, ?_⟩
    intro k hk
    rcases List.mem_append.mp hk with hk | hk
    · obtain ⟨d, hd, hdk⟩ := hfrom k hk
      exact ⟨d, List.mem_append_left _ hd, hdk⟩
    · obtain rfl := List.mem_singleton.mp hk
      exact ⟨k, by simp, rfl, id⟩
  | some o =>
    obtain ⟨ho, hcov⟩ := mem_of_outer?_eq_some houter
    -- what is asked of the point that `o` comes from still holds of `o`
    obtain ⟨d, hd, hpath, hdagg⟩ := hfrom o ho
    obtain ⟨hne, hnested⟩ := admits d hd
    rw [hpath] at hne hnested
    have hin : Path.isNested p.path.toList o.path.toList = true := by
      simpa [covers, hne] using hcov
    have hagg : o.aggregates = true := hdagg (hnested hin).1
    simp only [if_neg hne, hagg, (hnested hin).2, Bool.and_self, if_true]
    refine ⟨_, rfl, ?_⟩
    intro k hk
    obtain ⟨k', hk', rfl⟩ := List.mem_map.mp hk
    by_cases hsame : k'.path = o.path
    · rw [if_pos hsame]
      refine ⟨d, List.mem_append_left _ hd, hpath.trans (path_absorb hagg p).symm, ?_⟩
      exact fun _ => aggregates_absorb hagg p
    · rw [if_neg hsame]
      obtain ⟨d', hd', hdk⟩ := hfrom k' hk'
      exact ⟨d', List.mem_append_left _ hd', hdk⟩

theorem foldlM_of_admits {l : List Point} (admits : l.Pairwise Point.Admits) :
    ∃ kept, l.foldlM addPoint [] = .ok kept ∧ KeptFrom l kept := by
  induction l using List.reverseRecOn with
  | nil => exact ⟨[], rfl, fun k hk => absurd hk List.not_mem_nil⟩
  | append_singleton done p ih =>
    obtain ⟨hdone, -, hlast⟩ := List.pairwise_append.mp admits
    obtain ⟨kept, hkept, hfrom⟩ := ih hdone
    obtain ⟨kept', hadd, hfrom'⟩ := addPoint_of_admits hfrom fun d hd =>
      hlast d hd p List.mem_cons_self
    exact ⟨kept', foldlM_concat_eq_ok.mpr ⟨kept, hkept, hadd⟩, hfrom'⟩

/-! ## Merging -/

section
variable {es : List Entry} (nodup : es.Nodup)
include nodup

theorem nodup_sites : (sites es).Nodup := by
  unfold sites
  refine List.nodup_append.mpr ⟨?_, ?_, ?_⟩
  · exact (nodup.filter _).map fun e e' h => by cases h; rfl
  · exact (nodup_eraseDups _).map fun a a' h => by cases h; rfl
  · intro s hs t ht hst
    obtain ⟨e, -, rfl⟩ := List.mem_map.mp hs
    obtain ⟨a, -, rfl⟩ := List.mem_map.mp ht
    cases hst

theorem fold_of_compatible (h : Compatible es) {ps : List Placement} {l : List Point}
    (hps : placements es = .ok ps) (hl : points ps = .ok l) : ∃ kept, fold l = .ok kept := by
  have perm := placements_perm_map nodup hps
  have hsites : (sites es).Pairwise fun s t =>
      (pointOf ps s).Admits (pointOf ps t) ∧ (pointOf ps t).Admits (pointOf ps s) := by
    have admits : ∀ s ∈ sites es, ∀ t ∈ sites es, s ≠ t →
        (pointOf ps s).Admits (pointOf ps t) := by
      intro s hs t ht hst
      unfold Point.Admits
      rw [path_pointOf h.targets perm, path_pointOf h.targets perm,
        aggregates_pointOf h.targets perm, isKeyed_pointOf h.targets perm]
      exact h.sites s hs t ht hst
    exact (nodup_sites nodup).pairwise_of_forall_ne fun s hs t ht hst =>
      ⟨admits s hs t ht hst, admits t ht s hs hst.symm⟩
  have hout : (outward l).Perm ((sites es).map (pointOf ps)) :=
    (sortBy_perm l).trans (points_perm_sites h.targets perm hl)
  have hpair : (outward l).Pairwise fun o p => o.Admits p ∧ p.Admits o :=
    (hout.pairwise_iff fun h => h.symm).mpr (List.pairwise_map.mpr hsites)
  obtain ⟨kept, hkept, -⟩ := foldlM_of_admits (hpair.imp And.left)
  exact ⟨kept, hkept⟩

end

/-- Compatible mounts are merged. What can be merged agrees at each target and at each anchor. -/
theorem mounts_of_compatible (container : String) (plans : List Plan) :
    (Compatible (entriesFrom 0 plans) → ∃ r, mounts container plans = .ok r) ∧
      ((∃ r, mounts container plans = .ok r) →
        TargetsAgree (entriesFrom 0 plans) ∧ VolumesAgree (entriesFrom 0 plans)) := by
  have nodup := nodup_entriesFrom plans
  constructor
  · intro h
    obtain ⟨ps, hps⟩ : ∃ ps, placements (entriesFrom 0 plans) = .ok ps :=
      ⟨_, (placements_eq_ok_iff nodup).mpr ⟨h.targets, rfl⟩⟩
    have perm := placements_perm_map nodup hps
    obtain ⟨l, hl⟩ : ∃ l, points ps = .ok l :=
      ⟨_, (points_eq_ok_iff h.targets perm).mpr ⟨h.volumes, rfl⟩⟩
    obtain ⟨kept, hkept⟩ := fold_of_compatible nodup h hps hl
    refine ⟨result container (byDeclaration kept), map_eq_ok.mpr ⟨_, ?_, rfl⟩⟩
    exact bind_eq_ok.mpr ⟨ps, hps, bind_eq_ok.mpr ⟨l, hl, bind_eq_ok.mpr ⟨kept, hkept, rfl⟩⟩⟩
  · rintro ⟨r, hr⟩
    obtain ⟨final, hfinal, -⟩ := map_eq_ok.mp hr
    obtain ⟨ps, hps, h⟩ := bind_eq_ok.mp hfinal
    obtain ⟨l, hl, -⟩ := bind_eq_ok.mp h
    have agree := ((placements_eq_ok_iff nodup).mp hps).1
    exact ⟨agree, ((points_eq_ok_iff agree (placements_perm_map nodup hps)).mp hl).1⟩

theorem mounts_of_compatible_of_secret :
    let plans : List Plan := [
      ⟨.volume 0, ⟨"certs", "/etc/app", none, none⟩, some ⟨"certs", .secret (some "certs") none⟩⟩,
      ⟨.volume 1, ⟨"logs", "/srv", none, none⟩, some ⟨"logs", .hostPath "/var/log"⟩⟩,
      ⟨.file 0, ⟨"f0", "/etc/app/a", some "a", some true⟩, some ⟨"f0", .configMap "f0" none⟩⟩,
      ⟨.file 1, ⟨"f1", "/etc/app/d/b", some "b", some true⟩, some ⟨"f1", .configMap "f1" none⟩⟩]
    Compatible (entriesFrom 0 plans) ∧ ∃ r, mounts "web" plans = .ok r := by
  intro plans
  have h : Compatible (entriesFrom 0 plans) :=
    ⟨by decide +kernel, by decide +kernel, by decide +kernel⟩
  exact ⟨h, (mounts_of_compatible "web" plans).1 h⟩

end Stowage.Merge
