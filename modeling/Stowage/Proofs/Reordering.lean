import Stowage.Proofs.Gathering

/-!
# Declarations in another order

Declarations that are the same up to order and numbering are placed alike, meet in the same points
and are folded alike. Each stage is a run over a list that either fails for both orders or gives the
same things for both.
-/

namespace Stowage.Merge

/-! ## Declarations without positions -/

namespace Entry
variable (e : Entry)

@[simp] theorem source?_unnumbered : e.unnumbered.source? = e.source? := rfl

@[simp] theorem subPath_unnumbered : e.unnumbered.subPath = e.subPath := rfl

@[simp] theorem target_unnumbered : e.unnumbered.target = e.target := rfl

end Entry

def Placement.unnumbered : Placement → Placement
  | .plain e => .plain e.unnumbered
  | .anchored a m => .anchored a m.unnumbered

theorem map_unnumbered_entriesFrom (n : Nat) (plans : List Plan) :
    (entriesFrom n plans).map Entry.unnumbered = plans.map (Entry.mk 0) := by
  induction plans generalizing n with
  | nil => rfl
  | cons p plans ih => rw [entriesFrom, List.map_cons, List.map_cons, ih, Entry.unnumbered]

/-! ## Placements -/

def placeIn (target : String) (e : Entry) : Placement :=
  match e.source?, e.subPath with
  | none, _ => .plain e
  | some s, some key => .anchored target (.ofKey e s key key)
  | some s, none => .anchored target ⟨e, s, none⟩

theorem placeIn_unnumbered (target : String) (e : Entry) :
    placeIn target e.unnumbered = (placeIn target e).unnumbered := by
  unfold placeIn
  rw [e.source?_unnumbered, e.subPath_unnumbered]
  cases e.source? with
  | none => rfl
  | some s => cases e.subPath <;> rfl

theorem placeAlone_unnumbered (e : Entry) :
    placeAlone e.unnumbered = (placeAlone e).unnumbered := by
  unfold placeAlone
  rw [e.source?_unnumbered, e.subPath_unnumbered, e.target_unnumbered]
  cases e.source? with
  | none => rfl
  | some s =>
    cases e.subPath with
    | none => rfl
    | some key =>
      simp only
      cases Path.parent? e.target.toList <;> rfl

theorem placeShared_cons_eq_ok {target : String} {e : Entry} {l : List Entry}
    {seen : List (Option String)} {ps : List Placement} :
    placeShared target seen (e :: l) = .ok ps ↔ e.source?.isSome = true ∧ e.subPath ∉ seen ∧
      ∃ ps', placeShared target (e.subPath :: seen) l = .ok ps' ∧ placeIn target e :: ps' = ps := by
  rw [placeShared, placeIn]
  cases hs : e.source? with
  | none => simp
  | some s =>
    by_cases hseen : e.subPath ∈ seen
    · simp [hseen]
    · have hcontains : seen.contains e.subPath = false := by simpa using hseen
      simp only [hcontains, Bool.false_eq_true, if_false, map_eq_ok, Option.isSome_some, hseen,
        not_false_eq_true, true_and]
      cases e.subPath <;> rfl

theorem placeShared_eq_ok_iff {target : String} {l : List Entry} {seen : List (Option String)}
    {ps : List Placement} : placeShared target seen l = .ok ps ↔
      (∀ e ∈ l, e.source?.isSome = true ∧ e.subPath ∉ seen) ∧ (l.map Entry.subPath).Nodup ∧
        ps = l.map (placeIn target) := by
  induction l generalizing seen ps with
  | nil =>
    constructor
    · rintro ⟨⟩
      simp
    · rintro ⟨-, -, rfl⟩
      rfl
  | cons e l ih =>
    rw [placeShared_cons_eq_ok, List.map_cons, List.nodup_cons]
    constructor
    · rintro ⟨hs, hseen, ps', hps, rfl⟩
      obtain ⟨hall, hnodup, rfl⟩ := ih.mp hps
      refine ⟨fun e' he' => ?_, ⟨fun hm => ?_, hnodup⟩, rfl⟩
      · rcases List.mem_cons.mp he' with rfl | he'
        · exact ⟨hs, hseen⟩
        · exact ⟨(hall e' he').1, fun h => (hall e' he').2 (List.mem_cons_of_mem _ h)⟩
      · obtain ⟨e', he', heq⟩ := List.mem_map.mp hm
        exact (hall e' he').2 (heq ▸ List.mem_cons_self)
    · rintro ⟨hall, ⟨hm, hnodup⟩, rfl⟩
      obtain ⟨hs, hseen⟩ := hall e List.mem_cons_self
      refine ⟨hs, hseen, _, ih.mpr ⟨fun e' he' => ?_, hnodup, rfl⟩, rfl⟩
      obtain ⟨hs', hseen'⟩ := hall e' (List.mem_cons_of_mem e he')
      refine ⟨hs', fun h => ?_⟩
      rcases List.mem_cons.mp h with heq | h
      · exact hm (List.mem_map.mpr ⟨e', he', heq⟩)
      · exact hseen' h

theorem placeGroup_of_several {target : String} {l : List Entry} (h : ∀ e, l ≠ [e]) :
    placeGroup target l = placeShared target [] l :=
  match l, h with
  | [], _ => rfl
  | [e], h => absurd rfl (h e)
  | _ :: _ :: _, _ => rfl

theorem placeGroup_perm {target : String} {l l' : List Entry} {ps : List Placement}
    (perm : (l.map Entry.unnumbered).Perm (l'.map Entry.unnumbered))
    (h : placeGroup target l = .ok ps) : ∃ ps', placeGroup target l' = .ok ps' ∧
      (ps.map Placement.unnumbered).Perm (ps'.map Placement.unnumbered) := by
  have hlen : l.length = l'.length := by simpa using perm.length_eq
  rcases singletons_or_several hlen with ⟨e, e', rfl, rfl⟩ | ⟨hl, hl'⟩
  · have he : e.unnumbered = e'.unnumbered := by simpa using perm
    cases h
    refine ⟨[placeAlone e'], rfl, ?_⟩
    rw [List.map_singleton, List.map_singleton, ← placeAlone_unnumbered, he,
      placeAlone_unnumbered]
  · rw [placeGroup_of_several hl, placeShared_eq_ok_iff] at h
    obtain ⟨hall, hnodup, rfl⟩ := h
    have hsub (l : List Entry) : l.map Entry.subPath =
        (l.map Entry.unnumbered).map Entry.subPath := by
      rw [List.map_map]
      rfl
    have hplace (l : List Entry) : (l.map (placeIn target)).map Placement.unnumbered =
        (l.map Entry.unnumbered).map (placeIn target) := by
      rw [List.map_map, List.map_map]
      exact List.map_congr_left fun e _ => (placeIn_unnumbered target e).symm
    refine ⟨l'.map (placeIn target), ?_, ?_⟩
    · rw [placeGroup_of_several hl', placeShared_eq_ok_iff]
      refine ⟨fun e' he' => ⟨?_, List.not_mem_nil⟩, ?_, rfl⟩
      · obtain ⟨e, he, heq⟩ := List.mem_map.mp (perm.mem_iff.mpr (List.mem_map_of_mem he'))
        rw [← e'.source?_unnumbered, ← heq]
        exact (hall e he).1
      · rw [hsub] at hnodup ⊢
        exact (perm.map _).nodup_iff.mp hnodup
    · rw [hplace, hplace]
      exact perm.map _

theorem placements_perm {es es' : List Entry} {ps : List Placement}
    (perm : (es.map Entry.unnumbered).Perm (es'.map Entry.unnumbered))
    (h : placements es = .ok ps) : ∃ ps', placements es' = .ok ps' ∧
      (ps.map Placement.unnumbered).Perm (ps'.map Placement.unnumbered) := by
  obtain ⟨groups, hgroups, rfl⟩ := map_eq_ok.mp h
  have htarget (es : List Entry) : es.map Entry.target =
      (es.map Entry.unnumbered).map Entry.target := by
    rw [List.map_map]
    rfl
  have htargets : (targets es).Perm (targets es') := by
    unfold targets
    rw [htarget es, htarget es']
    exact eraseDups_perm (perm.map _)
  have hgroup (t : String) (es : List Entry) : (es.filter (·.target = t)).map Entry.unnumbered =
      (es.map Entry.unnumbered).filter (·.target = t) := by
    rw [List.filter_map]
    rfl
  let seen (ps : List Placement) : Multiset Placement := ps.map Placement.unnumbered
  have agree : ∀ t ps, placeGroup t (es.filter (·.target = t)) = .ok ps →
      ∃ ps', placeGroup t (es'.filter (·.target = t)) = .ok ps' ∧ seen ps = seen ps' := by
    intro t ps hps
    have hsame : ((es.filter (·.target = t)).map Entry.unnumbered).Perm
        ((es'.filter (·.target = t)).map Entry.unnumbered) := by
      rw [hgroup, hgroup]
      exact perm.filter _
    obtain ⟨ps', hps', hperm⟩ := placeGroup_perm hsame hps
    exact ⟨ps', hps', Multiset.coe_eq_coe.mpr hperm⟩
  obtain ⟨groups', hgroups', hperm⟩ := mapM_perm htargets hgroups agree
  refine ⟨groups'.flatten, map_eq_ok.mpr ⟨groups', hgroups', rfl⟩, ?_⟩
  have hjoin (groups : List (List Placement)) :
      ((groups.flatten.map Placement.unnumbered : List Placement) : Multiset Placement) =
        Multiset.join (groups.map seen : List (Multiset Placement)) := by
    rw [List.map_flatten, ← Multiset.coe_join, List.map_map]
    rfl
  rw [← Multiset.coe_eq_coe, hjoin, hjoin, Multiset.coe_eq_coe.mpr hperm]

/-! ## Points -/

theorem path_projection_of_several {dir : String} {ms : List Member} (h : ∀ m, ms ≠ [m]) :
    (Point.projection dir ms).path = dir :=
  match ms, h with
  | [], _ => rfl
  | [m], h => absurd rfl (h m)
  | _ :: _ :: _, _ => rfl

section
variable {dir : String} {ms ms' : List Member}
variable (perm : (ms.map Member.unnumbered).Perm (ms'.map Member.unnumbered))
include perm

theorem path_projection_congr :
    (Point.projection dir ms).path = (Point.projection dir ms').path := by
  have hlen : ms.length = ms'.length := by simpa using perm.length_eq
  rcases singletons_or_several hlen with ⟨m, m', rfl, rfl⟩ | ⟨hms, hms'⟩
  · have hm : m.unnumbered = m'.unnumbered := by simpa using perm
    have hkeyed := congrArg Member.isKeyed hm
    have htarget := congrArg (·.entry.target) hm
    change m.isKeyed = m'.isKeyed at hkeyed
    change m.entry.target = m'.entry.target at htarget
    rw [Point.path, Point.path, hkeyed, htarget]
  · rw [path_projection_of_several hms, path_projection_of_several hms']

theorem view_projection_congr :
    (Point.projection dir ms).view = (Point.projection dir ms').view := by
  have hlen : ms.length = ms'.length := by simpa using perm.length_eq
  have hwhole : ms.any Member.isWhole = ms'.any Member.isWhole := by
    have hany := perm.any_eq (f := Member.isWhole)
    rw [List.any_map, List.any_map] at hany
    exact hany
  have hkeyed : ms.all Member.isKeyed = ms'.all Member.isKeyed := by
    have hall := perm.all_eq (f := Member.isKeyed)
    rw [List.all_map, List.all_map] at hall
    exact hall
  simp only [Point.view, View.mk.injEq, path_projection_congr perm, Point.aggregates,
    Point.isKeyed, hlen, hwhole, hkeyed, Point.dir, Point.plan?, Point.members, true_and]
  exact Multiset.coe_eq_coe.mpr perm

end

theorem firstOverlap?_eq_none_iff {earlier l : List Member} : firstOverlap? earlier l = none ↔
    (∀ m ∈ l, ∀ e ∈ earlier, m.overlaps e = false) ∧
      l.Pairwise fun e m => m.overlaps e = false := by
  induction l generalizing earlier with
  | nil => simp [firstOverlap?]
  | cons m l ih =>
    unfold firstOverlap?
    by_cases h : earlier.any (m.overlaps ·) = true
    · obtain ⟨e, he, hover⟩ := List.any_eq_true.mp h
      rw [if_pos h]
      refine ⟨fun hn => (by cases hn), fun h => ?_⟩
      rw [h.1 m List.mem_cons_self e he] at hover
      cases hover
    · have hfree : ∀ e ∈ earlier, m.overlaps e = false := by simpa using h
      rw [if_neg h, ih, List.pairwise_cons]
      constructor
      · rintro ⟨hall, hpair⟩
        refine ⟨fun m' hm' e he => ?_, fun m' hm' => ?_, hpair⟩
        · rcases List.mem_cons.mp hm' with rfl | hm'
          · exact hfree e he
          · exact hall m' hm' e (List.mem_append_left _ he)
        · exact hall m' hm' m (List.mem_append_right _ List.mem_cons_self)
      · rintro ⟨hall, hm, hpair⟩
        refine ⟨fun m' hm' e he => ?_, hpair⟩
        rcases List.mem_append.mp he with he | he
        · exact hall m' (List.mem_cons_of_mem m hm') e he
        · obtain rfl := List.mem_singleton.mp he
          exact hm m' hm'

theorem Member.overlaps_comm (m m' : Member) : m.overlaps m' = m'.overlaps m := by
  unfold overlaps
  rw [Bool.or_comm, Bool.beq_comm]

theorem filterMap_anchoredAt?_unnumbered (ps : List Placement) (a : String) :
    (ps.filterMap (anchoredAt? a)).map Member.unnumbered =
      (ps.map Placement.unnumbered).filterMap (anchoredAt? a) := by
  rw [List.map_filterMap, List.filterMap_map]
  refine List.filterMap_congr fun p _ => ?_
  cases p with
  | plain e => rfl
  | anchored b m => by_cases h : b = a <;> simp [anchoredAt?, Placement.unnumbered, h]

section
variable {ps ps' : List Placement}
variable (perm : (ps.map Placement.unnumbered).Perm (ps'.map Placement.unnumbered))
include perm

theorem pointAt_perm {a : String} {p : Point} (h : pointAt ps a = .ok p) :
    ∃ p', pointAt ps' a = .ok p' ∧ p.view = p'.view := by
  have hmembers : ((inOrder (ps.filterMap (anchoredAt? a))).map Member.unnumbered).Perm
      ((inOrder (ps'.filterMap (anchoredAt? a))).map Member.unnumbered) := by
    refine ((inOrder_perm _).map _).trans (.trans ?_ ((inOrder_perm _).map _).symm)
    rw [filterMap_anchoredAt?_unnumbered, filterMap_anchoredAt?_unnumbered]
    exact perm.filterMap _
  have hpairs (l : List Member) : (l.Pairwise fun e m => m.overlaps e = false) ↔
      (l.map Member.unnumbered).Pairwise fun e m => m.overlaps e = false := by
    rw [List.pairwise_map]
    rfl
  unfold pointAt at h ⊢
  simp only at h ⊢
  cases hfirst : firstOverlap? [] (inOrder (ps.filterMap (anchoredAt? a))) with
  | some m => simp [hfirst] at h
  | none =>
    simp only [hfirst, Except.ok.injEq] at h
    obtain ⟨-, hpair⟩ := firstOverlap?_eq_none_iff.mp hfirst
    have hnone : firstOverlap? [] (inOrder (ps'.filterMap (anchoredAt? a))) = none := by
      refine firstOverlap?_eq_none_iff.mpr ⟨fun m _ e he => absurd he List.not_mem_nil, ?_⟩
      rw [hpairs] at hpair ⊢
      refine (hmembers.pairwise_iff fun {m m'} hm => ?_).mp hpair
      rwa [Member.overlaps_comm]
    rw [hnone, ← h]
    exact ⟨_, rfl, view_projection_congr hmembers⟩

theorem points_perm {pts : List Point} (h : points ps = .ok pts) :
    ∃ pts', points ps' = .ok pts' ∧ views pts = views pts' := by
  obtain ⟨joined, hjoined, rfl⟩ := map_eq_ok.mp h
  have hanchor (ps : List Placement) :
      ps.filterMap anchor? = (ps.map Placement.unnumbered).filterMap anchor? := by
    rw [List.filterMap_map]
    exact List.filterMap_congr fun p _ => by cases p <;> rfl
  have hanchors : (anchors ps).Perm (anchors ps') := by
    unfold anchors
    rw [hanchor ps, hanchor ps']
    exact eraseDups_perm (perm.filterMap _)
  have hplain (ps : List Placement) : (ps.filterMap plain?).map Point.view =
      ((ps.map Placement.unnumbered).filterMap plain?).map Point.view := by
    rw [List.filterMap_map, List.map_filterMap, List.map_filterMap]
    exact List.filterMap_congr fun p _ => by cases p <;> rfl
  obtain ⟨joined', hjoined', hperm⟩ := mapM_perm hanchors hjoined fun a p => pointAt_perm perm
  refine ⟨_, map_eq_ok.mpr ⟨joined', hjoined', rfl⟩, ?_⟩
  rw [views, views, Multiset.coe_eq_coe, List.map_append, List.map_append, hplain ps, hplain ps']
  exact ((perm.filterMap plain?).map Point.view).append hperm

end

/-! ## The final points -/

theorem fold_perm {pts pts' kept : List Point} (canonical : ∀ p ∈ pts, p.view.Canonical)
    (same : views pts = views pts') (h : fold pts = .ok kept) :
    ∃ kept', fold pts' = .ok kept' ∧ views kept = views kept' := by
  have canonical' : ∀ p ∈ pts', p.view.Canonical := by
    intro p' hp'
    have hv : p'.view ∈ views pts := same ▸ mem_views.mpr ⟨p', hp', rfl⟩
    obtain ⟨p, hp, hview⟩ := mem_views.mp hv
    exact hview ▸ canonical p hp
  obtain ⟨hgather, hfold⟩ := fold_iff_foldable canonical
  obtain ⟨hgather', hfold'⟩ := fold_iff_foldable canonical'
  obtain ⟨kept', h'⟩ := hfold'.mpr (same ▸ hfold.mp ⟨kept, h⟩)
  exact ⟨kept', h', by rw [hgather kept h, hgather' kept' h', same]⟩

theorem canonical_target {plans : List Plan}
    (canonical : ∀ p ∈ plans, Path.Canonical p.mount.path.toList) :
    ∀ e ∈ entriesFrom 0 plans, Path.Canonical e.target.toList :=
  fun e he => canonical e.plan (List.mem_of_getElem? (mem_entriesFrom.mp he))

theorem points_canonical {es : List Entry} {ps : List Placement} {pts : List Point}
    (placed : ∀ p ∈ ps, Placed es p) (canonical : ∀ e ∈ es, Path.Canonical e.target.toList)
    (h : points ps = .ok pts) : ∀ p ∈ pts, p.view.Canonical := by
  intro p hp
  obtain ⟨e, he, hpath⟩ := points_path placed h p hp
  rcases hpath with hpath | hpath
  · rw [View.Canonical, Point.view, hpath]
    exact canonical e he
  · exact (canonical e he).parent hpath

theorem finalPoints_perm {plans plans' : List Plan} {l : List Point} (perm : plans.Perm plans')
    (canonical : ∀ p ∈ plans, Path.Canonical p.mount.path.toList) (h : finalPoints plans = .ok l) :
    ∃ l', finalPoints plans' = .ok l' ∧ views l = views l' := by
  obtain ⟨ps, hps, h⟩ := bind_eq_ok.mp h
  obtain ⟨pts, hpts, h⟩ := bind_eq_ok.mp h
  obtain ⟨kept, hkept, h⟩ := bind_eq_ok.mp h
  cases h
  have hentries : ((entriesFrom 0 plans).map Entry.unnumbered).Perm
      ((entriesFrom 0 plans').map Entry.unnumbered) := by
    rw [map_unnumbered_entriesFrom, map_unnumbered_entriesFrom]
    exact perm.map _
  have hcanonical : ∀ p ∈ pts, p.view.Canonical := by
    obtain ⟨-, placed⟩ := placements_placed (nodup_entriesFrom plans) hps
    exact points_canonical placed (canonical_target canonical) hpts
  obtain ⟨ps', hps', hplaced⟩ := placements_perm hentries hps
  obtain ⟨pts', hpts', hviews⟩ := points_perm hplaced hpts
  obtain ⟨kept', hkept', hkeptViews⟩ := fold_perm hcanonical hviews hkept
  have hdeclared (l : List Point) : views (byDeclaration l) = views l :=
    Multiset.coe_eq_coe.mpr ((sortBy_perm l).map Point.view)
  refine ⟨byDeclaration kept', ?_, by rw [hdeclared, hdeclared, hkeptViews]⟩
  simp only [finalPoints, hps', hpts', hkept', bind, Except.bind]

end Stowage.Merge
