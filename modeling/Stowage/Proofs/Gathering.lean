import Stowage.Proofs.Outermost

/-!
# Folding without an order

Folding keeps the outermost points and gives each of them the members of all the points that it
encloses. Whether it succeeds and what it keeps is told by the points alone, and not by their order.
-/

namespace Stowage.Merge

/-! ## Absorbing -/

theorem encloses_view (o p : Point) :
    o.view.encloses p.view = (covers o p && decide (o.path ≠ p.path)) := by
  unfold View.encloses covers Point.view
  by_cases h : o.path = p.path
  · simp [h]
  · simp [h]

theorem aggregates_absorb {o : Point} (hagg : o.aggregates = true) (p : Point) :
    (absorb o p).aggregates = true := by
  cases o with
  | plain e => cases hagg
  | projection dir ms =>
    have hperm := inOrder_perm ((Point.projection dir ms).members ++
      shifted (.projection dir ms) p)
    simp only [Point.aggregates, Bool.or_eq_true, decide_eq_true_eq, List.any_eq_true,
      Point.members] at hagg hperm
    simp only [absorb, Point.aggregates, Point.members, Bool.or_eq_true, decide_eq_true_eq,
      List.any_eq_true, hperm.length_eq, List.length_append]
    rcases hagg with hlen | ⟨m, hm, hwhole⟩
    · exact .inl (by omega)
    · exact .inr ⟨m, hperm.mem_iff.mpr (List.mem_append_left _ hm), hwhole⟩

theorem path_absorb {o : Point} (hagg : o.aggregates = true) (p : Point) :
    (absorb o p).path = o.path := by
  rw [path_eq_dir_of_aggregates hagg]
  exact Point.Sound.path_eq_dir (aggregates_absorb hagg p)

theorem isKeyed_absorb {o p : Point} (hagg : o.aggregates = true) (hkey : p.isKeyed = true) :
    (absorb o p).isKeyed = o.isKeyed := by
  cases o with
  | plain e => cases hagg
  | projection dir ms =>
    cases p with
    | plain e => cases hkey
    | projection dir' ms' =>
      have hperm := inOrder_perm (ms ++ shifted (.projection dir ms) (.projection dir' ms'))
      have hshift : ∀ m ∈ shifted (.projection dir ms) (.projection dir' ms'), m.isKeyed = true := by
        intro m hm
        obtain ⟨m', hm', rfl⟩ := List.mem_map.mp hm
        simpa [Member.isKeyed] using List.all_eq_true.mp hkey m' hm'
      rw [Bool.eq_iff_iff]
      simp only [absorb, Point.isKeyed, Point.members, List.all_eq_true]
      constructor
      · exact fun h m hm => h m (hperm.mem_iff.mpr (List.mem_append_left _ hm))
      · intro h m hm
        rcases List.mem_append.mp (hperm.mem_iff.mp hm) with hm | hm
        · exact h m hm
        · exact hshift m hm

theorem view_absorb {o p : Point} (hencl : o.view.encloses p.view = true)
    (hagg : o.aggregates = true) (hkey : p.isKeyed = true) :
    (absorb o p).view = o.view.receive p.view := by
  have hplan : o.plan? = none := by
    cases o with
    | plain e => cases hagg
    | projection dir ms => rfl
  have hmembers : (((absorb o p).members.map Member.unnumbered : List Member) : Multiset Member) =
      o.view.members + o.view.lifted p.view := by
    have hperm := (inOrder_perm (o.members ++ shifted o p)).map Member.unnumbered
    have hlift : (shifted o p).map Member.unnumbered = (p.members.map Member.unnumbered).map
        (Member.shift (Path.relative p.dir.toList o.path.toList)) := by
      rw [shifted_eq, List.map_map, List.map_map]
      rfl
    rw [List.map_append, hlift] at hperm
    exact Multiset.coe_eq_coe.mpr hperm
  rw [View.receive, if_pos hencl, ← hmembers]
  simp only [Point.view, View.mk.injEq, path_absorb hagg p, aggregates_absorb hagg p, hagg,
    isKeyed_absorb hagg hkey, hplan, true_and, and_true]
  exact ⟨rfl, rfl⟩

/-! ## The run -/

/-- What the kept points are after the points `done`. -/
structure Gathers (done kept : List Point) : Prop where
  foldable : View.Foldable (views done)
  kept : views kept = View.gathered (views done)

theorem Gathers.nil : Gathers [] [] where
  foldable := ⟨Multiset.nodup_zero, fun v hv => absurd hv (Multiset.notMem_zero v)⟩
  kept := rfl

namespace Gathers
variable {done kept kept' : List Point} {p o k : Point}
variable (h : Gathers done kept)
include h

theorem outermost_of_mem (hk : k ∈ kept) :
    ∃ r ∈ View.outermost (views done), View.gather (views done) r = k.view := by
  have hv : k.view ∈ views kept := mem_views.mpr ⟨k, hk, rfl⟩
  rw [h.kept] at hv
  exact Multiset.mem_map.mp hv

theorem mem_of_outermost {r : View} (hr : r ∈ View.outermost (views done)) :
    ∃ k ∈ kept, k.view = View.gather (views done) r := by
  have hv : View.gather (views done) r ∈ views kept := by
    rw [h.kept]
    exact Multiset.mem_map_of_mem _ hr
  exact mem_views.mp hv

theorem paths_nodup : (kept.map Point.path).Nodup := by
  have hpaths : ((kept.map Point.path : List String) : Multiset String) =
      (View.outermost (views done)).map View.path := by
    have hmap := congrArg (Multiset.map View.path) h.kept
    rw [View.gathered, Multiset.map_map, views, Multiset.map_coe, List.map_map] at hmap
    exact hmap
  rw [← Multiset.coe_nodup, hpaths]
  exact h.foldable.paths

variable (canonical : ∀ v ∈ views done, v.Canonical) (hp : p.view.Canonical)
variable (later : ∀ v ∈ views done, p.view.encloses v = false)
include canonical hp later

theorem keep (hcov : ∀ k ∈ kept, covers k p = false) : Gathers (done ++ [p]) (kept ++ [p]) := by
  have hfree : ∀ r ∈ View.outermost (views done),
      r.encloses p.view = false ∧ r.path ≠ p.view.path := by
    intro r hr
    obtain ⟨k, hk, hview⟩ := h.mem_of_outermost hr
    have hout : k.view.encloses p.view = false := by rw [encloses_view, hcov k hk, Bool.false_and]
    have hpath : k.path = r.path := congrArg View.path hview
    rw [hview] at hout
    refine ⟨hout, fun e => ?_⟩
    have hself : covers k p = true := by simp [covers, hpath.trans e, Point.view]
    rw [hcov k hk] at hself
    cases hself
  have hout : View.Outermost (views done) p.view := by
    intro u hu
    by_contra hup
    rw [Bool.not_eq_false] at hup
    obtain ⟨r, hr, hru⟩ := View.exists_outermost canonical hu
    have hrp : r.encloses p.view = true := by
      rcases hru with rfl | hru
      · exact hup
      · exact View.encloses_trans (canonical r (View.mem_outermost.mp hr).1) (canonical u hu) hp
          hru hup
    rw [(hfree r hr).1] at hrp
    cases hrp
  constructor
  · rw [views_concat]
    exact (View.foldable_cons_of_outermost later hout).mpr
      ⟨h.foldable, fun r hr => (hfree r hr).2⟩
  · rw [views_concat, views_concat, View.gathered_cons_of_outermost later hout, h.kept]

theorem fold (ho : o ∈ kept) (hcov : covers o p = true) (hne : o.path ≠ p.path)
    (hagg : o.aggregates = true) (hkey : p.isKeyed = true) :
    Gathers (done ++ [p]) (kept.map fun k => if k.path = o.path then absorb o p else k) := by
  have hencl : o.view.encloses p.view = true := by simp [encloses_view, hcov, hne]
  obtain ⟨r, hr, hrview⟩ := h.outermost_of_mem ho
  have hrp : r.encloses p.view = true := by
    rw [← hrview] at hencl
    exact hencl
  have hin : ¬View.Outermost (views done) p.view := by
    intro hout
    rw [hout r (View.mem_outermost.mp hr).1] at hrp
    cases hrp
  have hragg : r.aggregates = true := (congrArg View.aggregates hrview).trans hagg
  constructor
  · rw [views_concat]
    exact (View.foldable_cons_of_inner later hin).mpr ⟨h.foldable, hkey, r, hr, hrp, hragg⟩
  · rw [views_concat, View.gathered_cons_of_inner later hin, ← h.kept]
    -- of the kept points the covering one alone receives the new one
    have each : ∀ k ∈ kept,
        (if k.path = o.path then absorb o p else k).view = k.view.receive p.view := by
      intro k hk
      by_cases hpath : k.path = o.path
      · obtain rfl : k = o := List.inj_on_of_nodup_map h.paths_nodup hk ho hpath
        rw [if_pos rfl]
        exact view_absorb hencl hagg hkey
      · obtain ⟨q, hq, hqview⟩ := h.outermost_of_mem hk
        have hout : k.view.encloses p.view = false := by
          by_contra hkp
          rw [Bool.not_eq_false, ← hqview] at hkp
          have hqr : q.path = r.path := View.path_eq_of_outermost canonical hp hq hr hkp hrp
          have hkq : q.path = k.path := congrArg View.path hqview
          have hor : r.path = o.path := congrArg View.path hrview
          exact hpath (hkq.symm.trans (hqr.trans hor))
        rw [if_neg hpath, View.receive, hout]
        rfl
    rw [views, views, Multiset.map_coe, List.map_map, List.map_map]
    exact congrArg _ (List.map_congr_left each)

theorem step (hk : addPoint kept p = .ok kept') : Gathers (done ++ [p]) kept' := by
  rcases addPoint_eq_ok hk with ⟨hcov, rfl⟩ | ⟨o, ho, hcov, hne, hagg, hkey, rfl⟩
  · exact h.keep canonical hp later hcov
  · exact h.fold canonical hp later ho hcov hne hagg hkey

theorem exists_step (hf : View.Foldable (views (done ++ [p]))) :
    ∃ kept', addPoint kept p = .ok kept' := by
  rw [views_concat] at hf
  unfold addPoint
  cases houter : outer? kept p with
  | none => exact ⟨_, rfl⟩
  | some o =>
    obtain ⟨ho, hcov⟩ := mem_of_outer?_eq_some houter
    obtain ⟨r, hr, hrview⟩ := h.outermost_of_mem ho
    have hpath : r.path = o.path := congrArg View.path hrview
    have hne : o.path ≠ p.path := by
      intro e
      have same : r.path = p.view.path := hpath.trans e
      -- what encloses the new point encloses the kept one at the same path
      have hpout : View.Outermost (views done) p.view := by
        intro u hu
        have := (View.mem_outermost.mp hr).2 u hu
        unfold View.encloses at this ⊢
        rwa [← same]
      exact ((View.foldable_cons_of_outermost later hpout).mp hf).2 r hr same
    have hrp : r.encloses p.view = true := by
      have : o.view.encloses p.view = true := by simp [encloses_view, hcov, hne]
      rwa [← hrview] at this
    have hpin : ¬View.Outermost (views done) p.view := by
      intro hpout
      rw [hpout r (View.mem_outermost.mp hr).1] at hrp
      cases hrp
    obtain ⟨-, hkey, q, hq, hqp, hqagg⟩ := (View.foldable_cons_of_inner later hpin).mp hf
    have hqr : q = r := Multiset.inj_on_of_nodup_map h.foldable.paths q hq r hr
      (View.path_eq_of_outermost canonical hp hq hr hqp hrp)
    have hagg : o.aggregates = true := by
      rw [hqr] at hqagg
      exact (congrArg View.aggregates hrview).symm.trans hqagg
    have hkey : p.isKeyed = true := hkey
    simp only [if_neg hne, hagg, hkey, Bool.and_self, if_true]
    exact ⟨_, rfl⟩

end Gathers

section
variable {l : List Point}

theorem outward_not_encloses (canonical : ∀ p ∈ l, p.view.Canonical) :
    (outward l).Pairwise fun q p => p.view.encloses q.view = false := by
  refine (outward_ordered l).imp_of_mem fun {q p} hq hp hdepth => ?_
  have hcq := canonical q (mem_sortBy.mp hq)
  have hcp := canonical p (mem_sortBy.mp hp)
  by_contra hpq
  rw [Bool.not_eq_false, View.encloses_iff hcp hcq] at hpq
  have hlen : (Path.segments p.view.path.toList).length =
      (Path.segments q.view.path.toList).length := hpq.1.length_le.antisymm hdepth
  exact hpq.2 (View.path_eq_of_segments hcp hcq (hpq.1.eq_of_length hlen))

theorem foldlM_gathers (canonical : ∀ p ∈ l, p.view.Canonical)
    (later : l.Pairwise fun q p => p.view.encloses q.view = false) :
    (∀ kept, l.foldlM addPoint [] = .ok kept → Gathers l kept) ∧
      (View.Foldable (views l) → ∃ kept, l.foldlM addPoint [] = .ok kept) := by
  induction l using List.reverseRecOn with
  | nil =>
    refine ⟨fun kept h => ?_, fun _ => ⟨[], rfl⟩⟩
    cases h
    exact .nil
  | append_singleton done p ih =>
    obtain ⟨hdone, -, hlater⟩ := List.pairwise_append.mp later
    have hcanonical : ∀ v ∈ views done, v.Canonical := by
      intro v hv
      obtain ⟨q, hq, rfl⟩ := mem_views.mp hv
      exact canonical q (List.mem_append_left _ hq)
    have hp : p.view.Canonical := canonical p (by simp)
    have hlater : ∀ v ∈ views done, p.view.encloses v = false := by
      intro v hv
      obtain ⟨q, hq, rfl⟩ := mem_views.mp hv
      exact hlater q hq p List.mem_cons_self
    obtain ⟨sound, complete⟩ := ih (fun q hq => canonical q (List.mem_append_left _ hq)) hdone
    constructor
    · intro kept' h
      obtain ⟨kept, hkept, hstep⟩ := foldlM_concat_eq_ok.mp h
      exact (sound kept hkept).step hcanonical hp hlater hstep
    · intro hf
      have hfdone : View.Foldable (views done) := by
        rw [views_concat] at hf
        exact .of_cons hlater hf
      obtain ⟨kept, hkept⟩ := complete hfdone
      obtain ⟨kept', hstep⟩ := (sound kept hkept).exists_step hcanonical hp hlater hf
      exact ⟨kept', foldlM_concat_eq_ok.mpr ⟨kept, hkept, hstep⟩⟩

/-- Folding succeeds where whatever is enclosed may be folded, and it gathers the outermost
points. -/
theorem fold_iff_foldable (canonical : ∀ p ∈ l, p.view.Canonical) :
    (∀ kept, fold l = .ok kept → views kept = View.gathered (views l)) ∧
      ((∃ kept, fold l = .ok kept) ↔ View.Foldable (views l)) := by
  have hviews : views (outward l) = views l :=
    Multiset.coe_eq_coe.mpr ((sortBy_perm l).map Point.view)
  obtain ⟨sound, complete⟩ := foldlM_gathers (l := outward l)
    (fun p hp => canonical p (mem_sortBy.mp hp)) (outward_not_encloses canonical)
  rw [hviews] at complete
  refine ⟨fun kept h => hviews ▸ (sound kept h).kept, fun ⟨kept, h⟩ => ?_, complete⟩
  exact hviews ▸ (sound kept h).foldable

end
end Stowage.Merge
