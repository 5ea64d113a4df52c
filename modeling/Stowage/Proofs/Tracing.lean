import Stowage.Proofs.Gathering

/-!
# Fates of points

Folding never splits a point. It leaves alone a point that encloses no other and lies in none, and
puts every other one together with such a neighbour.
-/

namespace Stowage.Merge

def Point.Related (p q : Point) : Prop :=
  p.view.encloses q.view = true ∨ q.view.encloses p.view = true

/-- What became of the points `done`: each is kept as it is, apart from all others, or is in one
kept point together with a related one. -/
structure Traced (done kept : List Point) : Prop where
  origin : ∀ k ∈ kept, ∃ d ∈ done, d.path = k.path ∧ d.entries ⊆ k.entries
  fate : ∀ d ∈ done, (d ∈ kept ∧ ∀ q ∈ done, ¬d.Related q) ∨
    ∃ k ∈ kept, ∃ q ∈ done, d.Related q ∧ d.entries ⊆ k.entries ∧ q.entries ⊆ k.entries
  plain : ∀ e, .plain e ∈ done → .plain e ∈ kept

theorem Traced.nil : Traced [] [] := ⟨by simp, by simp, by simp⟩

theorem Traced.congr {done done' kept kept' : List Point} (h : Traced done kept)
    (hdone : ∀ p, p ∈ done ↔ p ∈ done') (hkept : ∀ p, p ∈ kept ↔ p ∈ kept') :
    Traced done' kept' := by
  obtain ⟨origin, fate, plain⟩ := h
  simp only [hdone, hkept] at origin fate plain
  exact ⟨origin, fate, plain⟩

theorem Point.not_related_self (p : Point) : ¬p.Related p := by
  simp [Related, View.not_encloses_self]

theorem Point.Related.symm {p q : Point} (h : p.Related q) : q.Related p := Or.symm h

theorem subset_absorb {o p : Point} (hagg : o.aggregates = true) (hkey : p.isKeyed = true) :
    o.entries ⊆ (absorb o p).entries ∧ p.entries ⊆ (absorb o p).entries := by
  have hentries := entries_absorb_perm hagg hkey
  exact ⟨fun e he => hentries.mem_iff.mpr (List.mem_append_left _ he),
    fun e he => hentries.mem_iff.mpr (List.mem_append_right _ he)⟩

namespace Gathers
variable {done kept : List Point} {p o k k' q : Point}
variable (h : Gathers done kept)
include h

theorem eq_of_path_eq (hk : k ∈ kept) (hk' : k' ∈ kept) (hpath : k.path = k'.path) : k = k' :=
  List.inj_on_of_nodup_map h.paths_nodup hk hk' hpath

theorem grown (ho : o ∈ kept) (hagg : o.aggregates = true) (hkey : p.isKeyed = true)
    (hk : k ∈ kept) : (if k.path = o.path then absorb o p else k).path = k.path ∧
      k.entries ⊆ (if k.path = o.path then absorb o p else k).entries := by
  split
  · next hpath =>
    obtain rfl := h.eq_of_path_eq hk ho hpath
    exact ⟨path_absorb hagg p, (subset_absorb hagg hkey).1⟩
  · exact ⟨rfl, List.Subset.refl _⟩

theorem not_encloses (hk : k ∈ kept) (hk' : k' ∈ kept) : k.view.encloses k'.view = false := by
  obtain ⟨r, hr, hrview⟩ := h.outermost_of_mem hk
  obtain ⟨r', hr', hrview'⟩ := h.outermost_of_mem hk'
  rw [← hrview, ← hrview']
  exact (View.mem_outermost.mp hr').2 r (View.mem_outermost.mp hr).1

variable (canonical : ∀ v ∈ views done, v.Canonical)
include canonical

theorem canonical_of_mem (hk : k ∈ kept) : k.view.Canonical := by
  obtain ⟨r, hr, hrview⟩ := h.outermost_of_mem hk
  have hr := canonical r (View.mem_outermost.mp hr).1
  rw [← hrview]
  exact hr

theorem eq_of_encloses (hp : p.view.Canonical) (hk : k ∈ kept) (hk' : k' ∈ kept)
    (hkp : k.view.encloses p.view = true) (hkp' : k'.view.encloses p.view = true) : k = k' :=
  h.eq_of_path_eq hk hk' (View.path_eq_of_enclose (h.canonical_of_mem canonical hk)
    (h.canonical_of_mem canonical hk') hp hkp hkp' (h.not_encloses hk hk') (h.not_encloses hk' hk))

theorem exists_encloses (hp : p.view.Canonical) (hq : q ∈ done)
    (hqp : q.view.encloses p.view = true) : ∃ k ∈ kept, k.view.encloses p.view = true := by
  have hqv : q.view ∈ views done := mem_views.mpr ⟨q, hq, rfl⟩
  -- it lies in an outermost point, and these are all kept
  obtain ⟨r, hr, hrq⟩ := View.exists_outermost canonical hqv
  obtain ⟨k, hk, hkview⟩ := h.mem_of_outermost hr
  have hrp : r.encloses p.view = true := by
    rcases hrq with rfl | hrq
    · exact hqp
    · exact View.encloses_trans (canonical r (View.mem_outermost.mp hr).1) (canonical q.view hqv) hp
        hrq hqp
  refine ⟨k, hk, ?_⟩
  rw [hkview]
  exact hrp

end Gathers

section
variable {done kept : List Point} {p o : Point}
variable (h : Traced done kept) (hg : Gathers done kept)
variable (canonical : ∀ v ∈ views done, v.Canonical) (hp : p.view.Canonical)
variable (later : ∀ v ∈ views done, p.view.encloses v = false)
include h hg canonical hp later

theorem Traced.keep (hcov : ∀ k ∈ kept, covers k p = false) :
    Traced (done ++ [p]) (kept ++ [p]) := by
  have hfree : ∀ k ∈ kept, k.view.encloses p.view = false := fun k hk => by
    rw [encloses_view, hcov k hk, Bool.false_and]
  have hpdone : ∀ q ∈ done, ¬p.Related q := by
    rintro q hq (hpq | hqp)
    · rw [later q.view (mem_views.mpr ⟨q, hq, rfl⟩)] at hpq
      cases hpq
    · obtain ⟨k, hk, hkp⟩ := hg.exists_encloses canonical hp hq hqp
      rw [hfree k hk] at hkp
      cases hkp
  refine ⟨?_, ?_, ?_⟩
  · refine List.forall_mem_append.mpr ⟨fun k hk => ?_, List.forall_mem_singleton.mpr ?_⟩
    · obtain ⟨d, hd, hdk⟩ := h.origin k hk
      exact ⟨d, List.mem_append_left _ hd, hdk⟩
    · exact ⟨p, List.mem_concat_self, rfl, List.Subset.refl _⟩
  · refine List.forall_mem_append.mpr ⟨fun d hd => ?_, List.forall_mem_singleton.mpr ?_⟩
    · rcases h.fate d hd with ⟨hkept, hapart⟩ | ⟨k, hk, q, hq, hrel⟩
      · refine .inl ⟨List.mem_append_left _ hkept, List.forall_mem_append.mpr ⟨hapart, ?_⟩⟩
        exact List.forall_mem_singleton.mpr fun hrel => hpdone d hd hrel.symm
      · exact .inr ⟨k, List.mem_append_left _ hk, q, List.mem_append_left _ hq, hrel⟩
    · refine .inl ⟨List.mem_concat_self, List.forall_mem_append.mpr ⟨hpdone, ?_⟩⟩
      exact List.forall_mem_singleton.mpr p.not_related_self
  · intro e he
    rcases List.mem_append.mp he with he | he
    · exact List.mem_append_left _ (h.plain e he)
    · exact List.mem_append_right _ he

/-- The covering point takes the new one in and stays where it is. -/
theorem Traced.fold (ho : o ∈ kept) (hcov : covers o p = true) (hne : o.path ≠ p.path)
    (hagg : o.aggregates = true) (hkey : p.isKeyed = true) :
    Traced (done ++ [p]) (kept.map fun k => if k.path = o.path then absorb o p else k) := by
  obtain ⟨houter, hinner⟩ := subset_absorb hagg hkey
  have hgrown {k : Point} (hk : k ∈ kept) := hg.grown ho hagg hkey hk
  have hop : o.view.encloses p.view = true := by simp [encloses_view, hcov, hne]
  have habsorb : absorb o p ∈ kept.map fun k => if k.path = o.path then absorb o p else k :=
    List.mem_map.mpr ⟨o, ho, if_pos rfl⟩
  refine ⟨?_, ?_, ?_⟩
  · refine List.forall_mem_map.mpr fun k hk => ?_
    obtain ⟨d, hd, hpath, hsub⟩ := h.origin k hk
    exact ⟨d, List.mem_append_left _ hd, hpath.trans (hgrown hk).1.symm,
      List.Subset.trans hsub (hgrown hk).2⟩
  · refine List.forall_mem_append.mpr ⟨fun d hd => ?_, List.forall_mem_singleton.mpr ?_⟩
    · rcases h.fate d hd with ⟨hkept, hapart⟩ | ⟨k, hk, q, hq, hrel, hsub, hsub'⟩
      · by_cases hpath : d.path = o.path
        · obtain rfl := hg.eq_of_path_eq hkept ho hpath
          exact .inr ⟨_, habsorb, p, List.mem_concat_self, .inl hop, houter, hinner⟩
        · refine .inl ⟨List.mem_map.mpr ⟨d, hkept, if_neg hpath⟩, ?_⟩
          refine List.forall_mem_append.mpr ⟨hapart, List.forall_mem_singleton.mpr ?_⟩
          rintro (hdp | hpd)
          · exact hpath (congrArg Point.path (hg.eq_of_encloses canonical hp hkept ho hdp hop))
          · rw [later d.view (mem_views.mpr ⟨d, hd, rfl⟩)] at hpd
            cases hpd
      · exact .inr ⟨_, List.mem_map_of_mem hk, q, List.mem_append_left _ hq, hrel,
          List.Subset.trans hsub (hgrown hk).2, List.Subset.trans hsub' (hgrown hk).2⟩
    · obtain ⟨d, hd, hpath, hsub⟩ := h.origin o ho
      have hdp : d.view.encloses p.view = true := by
        rw [encloses_view, covers_congr hpath rfl, hpath, ← encloses_view]
        exact hop
      exact .inr ⟨_, habsorb, d, List.mem_append_left _ hd, .inr hdp, hinner,
        List.Subset.trans hsub houter⟩
  · intro e he
    rcases List.mem_append.mp he with he | he
    · have hkept := h.plain e he
      refine List.mem_map.mpr ⟨.plain e, hkept, if_neg fun hpath => ?_⟩
      rw [← hg.eq_of_path_eq hkept ho hpath] at hagg
      cases hagg
    · obtain rfl := List.mem_singleton.mp he
      cases hkey

theorem Traced.step {kept' : List Point} (hk : addPoint kept p = .ok kept') :
    Traced (done ++ [p]) kept' := by
  rcases addPoint_eq_ok hk with ⟨hcov, rfl⟩ | ⟨o, ho, hcov, hne, hagg, hkey, rfl⟩
  · exact h.keep hg canonical hp later hcov
  · exact h.fold hg canonical hp later ho hcov hne hagg hkey

end

theorem foldlM_traced {l : List Point} (canonical : ∀ p ∈ l, p.view.Canonical)
    (later : l.Pairwise fun q p => p.view.encloses q.view = false) {kept : List Point}
    (h : l.foldlM addPoint [] = .ok kept) : Traced l kept := by
  induction l using List.reverseRecOn generalizing kept with
  | nil =>
    cases h
    exact .nil
  | append_singleton done p ih =>
    obtain ⟨hdone, -, hlater⟩ := List.pairwise_append.mp later
    have hcanonical : ∀ q ∈ done, q.view.Canonical := fun q hq =>
      canonical q (List.mem_append_left _ hq)
    obtain ⟨kept', hkept', hstep⟩ := foldlM_concat_eq_ok.mp h
    have hgathers := (foldlM_gathers hcanonical hdone).1 kept' hkept'
    refine (ih hcanonical hdone hkept').step hgathers ?_ (canonical p (by simp)) ?_ hstep
    · intro v hv
      obtain ⟨q, hq, rfl⟩ := mem_views.mp hv
      exact hcanonical q hq
    · intro v hv
      obtain ⟨q, hq, rfl⟩ := mem_views.mp hv
      exact hlater q hq p List.mem_cons_self

theorem fold_traced {l kept : List Point} (canonical : ∀ p ∈ l, p.view.Canonical)
    (h : fold l = .ok kept) : Traced (outward l) kept :=
  foldlM_traced (fun p hp => canonical p (mem_sortBy.mp hp)) (outward_not_encloses canonical) h

end Stowage.Merge
