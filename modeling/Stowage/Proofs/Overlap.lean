import Stowage.Proofs.Ownership

/-!
# Overlapping mounts

Mounts are told apart by their paths as written. Of two points the outer one comes first, and a
point that lies in it as written is folded or refused, so two mounts overlap only where one directory
is spelt in two ways.
-/

namespace Stowage

/-! ## Directories apart -/

namespace Path

def Apart (s t : List (List Char)) : Prop := ¬s <+: t ∧ ¬t <+: s

instance (s t : List (List Char)) : Decidable (Apart s t) := inferInstanceAs (Decidable (_ ∧ _))

theorem Apart.symm {s t : List (List Char)} (h : Apart s t) : Apart t s := ⟨h.2, h.1⟩

/-- Where one of two paths contains the other, it does so as written. -/
def SpeltAlike (p q : List Char) : Prop :=
  (segments q <+: segments p → Within p q) ∧ (segments p <+: segments q → Within q p)

theorem SpeltAlike.symm {p q : List Char} (h : SpeltAlike p q) : SpeltAlike q p := ⟨h.2, h.1⟩

theorem Canonical.speltAlike {p q : List Char} (hp : Canonical p) (hq : Canonical q) :
    SpeltAlike p q :=
  ⟨(hp.within_iff hq).mpr, (hq.within_iff hp).mpr⟩

theorem apart_iff_speltAlike {p q : List Char} (hdepth : depth p ≤ depth q)
    (hout : ¬Within q p) : Apart (segments p) (segments q) ↔ SpeltAlike p q := by
  constructor
  · rintro ⟨h₁, h₂⟩
    exact ⟨fun h => absurd h h₂, fun h => absurd h h₁⟩
  · rintro ⟨-, h₂⟩
    have hpq : ¬segments p <+: segments q := fun h => hout (h₂ h)
    refine ⟨hpq, fun h => hpq ?_⟩
    -- neither is deeper, so they are one directory
    have hlen := h.length_le
    have heq : segments q = segments p := h.eq_of_length (Nat.le_antisymm hlen hdepth)
    exact heq ▸ List.prefix_refl _

end Path

/-! ## Points apart -/

namespace Merge

theorem outward_ordered (l : List Point) : (outward l).Pairwise fun p q => depth p ≤ depth q := by
  refine (pairwise_sortBy ?_ ?_ l).imp ?_
  · intro p q
    simp only [Bool.or_eq_true, Bool.and_eq_true, decide_eq_true_eq, beq_iff_eq]
    omega
  · intro p q r
    simp only [Bool.or_eq_true, Bool.and_eq_true, decide_eq_true_eq, beq_iff_eq]
    omega
  · intro p q
    simp only [Bool.or_eq_true, Bool.and_eq_true, decide_eq_true_eq, beq_iff_eq]
    omega

theorem Settled.ordered {es : List Entry} {pts kept : List Point}
    (h : Settled es (outward pts) kept) : kept.Pairwise fun p q => depth p ≤ depth q := by
  have houter : ((outward pts).map Point.path).Pairwise fun p q =>
      Path.depth p.toList ≤ Path.depth q.toList :=
    List.pairwise_map.mpr (outward_ordered pts)
  have hkept := houter.sublist h.paths
  rwa [List.pairwise_map] at hkept

theorem finalPoints_apart_iff {plans : List Plan} {l : List Point}
    (h : finalPoints plans = .ok l) :
    (l.Pairwise fun p q => Path.Apart (Path.segments p.path.toList) (Path.segments q.path.toList)) ↔
      l.Pairwise fun p q => Path.SpeltAlike p.path.toList q.path.toList := by
  obtain ⟨ps, pts, kept, -, -, -, hs, rfl⟩ := finalPoints_settled h
  have hperm : (byDeclaration kept).Perm kept := sortBy_perm kept
  rw [hperm.pairwise_iff fun {_ _} => Path.Apart.symm,
    hperm.pairwise_iff fun {_ _} => Path.SpeltAlike.symm]
  have both := (hs.ordered.and hs.apart).imp fun {p q} ⟨hdepth, hcov⟩ =>
    Path.apart_iff_speltAlike hdepth fun hw => by
      rw [covers_iff.mpr hw] at hcov
      cases hcov
  constructor
  · exact fun hap => (both.and hap).imp fun ⟨hiff, hpq⟩ => hiff.mp hpq
  · exact fun hsp => (both.and hsp).imp fun ⟨hiff, hpq⟩ => hiff.mpr hpq

theorem finalPoints_canonical {plans : List Plan} {l : List Point} (h : finalPoints plans = .ok l)
    (canonical : ∀ e ∈ entriesFrom 0 plans, Path.Canonical e.target.toList) :
    ∀ p ∈ l, Path.Canonical p.path.toList := by
  intro p hp
  obtain ⟨e, he, hpath⟩ := finalPoints_path h p hp
  rcases hpath with hpath | hpath
  · rw [hpath]
    exact canonical e he
  · exact (canonical e he).parent hpath

theorem finalPoints_apart {plans : List Plan} {l : List Point} (h : finalPoints plans = .ok l)
    (canonical : ∀ e ∈ entriesFrom 0 plans, Path.Canonical e.target.toList) :
    l.Pairwise fun p q =>
      Path.Apart (Path.segments p.path.toList) (Path.segments q.path.toList) := by
  have hcan := finalPoints_canonical h canonical
  exact (finalPoints_apart_iff h).mpr
    (List.pairwise_of_forall_mem_list fun p hp q hq => (hcan p hp).speltAlike (hcan q hq))

end Merge

/-! ## Mounts apart -/

namespace Conversion
open Merge

variable {workload name : String} {c : Workload.Container} {kind : WorkloadKind} {scope : Scope}
variable {a : Assembled}

theorem AssembledFrom.map_path_mounts {vs : List Mount.Converted} {fs : List Mount.MaterializedFile}
    {l : List Point} (h : AssembledFrom workload name c kind scope vs fs l a) :
    a.container.mounts.map Manifest.Mount.path = l.map Point.path := by
  rw [h.mounts, result, List.map_map]
  exact map_path_emit h.sound 0

/-- Mounts are apart exactly where no directory is spelt in two ways, and so whenever no declared
target has an empty segment. -/
theorem mounts_apart_iff (h : assemble workload name c kind scope = .ok a) :
    ((a.container.mounts.Pairwise fun m m' =>
        Path.Apart (Path.segments m.path.toList) (Path.segments m'.path.toList)) ↔
      a.container.mounts.Pairwise fun m m' => Path.SpeltAlike m.path.toList m'.path.toList) ∧
    ∃ es, declarations workload name c kind scope = .ok es ∧
      ((∀ e ∈ es, Path.Canonical e.target.toList) →
        a.container.mounts.Pairwise fun m m' =>
          Path.Apart (Path.segments m.path.toList) (Path.segments m'.path.toList)) := by
  obtain ⟨vs, fs, l, h⟩ := assemble_eq_ok h
  have onPaths (R : String → String → Prop) :
      (a.container.mounts.Pairwise fun m m' => R m.path m'.path) ↔
        l.Pairwise fun p q => R p.path q.path := by
    rw [← List.pairwise_map (f := Manifest.Mount.path), h.map_path_mounts, List.pairwise_map]
  have apart := onPaths fun p q => Path.Apart (Path.segments p.toList) (Path.segments q.toList)
  have spelt := onPaths fun p q => Path.SpeltAlike p.toList q.toList
  refine ⟨?_, _, h.declared, fun canonical => ?_⟩
  · rw [apart, spelt]
    exact finalPoints_apart_iff h.points
  · rw [apart]
    exact finalPoints_apart h.points canonical

theorem mounts_apart_iff_of_host_and_files :
    let scope : Scope := .ofWorkload "api" (.ofName "api") .empty
    let c : Workload.Container := { Workload.Container.ofImage "app" with
      volumes := [.ofSource "/srv" "/srv/data"]
      files := [.ofContent "/srv/conf/a" "1", .ofContent "/srv/conf/b" "2"] }
    ∃ a, assemble "api" "web" c .deployment scope = .ok a ∧
      ((a.container.mounts.Pairwise fun m m' =>
          Path.Apart (Path.segments m.path.toList) (Path.segments m'.path.toList)) ↔
        a.container.mounts.Pairwise fun m m' =>
          Path.SpeltAlike m.path.toList m'.path.toList) ∧
      ∃ es, declarations "api" "web" c .deployment scope = .ok es ∧
        ((∀ e ∈ es, Path.Canonical e.target.toList) →
          a.container.mounts.Pairwise fun m m' =>
            Path.Apart (Path.segments m.path.toList) (Path.segments m'.path.toList)) := by
  intro scope c
  obtain ⟨a, ha⟩ : ∃ a, assemble "api" "web" c .deployment scope = .ok a :=
    exists_eq_ok (by decide +kernel)
  exact ⟨a, ha, mounts_apart_iff ha⟩

/-- Two spellings of one directory are both mounted. -/
theorem mounts_not_apart_of_two_spellings :
    let c : Workload.Container := { Workload.Container.ofImage "app" with
      volumes := [.ofSource "/srv" "/a/b", .ofSource "/srv" "/a//b"] }
    ∃ a, assemble "api" "web" c .deployment (.ofWorkload "api" (.ofName "api") .empty) = .ok a ∧
      ¬a.container.mounts.Pairwise fun m m' =>
        Path.Apart (Path.segments m.path.toList) (Path.segments m'.path.toList) := by
  intro c
  have both : (assemble "api" "web" c .deployment
      (.ofWorkload "api" (.ofName "api") .empty)).map
        (fun a => decide (a.container.mounts.Pairwise fun m m' =>
          Path.Apart (Path.segments m.path.toList) (Path.segments m'.path.toList))) =
      .ok false := by decide +kernel
  obtain ⟨a, ha, hap⟩ := map_eq_ok.mp both
  exact ⟨a, ha, of_decide_eq_false hap⟩

end Conversion
end Stowage
