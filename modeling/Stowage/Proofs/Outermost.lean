import Mathlib.Data.Multiset.Bind
import Stowage.Proofs.Overlap

/-!
# Outermost points

Of points that are seen without their order, the outermost ones are those which no other encloses.
Among canonical paths one encloses another exactly if it is a proper prefix of it by segments, so
every point lies in one outermost point, and which ones these are changes little with one more.
-/

namespace Stowage.Merge

/-! ## Points without positions -/

def Entry.unnumbered (e : Entry) : Entry := { e with position := 0 }

def Member.unnumbered (m : Member) : Member := { m with entry := m.entry.unnumbered }

def Point.plan? : Point → Option Plan
  | plain e => some e.plan
  | projection _ _ => none

/-- What a point is, however its declarations are ordered. -/
structure View where
  path : String
  dir : String
  aggregates : Bool
  isKeyed : Bool
  plan? : Option Plan
  members : Multiset Member

def Point.view (p : Point) : View :=
  ⟨p.path, p.dir, p.aggregates, p.isKeyed, p.plan?, p.members.map Member.unnumbered⟩

def views (l : List Point) : Multiset View := l.map Point.view

theorem views_concat (l : List Point) (p : Point) : views (l ++ [p]) = p.view ::ₘ views l := by
  rw [views, List.map_append, ← Multiset.coe_add, add_comm]
  rfl

theorem mem_views {l : List Point} {v : View} : v ∈ views l ↔ ∃ p ∈ l, p.view = v := by
  rw [views, Multiset.mem_coe, List.mem_map]

namespace View

/-! ## Enclosing -/

def encloses (o v : View) : Bool :=
  o.path ≠ v.path && Path.isNested v.path.toList o.path.toList

def Canonical (v : View) : Prop := Path.Canonical v.path.toList

theorem path_eq_of_segments {o v : View} (ho : o.Canonical) (hv : v.Canonical)
    (h : Path.segments o.path.toList = Path.segments v.path.toList) : o.path = v.path := by
  rw [← String.toList_inj, ← ho, h, hv]

theorem encloses_iff {o v : View} (ho : o.Canonical) (hv : v.Canonical) :
    o.encloses v = true ↔
      Path.segments o.path.toList <+: Path.segments v.path.toList ∧ o.path ≠ v.path := by
  rw [← hv.within_iff ho, Path.within_iff, encloses, Bool.and_eq_true, decide_eq_true_eq,
    String.toList_inj]
  constructor
  · exact fun ⟨hne, hn⟩ => ⟨.inr hn, hne⟩
  · exact fun ⟨h, hne⟩ => ⟨hne, h.resolve_left hne⟩

theorem not_encloses_self (v : View) : v.encloses v = false := by simp [encloses]

theorem encloses_trans {a b c : View} (ha : a.Canonical) (hb : b.Canonical) (hc : c.Canonical)
    (hab : a.encloses b = true) (hbc : b.encloses c = true) : a.encloses c = true := by
  obtain ⟨hab, hne⟩ := (encloses_iff ha hb).mp hab
  obtain ⟨hbc, -⟩ := (encloses_iff hb hc).mp hbc
  refine (encloses_iff ha hc).mpr ⟨hab.trans hbc, fun e => hne ?_⟩
  -- one directory cannot lie both above and below another
  rw [← e] at hbc
  exact path_eq_of_segments ha hb (hab.eq_of_length (hab.length_le.antisymm hbc.length_le))

/-- Two that enclose one view lie on one way, so one of them encloses the other. -/
theorem path_eq_of_enclose {a b v : View} (ha : a.Canonical) (hb : b.Canonical) (hv : v.Canonical)
    (hav : a.encloses v = true) (hbv : b.encloses v = true) (hab : a.encloses b = false)
    (hba : b.encloses a = false) : a.path = b.path := by
  by_contra hne
  obtain ⟨hav, -⟩ := (encloses_iff ha hv).mp hav
  obtain ⟨hbv, -⟩ := (encloses_iff hb hv).mp hbv
  rcases List.prefix_or_prefix_of_prefix hav hbv with h | h
  · rw [(encloses_iff ha hb).mpr ⟨h, hne⟩] at hab
    cases hab
  · rw [(encloses_iff hb ha).mpr ⟨h, Ne.symm hne⟩] at hba
    cases hba

/-! ## Outermost views -/

/-- The members of a view as they stand in an outer directory. -/
def lifted (o v : View) : Multiset Member :=
  v.members.map (Member.shift (Path.relative v.dir.toList o.path.toList))

def receive (o v : View) : View :=
  if o.encloses v then { o with members := o.members + o.lifted v } else o

section
variable (vs : Multiset View)

def Outermost (v : View) : Prop := ∀ u ∈ vs, u.encloses v = false

instance (v : View) : Decidable (Outermost vs v) :=
  inferInstanceAs (Decidable (∀ u ∈ vs, u.encloses v = false))

def outermost : Multiset View := vs.filter (Outermost vs)

/-- A view with the members of all those that it encloses. -/
def gather (o : View) : View :=
  { o with members := o.members + (vs.filter (o.encloses ·)).bind o.lifted }

def gathered : Multiset View := (outermost vs).map (gather vs)

structure Foldable : Prop where
  paths : ((outermost vs).map path).Nodup
  inner : ∀ v ∈ vs, ¬Outermost vs v → v.isKeyed = true ∧
    ∃ o ∈ outermost vs, o.encloses v = true ∧ o.aggregates = true

end

variable {vs : Multiset View} {p o v : View}

theorem mem_outermost : v ∈ outermost vs ↔ v ∈ vs ∧ Outermost vs v := Multiset.mem_filter

theorem exists_outermost (canonical : ∀ v ∈ vs, v.Canonical) (hv : v ∈ vs) :
    ∃ o ∈ outermost vs, o = v ∨ o.encloses v = true := by
  induction hn : (Path.segments v.path.toList).length using Nat.strongRecOn generalizing v with
  | ind n ih =>
    by_cases hout : Outermost vs v
    · exact ⟨v, mem_outermost.mpr ⟨hv, hout⟩, .inl rfl⟩
    · simp only [Outermost, not_forall, Bool.not_eq_false] at hout
      obtain ⟨u, hu, huv⟩ := hout
      have hcu := canonical u hu
      have hcv := canonical v hv
      obtain ⟨hpre, hne⟩ := (encloses_iff hcu hcv).mp huv
      have hlt : (Path.segments u.path.toList).length < n := by
        refine Nat.lt_of_le_of_ne (hn ▸ hpre.length_le) fun e => hne ?_
        exact path_eq_of_segments hcu hcv (hpre.eq_of_length (e.trans hn.symm))
      obtain ⟨o, ho, hou⟩ := ih _ hlt hu rfl
      refine ⟨o, ho, .inr ?_⟩
      rcases hou with rfl | hou
      · exact huv
      · exact encloses_trans (canonical o (mem_outermost.mp ho).1) hcu hcv hou huv

theorem path_eq_of_outermost {o' : View} (canonical : ∀ v ∈ vs, v.Canonical) (hp : p.Canonical)
    (ho : o ∈ outermost vs) (ho' : o' ∈ outermost vs) (hop : o.encloses p = true)
    (hop' : o'.encloses p = true) : o.path = o'.path := by
  obtain ⟨ho, hout⟩ := mem_outermost.mp ho
  obtain ⟨ho', hout'⟩ := mem_outermost.mp ho'
  exact path_eq_of_enclose (canonical o ho) (canonical o' ho') hp hop hop' (hout' o ho)
    (hout o' ho')

/-! ## One more view -/

theorem gather_cons : gather (p ::ₘ vs) o = (gather vs o).receive p := by
  have hencl : (gather vs o).encloses p = o.encloses p := rfl
  rw [receive, hencl, gather, Multiset.filter_cons]
  by_cases h : o.encloses p = true
  · have hlift : (gather vs o).lifted p = o.lifted p := rfl
    rw [if_pos h, if_pos h, Multiset.singleton_add, Multiset.cons_bind, hlift, gather]
    simp only [View.mk.injEq, true_and]
    rw [add_comm (o.lifted p), add_assoc]
  · rw [if_neg h, if_neg h, zero_add, gather]

section
variable (later : ∀ v ∈ vs, p.encloses v = false)
include later

theorem outermost_cons_iff (hv : v ∈ p ::ₘ vs) : Outermost (p ::ₘ vs) v ↔ Outermost vs v := by
  have hpv : p.encloses v = false := by
    rcases Multiset.mem_cons.mp hv with rfl | hv
    · exact not_encloses_self v
    · exact later v hv
  simp [Outermost, hpv]

theorem outermost_cons_of_outermost (h : Outermost vs p) :
    outermost (p ::ₘ vs) = p ::ₘ outermost vs := by
  have same : vs.filter (Outermost (p ::ₘ vs)) = outermost vs :=
    Multiset.filter_congr fun v hv => outermost_cons_iff later (Multiset.mem_cons_of_mem hv)
  have hp := (outermost_cons_iff later (Multiset.mem_cons_self p vs)).mpr h
  rw [outermost, Multiset.filter_cons_of_pos _ hp, same]

theorem outermost_cons_of_inner (h : ¬Outermost vs p) : outermost (p ::ₘ vs) = outermost vs := by
  have same : vs.filter (Outermost (p ::ₘ vs)) = outermost vs :=
    Multiset.filter_congr fun v hv => outermost_cons_iff later (Multiset.mem_cons_of_mem hv)
  have hp := fun h' => h ((outermost_cons_iff later (Multiset.mem_cons_self p vs)).mp h')
  rw [outermost, Multiset.filter_cons_of_neg _ hp, same]

theorem gathered_cons_of_outermost (h : Outermost vs p) :
    gathered (p ::ₘ vs) = p ::ₘ gathered vs := by
  -- nothing is enclosed by the new view, and no outermost one encloses it
  have hself : gather (p ::ₘ vs) p = p := by
    have hempty : vs.filter (p.encloses ·) = 0 :=
      Multiset.filter_eq_nil.mpr fun v hv => by simp [later v hv]
    have hgather : gather vs p = p := by rw [gather, hempty, Multiset.zero_bind, add_zero]
    rw [gather_cons, hgather, receive, if_neg (by simp [not_encloses_self])]
  have hrest : ∀ o ∈ outermost vs, gather (p ::ₘ vs) o = gather vs o := by
    intro o ho
    have hop : (gather vs o).encloses p = false := h o (mem_outermost.mp ho).1
    rw [gather_cons, receive, hop]
    rfl
  rw [gathered, outermost_cons_of_outermost later h, Multiset.map_cons, hself,
    Multiset.map_congr rfl hrest]
  rfl

theorem gathered_cons_of_inner (h : ¬Outermost vs p) :
    gathered (p ::ₘ vs) = (gathered vs).map (receive · p) := by
  rw [gathered, outermost_cons_of_inner later h, gathered, Multiset.map_map]
  exact Multiset.map_congr rfl fun o _ => gather_cons

theorem foldable_cons_of_outermost (h : Outermost vs p) :
    Foldable (p ::ₘ vs) ↔ Foldable vs ∧ ∀ o ∈ outermost vs, o.path ≠ p.path := by
  have hp := (outermost_cons_iff later (Multiset.mem_cons_self p vs)).mpr h
  have hvs {v : View} (hv : v ∈ vs) := outermost_cons_iff later (Multiset.mem_cons_of_mem hv)
  have hout := outermost_cons_of_outermost later h
  constructor
  · rintro ⟨paths, inner⟩
    rw [hout, Multiset.map_cons, Multiset.nodup_cons] at paths
    refine ⟨⟨paths.2, fun v hv hn => ?_⟩, fun o ho e => paths.1 (Multiset.mem_map.mpr ⟨o, ho, e⟩)⟩
    obtain ⟨hk, o, ho, hov, hagg⟩ :=
      inner v (Multiset.mem_cons_of_mem hv) fun h' => hn ((hvs hv).mp h')
    rw [hout] at ho
    rcases Multiset.mem_cons.mp ho with rfl | ho
    · rw [later v hv] at hov
      cases hov
    · exact ⟨hk, o, ho, hov, hagg⟩
  · rintro ⟨⟨paths, inner⟩, hne⟩
    refine ⟨?_, fun v hv hn => ?_⟩
    · rw [hout, Multiset.map_cons, Multiset.nodup_cons]
      refine ⟨fun hm => ?_, paths⟩
      obtain ⟨o, ho, e⟩ := Multiset.mem_map.mp hm
      exact hne o ho e
    · rcases Multiset.mem_cons.mp hv with rfl | hv
      · exact absurd hp hn
      · obtain ⟨hk, o, ho, hov, hagg⟩ := inner v hv fun h' => hn ((hvs hv).mpr h')
        exact ⟨hk, o, hout ▸ Multiset.mem_cons_of_mem ho, hov, hagg⟩

theorem foldable_cons_of_inner (h : ¬Outermost vs p) :
    Foldable (p ::ₘ vs) ↔ Foldable vs ∧ p.isKeyed = true ∧
      ∃ o ∈ outermost vs, o.encloses p = true ∧ o.aggregates = true := by
  have hp := fun h' => h ((outermost_cons_iff later (Multiset.mem_cons_self p vs)).mp h')
  have hvs {v : View} (hv : v ∈ vs) := outermost_cons_iff later (Multiset.mem_cons_of_mem hv)
  have hout := outermost_cons_of_inner later h
  constructor
  · rintro ⟨paths, inner⟩
    rw [hout] at paths inner
    refine ⟨⟨paths, fun v hv hn => ?_⟩, inner p (Multiset.mem_cons_self p vs) hp⟩
    exact inner v (Multiset.mem_cons_of_mem hv) fun h' => hn ((hvs hv).mp h')
  · rintro ⟨⟨paths, inner⟩, hin⟩
    refine ⟨hout ▸ paths, fun v hv hn => ?_⟩
    rw [hout]
    rcases Multiset.mem_cons.mp hv with rfl | hv
    · exact hin
    · exact inner v hv fun h' => hn ((hvs hv).mpr h')

theorem Foldable.of_cons (hf : Foldable (p ::ₘ vs)) : Foldable vs := by
  by_cases h : Outermost vs p
  · exact ((foldable_cons_of_outermost later h).mp hf).1
  · exact ((foldable_cons_of_inner later h).mp hf).1

end
end View
end Stowage.Merge
