import Stowage.Proofs.Names
import Stowage.Proofs.Nesting

/-!
# Mounts and volumes of the final points

Each point gives one mount, at its path. A volume is looked up by name, and the volumes that the
points bring are found again under the names of their mounts.
-/

namespace Stowage

/-! ## Volumes by name -/

namespace Manifest

def volumeNamed? (volumes : List Volume) (name : String) : Option Volume :=
  volumes.find? (·.name == name)

theorem find?_foldl_addVolume (name : String) (vs acc : List Volume) :
    (vs.foldl addVolume acc).find? (·.name == name) = (acc ++ vs).find? (·.name == name) := by
  induction vs generalizing acc with
  | nil => simp
  | cons v vs ih =>
    rw [List.foldl_cons, ih, addVolume]
    split
    · next hany =>
      obtain ⟨u, hu, huv⟩ := List.any_eq_true.mp hany
      simp only [List.find?_append, List.find?_cons]
      by_cases hv : v.name == name
      · -- an earlier volume has the name already
        have : (acc.find? (·.name == name)).isSome := List.find?_isSome.mpr
          ⟨u, hu, by simpa [beq_iff_eq.mp huv] using hv⟩
        obtain ⟨w, hw⟩ := Option.isSome_iff_exists.mp this
        simp [hw]
      · simp [hv]
    · rw [List.append_assoc]
      rfl

/-- Of the volumes with one name the first stays. -/
theorem volumeNamed?_distinctVolumes (vs : List Volume) (name : String) :
    volumeNamed? (distinctVolumes vs) name = volumeNamed? vs name :=
  find?_foldl_addVolume name vs []

theorem nodup_distinctVolumes (vs : List Volume) :
    ((distinctVolumes vs).map Volume.name).Nodup := by
  suffices ∀ acc : List Volume, (acc.map Volume.name).Nodup →
      ((vs.foldl addVolume acc).map Volume.name).Nodup from this [] List.nodup_nil
  induction vs with
  | nil => exact fun acc h => h
  | cons v vs ih =>
    intro acc h
    refine ih _ ?_
    unfold addVolume
    split
    · exact h
    · next hany =>
      rw [List.map_append]
      refine List.nodup_append.mpr ⟨h, by simp, ?_⟩
      intro a ha b hb e
      obtain ⟨u, hu, rfl⟩ := List.mem_map.mp ha
      simp only [List.map_cons, List.map_nil, List.mem_singleton] at hb
      exact hany (List.any_eq_true.mpr ⟨u, hu, by simp [e, hb]⟩)

theorem mem_of_mem_distinctVolumes {vs : List Volume} {v : Volume} (h : v ∈ distinctVolumes vs) :
    v ∈ vs := by
  suffices ∀ acc : List Volume, v ∈ vs.foldl addVolume acc → v ∈ acc ∨ v ∈ vs from
    (this [] h).resolve_left List.not_mem_nil
  clear h
  induction vs with
  | nil => exact fun acc h => .inl h
  | cons u vs ih =>
    intro acc h
    rcases ih _ h with h | h
    · unfold addVolume at h
      split at h
      · exact .inl h
      · rcases List.mem_append.mp h with h | h
        · exact .inl h
        · exact .inr (List.mem_cons.mpr (.inl (List.mem_singleton.mp h)))
    · exact .inr (List.mem_cons_of_mem u h)

theorem name_of_volumeNamed?_eq_some {vs : List Volume} {name : String} {v : Volume}
    (h : volumeNamed? vs name = some v) : v ∈ vs ∧ v.name = name :=
  ⟨List.mem_of_find?_eq_some h, by simpa using List.find?_some h⟩

theorem exists_mem_distinctVolumes {vs : List Volume} {v : Volume} (h : v ∈ vs) :
    ∃ u ∈ distinctVolumes vs, u.name = v.name := by
  have : (volumeNamed? vs v.name).isSome := List.find?_isSome.mpr ⟨v, h, by simp⟩
  obtain ⟨u, hu⟩ := Option.isSome_iff_exists.mp this
  rw [← volumeNamed?_distinctVolumes] at hu
  exact ⟨u, name_of_volumeNamed?_eq_some hu⟩

/-- Where equal names mean equal volumes, a mount finds the volume that it came with. -/
theorem volumeNamed?_of_agree {out : List (Mount × Option Volume)}
    (carry : ∀ x ∈ out, ∀ v, x.2 = some v → v.name = x.1.name) {x : Mount × Option Volume}
    (hx : x ∈ out) (agree : ∀ y ∈ out, y.1.name = x.1.name → y.2 = x.2) :
    volumeNamed? (out.filterMap Prod.snd) x.1.name = x.2 := by
  have found : ∀ v, volumeNamed? (out.filterMap Prod.snd) x.1.name = some v → x.2 = some v := by
    intro v hv
    obtain ⟨hmem, hname⟩ := name_of_volumeNamed?_eq_some hv
    obtain ⟨y, hy, hyv⟩ := List.mem_filterMap.mp hmem
    rw [← agree y hy ((carry y hy v hyv).symm.trans hname), hyv]
  cases hv : volumeNamed? (out.filterMap Prod.snd) x.1.name with
  | some v => exact (found v hv).symm
  | none =>
    cases hx₂ : x.2 with
    | none => rfl
    | some v =>
      have := List.find?_eq_none.mp hv v (List.mem_filterMap.mpr ⟨x, hx, hx₂⟩)
      simp [carry x hx v hx₂] at this

end Manifest

/-! ## One mount for each point -/

namespace Merge

inductive Emits (container : String) : Point → Manifest.Mount × Option Manifest.Volume → Prop
  | plain (e) : Emits container (.plain e) (verbatim e)
  | single (dir m) : Emits container (.projection dir [m]) (verbatim m.entry)
  | merged {dir ms} (n) : 1 < ms.length →
      Emits container (.projection dir ms) (generated (projectedName container n) dir ms)

variable {es : List Entry} {container : String}

theorem emit_emits {l : List Point} (sound : ∀ p ∈ l, p.Sound es) (n : Nat) :
    List.Forall₂ (Emits container) l (emit container n l) := by
  induction l generalizing n with
  | nil => exact .nil
  | cons p l ih =>
    have hl := fun q hq => sound q (List.mem_cons_of_mem p hq)
    cases sound p List.mem_cons_self with
    | plain => exact .cons (.plain _) (ih hl n)
    | single => exact .cons (.single _ _) (ih hl n)
    | @merged dir ms hlen _ =>
      match ms, hlen with
      | _ :: _ :: _, hlen => exact .cons (.merged n hlen) (ih hl (n + 1))

theorem Emits.path_eq {p : Point} {x : Manifest.Mount × Option Manifest.Volume}
    (h : Emits container p x) (hp : p.Sound es) : x.1.path = p.path := by
  cases h with
  | plain e => rfl
  | @single dir m =>
    have hm := hp.fits m List.mem_cons_self
    by_cases hk : m.isKeyed = true
    · simp [Point.path, hk, verbatim, Entry.target]
    · have : m.entry.subPath = none := by simpa [hm.isKeyed] using hk
      simpa [Point.path, hk, verbatim, Entry.target] using (hm.whole this).2.symm
  | @merged dir ms n hlen =>
    exact (Point.Sound.path_eq_dir (by simp [Point.aggregates, hlen])).symm

theorem map_path_emit {l : List Point} (sound : ∀ p ∈ l, p.Sound es) (n : Nat) :
    (emit container n l).map (·.1.path) = l.map Point.path := by
  have key : ∀ {l out}, List.Forall₂ (Emits container) l out → (∀ p ∈ l, p.Sound es) →
      out.map (·.1.path) = l.map Point.path := by
    intro l out h
    induction h with
    | nil => exact fun _ => rfl
    | cons hx _ ih =>
      intro sound
      rw [List.map_cons, List.map_cons, hx.path_eq (sound _ List.mem_cons_self),
        ih fun q hq => sound q (List.mem_cons_of_mem _ hq)]
  exact key (emit_emits sound n) sound

/-! ## Generated names -/

def Fresh (container : String) (es : List Entry) : Prop :=
  ∀ e ∈ es, ∀ n, e.volumeName ≠ projectedName container n

theorem projectedName_inj {n n' : Nat}
    (h : projectedName container n = projectedName container n') : n = n' := by
  rw [projectedName_eq, projectedName_eq] at h
  exact (numbered_inj h).2.2

section
variable {l : List Point} (fresh : Fresh container es)

include fresh in
theorem Emits.name_cases {p : Point} {x : Manifest.Mount × Option Manifest.Volume}
    (h : Emits container p x) (hp : p.Sound es) :
    (∃ e, p.entries = [e] ∧ x = verbatim e ∧ ∀ n, x.1.name ≠ projectedName container n) ∨
      ∃ n dir ms, 1 < ms.length ∧ p = .projection dir ms ∧
        x = generated (projectedName container n) dir ms := by
  cases h with
  | plain e =>
    cases hp with
    | plain he => exact .inl ⟨e, rfl, rfl, fresh e he⟩
  | single dir m => exact .inl ⟨m.entry, rfl, rfl, fresh _ (hp.fits m List.mem_cons_self).mem⟩
  | merged n hlen => exact .inr ⟨n, _, _, hlen, rfl, rfl⟩

theorem emit_cons {p : Point} (hp : p.Sound es) (n : Nat) :
    (∃ e ∈ es, emit container n (p :: l) = verbatim e :: emit container n l) ∨
      ∃ dir ms, emit container n (p :: l) =
        generated (projectedName container n) dir ms :: emit container (n + 1) l := by
  cases hp with
  | plain he => exact .inl ⟨_, he, rfl⟩
  | single hm => exact .inl ⟨_, hm.mem, rfl⟩
  | @merged dir ms hlen _ =>
    match ms, hlen with
    | m :: m' :: ms, _ => exact .inr ⟨dir, m :: m' :: ms, rfl⟩

include fresh in
theorem number_le_of_mem_emit (sound : ∀ p ∈ l, p.Sound es) {n k : Nat}
    {x : Manifest.Mount × Option Manifest.Volume} (hx : x ∈ emit container n l)
    (hk : x.1.name = projectedName container k) : n ≤ k := by
  induction l generalizing n with
  | nil => cases hx
  | cons p l ih =>
    have hl := fun q hq => sound q (List.mem_cons_of_mem p hq)
    rcases emit_cons (sound p List.mem_cons_self) n with ⟨e, he, hemit⟩ | ⟨dir, ms, hemit⟩
    · rw [hemit] at hx
      rcases List.mem_cons.mp hx with rfl | hx
      · exact absurd hk (fresh e he k)
      · exact ih hl hx
    · rw [hemit] at hx
      rcases List.mem_cons.mp hx with rfl | hx
      · exact (projectedName_inj hk).le
      · exact (Nat.le_succ n).trans (ih hl hx)

include fresh in
theorem emit_eq_of_name_eq (sound : ∀ p ∈ l, p.Sound es) {n k : Nat}
    {x y : Manifest.Mount × Option Manifest.Volume} (hx : x ∈ emit container n l)
    (hy : y ∈ emit container n l) (hxk : x.1.name = projectedName container k)
    (hyk : y.1.name = projectedName container k) : x = y := by
  induction l generalizing n with
  | nil => cases hx
  | cons p l ih =>
    have hl := fun q hq => sound q (List.mem_cons_of_mem p hq)
    rcases emit_cons (sound p List.mem_cons_self) n with ⟨e, he, hemit⟩ | ⟨dir, ms, hemit⟩
    · rw [hemit] at hx hy
      have not_first {z : Manifest.Mount × Option Manifest.Volume}
          (hz : z.1.name = projectedName container k) : z ≠ verbatim e :=
        fun h => fresh e he k (by rw [← hz, h]; rfl)
      have hx := (List.mem_cons.mp hx).resolve_left (not_first hxk)
      have hy := (List.mem_cons.mp hy).resolve_left (not_first hyk)
      exact ih hl hx hy
    · rw [hemit] at hx hy
      -- the later names have larger numbers
      have later {z w : Manifest.Mount × Option Manifest.Volume}
          (hz : z = generated (projectedName container n) dir ms)
          (hzk : z.1.name = projectedName container k) (hw : w ∈ emit container (n + 1) l)
          (hwk : w.1.name = projectedName container k) : False := by
        have : n = k := projectedName_inj (by rw [← hzk, hz]; rfl)
        have := number_le_of_mem_emit fresh hl hw hwk
        omega
      rcases List.mem_cons.mp hx with hx | hx
      · rcases List.mem_cons.mp hy with hy | hy
        · rw [hx, hy]
        · exact (later hx hxk hy hyk).elim
      · rcases List.mem_cons.mp hy with hy | hy
        · exact (later hy hyk hx hxk).elim
        · exact ih hl hx hy

/-! ## Volumes of the result -/

def Carries (es : List Entry) : Prop :=
  ∀ e ∈ es, ∀ v, e.plan.volume = some v → v.name = e.volumeName

variable (carries : Carries es) (sound : ∀ p ∈ l, p.Sound es)
include sound

include fresh in
theorem mem_emit {n : Nat} {x : Manifest.Mount × Option Manifest.Volume}
    (hx : x ∈ emit container n l) :
    (∃ e ∈ es, x = verbatim e ∧ ∀ k, x.1.name ≠ projectedName container k) ∨
      ∃ k dir ms, x = generated (projectedName container k) dir ms := by
  obtain ⟨p, hp, hpx⟩ := exists_left_of_mem (emit_emits sound n) hx
  rcases hpx.name_cases fresh (sound p hp) with ⟨e, he, hx, hk⟩ | ⟨k, dir, ms, -, -, hx⟩
  · exact .inl ⟨e, (sound p hp).mem e (by simp [he]), hx, hk⟩
  · exact .inr ⟨k, dir, ms, hx⟩

include fresh carries in
theorem carry_emit {n : Nat} : ∀ x ∈ emit container n l, ∀ v, x.2 = some v → v.name = x.1.name := by
  intro x hx v hv
  rcases mem_emit fresh sound hx with ⟨e, he, rfl, -⟩ | ⟨k, dir, ms, rfl⟩
  · exact carries e he v hv
  · cases hv
    rfl

include fresh carries in
theorem volumeNamed?_generated {x : Manifest.Mount × Option Manifest.Volume} {k : Nat}
    (hx : x ∈ emit container 0 l) (hk : x.1.name = projectedName container k) :
    Manifest.volumeNamed? (result container l).volumes x.1.name = x.2 := by
  rw [result, Manifest.volumeNamed?_distinctVolumes]
  refine Manifest.volumeNamed?_of_agree (carry_emit fresh carries sound) hx fun y hy hyx => ?_
  rw [emit_eq_of_name_eq fresh sound hy hx (hyx.trans hk) hk]

include fresh carries in
theorem volumeNamed?_verbatim {e : Entry} (he : verbatim e ∈ emit container 0 l)
    (mem : e ∈ es)
    (agree : ∀ e' ∈ es, e'.volumeName = e.volumeName → e'.plan.volume = e.plan.volume) :
    Manifest.volumeNamed? (result container l).volumes e.volumeName = e.plan.volume := by
  rw [result, Manifest.volumeNamed?_distinctVolumes]
  refine Manifest.volumeNamed?_of_agree (carry_emit fresh carries sound) he fun y hy hye => ?_
  rcases mem_emit fresh sound hy with ⟨e', he', rfl, -⟩ | ⟨k, dir, ms, rfl⟩
  · exact agree e' he' hye
  · exact absurd hye.symm (fresh e mem k)

end

end Merge
end Stowage
