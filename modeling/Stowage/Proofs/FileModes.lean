import Stowage.Proofs.Faults
import Stowage.Proofs.Permissions
import Stowage.Proofs.Wiring

/-!
# Modes that files are declared with

A mode is documented as octal digits up to `0777`. One with a sign is read all the same, so a negative
one is not refused. The modes that an assembled container shows are those of its files and no others.
-/

namespace Stowage

/-! ## Natural numbers -/

theorem mapM_digitValue?_eq_some {base : Nat} (hbase : base ≤ 10) {cs : List Char} {ds : List Nat} :
    cs.mapM (digitValue? base) = some ds ↔
      (∀ c ∈ cs, 48 ≤ c.toNat ∧ c.toNat < 48 + base) ∧ ds = cs.map fun c => c.toNat - 48 := by
  induction cs generalizing ds with
  | nil => simp [eq_comm]
  | cons c cs ih =>
    simp only [List.mapM_cons, Option.bind_eq_bind, Option.bind_eq_some_iff,
      digitValue?_eq_some hbase, ih, Option.pure_def, Option.some.injEq, List.forall_mem_cons,
      List.map_cons]
    constructor
    · rintro ⟨v, ⟨hv, hlt⟩, _, ⟨hcs, rfl⟩, rfl⟩
      exact ⟨⟨by omega, hcs⟩, by rw [hv]; simp⟩
    · rintro ⟨⟨hc, hcs⟩, rfl⟩
      exact ⟨c.toNat - 48, by omega, _, ⟨hcs, rfl⟩, rfl⟩

theorem ofDigits_map_toNat (base : Nat) (cs : List Char) :
    ofDigits base (cs.map fun c => c.toNat - 48) = Nat.ofDigitChars base cs 0 := by
  rw [ofDigits, List.foldl_map]
  simp only [Nat.mul_comm _ base]
  rfl

theorem natural?_eq_some {base n : Nat} (hbase : base ≤ 10) {cs : List Char} :
    natural? base cs = some n ↔ cs ≠ [] ∧ (∀ c ∈ cs, 48 ≤ c.toNat ∧ c.toNat < 48 + base) ∧
      n = Nat.ofDigitChars base cs 0 := by
  unfold natural?
  by_cases hcs : cs = []
  · simp [hcs]
  · simp only [List.isEmpty_iff, hcs, if_false, Option.map_eq_some_iff,
      mapM_digitValue?_eq_some hbase, ne_eq, not_false_eq_true, true_and]
    constructor
    · rintro ⟨ds, ⟨hall, rfl⟩, rfl⟩
      exact ⟨hall, ofDigits_map_toNat base cs⟩
    · rintro ⟨hall, rfl⟩
      exact ⟨_, ⟨hall, rfl⟩, ofDigits_map_toNat base cs⟩

namespace FileMode

/-! ## Modes as texts -/

def Octal (cs : List Char) : Prop := cs ≠ [] ∧ ∀ c ∈ cs, '0' ≤ c ∧ c ≤ '7'

def octalValue (cs : List Char) : Nat := Nat.ofDigitChars 8 cs 0

/-- What is documented of reading a mode, blanks around it apart. -/
inductive Documented (mode : String) (t : List Char) : Except Cause Int → Prop
  | permissions : Octal t → octalValue t ≤ 0o777 → Documented mode t (.ok (octalValue t))
  | invalid : (Octal t → 0o777 < octalValue t) → Documented mode t (.error (.fileMode mode))

/-- Octal digits behind a sign, up to `0777` or down to the least word of 32 bits. -/
inductive Signed : List Char → Int → Prop
  | plus {ds} : Octal ds → octalValue ds ≤ 0o777 → Signed ('+' :: ds) (octalValue ds)
  | minus {ds} : Octal ds → octalValue ds ≤ 0x80000000 → Signed ('-' :: ds) (-octalValue ds)

theorem natural?_eight {cs : List Char} {n : Nat} :
    natural? 8 cs = some n ↔ Octal cs ∧ n = octalValue cs := by
  have hdigit (c : Char) : 48 ≤ c.toNat ∧ c.toNat < 48 + 8 ↔ '0' ≤ c ∧ c ≤ '7' := by
    simp only [Char.le_def, UInt32.le_iff_toNat_le]
    change _ ↔ 48 ≤ c.toNat ∧ c.toNat ≤ 55
    omega
  rw [natural?_eq_some (by decide)]
  simp only [hdigit, Octal, octalValue, and_assoc]

theorem not_octal_of_sign {c : Char} {ds : List Char} (hc : c = '+' ∨ c = '-') :
    ¬Octal (c :: ds) := by
  rintro ⟨-, hall⟩
  have hdigit := hall c List.mem_cons_self
  rcases hc with rfl | rfl
  · exact absurd hdigit (by decide)
  · exact absurd hdigit (by decide)

theorem map_natural?_eq_some {cs : List Char} {f : Nat → Int} {n : Int} :
    (natural? 8 cs).map f = some n ↔ Octal cs ∧ n = f (octalValue cs) := by
  simp only [Option.map_eq_some_iff, natural?_eight]
  constructor
  · rintro ⟨v, ⟨hoctal, rfl⟩, rfl⟩
    exact ⟨hoctal, rfl⟩
  · rintro ⟨hoctal, rfl⟩
    exact ⟨_, ⟨hoctal, rfl⟩, rfl⟩

theorem value?_eq_some {t : List Char} {n : Int} : value? t = some n ↔
    (Octal t ∧ n = octalValue t) ∨ ∃ ds, Octal ds ∧
      ((t = '+' :: ds ∧ n = octalValue ds) ∨ (t = '-' :: ds ∧ n = -octalValue ds)) := by
  unfold value?
  split
  · next ds =>
    have hlift : Option.map (fun n => -n) (do let a ← natural? 8 ds; pure (a : Int)) =
        (natural? 8 ds).map fun n : Nat => -(n : Int) := by
      cases natural? 8 ds <;> rfl
    have hoctal : ¬Octal ('-' :: ds) := not_octal_of_sign (.inr rfl)
    rw [hlift, map_natural?_eq_some]
    simp [hoctal]
  · next ds =>
    have hoctal : ¬Octal ('+' :: ds) := not_octal_of_sign (.inl rfl)
    rw [map_natural?_eq_some]
    simp [hoctal]
  · next hminus hplus =>
    rw [map_natural?_eq_some]
    constructor
    · exact .inl
    · rintro (h | ⟨ds, -, ⟨ht, -⟩ | ⟨ht, -⟩⟩)
      · exact h
      · exact absurd ht (hplus ds)
      · exact absurd ht (hminus ds)

theorem parse_eq_ok {mode : String} {n : Int} : parse mode = .ok n ↔
    (Octal (trimBlank mode.toList) ∧ octalValue (trimBlank mode.toList) ≤ 0o777 ∧
      n = octalValue (trimBlank mode.toList)) ∨ Signed (trimBlank mode.toList) n := by
  have hread : parse mode = .ok n ↔
      value? (trimBlank mode.toList) = some n ∧ least ≤ n ∧ n ≤ greatest := by
    unfold parse
    cases value? (trimBlank mode.toList) with
    | none => simp
    | some m =>
      dsimp only
      split
      · next hm =>
        simp only [Except.ok.injEq, Option.some.injEq]
        constructor
        · rintro rfl
          exact ⟨rfl, hm⟩
        · exact fun h => h.1
      · next hm =>
        simp only [reduceCtorEq, Option.some.injEq, false_iff, not_and]
        rintro rfl h h'
        exact hm ⟨h, h'⟩
  rw [hread, value?_eq_some]
  generalize trimBlank mode.toList = t
  simp only [least, greatest]
  constructor
  · rintro ⟨⟨hoctal, rfl⟩ | ⟨ds, hoctal, ⟨rfl, rfl⟩ | ⟨rfl, rfl⟩⟩, hlow, hhigh⟩
    · exact .inl ⟨hoctal, by omega, rfl⟩
    · exact .inr (.plus hoctal (by omega))
    · exact .inr (.minus hoctal (by omega))
  · rintro (⟨hoctal, hle, rfl⟩ | hsigned)
    · exact ⟨.inl ⟨hoctal, rfl⟩, by omega, by omega⟩
    · cases hsigned with
      | plus hoctal hle => exact ⟨.inr ⟨_, hoctal, .inl ⟨rfl, rfl⟩⟩, by omega, by omega⟩
      | minus hoctal hle => exact ⟨.inr ⟨_, hoctal, .inr ⟨rfl, rfl⟩⟩, by omega, by omega⟩

theorem Documented.octal {mode : String} {t : List Char} {r : Except Cause Int} {n : Int}
    (h : Documented mode t r) (hr : r = .ok n) : Octal t := by
  cases h with
  | permissions hoctal => exact hoctal
  | invalid => cases hr

theorem documented_iff (mode : String) :
    Documented mode (trimBlank mode.toList) (parse mode) ↔
      ∀ n, ¬Signed (trimBlank mode.toList) n := by
  constructor
  · intro h n hn
    have hoctal := h.octal (parse_eq_ok.mpr (.inr hn))
    generalize trimBlank mode.toList = t at hn hoctal
    cases hn with
    | plus => exact not_octal_of_sign (.inl rfl) hoctal
    | minus => exact not_octal_of_sign (.inr rfl) hoctal
  · intro hsigned
    cases hparse : parse mode with
    | ok n =>
      rcases parse_eq_ok.mp hparse with ⟨hoctal, hle, rfl⟩ | hn
      · exact .permissions hoctal hle
      · exact absurd hn (hsigned n)
    | error c =>
      rw [parse_eq_error hparse]
      refine .invalid fun hoctal => Nat.lt_of_not_le fun hle => ?_
      rw [parse_eq_ok.mpr (.inl ⟨hoctal, hle, rfl⟩)] at hparse
      cases hparse

end FileMode

/-! ## Modes that volumes show -/

namespace Manifest

def Projection.modes (p : Projection) : List Int := (p.items.getD []).filterMap Item.mode

def VolumeSource.modes : VolumeSource → List Int
  | .configMap _ mode | .secret _ mode => mode.toList
  | .claim _ | .emptyDir | .hostPath _ => []
  | .projected sources => sources.flatMap Projection.modes

theorem Backs.modes {s : VolumeSource} {object : ProjectedObject} {mode : Option Int}
    (h : Backs s object mode) : s.modes = mode.toList := by
  cases h <;> rfl

end Manifest

theorem Mount.modes_backing (outputs : Outputs) (name : String) :
    (backing outputs name).modes = [] := by
  unfold backing
  split
  · rfl
  · split
    · rfl
    · split <;> rfl

theorem Mount.OfVolume.modes {container : String} {i : Nat} {d : Workload.Volume}
    {kind : WorkloadKind} {scope : Scope} {c : Converted} (h : OfVolume container i d kind scope c)
    {v : Manifest.Volume} (hv : c.plan.volume = some v) : v.source.modes = [] := by
  cases h with
  | resource =>
    cases hv
    exact modes_backing _ _
  | host => cases hv; rfl
  | claim => cases hv

theorem Merge.Projects.modes {es : List Entry} {dir : String} {e : Entry}
    {p : Manifest.Projection} (h : Projects es dir e p) {n : Int} (hn : n ∈ p.modes) :
    ∃ v, e.plan.volume = some v ∧ n ∈ v.source.modes := by
  cases h with
  | whole => cases hn
  | @key v object mode key path hv hback =>
    refine ⟨v, hv, ?_⟩
    rw [hback.modes]
    cases mode with
    | none => cases hn
    | some m => exact hn

namespace Conversion
open Merge

/-! ## Modes of a container -/

def DeclaresMode (c : Workload.Container) (n : Int) : Prop :=
  ∃ f ∈ c.files, ∃ text, f.mode = some text ∧ FileMode.parse text = .ok n

theorem fileMode_eq_some {f : Workload.File} {n : Int} : Mount.fileMode f = .ok (some n) ↔
    ∃ text, f.mode = some text ∧ FileMode.parse text = .ok n := by
  unfold Mount.fileMode
  cases f.mode with
  | none => simp
  | some text => simp [map_eq_ok, checked_eq_ok]

variable {workload name : String} {c : Workload.Container} {kind : WorkloadKind} {scope : Scope}
variable {vs : List Mount.Converted} {fs : List Mount.MaterializedFile} {l : List Point}
variable {a : Assembled}

namespace AssembledFrom
variable (h : AssembledFrom workload name c kind scope vs fs l a)
include h

theorem mode_of_entry {e : Entry} (he : e ∈ entriesOf vs fs) {v : Manifest.Volume}
    (hv : e.plan.volume = some v) {n : Int} (hn : n ∈ v.source.modes) : DeclaresMode c n := by
  rcases mem_entriesOf.mp he with ⟨u, hu, hplan⟩ | ⟨i, m, -, hm, hplan⟩
  · obtain ⟨d, -, hd⟩ := ofVolume_of_volumes h.converted hu
    rw [← hplan] at hv
    rw [hd.modes hv] at hn
    cases hn
  · obtain ⟨d, hd, hfile⟩ := ofFile_of_files h.materialized hm
    obtain ⟨target, key, mode, content, -, hmode, -, rfl⟩ := Mount.ofFile_eq_ok hfile
    rw [← hplan] at hv
    cases hv
    obtain rfl : mode = some n := Option.mem_toList.mp hn
    exact ⟨d, List.mem_of_getElem? hd, fileMode_eq_some.mp hmode⟩

theorem declaresMode_of_mem {v : Manifest.Volume} (hv : v ∈ a.volumes) {n : Int}
    (hn : n ∈ v.source.modes) : DeclaresMode c n := by
  rw [h.volumes] at hv
  obtain ⟨x, hx, hxv⟩ := List.mem_filterMap.mp (Manifest.mem_of_mem_distinctVolumes hv)
  obtain ⟨p, hp, hpx⟩ := exists_left_of_mem (emit_emits h.sound 0) hx
  have owned : ∀ e ∈ p.entries, e ∈ entriesOf vs fs := (h.sound p hp).mem
  have realised := hpx.realises (h.sound p hp)
  generalize p.entries = es at owned realised
  cases realised with
  | verbatim e => exact h.mode_of_entry (owned e List.mem_cons_self) hxv hn
  | projected _ _ hproj =>
    cases hxv
    obtain ⟨q, hq, hqn⟩ := List.mem_flatMap.mp hn
    obtain ⟨e, he, heq⟩ := exists_left_of_mem hproj hq
    obtain ⟨u, hu, hun⟩ := heq.modes hqn
    exact h.mode_of_entry (owned e he) hu hun

theorem exists_mode_of_declares {n : Int} (hn : DeclaresMode c n) :
    ∃ v ∈ a.volumes, n ∈ v.source.modes := by
  obtain ⟨d, hd, htext⟩ := hn
  obtain ⟨i, hi⟩ := List.getElem?_of_mem hd
  obtain ⟨m, hm, hfile⟩ := exists_getElem?_of_convertEach h.materialized hi
  rw [Nat.zero_add] at hfile
  obtain ⟨u, hu, v, hv, -, -, howned⟩ := h.file_owned hm
  obtain ⟨target, key, mode, content, -, hmode, -, rfl⟩ :=
    Mount.ofFile_eq_ok (inField_eq_ok.mp hfile)
  obtain rfl : mode = some n := Except.ok.inj (hmode.symm.trans (fileMode_eq_some.mpr htext))
  refine ⟨v, hv, ?_⟩
  rcases howned with ⟨-, hvol⟩ | ⟨sources, p, hp, -, hsource, hproj⟩
  · cases hvol
    exact List.mem_singleton_self n
  · rw [hsource]
    refine List.mem_flatMap.mpr ⟨p, hp, ?_⟩
    cases hproj with
    | whole _ _ hsub => cases hsub
    | key hvol hback =>
      cases hvol
      cases hback
      exact List.mem_singleton_self n

theorem parse_of_file {f : Workload.File} (hf : f ∈ c.files) {text : String}
    (htext : f.mode = some text) : ∃ n, FileMode.parse text = .ok n := by
  obtain ⟨i, hi⟩ := List.getElem?_of_mem hf
  obtain ⟨m, -, hfile⟩ := exists_getElem?_of_convertEach h.materialized hi
  obtain ⟨target, key, mode, content, -, hmode, -, -⟩ :=
    Mount.ofFile_eq_ok (inField_eq_ok.mp hfile)
  simp only [Mount.fileMode, htext, map_eq_ok, checked_eq_ok] at hmode
  obtain ⟨n, hn, -⟩ := hmode
  exact ⟨n, hn⟩

end AssembledFrom

/-- Where the modes that a container shows come from, and when they are permissions. -/
structure ModesShown (c : Workload.Container) (a : Assembled) : Prop where
  declared_iff : ∀ n, (∃ v ∈ a.volumes, n ∈ v.source.modes) ↔ DeclaresMode c n
  bounded_iff : (∀ v ∈ a.volumes, ∀ n ∈ v.source.modes, 0 ≤ n ∧ n ≤ 0o777) ↔
    ∀ f ∈ c.files, ∀ text, f.mode = some text → ∀ ds, Trimmed text.toList ('-' :: ds) →
      FileMode.octalValue ds = 0

theorem modesShown_of_assemble (h : assemble workload name c kind scope = .ok a) :
    ModesShown c a := by
  obtain ⟨vs, fs, l, h⟩ := assemble_eq_ok h
  have declared (n : Int) : (∃ v ∈ a.volumes, n ∈ v.source.modes) ↔ DeclaresMode c n :=
    ⟨fun ⟨_, hv, hn⟩ => h.declaresMode_of_mem hv hn, h.exists_mode_of_declares⟩
  refine ⟨declared, ?_, ?_⟩
  · intro bounded f hf text htext ds ht
    obtain ⟨n, hn⟩ := h.parse_of_file hf htext
    obtain ⟨v, hv, hnv⟩ := (declared n).mpr ⟨f, hf, text, htext, hn⟩
    have hpos := (bounded v hv n hnv).1
    rcases FileMode.parse_eq_ok.mp hn with ⟨hoctal, -⟩ | hsigned
    · rw [← ht.eq_trimBlank] at hoctal
      exact absurd hoctal (FileMode.not_octal_of_sign (.inr rfl))
    · rw [← ht.eq_trimBlank] at hsigned
      cases hsigned with
      | minus => omega
  · intro unsigned v hv n hnv
    obtain ⟨f, hf, text, htext, hn⟩ := (declared n).mp ⟨v, hv, hnv⟩
    have ht := trimmed_trimBlank text.toList
    rcases FileMode.parse_eq_ok.mp hn with ⟨-, hle, rfl⟩ | hsigned
    · omega
    · generalize trimBlank text.toList = t at ht hsigned
      cases hsigned with
      | plus _ hle => omega
      | @minus ds _ hle =>
        have hzero := unsigned f hf text htext ds ht
        omega

/-- A mode is read as documented exactly unless it is octal digits behind a sign, and these are read
with the sign. All modes that a container shows are permissions exactly if no file declares one that
is negative. -/
theorem modes_documented_iff (mode : String) {t : List Char} (ht : Trimmed mode.toList t) :
    (FileMode.Documented mode t (FileMode.parse mode) ↔ ∀ n, ¬FileMode.Signed t n) ∧
    (∀ n, FileMode.Signed t n → FileMode.parse mode = .ok n) ∧
    ∀ workload name c kind scope a, assemble workload name c kind scope = .ok a →
      ModesShown c a := by
  obtain rfl := ht.eq_trimBlank
  refine ⟨FileMode.documented_iff mode, ?_, ?_⟩
  · intro n hn
    exact FileMode.parse_eq_ok.mpr (.inr hn)
  · intro workload name c kind scope a h
    exact modesShown_of_assemble h

theorem modes_documented_iff_of_two_files :
    let scope : Scope := .ofWorkload "api" (Workload.ofName "api") .empty
    let c : Workload.Container := { Workload.Container.ofImage "app" with
      files := [{ Workload.File.ofContent "/etc/app/a" "1" with mode := some "0600" },
        { Workload.File.ofContent "/etc/app/b" "2" with mode := some " 755 " }] }
    Trimmed " 755 ".toList "755".toList ∧
    (FileMode.Documented " 755 " "755".toList (FileMode.parse " 755 ") ↔
      ∀ n, ¬FileMode.Signed "755".toList n) ∧
    ∃ a, assemble "api" "web" c .deployment scope = .ok a ∧ ModesShown c a ∧
      a.volumes.map (fun v => v.source.modes) = [[0o600, 0o755]] := by
  intro scope c
  have modes : (assemble "api" "web" c .deployment scope).map
      (fun a => a.volumes.map (fun v => v.source.modes)) = .ok [[0o600, 0o755]] := by
    decide +kernel
  obtain ⟨a, ha, hmodes⟩ := map_eq_ok.mp modes
  have ht : Trimmed " 755 ".toList "755".toList := trimmed_trimBlank " 755 ".toList
  obtain ⟨hread, -, hshown⟩ := modes_documented_iff " 755 " ht
  exact ⟨ht, hread, a, ha, hshown "api" "web" c .deployment scope a ha, hmodes⟩

/-- A mode below zero is no octal number, yet it is read and shown. -/
theorem negative_mode_shown :
    let scope : Scope := .ofWorkload "api" (Workload.ofName "api") .empty
    let c : Workload.Container := { Workload.Container.ofImage "app" with
      files := [{ Workload.File.ofContent "/etc/app/a" "1" with mode := some "-644" }] }
    Trimmed "-644".toList "-644".toList ∧ ¬FileMode.Octal "-644".toList ∧
      FileMode.parse "-644" = .ok (-0o644) ∧
      ¬FileMode.Documented "-644" "-644".toList (FileMode.parse "-644") ∧
      ∃ a, assemble "api" "web" c .deployment scope = .ok a ∧
        a.volumes.map (fun v => v.source.modes) = [[-0o644]] := by
  intro scope c
  have hoctal : ¬FileMode.Octal "-644".toList := FileMode.not_octal_of_sign (.inr rfl)
  have hparse : FileMode.parse "-644" = .ok (-0o644) := by decide +kernel
  have modes : (assemble "api" "web" c .deployment scope).map
      (fun a => a.volumes.map (fun v => v.source.modes)) = .ok [[-0o644]] := by
    decide +kernel
  exact ⟨trimmed_trimBlank "-644".toList, hoctal, hparse, fun h => hoctal (h.octal hparse),
    map_eq_ok.mp modes⟩

end Conversion
end Stowage
