import Stowage.Proofs.Faults
import Stowage.Proofs.Overlay
import Stowage.Proofs.PathSegments
import Stowage.Proofs.Quads
import Stowage.Proofs.Sextets

/-!
# Binary files

A binary file is accepted exactly if its text, blanks around it apart, is the base64 of some bytes.
These are what its config map has, and they are written as that text again.
-/

namespace Stowage

/-! ## Names of targets -/

theorem Path.normalize_eq_ok {path target : String} (h : normalize path = .ok target) :
    path.toList.head? = some '/' ∧ (target = "/" ∨ target.toList.head? = some '/' ∧
      ∃ n, path.toList = target.toList ++ List.replicate n '/') := by
  unfold normalize at h
  split_ifs at h with habs
  have habs := not_not.mp habs
  have hslashes := List.eq_replicate_of_mem (a := '/')
    (l := (path.toList.reverse.takeWhile (fun c => decide (c = '/'))).reverse) fun c hc => by
      simpa using List.mem_takeWhile_imp (List.mem_reverse.mp hc)
  obtain ⟨n, hcut⟩ : ∃ n,
      dropEndWhile (fun c => decide (c = '/')) path.toList ++ List.replicate n '/' = path.toList :=
    ⟨_, hslashes ▸ dropEndWhile_append_takeWhile _ path.toList⟩
  generalize dropEndWhile (fun c => decide (c = '/')) path.toList = s at h hcut
  cases h
  cases s with
  | nil => exact ⟨habs, .inl rfl⟩
  | cons c s =>
    have hfirst := habs
    rw [← hcut] at hfirst
    refine ⟨habs, .inr ⟨?_, n, ?_⟩⟩
    · simpa using hfirst
    · simpa using hcut.symm

namespace Mount

/-- The target is absolute and ends on a name, with slashes behind it or none. -/
structure Named (target key : String) : Prop where
  absolute : target.toList.head? = some '/'
  cut : ∃ dir n, target.toList = dir ++ '/' :: key.toList ++ List.replicate n '/'
  not_empty : key.toList ≠ []
  not_mem : '/' ∉ key.toList

theorem Named.exists_fileTarget {f : Workload.File} {key : String} (h : Named f.target key) :
    ∃ target, fileTarget f = .ok (target, key) := by
  obtain ⟨habs, ⟨dir, n, hcut⟩, hne, hmem⟩ := h
  have hlast : ∀ c ∈ (dir ++ '/' :: key.toList).getLast?, decide (c = '/') = false := by
    intro c hc
    rw [List.getLast?_append_cons, List.getLast?_cons_of_ne_nil hne] at hc
    exact decide_eq_false (ne_of_mem_of_not_mem (List.mem_of_getLast? hc) hmem)
  have htrim : dropEndWhile (· = '/') f.target.toList = dir ++ '/' :: key.toList := by
    rw [hcut]
    exact dropEndWhile_append hlast (by simp)
  have hnormal : Path.normalize f.target = .ok (String.ofList (dir ++ '/' :: key.toList)) := by
    unfold Path.normalize
    simp [habs, htrim]
  refine ⟨String.ofList (dir ++ '/' :: key.toList), ?_⟩
  unfold Mount.fileTarget
  rw [hnormal]
  simp [checked, bind, Except.bind, Path.baseName_append hmem, hne]

theorem named_of_fileTarget {f : Workload.File} {target key : String}
    (h : fileTarget f = .ok (target, key)) : Named f.target key := by
  rw [fileTarget, bind_eq_ok] at h
  obtain ⟨t, ht, h⟩ := h
  obtain ⟨habs, hnormal⟩ := Path.normalize_eq_ok (checked_eq_ok.mp ht)
  dsimp only at h
  split_ifs at h with hkey
  cases h
  rcases hnormal with rfl | ⟨hfirst, n, hcut⟩
  · exact absurd (by decide) hkey
  · obtain ⟨dir, hdir⟩ := Path.exists_eq_append_baseName (List.mem_of_mem_head? hfirst)
    refine ⟨habs, ⟨dir, n, ?_⟩, ?_, ?_⟩
    · rw [String.toList_ofList, ← hdir]
      exact hcut
    · simpa using hkey
    · simpa using Path.not_mem_baseName target.toList

theorem fileTarget_iff {f : Workload.File} {key : String} :
    (∃ target, fileTarget f = .ok (target, key)) ↔ Named f.target key :=
  ⟨fun ⟨_, h⟩ => named_of_fileTarget h, Named.exists_fileTarget⟩

/-! ## Contents -/

theorem decodeBinary_eq_ok {encoded : String} {bytes : List UInt8} :
    decodeBinary encoded = .ok bytes ↔
      ∃ t, Trimmed encoded.toList t ∧ Base64.Encodes bytes t := by
  have hdecode : decodeBinary encoded = .ok bytes ↔
      Base64.decode (trimBlank encoded.toList) = .ok bytes := by
    unfold decodeBinary
    cases Base64.decode (trimBlank encoded.toList) <;> simp
  rw [hdecode, Base64.decode_eq_ok]
  constructor
  · intro h
    exact ⟨_, trimmed_trimBlank _, Base64.encodes_iff.mpr h⟩
  · rintro ⟨t, ht, hencodes⟩
    rw [← ht.eq_trimBlank]
    exact Base64.encodes_iff.mp hencodes

theorem fileContent_of_binary {f : Workload.File} {encoded : String} (h : f.content = none)
    (hb : f.binaryContent = some encoded) (scope : Scope) :
    fileContent f scope = (checked "binaryContent" (decodeBinary encoded)).map .binary := by
  unfold fileContent
  rw [h, hb]

theorem exists_binaryContent {f : Workload.File} {scope : Scope} {content : FileContent}
    (h : f.content = none) (hcontent : fileContent f scope = .ok content) :
    ∃ encoded, f.binaryContent = some encoded := by
  unfold fileContent at hcontent
  rw [h] at hcontent
  cases hb : f.binaryContent with
  | none =>
    rw [hb] at hcontent
    cases hcontent
  | some encoded => exact ⟨encoded, rfl⟩

theorem ofFile_of_parts {f : Workload.File} {target key : String} {mode : Option Int}
    (htarget : fileTarget f = .ok (target, key)) (hmode : fileMode f = .ok mode)
    (workload container : String) (i : Nat) (scope : Scope) :
    ofFile workload container i f scope = (fileContent f scope).map fun content =>
      ⟨configMapOf (configMapName workload container i) key content,
        ⟨.file i, ⟨fileVolumeName container i, target, some key, some true⟩,
          some ⟨fileVolumeName container i,
            .configMap (configMapName workload container i) mode⟩⟩⟩ := by
  unfold ofFile
  rw [htarget, hmode]
  cases fileContent f scope <;> rfl

/-! ## Files -/

structure Binary (f : Workload.File) (key : String) : Prop where
  target : Named f.target key
  mode : ∀ text, f.mode = some text → ∃ n, FileMode.parse text = .ok n
  no_text : f.content = none

theorem exists_fileMode {f : Workload.File}
    (h : ∀ text, f.mode = some text → ∃ n, FileMode.parse text = .ok n) :
    ∃ mode, fileMode f = .ok mode := by
  unfold fileMode
  cases hmode : f.mode with
  | none => exact ⟨none, rfl⟩
  | some text =>
    obtain ⟨n, hn⟩ := h text hmode
    exact ⟨some n, by simp [hn, checked, Except.map]⟩

def binaryMap (workload container : String) (i : Nat) (key : String) (bytes : List UInt8) :
    Manifest.ConfigMap :=
  configMapOf (configMapName workload container i) key (.binary bytes)

section
variable {f : Workload.File} {key : String} (h : Binary f key) (workload container : String) (i : Nat)
variable (scope : Scope)

theorem walk?_binaryMap (bytes : List UInt8) :
    (binaryMap workload container i key bytes).json.walk? ["binaryData", key] =
      some (.str (String.ofList (Base64.encode bytes))) := by
  have hmap : (binaryMap workload container i key bytes).json.walk? ["binaryData", key] =
      (([(key, bytes)].map fun e => (e.1, Json.str (String.ofList (Base64.encode e.2)))).lookup
        key).bind (·.walk? []) := rfl
  rw [hmap]
  simp [Json.walk?]

theorem binaryMap_eq_iff {bytes bytes' : List UInt8} {t t' : List Char}
    (ht : Base64.Encodes bytes t) (ht' : Base64.Encodes bytes' t') :
    (binaryMap workload container i key bytes).binaryData =
      (binaryMap workload container i key bytes').binaryData ↔ t = t' := by
  constructor
  · intro h
    obtain ⟨-, rfl⟩ := Prod.mk.inj (List.singleton_inj.mp (congrArg SortedMap.toList h))
    exact ht.unique ht'
  · rintro rfl
    rw [Base64.encodes_iff] at ht ht'
    rw [Base64.encode_inj (ht.symm.trans ht')]

include h

variable {encoded : String}

theorem Binary.ofFile_eq (hb : f.binaryContent = some encoded) :
    ∃ plan, ofFile workload container i f scope =
      (checked "binaryContent" (decodeBinary encoded)).map fun bytes =>
        ⟨binaryMap workload container i key bytes, plan⟩ := by
  obtain ⟨target, htarget⟩ := fileTarget_iff.mpr h.target
  obtain ⟨mode, hmode⟩ := exists_fileMode h.mode
  have hmap (x : Except Fault (List UInt8)) (plan : Plan) : (x.map .binary).map (fun content =>
      MaterializedFile.mk (configMapOf (configMapName workload container i) key content) plan) =
      x.map fun bytes => ⟨binaryMap workload container i key bytes, plan⟩ := by
    cases x <;> rfl
  rw [ofFile_of_parts htarget hmode, fileContent_of_binary h.no_text hb]
  exact ⟨_, hmap _ _⟩

theorem Binary.ofFile_eq_ok {m : MaterializedFile}
    (hm : ofFile workload container i f scope = .ok m) :
    ∃ encoded t bytes, f.binaryContent = some encoded ∧ Trimmed encoded.toList t ∧
      Base64.Encodes bytes t ∧ m.configMap = binaryMap workload container i key bytes := by
  obtain ⟨_, _, _, content, -, -, hcontent, -⟩ := Mount.ofFile_eq_ok hm
  obtain ⟨encoded, hb⟩ := exists_binaryContent h.no_text hcontent
  obtain ⟨plan, hfile⟩ := h.ofFile_eq workload container i scope hb
  rw [hfile] at hm
  obtain ⟨bytes, hbytes, rfl⟩ := map_eq_ok.mp hm
  obtain ⟨t, ht, hencodes⟩ := decodeBinary_eq_ok.mp (checked_eq_ok.mp hbytes)
  exact ⟨encoded, t, bytes, hb, ht, hencodes, rfl⟩

variable {t : List Char}

theorem Binary.exists_of_encodes (hb : f.binaryContent = some encoded)
    (ht : Trimmed encoded.toList t) {bytes : List UInt8} (hencodes : Base64.Encodes bytes t) :
    ∃ m, ofFile workload container i f scope = .ok m ∧
      m.configMap = binaryMap workload container i key bytes := by
  obtain ⟨plan, hfile⟩ := h.ofFile_eq workload container i scope hb
  have hdecode := decodeBinary_eq_ok.mpr ⟨t, ht, hencodes⟩
  refine ⟨⟨binaryMap workload container i key bytes, plan⟩, ?_, rfl⟩
  rw [hfile, hdecode]
  rfl

theorem Binary.accepted_iff (bytes : List UInt8) :
    (∃ m, ofFile workload container i f scope = .ok m ∧ m.configMap.data.toList = [] ∧
      m.configMap.binaryData.toList = [(key, bytes)]) ↔
      ∃ encoded t, f.binaryContent = some encoded ∧ Trimmed encoded.toList t ∧
        Base64.Encodes bytes t := by
  constructor
  · rintro ⟨m, hm, -, hbinary⟩
    obtain ⟨encoded, t, bytes', hb, ht, hencodes, hmap⟩ :=
      h.ofFile_eq_ok workload container i scope hm
    rw [hmap] at hbinary
    obtain ⟨-, rfl⟩ := Prod.mk.inj (List.singleton_inj.mp hbinary)
    exact ⟨encoded, t, hb, ht, hencodes⟩
  · rintro ⟨encoded, t, hb, ht, hencodes⟩
    obtain ⟨m, hm, hmap⟩ := h.exists_of_encodes workload container i scope hb ht hencodes
    refine ⟨m, hm, ?_, ?_⟩
    · rw [hmap]
      rfl
    · rw [hmap]
      rfl

theorem Binary.written {m : MaterializedFile}
    (hm : ofFile workload container i f scope = .ok m) :
    ∃ encoded t, f.binaryContent = some encoded ∧ Trimmed encoded.toList t ∧
      m.configMap.json.walk? ["binaryData", key] = some (.str (String.ofList t)) := by
  obtain ⟨encoded, t, bytes, hb, ht, hencodes, hmap⟩ :=
    h.ofFile_eq_ok workload container i scope hm
  refine ⟨encoded, t, hb, ht, ?_⟩
  rw [hmap, walk?_binaryMap, Base64.encodes_iff.mp hencodes]

theorem Binary.refused (hb : f.binaryContent = some encoded) (ht : Trimmed encoded.toList t)
    (hnone : ∀ bytes, ¬Base64.Encodes bytes t) :
    ∃ reason, ofFile workload container i f scope =
      .error ⟨["binaryContent"], .fileContent reason⟩ := by
  obtain ⟨plan, hfile⟩ := h.ofFile_eq workload container i scope hb
  cases hdecode : decodeBinary encoded with
  | ok bytes =>
    obtain ⟨u, hu, hencodes⟩ := decodeBinary_eq_ok.mp hdecode
    rw [hu.eq_trimBlank, ← ht.eq_trimBlank] at hencodes
    exact absurd hencodes (hnone bytes)
  | error cause =>
    obtain ⟨reason, rfl⟩ := decodeBinary_eq_error hdecode
    refine ⟨reason, ?_⟩
    rw [hfile, hdecode]
    rfl

end

/-- What becomes of the bytes of a file. Texts that differ in more than the blanks around them are of
different bytes. -/
structure BytesKept (workload container : String) (i : Nat) (f : Workload.File) (key : String)
    (scope : Scope) : Prop where
  accepted_iff : ∀ bytes, (∃ m, ofFile workload container i f scope = .ok m ∧
      m.configMap.data.toList = [] ∧ m.configMap.binaryData.toList = [(key, bytes)]) ↔
    ∃ encoded t, f.binaryContent = some encoded ∧ Trimmed encoded.toList t ∧
      Base64.Encodes bytes t
  written : ∀ m, ofFile workload container i f scope = .ok m → ∃ encoded t,
    f.binaryContent = some encoded ∧ Trimmed encoded.toList t ∧
      m.configMap.json.walk? ["binaryData", key] = some (.str (String.ofList t))
  distinct : ∀ encoded encoded' t t' m m', Trimmed encoded.toList t → Trimmed encoded'.toList t' →
    ofFile workload container i { f with binaryContent := some encoded } scope = .ok m →
    ofFile workload container i { f with binaryContent := some encoded' } scope = .ok m' →
    (m.configMap.binaryData = m'.configMap.binaryData ↔ t = t')
  refused : ∀ encoded t, f.binaryContent = some encoded → Trimmed encoded.toList t →
    (∀ bytes, ¬Base64.Encodes bytes t) → ∃ reason,
      ofFile workload container i f scope = .error ⟨["binaryContent"], .fileContent reason⟩

theorem ofFile_bytesKept {f : Workload.File} {key : String} (h : Binary f key)
    (workload container : String) (i : Nat) (scope : Scope) :
    BytesKept workload container i f key scope := by
  constructor
  · exact h.accepted_iff workload container i scope
  · intro m hm
    exact h.written workload container i scope hm
  · intro encoded encoded' t t' m m' ht ht' hm hm'
    have hf (e : String) : Binary { f with binaryContent := some e } key :=
      ⟨h.target, h.mode, h.no_text⟩
    obtain ⟨_, u, bytes, hb, hu, hencodes, hmap⟩ :=
      (hf encoded).ofFile_eq_ok workload container i scope hm
    obtain ⟨_, u', bytes', hb', hu', hencodes', hmap'⟩ :=
      (hf encoded').ofFile_eq_ok workload container i scope hm'
    cases hb
    cases hb'
    rw [hmap, hmap', binaryMap_eq_iff workload container i hencodes hencodes', ht.unique hu,
      ht'.unique hu']
  · intro encoded t hb ht hnone
    exact h.refused workload container i scope hb ht hnone

/-- A target with a slash at its end and blanks around the text. -/
theorem ofFile_bytesKept_of_blanks :
    let f : Workload.File :=
      ⟨"/bin/hello/", some "0755", none, some " aGVsbG8=\n", false⟩
    let scope : Scope := .ofWorkload "api" (Workload.ofName "api") .empty
    Binary f "hello" ∧ ∃ m, ofFile "api" "web" 0 f scope = .ok m ∧
      m.configMap.data.toList = [] ∧
      m.configMap.binaryData.toList = [("hello", [104, 101, 108, 108, 111])] := by
  intro f scope
  have htarget : Named f.target "hello" :=
    ⟨by decide, ⟨"/bin".toList, 1, by decide⟩, by decide, by decide⟩
  have hmode : FileMode.parse "0755" = .ok 0o755 := by decide +kernel
  have h : Binary f "hello" := ⟨htarget, fun _ htext => ⟨_, Option.some.inj htext ▸ hmode⟩, rfl⟩
  have hencodes : Base64.Encodes [104, 101, 108, 108, 111] "aGVsbG8=".toList :=
    Base64.encodes_iff.mpr (by decide)
  have ht : Trimmed " aGVsbG8=\n".toList "aGVsbG8=".toList :=
    trimmed_trimBlank " aGVsbG8=\n".toList
  exact ⟨h, ((ofFile_bytesKept h "api" "web" 0 scope).accepted_iff _).mpr
    ⟨_, _, rfl, ht, hencodes⟩⟩

end Mount
end Stowage
