import Stowage.Conversion.Basic

/-!
# Names of objects

Generated names end in a word and a number after dashes, so the owner, the word and the number can
be read back from a name, whatever dashes the owner has. The name of a resource has one dash only.
-/

namespace Stowage

/-! ## Reading a name back -/

theorem append_dash_inj {a a' b b' : List Char} (hb : '-' ∉ b) (hb' : '-' ∉ b')
    (h : a ++ '-' :: b = a' ++ '-' :: b') : a = a' ∧ b = b' := by
  have empty {b b' c : List Char} (hb : '-' ∉ b) (h : '-' :: b = c ++ '-' :: b') : c = [] := by
    rcases List.cons_eq_append_iff.mp h with ⟨hc, -⟩ | ⟨c', -, h⟩
    · exact hc
    · exact absurd (h ▸ List.mem_append_right c' List.mem_cons_self) hb
  rcases List.append_eq_append_iff.mp h with ⟨c, rfl, hc⟩ | ⟨c, rfl, hc⟩
  · obtain rfl := empty hb hc
    exact ⟨(List.append_nil a).symm, (List.cons.inj hc).2⟩
  · obtain rfl := empty hb' hc
    exact ⟨List.append_nil a', (List.cons.inj hc).2.symm⟩

theorem dash_not_mem_toString (n : Nat) : '-' ∉ (toString n).toList := by
  intro h
  rw [Nat.toString_eq_repr, Nat.toList_repr] at h
  exact absurd (Nat.isDigit_of_mem_toDigits (by decide) (by decide) h) (by decide)

theorem toString_inj {m n : Nat} (h : (toString m).toList = (toString n).toList) : m = n := by
  rw [Nat.toString_eq_repr, Nat.toString_eq_repr, Nat.toList_repr, Nat.toList_repr] at h
  simpa using congrArg (fun ds => Nat.ofDigitChars 10 ds 0) h

/-! ## Numbered names -/

/-- The words by which generated names differ. -/
inductive Word
  | volume
  | claim
  | file
  | projected
deriving DecidableEq

def Word.text : Word → String
  | volume => "vol"
  | claim => "claim"
  | file => "file"
  | projected => "projected"

theorem Word.dash_not_mem_text (w : Word) : '-' ∉ w.text.toList := by cases w <;> decide

theorem Word.text_inj {w w' : Word} (h : w.text = w'.text) : w = w' := by
  revert h
  cases w <;> cases w' <;> decide

def numbered (owner : String) (w : Word) (n : Nat) : String :=
  owner ++ "-" ++ w.text ++ "-" ++ toString n

theorem toList_numbered (owner : String) (w : Word) (n : Nat) : (numbered owner w n).toList =
    (owner.toList ++ '-' :: w.text.toList) ++ '-' :: (toString n).toList := by
  simp [numbered, String.toList_append]

theorem numbered_inj {owner owner' : String} {w w' : Word} {n n' : Nat}
    (h : numbered owner w n = numbered owner' w' n') : owner = owner' ∧ w = w' ∧ n = n' := by
  have hl := congrArg String.toList h
  rw [toList_numbered, toList_numbered] at hl
  obtain ⟨hl, hn⟩ := append_dash_inj (dash_not_mem_toString n) (dash_not_mem_toString n') hl
  obtain ⟨ho, hw⟩ := append_dash_inj w.dash_not_mem_text w'.dash_not_mem_text hl
  exact ⟨String.toList_inj.mp ho, Word.text_inj (String.toList_inj.mp hw), toString_inj hn⟩

section
variable (container : String) (n : Nat)

theorem hostVolumeName_eq : Mount.hostVolumeName container n = numbered container .volume n := by
  rw [← String.toList_inj, toList_numbered]
  simp [Mount.hostVolumeName, String.toList_append, Word.text]

theorem claimName_eq : Mount.claimName container n = numbered container .claim n := by
  rw [← String.toList_inj, toList_numbered]
  simp [Mount.claimName, String.toList_append, Word.text]

theorem fileVolumeName_eq : Mount.fileVolumeName container n = numbered container .file n := by
  rw [← String.toList_inj, toList_numbered]
  simp [Mount.fileVolumeName, String.toList_append, Word.text]

theorem projectedName_eq : Merge.projectedName container n = numbered container .projected n := by
  rw [← String.toList_inj, toList_numbered]
  simp [Merge.projectedName, String.toList_append, Word.text]

theorem configMapName_eq (workload : String) : Mount.configMapName workload container n =
    numbered (workload ++ "-" ++ container) .file n := by
  rw [← String.toList_inj, toList_numbered]
  simp [Mount.configMapName, String.toList_append, Word.text]

theorem configMapName_inj {workload container container' : String} {n n' : Nat}
    (h : Mount.configMapName workload container n = Mount.configMapName workload container' n') :
    container = container' ∧ n = n' := by
  rw [configMapName_eq, configMapName_eq] at h
  obtain ⟨ho, -, hn⟩ := numbered_inj h
  rw [← String.toList_inj] at ho
  simp only [String.toList_append] at ho
  exact ⟨String.toList_inj.mp (List.append_cancel_left ho), hn⟩

end

/-! ## Names of resources -/

theorem dash_not_mem_hexDigest (s : String) : '-' ∉ Sha256.hexDigest s := by
  have digits : ∀ n < 16, hexDigit n ≠ '-' := by decide
  intro h
  obtain ⟨b, -, hb⟩ := List.mem_flatMap.mp h
  have := b.toNat_lt
  simp only [List.mem_cons, List.not_mem_nil, or_false] at hb
  rcases hb with hb | hb
  · exact digits _ (by omega) hb.symm
  · exact digits _ (by omega) hb.symm

theorem resourceVolumeName_ne_numbered (token owner : String) (w : Word) (n : Nat) :
    Mount.resourceVolumeName token ≠ numbered owner w n := by
  intro h
  have hl := congrArg String.toList h
  have hdash : '-' ∉ (Sha256.hexDigest token).take 12 := fun hm =>
    dash_not_mem_hexDigest token (List.mem_of_mem_take hm)
  have hres : (Mount.resourceVolumeName token).toList =
      "res".toList ++ '-' :: (Sha256.hexDigest token).take 12 := by
    simp [Mount.resourceVolumeName, String.toList_append]
  rw [hres, toList_numbered] at hl
  obtain ⟨howner, -⟩ := append_dash_inj hdash (dash_not_mem_toString n) hl
  have : '-' ∈ "res".toList := howner ▸ List.mem_append_right _ List.mem_cons_self
  exact absurd this (by decide)

end Stowage
