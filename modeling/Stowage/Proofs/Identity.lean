import Mathlib.Data.List.Basic
import Stowage.Resource

/-!
# Identity tokens

A token puts type, class and owner one after the other without escaping them, so it can be read in
several ways where one of them holds a separator. A resource without an id shares its token with the
one whose id is its owner written out.
-/

namespace Stowage.Resource

/-! ## Identities -/

/-- The workloads that agree on an id, or one workload and the name that it gives. -/
inductive Owner
  | shared (id : String)
  | own (workload name : String)
deriving DecidableEq

def Owner.text : Owner → String
  | shared id => id
  | own workload name => workload ++ "." ++ name

structure Identity where
  type : String
  className : String
  owner : Owner
deriving DecidableEq

structure Declared where
  workload : String
  name : String
  resource : Resource

namespace Declared

def token (d : Declared) : String := d.resource.token d.workload d.name

def owner (d : Declared) : Owner :=
  match d.resource.id with
  | some id => .shared id
  | none => .own d.workload d.name

def identity (d : Declared) : Identity :=
  ⟨d.resource.type, d.resource.className.getD defaultClass, d.owner⟩

end Declared

def Identity.text (i : Identity) : String := i.type ++ "." ++ i.className ++ "#" ++ i.owner.text

theorem text_identity (d : Declared) : d.identity.text = d.token := by
  unfold Identity.text Declared.identity Declared.owner Declared.token Resource.token
  cases d.resource.id <;> rfl

theorem exists_declared (i : Identity) : ∃ d : Declared, d.identity = i := by
  obtain ⟨type, className, owner⟩ := i
  cases owner with
  | shared id => exact ⟨⟨"", "", type, some className, some id⟩, rfl⟩
  | own workload name => exact ⟨⟨workload, name, type, some className, none⟩, rfl⟩

theorem toList_text (i : Identity) : i.text.toList =
    i.type.toList ++ '.' :: (i.className.toList ++ '#' :: i.owner.text.toList) := by
  simp [Identity.text]

theorem text_eq_iff {i i' : Identity} : i.text = i'.text ↔
    i.type.toList ++ '.' :: (i.className.toList ++ '#' :: i.owner.text.toList) =
      i'.type.toList ++ '.' :: (i'.className.toList ++ '#' :: i'.owner.text.toList) := by
  rw [← String.toList_inj, toList_text, toList_text]

/-! ## Separators -/

theorem append_cons_inj {c : Char} {a a' b b' : List Char} (ha : c ∉ a) (ha' : c ∉ a')
    (h : a ++ c :: b = a' ++ c :: b') : a = a' ∧ b = b' := by
  rcases List.append_eq_append_iff.mp h with ⟨t, rfl, ht⟩ | ⟨t, rfl, ht⟩
  · cases t with
    | nil => exact ⟨(List.append_nil a).symm, (List.cons.inj ht).2⟩
    | cons d t =>
      obtain rfl := (List.cons.inj ht).1
      exact absurd (List.mem_append_right a List.mem_cons_self) ha'
  · cases t with
    | nil => exact ⟨List.append_nil a', (List.cons.inj ht).2.symm⟩
    | cons d t =>
      obtain rfl := (List.cons.inj ht).1
      exact absurd (List.mem_append_right a' List.mem_cons_self) ha

def Owner.Aligned : Owner → Owner → Prop
  | shared _, shared _ => True
  | own workload _, own workload' _ => workload.length = workload'.length
  | _, _ => False

/-- The separators of two identities stand at the same places. -/
structure Identity.Aligned (i i' : Identity) : Prop where
  type : i.type.length = i'.type.length
  className : i.className.length = i'.className.length
  owner : i.owner.Aligned i'.owner

def Owner.Plain : Owner → Prop
  | shared id => '.' ∉ id.toList
  | own workload _ => '.' ∉ workload.toList

/-- No part of an identity holds the separator that comes after it, and no id looks like the owner
of a resource without one. -/
structure Identity.Plain (i : Identity) : Prop where
  type : '.' ∉ i.type.toList
  className : '#' ∉ i.className.toList
  owner : i.owner.Plain

theorem Owner.toList_own (workload name : String) :
    (own workload name).text.toList = workload.toList ++ '.' :: name.toList := by
  simp [text]

theorem Owner.eq_of_aligned {o o' : Owner} (h : o.text.toList = o'.text.toList)
    (aligned : o.Aligned o') : o = o' := by
  cases o with
  | shared id =>
    cases o' with
    | shared id' => exact congrArg shared (String.toList_inj.mp h)
    | own workload' name' => exact aligned.elim
  | own workload name =>
    cases o' with
    | shared id' => exact aligned.elim
    | own workload' name' =>
      rw [toList_own, toList_own] at h
      have hlen : workload.toList.length = workload'.toList.length := by
        rw [String.length_toList, String.length_toList]
        exact aligned
      obtain ⟨hworkload, hname⟩ := List.append_inj h hlen
      obtain rfl := String.toList_inj.mp hworkload
      obtain rfl := String.toList_inj.mp (List.cons.inj hname).2
      rfl

theorem Owner.eq_of_plain {o o' : Owner} (h : o.text.toList = o'.text.toList) (ho : o.Plain)
    (ho' : o'.Plain) : o = o' := by
  cases o with
  | shared id =>
    cases o' with
    | shared id' => exact congrArg shared (String.toList_inj.mp h)
    | own workload' name' =>
      rw [toList_own] at h
      exact absurd (h ▸ List.mem_append_right _ List.mem_cons_self) ho
  | own workload name =>
    cases o' with
    | shared id' =>
      rw [toList_own] at h
      exact absurd (h ▸ List.mem_append_right _ List.mem_cons_self) ho'
    | own workload' name' =>
      rw [toList_own, toList_own] at h
      obtain ⟨hworkload, hname⟩ := append_cons_inj ho ho' h
      obtain rfl := String.toList_inj.mp hworkload
      obtain rfl := String.toList_inj.mp hname
      rfl

namespace Identity
variable {i i' : Identity}

theorem ext_parts (type : i.type.toList = i'.type.toList)
    (className : i.className.toList = i'.className.toList) (owner : i.owner = i'.owner) :
    i = i' := by
  obtain ⟨t, c, o⟩ := i
  obtain ⟨t', c', o'⟩ := i'
  obtain rfl := String.toList_inj.mp type
  obtain rfl := String.toList_inj.mp className
  obtain rfl : o = o' := owner
  rfl

theorem eq_of_aligned (h : i.text = i'.text) (aligned : i.Aligned i') : i = i' := by
  have lengths {s s' : String} (hs : s.length = s'.length) :
      s.toList.length = s'.toList.length := by
    rw [String.length_toList, String.length_toList, hs]
  obtain ⟨htype, hrest⟩ := List.append_inj (text_eq_iff.mp h) (lengths aligned.type)
  obtain ⟨hclass, hrest⟩ := List.append_inj (List.cons.inj hrest).2 (lengths aligned.className)
  exact ext_parts htype hclass (Owner.eq_of_aligned (List.cons.inj hrest).2 aligned.owner)

theorem aligned_self (i : Identity) : i.Aligned i := by
  refine ⟨rfl, rfl, ?_⟩
  cases i.owner with
  | shared id => trivial
  | own workload name => exact rfl

theorem eq_of_plain (h : i.text = i'.text) (hi : i.Plain) (hi' : i'.Plain) : i = i' := by
  obtain ⟨htype, hrest⟩ := append_cons_inj hi.type hi'.type (text_eq_iff.mp h)
  obtain ⟨hclass, howner⟩ := append_cons_inj hi.className hi'.className hrest
  exact ext_parts htype hclass (Owner.eq_of_plain howner hi.owner hi'.owner)

end Identity

/-! ## Tokens of one identity only -/

structure Identity.Distinctive (i : Identity) : Prop where
  type : '.' ∉ i.type.toList
  className : '.' ∉ i.className.toList ∧ '#' ∉ i.className.toList
  owner : ∃ id, i.owner = .shared id ∧ '.' ∉ id.toList ∧ '#' ∉ id.toList

theorem exists_parts {c : Char} {s : String} (h : c ∈ s.toList) :
    ∃ a b : String, s.toList = a.toList ++ c :: b.toList ∧ a ≠ s := by
  obtain ⟨a, b, hs⟩ := List.append_of_mem h
  refine ⟨String.ofList a, String.ofList b, by simpa using hs, fun e => ?_⟩
  rw [← String.toList_inj, String.toList_ofList, hs] at e
  simp at e

namespace Identity

theorem distinctive_of_unique {i : Identity} (unique : ∀ i' : Identity, i'.text = i.text → i' = i) :
    i.Distinctive := by
  obtain ⟨type, className, owner⟩ := i
  -- a part is cut at a separator in it, and its pieces make another identity with the same text
  have htype : '.' ∉ type.toList := by
    intro h
    obtain ⟨a, b, hab, hne⟩ := exists_parts h
    have same := unique ⟨a, b ++ "." ++ className, owner⟩ (text_eq_iff.mpr (by simp [hab]))
    exact hne (congrArg Identity.type same)
  have hdot : '.' ∉ className.toList := by
    intro h
    obtain ⟨a, b, hab, hne⟩ := exists_parts h
    have same := unique ⟨type ++ "." ++ a, b, owner⟩ (text_eq_iff.mpr (by simp [hab]))
    have hlen := congrArg (fun i => i.type.toList.length) same
    simp at hlen
  have hhash : '#' ∉ className.toList := by
    intro h
    obtain ⟨a, b, hab, hne⟩ := exists_parts h
    have same := unique ⟨type, a, .shared (b ++ "#" ++ owner.text)⟩
      (text_eq_iff.mpr (by simp [hab, Owner.text]))
    exact hne (congrArg Identity.className same)
  refine ⟨htype, ⟨hdot, hhash⟩, ?_⟩
  cases owner with
  | own workload name =>
    have same := unique ⟨type, className, .shared (workload ++ "." ++ name)⟩ rfl
    cases congrArg Identity.owner same
  | shared id =>
    refine ⟨id, rfl, fun h => ?_, fun h => ?_⟩
    · obtain ⟨a, b, hab, -⟩ := exists_parts h
      have same := unique ⟨type, className, .own a b⟩
        (text_eq_iff.mpr (by simp [hab, Owner.text]))
      cases congrArg Identity.owner same
    · obtain ⟨a, b, hab, -⟩ := exists_parts h
      have same := unique ⟨type, className ++ "#" ++ a, .shared b⟩
        (text_eq_iff.mpr (by simp [hab, Owner.text]))
      have hlen := congrArg (fun i => i.className.toList.length) same
      simp at hlen

theorem Distinctive.plain {i : Identity} (h : i.Distinctive) : i.Plain := by
  obtain ⟨id, howner, hdot, -⟩ := h.owner
  refine ⟨h.type, h.className.2, ?_⟩
  rw [howner]
  exact hdot

/-- There is one dot in the text, and behind it one hash sign, so another identity with the text
has no more of them. -/
theorem Distinctive.unique {i i' : Identity} (h : i.Distinctive) (htext : i'.text = i.text) :
    i' = i := by
  obtain ⟨id, howner, hdot, hhash⟩ := h.owner
  have hchars := text_eq_iff.mp htext
  have hid : i.owner.text = id := by rw [howner, Owner.text]
  rw [hid] at hchars
  have dots : i'.type.toList.count '.' +
      (i'.className.toList.count '.' + i'.owner.text.toList.count '.' + 1) = 1 := by
    have hcount := congrArg (List.count '.') hchars
    simpa [List.count_eq_zero_of_not_mem h.type, List.count_eq_zero_of_not_mem h.className.1,
      List.count_eq_zero_of_not_mem hdot] using hcount
  have htype : '.' ∉ i'.type.toList := List.count_eq_zero.mp (by omega)
  have howner' : i'.owner.Plain := by
    have hfree : '.' ∉ i'.owner.text.toList := List.count_eq_zero.mp (by omega)
    cases ho : i'.owner with
    | shared id' =>
      rw [ho, Owner.text] at hfree
      exact hfree
    | own workload name => simp [ho, Owner.toList_own] at hfree
  have hclass : '#' ∉ i'.className.toList := by
    have hrest := (append_cons_inj htype h.type hchars).2
    have hashes : i'.className.toList.count '#' + (i'.owner.text.toList.count '#' + 1) = 1 := by
      have hcount := congrArg (List.count '#') hrest
      simpa [List.count_eq_zero_of_not_mem h.className.2, List.count_eq_zero_of_not_mem hhash]
        using hcount
    exact List.count_eq_zero.mp (by omega)
  exact eq_of_plain htext ⟨htype, hclass, howner'⟩ h.plain

end Identity

/-! ## Tokens -/

/-- Of two declarations with one token the identities are the same exactly if their separators stand
at the same places, which they do where no part holds one. A token belongs to one identity only
exactly if that has an id and no separators in its parts. -/
theorem token_identifies (d d' : Declared) :
    (d.identity = d'.identity ↔ d.token = d'.token ∧ d.identity.Aligned d'.identity) ∧
      (d.identity.Plain → d'.identity.Plain → (d.token = d'.token ↔ d.identity = d'.identity)) ∧
      ((∀ x : Declared, x.token = d.token → x.identity = d.identity) ↔ d.identity.Distinctive) := by
  simp only [← text_identity]
  refine ⟨⟨fun h => ?_, fun h => ?_⟩, fun h h' => ?_, fun unique => ?_, ?_⟩
  · exact ⟨congrArg _ h, h ▸ Identity.aligned_self _⟩
  · exact Identity.eq_of_aligned h.1 h.2
  · exact ⟨fun e => Identity.eq_of_plain e h h', congrArg _⟩
  · apply Identity.distinctive_of_unique
    intro i' hi'
    obtain ⟨x, rfl⟩ := exists_declared i'
    exact unique x hi'
  · exact fun h x hx => h.unique hx

theorem token_identifies_of_two_workloads :
    let d : Declared := ⟨"api", "cache", ⟨"redis", none, none⟩⟩
    let d' : Declared := ⟨"worker", "cache", ⟨"redis", none, none⟩⟩
    d.identity.Plain ∧ d'.identity.Plain ∧
      (d.identity = d'.identity ↔ d.token = d'.token ∧ d.identity.Aligned d'.identity) ∧
      (d.identity.Plain → d'.identity.Plain → (d.token = d'.token ↔ d.identity = d'.identity)) ∧
      ((∀ x : Declared, x.token = d.token → x.identity = d.identity) ↔
        d.identity.Distinctive) := by
  intro d d'
  have api : '.' ∉ "api".toList := by decide
  have worker : '.' ∉ "worker".toList := by decide
  exact ⟨⟨by decide, by decide, api⟩, ⟨by decide, by decide, worker⟩, token_identifies d d'⟩

/-- An id that reads like the owner of another resource, and a class that begins in another type. -/
theorem tokens_of_two_identities :
    let db : Declared := ⟨"api", "db", ⟨"volume", none, none⟩⟩
    let copy : Declared := ⟨"api", "copy", ⟨"volume", none, some "api.db"⟩⟩
    let keys : Declared := ⟨"api", "keys", ⟨"secret", some "tls.default", some "shared"⟩⟩
    let certs : Declared := ⟨"api", "certs", ⟨"secret.tls", none, some "shared"⟩⟩
    (db.token = copy.token ∧ db.identity ≠ copy.identity) ∧
      keys.token = certs.token ∧ keys.identity ≠ certs.identity := by
  decide

end Stowage.Resource
