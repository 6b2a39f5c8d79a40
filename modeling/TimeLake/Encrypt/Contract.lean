import TimeLake.Encrypt.Store
import Mathlib.Data.List.Infix

/-!
What an encrypting store relies on of the store it wraps, for the paths that are used,
and that `LocalStore` does it. A directory answers for more than its files: it has a
length, a range of no bytes can be read of it, and a put goes through a file beside its
own. Paths that name no directory, no such temporary file and no file in two ways
are answered by their files alone.
-/

namespace TimeLake.Encrypt

open TimeLake.Library TimeLake.Store
open TimeLake.Catalog (IoError)

section Contract

def created : Except IoError Bool → Bool
  | .ok new => new
  | .error _ => false

/-- Reads tell what is at a path of the set, writes change what is at their own, and
states that are alike but for the bytes are told apart by nothing else. A seek takes 63
bits. -/
structure Contract {σ : Type} (b : Backend σ) (P : Set String) where
  Good : σ → Prop
  Alike : σ → σ → Prop
  read : σ → String → Option Bytes
  missing : σ → String → IoError
  alike_refl : ∀ {s}, Good s → Alike s s
  good : ∀ {s t}, Alike s t → Good s ∧ Good t
  isSome_eq : ∀ {s t p}, Alike s t → p ∈ P → (read s p).isSome = (read t p).isSome
  missing_eq : ∀ {s t p}, Alike s t → p ∈ P → missing s p = missing t p
  get_eq : ∀ {s p}, Good s → p ∈ P → b.get s p = (read s p).elim (.error (missing s p)) .ok
  getRange_eq : ∀ {s p offset len}, Good s → p ∈ P → offset < 2 ^ 63 →
    b.getRange s p offset len =
      (read s p).elim (.error (missing s p)) fun bytes => .ok ((bytes.drop offset).take len)
  size_eq : ∀ {s p}, Good s → p ∈ P →
    b.size s p = (read s p).elim (.error (missing s p)) fun bytes => .ok bytes.length
  list_eq : ∀ {s t dir}, Alike s t → b.list s dir = b.list t dir
  put_alike : ∀ {s t p x y}, Alike s t → p ∈ P →
    Alike (b.put s p x).1 (b.put t p y).1 ∧ (b.put s p x).2 = (b.put t p y).2
  read_put : ∀ {s p q x}, Good s → p ∈ P → q ∈ P →
    read (b.put s p x).1 q = if q = p ∧ (b.put s p x).2.isOk then some x else read s q
  putIfAbsent_alike : ∀ {s t p x y}, Alike s t → p ∈ P →
    Alike (b.putIfAbsent s p x).1 (b.putIfAbsent t p y).1 ∧
      (b.putIfAbsent s p x).2 = (b.putIfAbsent t p y).2
  read_putIfAbsent : ∀ {s p q x}, Good s → p ∈ P → q ∈ P →
    read (b.putIfAbsent s p x).1 q =
      if q = p ∧ created (b.putIfAbsent s p x).2 then some x else read s q
  delete_alike : ∀ {s t p}, Alike s t → p ∈ P →
    Alike (b.delete s p).1 (b.delete t p).1 ∧ (b.delete s p).2 = (b.delete t p).2
  read_delete : ∀ {s p q}, Good s → p ∈ P → q ∈ P →
    read (b.delete s p).1 q = if q = p ∧ (b.delete s p).2.isOk then none else read s q

end Contract

section Directory

/-- The tree below the root, and how many files `put_if_absent` has gone through. -/
structure Tree where
  files : AssocMap AbsPath Bytes
  dirs : List AbsPath
  temps : Nat

/-- `Path::file_stem`: a name up to its last dot, unless it begins with that. -/
def fileStem (name : List Char) : List Char :=
  match name.reverse.dropWhile (· ≠ '.') with
  | _ :: c :: before => (c :: before).reverse
  | _ => name

/-- `Path::with_extension` -/
def withExtension (extension : String) (key : AbsPath) : AbsPath :=
  key.dropLast ++ (key.getLast?.map fun name => fileStem name ++ '.' :: extension.toList).toList

def tmpWrite (key : AbsPath) : AbsPath := withExtension "tmp-write" key

def tmpCas (pid n : Nat) (key : AbsPath) : AbsPath :=
  withExtension ("tmp-cas-" ++ toString pid ++ "-" ++ toString n) key

namespace Tree

variable (t : Tree)

def isDir (key : AbsPath) : Bool := key.isEmpty || t.dirs.contains key

/-- A file where the path needs a directory. -/
def blocked (key : AbsPath) : Bool := t.files.keys.any fun file => file <+: key && file ≠ key

/-- `create_dir_all` of the parent. -/
def createParents (key : AbsPath) : Tree :=
  { t with
    dirs := t.dirs ++ ((List.range key.length).map key.take).filter fun dir => !t.isDir dir }

def create (key : AbsPath) (bytes : Bytes) : Tree := { t with files := t.files.insert key bytes }

def remove (key : AbsPath) : Tree := { t with files := t.files.erase key }

/-- The root itself is written beside the root, and cannot be replaced. -/
def put (path : String) (bytes : Bytes) : Tree × Except IoError Unit :=
  let key := abs path
  if key.isEmpty || t.blocked key then (t, .error .other)
  else
    let t := t.createParents key
    if t.isDir (tmpWrite key) then (t, .error .other)
    else
      let t := t.create (tmpWrite key) bytes
      -- the file stays behind when it cannot be renamed
      if t.isDir key then (t, .error .other)
      else ((t.remove (tmpWrite key)).create key bytes, .ok ())

def putIfAbsent (pid : Nat) (path : String) (bytes : Bytes) : Tree × Except IoError Bool :=
  let key := abs path
  if key.isEmpty then ({ t with temps := t.temps + 1 }, .ok false)
  else if t.blocked key then (t, .error .other)
  else
    let tmp := tmpCas pid t.temps key
    let t := { t.createParents key with temps := t.temps + 1 }
    if t.isDir tmp then (t, .error .other)
    else
      let t := t.create tmp bytes
      if t.isDir key || (t.files.lookup key).isSome then (t.remove tmp, .ok false)
      else ((t.create key bytes).remove tmp, .ok true)

/-- What a path that names no file is answered with. -/
def refusal (path : String) : IoError :=
  if t.blocked (abs path) || t.isDir (abs path) then .other else .notFound

def get (path : String) : Except IoError Bytes :=
  (t.files.lookup (abs path)).elim (.error (t.refusal path)) .ok

/-- A directory can be opened and sought in, and no bytes read of it. -/
def getRange (path : String) (offset len : Nat) : Except IoError Bytes :=
  if t.isDir (abs path) then
    if offset < 2 ^ 63 && len = 0 then .ok [] else .error .other
  else
    (t.get path).bind fun bytes =>
      if offset < 2 ^ 63 then .ok ((bytes.drop offset).take len) else .error .other

def size (dirLength : Nat) (path : String) : Except IoError Nat :=
  if t.isDir (abs path) then .ok dirLength else (t.get path).map List.length

def delete (path : String) : Tree × Except IoError Unit :=
  if t.blocked (abs path) || t.isDir (abs path) then (t, .error .other)
  else (t.remove (abs path), .ok ())

/-- `walk` below a directory, sorted. -/
def list (dir : String) : List String :=
  if t.isDir (abs dir) then
    ((t.files.keys.filter fun file => abs dir <+: file ∧ abs dir ≠ file).map joined).insertionSort
      (· ≤ ·)
  else []

end Tree

/-- `LocalStore`, by the number of its process and what its file system says of the
length of a directory. -/
def localStore (pid dirLength : Nat) : Backend Tree where
  put := Tree.put
  putIfAbsent := fun t => t.putIfAbsent pid
  get := Tree.get
  getRange := Tree.getRange
  size := fun t => t.size dirLength
  delete := Tree.delete
  list := fun t dir => .ok (t.list dir)

end Directory

section Local

variable {P : Set String} {pid : Nat} {t u : Tree} {p q : String}

/-- Paths of which none names the root, another's file or directory, or a temporary file
or what is below one. -/
structure Apart (pid : Nat) (P : Set String) : Prop where
  named : ∀ p ∈ P, abs p ≠ []
  apart : ∀ p ∈ P, ∀ q ∈ P, abs p <+: abs q → p = q
  write : ∀ p ∈ P, ∀ q ∈ P, ¬ tmpWrite (abs p) <+: abs q
  cas : ∀ p ∈ P, ∀ q ∈ P, ∀ n, ¬ tmpCas pid n (abs p) <+: abs q

/-- The name of a temporary file has `.tmp-` in it. -/
theorem not_withExtension_prefix {extension : String} {key key' : AbsPath} (hkey : key ≠ [])
    (htmp : "tmp-".toList <+: extension.toList)
    (hplain : ∀ segment ∈ key', ¬ ".tmp-".toList <:+: segment) :
    ¬ withExtension extension key <+: key' := by
  intro hbelow
  obtain ⟨front, name, rfl⟩ := (List.eq_nil_or_concat' key).resolve_left hkey
  obtain ⟨rest, hrest⟩ := htmp
  have hdot : ".tmp-".toList = '.' :: "tmp-".toList := by decide
  have hmem : fileStem name ++ '.' :: extension.toList ∈ key' := by
    apply hbelow.subset
    simp [withExtension]
  refine hplain _ hmem ⟨fileStem name, rest, ?_⟩
  rw [hdot, ← hrest]
  simp

/-- Paths apart from one another, without `.tmp-` in a segment, are apart from the
temporary files. -/
theorem apart_of_plain (pid : Nat) (hnamed : ∀ p ∈ P, abs p ≠ [])
    (hapart : ∀ p ∈ P, ∀ q ∈ P, abs p <+: abs q → p = q)
    (hplain : ∀ p ∈ P, ∀ segment ∈ abs p, ¬ ".tmp-".toList <:+: segment) : Apart pid P where
  named := hnamed
  apart := hapart
  write p hp q hq := not_withExtension_prefix (hnamed p hp) (by decide) (hplain q hq)
  cas p hp q hq n := by
    refine not_withExtension_prefix (hnamed p hp) ?_ (hplain q hq)
    have hcas : "tmp-cas-".toList = "tmp-".toList ++ "cas-".toList := by decide
    rw [String.toList_append, String.toList_append, String.toList_append, hcas]
    simp only [List.append_assoc]
    exact List.prefix_append _ _

namespace Tree

/-- No path or temporary file of a path is a directory, and no file is in the way of
one. -/
structure Good (pid : Nat) (P : Set String) (t : Tree) : Prop where
  free : ∀ p ∈ P, t.isDir (abs p) = false
  clear : ∀ p ∈ P, ∀ file ∈ t.files, file <+: abs p → file = abs p
  write : ∀ p ∈ P, t.isDir (tmpWrite (abs p)) = false
  cas : ∀ p ∈ P, ∀ n, t.isDir (tmpCas pid n (abs p)) = false

structure Alike (pid : Nat) (P : Set String) (t u : Tree) : Prop where
  left : Good pid P t
  right : Good pid P u
  keys : t.files.keys = u.files.keys
  dirs : t.dirs = u.dirs
  temps : t.temps = u.temps

theorem isDir_createParents (t : Tree) (key dir : AbsPath) :
    (t.createParents key).isDir dir = true ↔
      t.isDir dir = true ∨ (dir <+: key ∧ dir ≠ key) := by
  have htake : dir ∈ (List.range key.length).map key.take ↔ dir <+: key ∧ dir ≠ key := by
    rw [List.mem_map]
    constructor
    · rintro ⟨i, hi, rfl⟩
      refine ⟨List.take_prefix _ _, ?_⟩
      intro heq
      have hlength := congrArg List.length heq
      rw [List.length_take] at hlength
      have := List.mem_range.mp hi
      omega
    · rintro ⟨hbelow, hne⟩
      have hle := hbelow.length_le
      refine ⟨dir.length, List.mem_range.mpr (Nat.lt_of_le_of_ne hle ?_), ?_⟩
      · intro hlength
        exact hne (hbelow.eq_of_length hlength)
      · exact (List.prefix_iff_eq_take.mp hbelow).symm
  rw [← htake]
  by_cases hdir : t.isDir dir = true
  · simp only [hdir, true_or, iff_true]
    simp only [isDir, createParents, Bool.or_eq_true, List.contains_iff_mem] at hdir ⊢
    exact hdir.imp_right (List.mem_append_left _)
  · have hnot : dir.isEmpty = false ∧ dir ∉ t.dirs := by simpa [isDir] using hdir
    rw [eq_false hdir, false_or]
    simp only [isDir, createParents, Bool.or_eq_true, List.contains_iff_mem, List.mem_append,
      List.mem_filter, hnot.1, hnot.2, false_or, Bool.false_eq_true]
    simp [hnot]

theorem isDir_createParents_eq_false {key dir : AbsPath} (hdir : t.isDir dir = false)
    (habove : ¬ (dir <+: key ∧ dir ≠ key)) : (t.createParents key).isDir dir = false := by
  rw [Bool.eq_false_iff, ne_eq, isDir_createParents, hdir, not_or]
  exact ⟨Bool.false_ne_true, habove⟩

/-- A write adds the directories above its own path, and no file but its own. -/
theorem Good.after (hapart : Apart pid P) (h : Good pid P t) (hp : p ∈ P)
    (hdirs : ∀ dir, u.isDir dir = true → t.isDir dir = true ∨ (dir <+: abs p ∧ dir ≠ abs p))
    (hfiles : ∀ file ∈ u.files, file ∈ t.files ∨ file = abs p) : Good pid P u := by
  have hnone : ∀ dir, t.isDir dir = false → ¬ (dir <+: abs p ∧ dir ≠ abs p) →
      u.isDir dir = false := by
    intro dir hold habove
    rw [Bool.eq_false_iff]
    intro hdir
    rcases hdirs dir hdir with hdir | hdir
    · rw [hold] at hdir
      cases hdir
    · exact habove hdir
  refine ⟨?_, ?_, ?_, ?_⟩
  · intro q hq
    refine hnone _ (h.free q hq) ?_
    rintro ⟨hbelow, hne⟩
    exact hne (by rw [hapart.apart q hq p hp hbelow])
  · intro q hq file hfile hbelow
    rcases hfiles file hfile with hold | rfl
    · exact h.clear q hq file hold hbelow
    · rw [hapart.apart p hp q hq hbelow]
  · intro q hq
    exact hnone _ (h.write q hq) fun habove => hapart.write q hq p hp habove.1
  · intro q hq n
    exact hnone _ (h.cas q hq n) fun habove => hapart.cas q hq p hp n habove.1

theorem Good.blocked (h : Good pid P t) (hp : p ∈ P) : t.blocked (abs p) = false := by
  rw [Bool.eq_false_iff]
  intro hany
  obtain ⟨file, hfile, hway⟩ := List.any_eq_true.mp hany
  simp only [Bool.and_eq_true, decide_eq_true_eq] at hway
  exact hway.2 (h.clear p hp file hfile hway.1)

/-- The files after a put: its own, and those that were there but for the temporary one. -/
theorem Good.put_eq (hapart : Apart pid P) (h : Good pid P t) (hp : p ∈ P) (x : Bytes) :
    t.put p x = ({ t.createParents (abs p) with
      files := ((t.files.insert (tmpWrite (abs p)) x).erase (tmpWrite (abs p))).insert (abs p) x },
        .ok ()) := by
  have hempty : (abs p).isEmpty = false := by simpa using hapart.named p hp
  have htmp : (t.createParents (abs p)).isDir (tmpWrite (abs p)) = false :=
    isDir_createParents_eq_false (h.write p hp) fun habove => hapart.write p hp p hp habove.1
  have hkey : ((t.createParents (abs p)).create (tmpWrite (abs p)) x).isDir (abs p) = false :=
    isDir_createParents_eq_false (h.free p hp) fun habove => habove.2 rfl
  simp only [put, hempty, h.blocked hp, Bool.or_false, Bool.false_eq_true, if_false, htmp, hkey]
  rfl

theorem Good.putIfAbsent_eq (hapart : Apart pid P) (h : Good pid P t) (hp : p ∈ P) (x : Bytes) :
    t.putIfAbsent pid p x = ({ t.createParents (abs p) with
      files :=
        if (t.files.lookup (abs p)).isSome then
          (t.files.insert (tmpCas pid t.temps (abs p)) x).erase (tmpCas pid t.temps (abs p))
        else ((t.files.insert (tmpCas pid t.temps (abs p)) x).insert (abs p) x).erase
          (tmpCas pid t.temps (abs p))
      temps := t.temps + 1 }, .ok !(t.files.lookup (abs p)).isSome) := by
  have hempty : (abs p).isEmpty = false := by simpa using hapart.named p hp
  have htmp : (t.createParents (abs p)).isDir (tmpCas pid t.temps (abs p)) = false :=
    isDir_createParents_eq_false (h.cas p hp _) fun habove => hapart.cas p hp p hp _ habove.1
  have hkey : (t.createParents (abs p)).isDir (abs p) = false :=
    isDir_createParents_eq_false (h.free p hp) fun habove => habove.2 rfl
  have hne : abs p ≠ tmpCas pid t.temps (abs p) := by
    intro heq
    exact hapart.cas p hp p hp t.temps (heq ▸ List.prefix_rfl)
  have hlookup : (t.files.insert (tmpCas pid t.temps (abs p)) x).lookup (abs p) =
      t.files.lookup (abs p) := AList.lookup_insert_ne hne
  have hin : ∀ dir n, isDir { t.createParents (abs p) with temps := n } dir =
      (t.createParents (abs p)).isDir dir := fun _ _ => rfl
  have hcreated : ∀ n, (create { t.createParents (abs p) with temps := n }
      (tmpCas pid t.temps (abs p)) x).isDir (abs p) = (t.createParents (abs p)).isDir (abs p) :=
    fun _ => rfl
  have hfiles : ∀ n, (create { t.createParents (abs p) with temps := n }
      (tmpCas pid t.temps (abs p)) x).files.lookup (abs p) = t.files.lookup (abs p) :=
    fun _ => hlookup
  simp only [putIfAbsent, hempty, h.blocked hp, Bool.false_eq_true, if_false, hin, htmp, hcreated,
    hkey, hfiles, Bool.false_or]
  cases (t.files.lookup (abs p)).isSome <;> rfl

theorem Good.delete_eq (h : Good pid P t) (hp : p ∈ P) :
    t.delete p = (t.remove (abs p), .ok ()) := by
  simp only [delete, h.blocked hp, h.free p hp, Bool.or_false, Bool.false_eq_true, if_false]

theorem Good.get_eq (h : Good pid P t) (hp : p ∈ P) :
    t.get p = (t.files.lookup (abs p)).elim (.error .notFound) .ok := by
  simp only [get, refusal, h.blocked hp, h.free p hp, Bool.or_false, Bool.false_eq_true, if_false]

theorem Alike.createParents (h : Alike pid P t u) (key : AbsPath) :
    (t.createParents key).dirs = (u.createParents key).dirs := by
  have hdir : t.isDir = u.isDir := by
    funext dir
    rw [isDir, isDir, h.dirs]
  simp only [Tree.createParents, h.dirs, hdir]

theorem Alike.isSome (h : Alike pid P t u) (key : AbsPath) :
    (t.files.lookup key).isSome = (u.files.lookup key).isSome := by
  rw [Bool.eq_iff_iff, AList.lookup_isSome, AList.lookup_isSome, AList.mem_keys, AList.mem_keys,
    h.keys]

theorem Alike.list (h : Alike pid P t u) (dir : String) : t.list dir = u.list dir := by
  rw [Tree.list, Tree.list, isDir, isDir, h.keys, h.dirs]

theorem Good.put (hapart : Apart pid P) (h : Good pid P t) (hp : p ∈ P) (x : Bytes) :
    Good pid P (t.put p x).1 := by
  rw [h.put_eq hapart hp]
  refine h.after hapart hp (fun dir => (isDir_createParents _ _ _).mp) ?_
  intro file hfile
  rcases (AList.mem_insert _).mp hfile with rfl | hfile
  · exact .inr rfl
  · obtain ⟨hne, hfile⟩ := AList.mem_erase.mp hfile
    exact .inl (((AList.mem_insert _).mp hfile).resolve_left hne)

theorem Alike.put (hapart : Apart pid P) (h : Alike pid P t u) (hp : p ∈ P) (x y : Bytes) :
    Alike pid P (t.put p x).1 (u.put p y).1 ∧ (t.put p x).2 = (u.put p y).2 := by
  have hgood := h.left.put hapart hp x
  have hgood' := h.right.put hapart hp y
  rw [h.left.put_eq hapart hp] at hgood ⊢
  rw [h.right.put_eq hapart hp] at hgood' ⊢
  refine ⟨⟨hgood, hgood', ?_, h.createParents _, h.temps⟩, rfl⟩
  simp only [AList.keys_insert, AList.keys_erase, h.keys]

theorem Good.putIfAbsent (hapart : Apart pid P) (h : Good pid P t) (hp : p ∈ P) (x : Bytes) :
    Good pid P (t.putIfAbsent pid p x).1 := by
  rw [h.putIfAbsent_eq hapart hp]
  refine h.after hapart hp (fun dir => (isDir_createParents _ _ _).mp) ?_
  intro file hfile
  dsimp only at hfile
  split at hfile
  · obtain ⟨hne, hfile⟩ := AList.mem_erase.mp hfile
    exact .inl (((AList.mem_insert _).mp hfile).resolve_left hne)
  · obtain ⟨hne, hfile⟩ := AList.mem_erase.mp hfile
    rcases (AList.mem_insert _).mp hfile with rfl | hfile
    · exact .inr rfl
    · exact .inl (((AList.mem_insert _).mp hfile).resolve_left hne)

theorem Alike.putIfAbsent (hapart : Apart pid P) (h : Alike pid P t u) (hp : p ∈ P)
    (x y : Bytes) :
    Alike pid P (t.putIfAbsent pid p x).1 (u.putIfAbsent pid p y).1 ∧
      (t.putIfAbsent pid p x).2 = (u.putIfAbsent pid p y).2 := by
  have hgood := h.left.putIfAbsent hapart hp x
  have hgood' := h.right.putIfAbsent hapart hp y
  rw [h.left.putIfAbsent_eq hapart hp] at hgood ⊢
  rw [h.right.putIfAbsent_eq hapart hp] at hgood' ⊢
  refine ⟨⟨hgood, hgood', ?_, h.createParents _, by simp only [h.temps]⟩, ?_⟩
  · dsimp only
    rw [h.isSome, h.temps]
    split <;> simp only [AList.keys_insert, AList.keys_erase, h.keys]
  · rw [h.isSome]

theorem Alike.delete (hapart : Apart pid P) (h : Alike pid P t u) (hp : p ∈ P) :
    Alike pid P (t.delete p).1 (u.delete p).1 ∧ (t.delete p).2 = (u.delete p).2 := by
  rw [h.left.delete_eq hp, h.right.delete_eq hp]
  have hgood : ∀ {t}, Good pid P t → Good pid P (t.remove (abs p)) := fun h =>
    h.after hapart hp (fun _ hdir => .inl hdir) fun _ hfile => .inl (AList.mem_erase.mp hfile).2
  refine ⟨⟨hgood h.left, hgood h.right, ?_, h.dirs, h.temps⟩, rfl⟩
  simp only [remove, AList.keys_erase, h.keys]

theorem Good.lookup_put (hapart : Apart pid P) (h : Good pid P t) (hp : p ∈ P) (hq : q ∈ P)
    (x : Bytes) : (t.put p x).1.files.lookup (abs q) =
      if q = p ∧ (t.put p x).2.isOk then some x else t.files.lookup (abs q) := by
  rw [h.put_eq hapart hp]
  simp only [Except.isOk, Except.toBool, and_true]
  have htmp : abs q ≠ tmpWrite (abs p) := fun heq =>
    hapart.write p hp q hq (heq ▸ List.prefix_rfl)
  split
  · next heq =>
      subst heq
      exact AList.lookup_insert _
  · next hne =>
      have habs : abs q ≠ abs p := fun heq =>
        hne (hapart.apart q hq p hp (heq ▸ List.prefix_rfl))
      rw [AList.lookup_insert_ne habs, AList.lookup_erase_ne htmp, AList.lookup_insert_ne htmp]

theorem Good.lookup_putIfAbsent (hapart : Apart pid P) (h : Good pid P t) (hp : p ∈ P)
    (hq : q ∈ P) (x : Bytes) : (t.putIfAbsent pid p x).1.files.lookup (abs q) =
      if q = p ∧ created (t.putIfAbsent pid p x).2 then some x else t.files.lookup (abs q) := by
  rw [h.putIfAbsent_eq hapart hp]
  have htmp : abs q ≠ tmpCas pid t.temps (abs p) := by
    intro heq
    exact hapart.cas p hp q hq t.temps (by rw [heq])
  cases hthere : (t.files.lookup (abs p)).isSome with
  | true =>
      simp only [created, Bool.not_true, Bool.false_eq_true, and_false, if_false, if_true]
      rw [AList.lookup_erase_ne htmp, AList.lookup_insert_ne htmp]
  | false =>
      simp only [created, Bool.not_false, and_true, Bool.false_eq_true, if_false]
      rw [AList.lookup_erase_ne htmp]
      split
      · next heq =>
          subst heq
          exact AList.lookup_insert _
      · next hne =>
          have habs : abs q ≠ abs p := fun heq =>
            hne (hapart.apart q hq p hp (heq ▸ List.prefix_rfl))
          rw [AList.lookup_insert_ne habs, AList.lookup_insert_ne htmp]

theorem Good.lookup_delete (hapart : Apart pid P) (h : Good pid P t) (hp : p ∈ P) (hq : q ∈ P) :
    (t.delete p).1.files.lookup (abs q) =
      if q = p ∧ (t.delete p).2.isOk then none else t.files.lookup (abs q) := by
  rw [h.delete_eq hp]
  simp only [Except.isOk, Except.toBool, and_true]
  split
  · next heq =>
      subst heq
      exact AList.lookup_erase _ _
  · next hne =>
      have habs : abs q ≠ abs p := fun heq =>
        hne (hapart.apart q hq p hp (heq ▸ List.prefix_rfl))
      exact AList.lookup_erase_ne habs

end Tree

/-- `LocalStore` keeps the contract for paths that are apart. -/
def localStore_contract (dirLength : Nat) (hapart : Apart pid P) :
    Contract (localStore pid dirLength) P where
  Good := Tree.Good pid P
  Alike := Tree.Alike pid P
  read t p := t.files.lookup (abs p)
  missing _ _ := .notFound
  alike_refl h := ⟨h, h, rfl, rfl, rfl⟩
  good h := ⟨h.left, h.right⟩
  isSome_eq h _ := h.isSome _
  missing_eq _ _ := rfl
  get_eq h hp := h.get_eq hp
  getRange_eq {t p _ _} h hp hoffset := by
    simp only [localStore, Tree.getRange, h.free _ hp, h.get_eq hp, Bool.false_eq_true, if_false,
      if_pos hoffset]
    cases t.files.lookup (abs p) <;> rfl
  size_eq {t p} h hp := by
    simp only [localStore, Tree.size, h.free _ hp, h.get_eq hp, Bool.false_eq_true, if_false]
    cases t.files.lookup (abs p) <;> rfl
  list_eq h := congrArg Except.ok (h.list _)
  put_alike h hp := h.put hapart hp _ _
  read_put h hp hq := h.lookup_put hapart hp hq _
  putIfAbsent_alike h hp := h.putIfAbsent hapart hp _ _
  read_putIfAbsent h hp hq := h.lookup_putIfAbsent hapart hp hq _
  delete_alike h hp := h.delete hapart hp
  read_delete h hp hq := h.lookup_delete hapart hp hq

end Local

end TimeLake.Encrypt
