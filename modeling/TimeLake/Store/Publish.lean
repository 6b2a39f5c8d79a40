import TimeLake.Store.Local

/-!
`LocalStore::put` and `put_if_absent` one system call at a time, with the load
or catch-up of other catalogs between them. Names lead to inodes, since the
hard link gives the temporary file a second name. A call stops after any of its
system calls when its process dies, and also when the write, the sync or the
removal of the temporary file fails: the file stays where it is.

The kernel's own order of the directory operations is taken to survive a crash.
-/

namespace TimeLake.Store

open TimeLake.Library TimeLake.Catalog

section Names

/-- `Path::file_stem`. -/
def fileStem (name : List Char) : List Char :=
  let before := ((name.reverse.dropWhile (· ≠ '.')).drop 1).reverse
  if before = [] then name else before

/-- `Path::with_extension`. -/
def withExtension (key : AbsPath) (ext : List Char) : AbsPath :=
  key.dropLast ++ [fileStem (key.getLastD []) ++ '.' :: ext]

theorem withExtension_concat (dir : AbsPath) (name ext : List Char) :
    withExtension (dir ++ [name]) ext = dir ++ [fileStem name ++ '.' :: ext] := by
  simp only [withExtension, List.dropLast_concat, List.getLastD_concat]

theorem mem_of_mem_fileStem {name : List Char} {c : Char} (h : c ∈ fileStem name) : c ∈ name := by
  unfold fileStem at h
  simp only at h
  split at h
  · exact h
  · have hdrop := List.mem_of_mem_drop (List.mem_reverse.mp h)
    exact List.mem_reverse.mp ((List.dropWhile_sublist _).mem hdrop)

theorem clean_withExtension {key : AbsPath} (h : Clean key) {ext : List Char} (hslash : '/' ∉ ext)
    (hlen : 2 ≤ ext.length) : Clean (withExtension key ext) := by
  intro segment hmem
  rcases List.mem_append.mp hmem with hmem | hmem
  · exact h segment ((List.dropLast_sublist key).mem hmem)
  · rw [List.mem_singleton] at hmem
    have hlong : 2 < segment.length := by
      rw [hmem, List.length_append, List.length_cons]
      omega
    have hne : ∀ dots : List Char, dots.length ≤ 2 → segment ≠ dots := by
      rintro dots hdots rfl
      omega
    refine ⟨?_, ?_⟩
    · simp [keepSegment, hne [] (by decide), hne ['.'] (by decide), hne ['.', '.'] (by decide)]
    · have hstem : '/' ∉ fileStem (key.getLastD []) := by
        intro hin
        have hname := mem_of_mem_fileStem hin
        rcases List.eq_nil_or_concat key with rfl | ⟨init, last, rfl⟩
        · cases hname
        · rw [List.concat_eq_append, List.getLastD_concat] at hname
          exact (h last (by simp)).2 hname
      rw [hmem, List.mem_append, List.mem_cons]
      rintro (hin | hin | hin)
      · exact hstem hin
      · revert hin
        decide
      · exact hslash hin

/-- A name a file can have. -/
abbrev CleanPath := { key : AbsPath // Clean key }

def cleanPath (path : String) : CleanPath := ⟨abs path, clean_abs path⟩

def writeExtension : List Char := ['t', 'm', 'p', '-', 'w', 'r', 'i', 't', 'e']

theorem clean_writeTemp (path : String) : Clean (withExtension (abs path) writeExtension) :=
  clean_withExtension (clean_abs path) (by decide) (by decide)

/-- The temporary name of a `put`. -/
def writeTemp (path : String) : CleanPath :=
  ⟨withExtension (abs path) writeExtension, clean_writeTemp path⟩

/-- `tmp-cas-{pid}-{n}` -/
def casExtension (pid n : Nat) : List Char :=
  ['t', 'm', 'p', '-', 'c', 'a', 's', '-'] ++ (padNat 1 pid ++ '-' :: padNat 1 n)

theorem clean_casTemp (path : String) (pid n : Nat) :
    Clean (withExtension (abs path) (casExtension pid n)) := by
  have hdigits : ∀ m, '/' ∉ padNat 1 m := by
    intro m h
    have := padNat_isDigit h
    revert this
    decide
  have hslash : '/' ∉ casExtension pid n := by
    simp [casExtension, hdigits pid, hdigits n]
  have hlen : 2 ≤ (casExtension pid n).length := by
    rw [casExtension, List.length_append]
    simp only [List.length_cons]
    omega
  exact clean_withExtension (clean_abs path) hslash hlen

/-- The temporary name of a `put_if_absent`. -/
def casTemp (path : String) (pid n : Nat) : CleanPath :=
  ⟨withExtension (abs path) (casExtension pid n), clean_casTemp path pid n⟩

theorem fileStem_of_dot {stem ext : List Char} (hstem : stem ≠ []) (hext : '.' ∉ ext) :
    fileStem (stem ++ '.' :: ext) = stem := by
  have hdrop : (stem ++ '.' :: ext).reverse.dropWhile (· ≠ '.') = '.' :: stem.reverse := by
    rw [List.reverse_append, List.reverse_cons, List.append_assoc,
      List.dropWhile_append_of_pos]
    · simp
    · intro c hc
      have hne : c ≠ '.' := by
        rintro rfl
        exact hext (List.mem_reverse.mp hc)
      simp [hne]
  unfold fileStem
  simp only
  rw [hdrop, List.drop_one, List.tail_cons, List.reverse_reverse, if_neg hstem]

theorem casTemp_manifestPath (seq pid n : Nat) :
    (casTemp (manifestPath seq) pid n).1 =
      manifestDir ++ [padNat 12 seq ++ '.' :: casExtension pid n] := by
  have hjson : manifestFile seq = padNat 12 seq ++ '.' :: "json".toList := by
    have : ".json".toList = '.' :: "json".toList := by decide
    rw [manifestFile, this]
  have hstem : fileStem (manifestFile seq) = padNat 12 seq := by
    rw [hjson]
    exact fileStem_of_dot (padNat_ne_nil 12 seq) (by decide)
  have hext : (casTemp (manifestPath seq) pid n).1 =
      withExtension (manifestDir ++ [manifestFile seq]) (casExtension pid n) :=
    congrArg (withExtension · (casExtension pid n)) (abs_manifestPath seq)
  rw [hext, withExtension_concat, hstem]

/-- Below the manifest directory. -/
def Under (key : AbsPath) : Prop := manifestDir <+: key ∧ manifestDir ≠ key

theorem under_casTemp (seq pid n : Nat) : Under (casTemp (manifestPath seq) pid n).1 := by
  rw [casTemp_manifestPath]
  exact ⟨List.prefix_append _ _, by simp⟩

/-- No temporary name is the key of an entry. -/
theorem casTemp_ne_manifestPath (seq pid n key : Nat) :
    (casTemp (manifestPath seq) pid n).1 ≠ abs (manifestPath key) := by
  intro heq
  have hdot : ∀ m, ∀ c ∈ padNat 12 m, (decide (c ≠ '.')) = true := by
    intro m c hc
    have := padNat_isDigit hc
    refine decide_eq_true ?_
    rintro rfl
    revert this
    decide
  rw [casTemp_manifestPath, abs_manifestPath, List.append_cancel_left_eq, List.cons.injEq] at heq
  have hjson : ".json".toList = '.' :: "json".toList := by decide
  have htail := congrArg (List.dropWhile fun c => decide (c ≠ '.')) heq.1
  rw [manifestFile, hjson, List.dropWhile_append_of_pos (hdot seq),
    List.dropWhile_append_of_pos (hdot key)] at htail
  have hname : "json".toList = ['j', 's', 'o', 'n'] := by decide
  rw [hname] at htail
  simp [casExtension] at htail

theorem outside_writeTemp {path : String} (hpath : abs path ≠ []) (h : Outside path) :
    ¬ Under (writeTemp path).1 := by
  rintro ⟨⟨rest, hrest⟩, hne⟩
  apply h
  rcases List.eq_nil_or_concat (abs path) with hkey | ⟨dir, name, hkey⟩
  · exact absurd hkey hpath
  · rw [List.concat_eq_append] at hkey
    simp only [writeTemp, hkey, withExtension_concat] at hrest hne
    rcases List.eq_nil_or_concat rest with rfl | ⟨init, last, rfl⟩
    · rw [List.append_nil] at hrest
      exact absurd hrest hne
    · rw [List.concat_eq_append, ← List.append_assoc] at hrest
      have hdir : manifestDir ++ init = dir := (List.append_inj' hrest rfl).1
      rw [hkey]
      refine ⟨⟨init ++ [name], by rw [← List.append_assoc, hdir]⟩, ?_⟩
      intro heq
      have hlen := congrArg List.length heq
      rw [← hdir] at hlen
      simp only [List.length_append, List.length_cons, List.length_nil] at hlen
      omega

end Names

/-- The files of a directory tree: names, and the inode behind each. -/
structure Disk where
  names : AssocMap AbsPath Nat
  inode : Nat → Contents
  next : Nat
  clean : ∀ key ∈ names, Clean key

namespace Disk

def empty : Disk := ⟨∅, fun _ => .torn, 0, by simp⟩

/-- What `list` and `get` see. -/
def store (d : Disk) : LocalStore where
  files := d.names.withValues d.inode
  clean := by
    intro key hkey
    rw [AList.mem_keys, AssocMap.keys_withValues] at hkey
    exact d.clean key hkey

def setName (d : Disk) (key : CleanPath) (ino : Nat) : Disk where
  names := d.names.insert key.1 ino
  inode := d.inode
  next := d.next
  clean := by
    intro other hother
    rcases (AList.mem_insert _).mp hother with rfl | hother
    · exact key.2
    · exact d.clean other hother

def removeName (d : Disk) (key : AbsPath) : Disk where
  names := d.names.erase key
  inode := d.inode
  next := d.next
  clean := by
    intro other hother
    exact d.clean other (AList.mem_erase.mp hother).2

/-- What a handle writes goes to every name of its inode. -/
def fill (d : Disk) (ino : Nat) (c : Contents) : Disk :=
  { d with inode := Function.update d.inode ino c }

/-- `File::create`: a file that is there is emptied, not replaced. -/
def create (d : Disk) (key : CleanPath) : Disk × Nat :=
  match d.names.lookup key.1 with
  | some ino => (d.fill ino .torn, ino)
  | none =>
      (({ d with next := d.next + 1 }.setName key d.next).fill d.next .torn, d.next)

/-- A file where the name needs a directory, or a directory at the name. -/
def blocked (d : Disk) (key : AbsPath) : Bool :=
  d.names.keys.any fun k => (k <+: key ∨ key <+: k) ∧ k ≠ key

def dirAt (d : Disk) (key : AbsPath) : Bool :=
  d.names.keys.any fun k => key <+: k ∧ k ≠ key

end Disk

inductive Stage where
  | created
  | written
  | linked
  deriving DecidableEq, Repr

/-- A `put_if_absent` of a commit, between the creation of its temporary file
and its removal. -/
structure Publish where
  entry : ManifestEntry
  tmp : CleanPath
  inode : Nat
  stage : Stage

/-- A `put` under way. -/
structure Putting where
  path : String
  inode : Nat
  written : Bool

/-- A `load` or a `catch_up` under way: what it has still to read and what it
has read. `since` is not data of the program: the entries that were committed
when the list was taken. -/
structure Reading where
  since : List ManifestEntry
  todo : List String
  got : Except IoError (List ManifestEntry)

/-- The directory and the calls under way. Not data of the program: the entries
whose link was made, and the temporary files of calls that stopped. -/
structure Shared (ι : Type) where
  disk : Disk
  publishes : AssocMap ι Publish
  puts : AssocMap ι Putting
  readers : AssocMap ι Reading
  committed : List ManifestEntry
  stranded : List CleanPath

inductive SharedAct (ι : Type) where
  | openCas (i : ι) (args : CommitArgs) (seq pid n : Nat)
  | write (i : ι)
  | link (i : ι)
  | unlink (i : ι)
  | stop (i : ι)
  | openPut (i : ι) (path : String)
  | writePut (i : ι)
  | rename (i : ι)
  | stopPut (i : ι)
  | list (i : ι)
  | read (i : ι)

namespace Shared

variable {ι : Type} [DecidableEq ι]

def start : Shared ι := ⟨.empty, ∅, ∅, ∅, [], []⟩

/-- `hard_link`. -/
def link (s : Shared ι) (i : ι) (u : Publish) (dest : CleanPath) : Shared ι :=
  let s := { s with publishes := s.publishes.insert i { u with stage := .linked } }
  match s.disk.names.lookup u.tmp.1 with
  | none => s
  | some ino =>
      if (s.disk.names.lookup dest.1).isSome || s.disk.dirAt dest.1 then s
      else { s with disk := s.disk.setName dest ino, committed := s.committed ++ [u.entry] }

/-- `rename`, the end of a `put`. -/
def rename (s : Shared ι) (i : ι) (u : Putting) : Shared ι :=
  let dest := cleanPath u.path
  let s := { s with puts := s.puts.erase i }
  match s.disk.names.lookup (writeTemp u.path).1 with
  | none => s
  | some ino =>
      if s.disk.dirAt dest.1 then s
      else { s with disk := (s.disk.removeName (writeTemp u.path).1).setName dest ino }

/-- The next object of a reader. -/
def read (s : Shared ι) (i : ι) (r : Reading) : Option (Shared ι) :=
  match r.todo, r.got with
  | path :: rest, .ok es =>
      let got := (s.disk.store.readEntry path).map fun e => es ++ [e]
      some { s with readers := s.readers.insert i { r with todo := rest, got := got } }
  | _, _ => none

end Shared

variable {ι : Type} [DecidableEq ι]

def sharedStep (s : Shared ι) : SharedAct ι → Option (Shared ι)
  | .openCas i args seq pid n =>
      let tmp := casTemp (manifestPath seq) pid n
      if (s.publishes.lookup i).isSome then none
      else if s.disk.blocked tmp.1 then some s
      else
        let (disk, ino) := s.disk.create tmp
        some { s with
          disk := disk
          publishes := s.publishes.insert i ⟨args.entry seq, tmp, ino, .created⟩ }
  | .write i => do
      let u ← s.publishes.lookup i
      guard (u.stage = .created)
      some { s with
        disk := s.disk.fill u.inode (.entry u.entry)
        publishes := s.publishes.insert i { u with stage := .written } }
  | .link i => do
      let u ← s.publishes.lookup i
      guard (u.stage = .written)
      some (s.link i u (cleanPath (manifestPath u.entry.seq)))
  | .unlink i => do
      let u ← s.publishes.lookup i
      guard (u.stage = .linked)
      some { s with disk := s.disk.removeName u.tmp.1, publishes := s.publishes.erase i }
  | .stop i => do
      let u ← s.publishes.lookup i
      some { s with publishes := s.publishes.erase i, stranded := s.stranded ++ [u.tmp] }
  | .openPut i path =>
      if (s.puts.lookup i).isSome || (abs path).isEmpty then none
      else if s.disk.blocked (writeTemp path).1 then some s
      else
        let (disk, ino) := s.disk.create (writeTemp path)
        some { s with disk := disk, puts := s.puts.insert i ⟨path, ino, false⟩ }
  | .writePut i => do
      let u ← s.puts.lookup i
      guard (u.written = false)
      some { s with
        disk := s.disk.fill u.inode .data
        puts := s.puts.insert i { u with written := true } }
  | .rename i => do
      let u ← s.puts.lookup i
      guard (u.written = true)
      some (s.rename i u)
  | .stopPut i => do
      let _ ← s.puts.lookup i
      some { s with puts := s.puts.erase i }
  | .list i =>
      some { s with
        readers := s.readers.insert i
          ⟨s.committed, s.disk.store.list "catalog/manifest", .ok []⟩ }
  | .read i => do
      let r ← s.readers.lookup i
      s.read i r

/-- No `put_if_absent` is between the creation of its temporary file and its
removal, and none has stopped there. -/
def Shared.Quiet (s : Shared ι) : Prop := s.publishes.keys = [] ∧ s.stranded = []

/-- A list is taken only when the directory is quiet. A temporary name is not
in use, and a `put` does not go below the manifest. -/
def sharedOk (s : Shared ι) : SharedAct ι → Prop
  | .openCas _ _ seq pid n => (casTemp (manifestPath seq) pid n).1 ∉ s.disk.names
  | .openPut _ path => Outside path
  | .list _ => s.Quiet
  | _ => True

instance (s : Shared ι) : Decidable s.Quiet := inferInstanceAs (Decidable (_ ∧ _))

instance (path : String) : Decidable (Outside path) := inferInstanceAs (Decidable (¬ _))

instance (s : Shared ι) : (a : SharedAct ι) → Decidable (sharedOk s a)
  | .openCas _ _ seq pid n =>
      inferInstanceAs (Decidable ((casTemp (manifestPath seq) pid n).1 ∉ s.disk.names))
  | .openPut _ path => inferInstanceAs (Decidable (Outside path))
  | .list _ => inferInstanceAs (Decidable s.Quiet)
  | .write _ | .link _ | .unlink _ | .stop _ | .writePut _ | .rename _ | .stopPut _ | .read _ =>
      inferInstanceAs (Decidable True)

section Invariant

/-- A temporary name of some `put_if_absent`. -/
def IsTemp (key : AbsPath) : Prop :=
  ∃ seq pid n, key = (casTemp (manifestPath seq) pid n).1

theorem IsTemp.under {key : AbsPath} (h : IsTemp key) : Under key := by
  obtain ⟨seq, pid, n, hkey⟩ := h
  rw [hkey]
  exact under_casTemp seq pid n

theorem IsTemp.ne_manifestPath {key : AbsPath} (h : IsTemp key) (seq : Nat) :
    key ≠ abs (manifestPath seq) := by
  obtain ⟨seq', pid, n, hkey⟩ := h
  rw [hkey]
  exact casTemp_ne_manifestPath seq' pid n seq

/-- What a reader has read and has still to read are the entries its list saw. -/
def Reading.Inv (r : Reading) (committed : List ManifestEntry) : Prop :=
  ∃ es rest, r.got = .ok es ∧ es ++ rest = inKeyOrder r.since ∧
    r.todo = rest.map (fun e => manifestPath e.seq) ∧ r.since <+: committed

/-- The manifest directory of a disk: committed entries at their keys, and
temporary files. -/
structure Disk.Layout (d : Disk) (committed : List ManifestEntry) (temps : AbsPath → Prop) :
    Prop where
  allocated : ∀ key ino, d.names.lookup key = some ino → ino < d.next
  only : ∀ key ino, d.names.lookup key = some ino → Under key →
    (∃ e ∈ committed, key = abs (manifestPath e.seq)) ∨ temps key
  there : ∀ e ∈ committed, ∃ ino, d.names.lookup (abs (manifestPath e.seq)) = some ino ∧
    d.inode ino = .entry e
  distinct : (committed.map ManifestEntry.seq).Nodup
  format : ∀ e ∈ committed, e.format = manifestFormatVersion
  temps : ∀ key, temps key → IsTemp key ∧ key ∈ d.names
  sides : ∀ key key' ino, d.names.lookup key = some ino → d.names.lookup key' = some ino →
    Under key → Under key'

structure Publish.Inv (u : Publish) (d : Disk) : Prop where
  named : d.names.lookup u.tmp.1 = some u.inode
  format : u.entry.format = manifestFormatVersion
  whole : u.stage = .written → d.inode u.inode = .entry u.entry
  alone : u.stage = .created → ∀ key, d.names.lookup key = some u.inode → key = u.tmp.1

structure Putting.Inv (u : Putting) (d : Disk) : Prop where
  outside : Outside u.path
  path : abs u.path ≠ []
  allocated : u.inode < d.next
  apart : ∀ key, d.names.lookup key = some u.inode → ¬ Under key

def Shared.Temp (s : Shared ι) (key : AbsPath) : Prop :=
  (∃ i u, s.publishes.lookup i = some u ∧ key = u.tmp.1) ∨ ∃ t ∈ s.stranded, key = t.1

/-- Each call under way has a temporary name of its own. -/
structure Separate (publishes : AssocMap ι Publish) (stranded : List CleanPath) : Prop where
  apart : ∀ i j u v, publishes.lookup i = some u → publishes.lookup j = some v → i ≠ j →
    u.tmp ≠ v.tmp
  kept : ∀ i u, publishes.lookup i = some u → u.tmp ∉ stranded

structure Shared.Inv (s : Shared ι) : Prop where
  layout : s.disk.Layout s.committed s.Temp
  publishes : ∀ i u, s.publishes.lookup i = some u → u.Inv s.disk
  separate : Separate s.publishes s.stranded
  puts : ∀ i u, s.puts.lookup i = some u → u.Inv s.disk
  readers : ∀ i r, s.readers.lookup i = some r → r.Inv s.committed

theorem Reading.Inv.snoc {r : Reading} {committed : List ManifestEntry} (h : r.Inv committed)
    (e : ManifestEntry) : r.Inv (committed ++ [e]) := by
  obtain ⟨es, rest, hgot, hall, htodo, hsince⟩ := h
  exact ⟨es, rest, hgot, hall, htodo, hsince.trans (List.prefix_append _ _)⟩

end Invariant

section Layout

variable {d : Disk} {committed : List ManifestEntry} {temps temps' : AbsPath → Prop}

theorem fill_inode_ne (d : Disk) {ino x : Nat} (h : ino ≠ x) (c : Contents) :
    (d.fill x c).inode ino = d.inode ino := by
  simp [Disk.fill, h]

theorem Disk.Layout.congr (h : d.Layout committed temps) (heq : ∀ key, temps' key ↔ temps key) :
    d.Layout committed temps' := by
  obtain rfl : temps' = temps := funext fun key => propext (heq key)
  exact h

/-- A write to an inode that no committed entry has. -/
theorem Disk.Layout.fill (h : d.Layout committed temps) {ino : Nat}
    (hino : ∀ e ∈ committed, d.names.lookup (abs (manifestPath e.seq)) ≠ some ino)
    (c : Contents) : (d.fill ino c).Layout committed temps := by
  refine ⟨h.allocated, h.only, ?_, h.distinct, h.format, h.temps, h.sides⟩
  intro e he
  obtain ⟨x, hname, hx⟩ := h.there e he
  have hne : x ≠ ino := by
    rintro rfl
    exact hino e he hname
  exact ⟨x, hname, (fill_inode_ne d hne c).trans hx⟩

theorem Disk.of_lookup_setName {key : CleanPath} {ino x : Nat} {k : AbsPath}
    (h : (d.setName key ino).names.lookup k = some x) :
    (k = key.1 ∧ x = ino) ∨ (k ≠ key.1 ∧ d.names.lookup k = some x) :=
  AssocMap.of_lookup_insert h

theorem Disk.lookup_setName_ne {key : CleanPath} {ino : Nat} {k : AbsPath} (h : k ≠ key.1) :
    (d.setName key ino).names.lookup k = d.names.lookup k :=
  AList.lookup_insert_ne h

theorem Disk.create_new {key : CleanPath} (hfresh : d.names.lookup key.1 = none) :
    d.create key =
      (({ d with next := d.next + 1 }.setName key d.next).fill d.next .torn, d.next) := by
  unfold Disk.create
  rw [hfresh]

/-- The names of a disk with a new file are the old ones and one with an inode
of its own. -/
theorem Disk.lookup_create_new {key : CleanPath} (hfresh : d.names.lookup key.1 = none)
    {k : AbsPath} {ino : Nat} (h : (d.create key).1.names.lookup k = some ino) :
    (k = key.1 ∧ ino = d.next) ∨ (k ≠ key.1 ∧ d.names.lookup k = some ino) := by
  rw [Disk.create_new hfresh] at h
  exact AssocMap.of_lookup_insert h

theorem Disk.Layout.createNew (h : d.Layout committed temps) {key : CleanPath}
    (hfresh : d.names.lookup key.1 = none) (hkey : ∀ seq, key.1 ≠ abs (manifestPath seq))
    (hkeep : ∀ k, temps k → temps' k) (hnew : Under key.1 → temps' key.1)
    (hold : ∀ k, temps' k → temps k ∨ (k = key.1 ∧ IsTemp k)) :
    (d.create key).1.Layout committed temps' := by
  have hother : ∀ k, k ≠ key.1 → (d.create key).1.names.lookup k = d.names.lookup k := by
    intro k hk
    rw [Disk.create_new hfresh]
    exact AList.lookup_insert_ne hk
  have hnext : (d.create key).1.next = d.next + 1 := by
    rw [Disk.create_new hfresh]
    rfl
  refine ⟨?_, ?_, ?_, h.distinct, h.format, ?_, ?_⟩
  · intro k ino hk
    rw [hnext]
    rcases Disk.lookup_create_new hfresh hk with ⟨_, rfl⟩ | ⟨_, hk⟩
    · omega
    · have := h.allocated k ino hk
      omega
  · intro k ino hk hunder
    rcases Disk.lookup_create_new hfresh hk with ⟨rfl, _⟩ | ⟨_, hk⟩
    · exact .inr (hnew hunder)
    · rcases h.only k ino hk hunder with hentry | htemp
      · exact .inl hentry
      · exact .inr (hkeep k htemp)
  · intro e he
    obtain ⟨ino, hname, hino⟩ := h.there e he
    refine ⟨ino, (hother _ (hkey e.seq).symm).trans hname, ?_⟩
    have hlt := h.allocated _ ino hname
    rw [Disk.create_new hfresh]
    exact (fill_inode_ne _ (by omega) _).trans hino
  · intro k hk
    rcases hold k hk with hk | ⟨rfl, htemp⟩
    · obtain ⟨htemp, hmem⟩ := h.temps k hk
      refine ⟨htemp, ?_⟩
      rw [Disk.create_new hfresh]
      exact (AList.mem_insert _).mpr (.inr hmem)
    · refine ⟨htemp, ?_⟩
      rw [Disk.create_new hfresh]
      exact (AList.mem_insert _).mpr (.inl rfl)
  · intro k k' ino hk hk' hunder
    rcases Disk.lookup_create_new hfresh hk with ⟨rfl, rfl⟩ | ⟨_, hk⟩
    · rcases Disk.lookup_create_new hfresh hk' with ⟨rfl, _⟩ | ⟨_, hk'⟩
      · exact hunder
      · have := h.allocated k' _ hk'
        omega
    · rcases Disk.lookup_create_new hfresh hk' with ⟨rfl, rfl⟩ | ⟨_, hk'⟩
      · have := h.allocated k _ hk
        omega
      · exact h.sides k k' ino hk hk' hunder

/-- The link that commits an entry. -/
theorem Disk.Layout.link (h : d.Layout committed temps) {e : ManifestEntry} {ino : Nat}
    {tmp : AbsPath} {dest : CleanPath} (hdest : dest.1 = abs (manifestPath e.seq))
    (htmp : d.names.lookup tmp = some ino) (hunder : Under tmp)
    (hwhole : d.inode ino = .entry e) (hformat : e.format = manifestFormatVersion)
    (hfree : d.names.lookup dest.1 = none) :
    (d.setName dest ino).Layout (committed ++ [e]) temps := by
  have hnew : ∀ old ∈ committed, abs (manifestPath old.seq) ≠ dest.1 := by
    intro old hold heq
    obtain ⟨x, hname, _⟩ := h.there old hold
    rw [heq, hfree] at hname
    cases hname
  refine ⟨?_, ?_, ?_, ?_, ?_, ?_, ?_⟩
  · intro k x hk
    rcases Disk.of_lookup_setName hk with ⟨_, rfl⟩ | ⟨_, hk⟩
    · exact h.allocated tmp x htmp
    · exact h.allocated k x hk
  · intro k x hk hk'
    rcases Disk.of_lookup_setName hk with ⟨rfl, _⟩ | ⟨_, hk⟩
    · exact .inl ⟨e, by simp, hdest⟩
    · rcases h.only k x hk hk' with ⟨old, hold, hkey⟩ | htemp
      · exact .inl ⟨old, List.mem_append_left _ hold, hkey⟩
      · exact .inr htemp
  · intro old hold
    rcases List.mem_append.mp hold with hold | hold
    · obtain ⟨x, hname, hx⟩ := h.there old hold
      exact ⟨x, (Disk.lookup_setName_ne (hnew old hold)).trans hname, hx⟩
    · rw [List.mem_singleton.mp hold, ← hdest]
      exact ⟨ino, AList.lookup_insert _, hwhole⟩
  · rw [List.map_append, List.nodup_append']
    refine ⟨h.distinct, by simp, ?_⟩
    intro seq hseq heq
    obtain ⟨old, hold, rfl⟩ := List.mem_map.mp hseq
    have hsame : old.seq = e.seq := by simpa using heq
    exact hnew old hold (by rw [hsame, hdest])
  · intro old hold
    rcases List.mem_append.mp hold with hold | hold
    · exact h.format old hold
    · rw [List.mem_singleton.mp hold]
      exact hformat
  · intro k hk
    obtain ⟨htemp, hmem⟩ := h.temps k hk
    exact ⟨htemp, (AList.mem_insert _).mpr (.inr hmem)⟩
  · intro k k' x hk hk' hside
    rcases Disk.of_lookup_setName hk' with ⟨rfl, _⟩ | ⟨_, hold'⟩
    · rw [hdest]
      exact prefix_manifestPath e.seq
    · rcases Disk.of_lookup_setName hk with ⟨_, rfl⟩ | ⟨_, hk⟩
      · exact h.sides tmp k' x htmp hold' hunder
      · exact h.sides k k' x hk hold' hside

/-- The removal of a temporary file. -/
theorem Disk.Layout.unlink (h : d.Layout committed temps) {tmp : AbsPath} (htmp : IsTemp tmp)
    (heq : ∀ k, temps' k ↔ temps k ∧ k ≠ tmp) : (d.removeName tmp).Layout committed temps' := by
  have hlookup : ∀ k x, (d.removeName tmp).names.lookup k = some x →
      k ≠ tmp ∧ d.names.lookup k = some x := fun k x hk => AssocMap.of_lookup_erase hk
  refine ⟨?_, ?_, ?_, h.distinct, h.format, ?_, ?_⟩
  · intro k x hk
    exact h.allocated k x (hlookup k x hk).2
  · intro k x hk hunder
    obtain ⟨hne, hk⟩ := hlookup k x hk
    rcases h.only k x hk hunder with hentry | htemp
    · exact .inl hentry
    · exact .inr ((heq k).mpr ⟨htemp, hne⟩)
  · intro e he
    obtain ⟨x, hname, hx⟩ := h.there e he
    exact ⟨x, (AList.lookup_erase_ne (htmp.ne_manifestPath e.seq).symm).trans hname, hx⟩
  · intro k hk
    obtain ⟨hold, hne⟩ := (heq k).mp hk
    obtain ⟨htemp, hmem⟩ := h.temps k hold
    exact ⟨htemp, AList.mem_erase.mpr ⟨hne, hmem⟩⟩
  · intro k k' x hk hk' hunder
    exact h.sides k k' x (hlookup k x hk).2 (hlookup k' x hk').2 hunder

theorem Disk.of_lookup_rename {tmp : AbsPath} {dest : CleanPath} {ino x : Nat} {k : AbsPath}
    (h : ((d.removeName tmp).setName dest ino).names.lookup k = some x) :
    (k = dest.1 ∧ x = ino) ∨ d.names.lookup k = some x := by
  rcases Disk.of_lookup_setName h with hnew | ⟨_, hk⟩
  · exact .inl hnew
  · exact .inr (AssocMap.of_lookup_erase hk).2

theorem Disk.lookup_rename {tmp : AbsPath} {dest : CleanPath} (houtTmp : ¬ Under tmp)
    (hdest : ¬ Under dest.1) (ino : Nat) {k : AbsPath} (hk : Under k) :
    ((d.removeName tmp).setName dest ino).names.lookup k = d.names.lookup k := by
  have hdestNe : k ≠ dest.1 := by
    rintro rfl
    exact hdest hk
  have htmpNe : k ≠ tmp := by
    rintro rfl
    exact houtTmp hk
  exact (Disk.lookup_setName_ne hdestNe).trans (AList.lookup_erase_ne htmpNe)

/-- The rename of a `put` outside the manifest. -/
theorem Disk.Layout.rename (h : d.Layout committed temps) {tmp : AbsPath} {dest : CleanPath}
    {ino : Nat} (htmp : d.names.lookup tmp = some ino) (houtTmp : ¬ Under tmp)
    (hdest : ¬ Under dest.1) : ((d.removeName tmp).setName dest ino).Layout committed temps := by
  have hunder : ∀ k, Under k → ((d.removeName tmp).setName dest ino).names.lookup k =
      d.names.lookup k := fun k hk => Disk.lookup_rename houtTmp hdest ino hk
  refine ⟨?_, ?_, ?_, h.distinct, h.format, ?_, ?_⟩
  · intro k x hk
    rcases Disk.of_lookup_rename hk with ⟨_, rfl⟩ | hk
    · exact h.allocated tmp x htmp
    · exact h.allocated k x hk
  · intro k x hk hk'
    rw [hunder k hk'] at hk
    exact h.only k x hk hk'
  · intro e he
    obtain ⟨x, hname, hx⟩ := h.there e he
    exact ⟨x, (hunder _ (prefix_manifestPath e.seq)).trans hname, hx⟩
  · intro k hk
    obtain ⟨htemp, hmem⟩ := h.temps k hk
    refine ⟨htemp, AList.lookup_isSome.mp ?_⟩
    rw [hunder k htemp.under]
    exact AList.lookup_isSome.mpr hmem
  · intro k k' x hk hk' hside
    rw [hunder k hside] at hk
    rcases Disk.of_lookup_rename hk' with ⟨_, rfl⟩ | hk'
    · exact absurd (h.sides k tmp x hk htmp hside) houtTmp
    · exact h.sides k k' x hk hk' hside

end Layout

section Separate

variable {m : AssocMap ι Publish} {stranded : List CleanPath} {i : ι} {u : Publish}

theorem temp_insert (hu : m.lookup i = some u) (u' : Publish) (htmp : u'.tmp = u.tmp)
    (key : AbsPath) :
    (∃ j v, (m.insert i u').lookup j = some v ∧ key = v.tmp.1) ↔
      ∃ j v, m.lookup j = some v ∧ key = v.tmp.1 := by
  constructor
  · rintro ⟨j, v, hv, rfl⟩
    rcases AssocMap.of_lookup_insert hv with ⟨rfl, rfl⟩ | ⟨_, hv⟩
    · exact ⟨j, u, hu, by rw [htmp]⟩
    · exact ⟨j, v, hv, rfl⟩
  · rintro ⟨j, v, hv, rfl⟩
    by_cases hj : j = i
    · subst hj
      obtain rfl := Option.some.inj (hv.symm.trans hu)
      exact ⟨j, u', AList.lookup_insert _, by rw [htmp]⟩
    · exact ⟨j, v, (AList.lookup_insert_ne hj).trans hv, rfl⟩

theorem Separate.insert (h : Separate m stranded) {u' : Publish}
    (hnew : ∀ j v, j ≠ i → m.lookup j = some v → v.tmp ≠ u'.tmp) (hkept : u'.tmp ∉ stranded) :
    Separate (m.insert i u') stranded := by
  refine ⟨?_, ?_⟩
  · intro j k v w hv hw hjk
    rcases AssocMap.of_lookup_insert hv with ⟨rfl, rfl⟩ | ⟨hj, hold⟩
    · rcases AssocMap.of_lookup_insert hw with ⟨rfl, _⟩ | ⟨hk, hold⟩
      · exact absurd rfl hjk
      · exact (hnew k w hk hold).symm
    · rcases AssocMap.of_lookup_insert hw with ⟨rfl, rfl⟩ | ⟨_, hold'⟩
      · exact hnew j v hj hold
      · exact h.apart j k v w hold hold' hjk
  · intro j v hv
    rcases AssocMap.of_lookup_insert hv with ⟨rfl, rfl⟩ | ⟨_, hold⟩
    · exact hkept
    · exact h.kept j v hold

/-- The next stage of a call keeps its name. -/
theorem Separate.restage (h : Separate m stranded) (hu : m.lookup i = some u) {u' : Publish}
    (htmp : u'.tmp = u.tmp) : Separate (m.insert i u') stranded := by
  refine h.insert ?_ ?_
  · intro j v hj hv
    rw [htmp]
    exact h.apart j i v u hv hu hj
  · rw [htmp]
    exact h.kept i u hu

theorem Separate.erase (h : Separate m stranded) (i : ι) : Separate (m.erase i) stranded := by
  refine ⟨?_, ?_⟩
  · intro j k v w hv hw
    exact h.apart j k v w (AssocMap.of_lookup_erase hv).2 (AssocMap.of_lookup_erase hw).2
  · intro j v hv
    exact h.kept j v (AssocMap.of_lookup_erase hv).2

theorem Separate.stop (h : Separate m stranded) (hu : m.lookup i = some u) :
    Separate (m.erase i) (stranded ++ [u.tmp]) := by
  refine ⟨(h.erase i).apart, ?_⟩
  intro j v hv
  obtain ⟨hj, hold⟩ := AssocMap.of_lookup_erase hv
  rw [List.mem_append, List.mem_singleton]
  rintro (hleft | heq)
  · exact h.kept j v hold hleft
  · exact h.apart j i v u hold hu hj heq

end Separate

section Step

variable {s t : Shared ι} {i : ι}

theorem Shared.Inv.isTemp (h : s.Inv) {u : Publish} (hu : s.publishes.lookup i = some u) :
    IsTemp u.tmp.1 :=
  (h.layout.temps u.tmp.1 (.inl ⟨i, u, hu, rfl⟩)).1

/-- Two calls under way do not share an inode while one of them has still to
write it. -/
theorem Shared.Inv.inode_ne (h : s.Inv) {j : ι} {u v : Publish}
    (hu : s.publishes.lookup i = some u) (hv : s.publishes.lookup j = some v) (hj : j ≠ i)
    (hstage : u.stage = .created) : v.inode ≠ u.inode := by
  intro heq
  have hname := (h.publishes j v hv).named
  rw [heq] at hname
  exact h.separate.apart j i v u hv hu hj (Subtype.ext ((h.publishes i u hu).alone hstage _ hname))

theorem Publish.Inv.createNew {d : Disk} {committed : List ManifestEntry} {temps : AbsPath → Prop}
    (hlayout : d.Layout committed temps) {u : Publish} (h : u.Inv d) {key : CleanPath}
    (hfresh : d.names.lookup key.1 = none) : u.Inv (d.create key).1 := by
  have hlt := hlayout.allocated _ _ h.named
  refine ⟨?_, h.format, ?_, ?_⟩
  · have hne : u.tmp.1 ≠ key.1 := by
      intro heq
      rw [← heq, h.named] at hfresh
      cases hfresh
    rw [Disk.create_new hfresh]
    exact (AList.lookup_insert_ne hne).trans h.named
  · intro hstage
    rw [Disk.create_new hfresh]
    exact (fill_inode_ne _ (by omega) _).trans (h.whole hstage)
  · intro hstage k hk
    rcases Disk.lookup_create_new hfresh hk with ⟨_, heq⟩ | ⟨_, hk⟩
    · omega
    · exact h.alone hstage k hk

theorem Putting.Inv.createNew {d : Disk} {u : Putting} (h : u.Inv d) {key : CleanPath}
    (hfresh : d.names.lookup key.1 = none) : u.Inv (d.create key).1 := by
  refine ⟨h.outside, h.path, ?_, ?_⟩
  · rw [Disk.create_new hfresh]
    exact Nat.lt_succ_of_lt h.allocated
  · intro k hk
    have hlt := h.allocated
    rcases Disk.lookup_create_new hfresh hk with ⟨_, heq⟩ | ⟨_, hk⟩
    · omega
    · exact h.apart k hk

theorem Shared.Inv.openCas (h : s.Inv) (hi : s.publishes.lookup i = none) (args : CommitArgs)
    (seq pid n : Nat) {tmp : CleanPath} (htmp : tmp = casTemp (manifestPath seq) pid n)
    (hfresh : tmp.1 ∉ s.disk.names) :
    Shared.Inv { s with
      disk := (s.disk.create tmp).1
      publishes := s.publishes.insert i ⟨args.entry seq, tmp,
        (s.disk.create tmp).2, .created⟩ } := by
  have hnone : s.disk.names.lookup tmp.1 = none := AList.lookup_eq_none.mpr hfresh
  have htemp : IsTemp tmp.1 := ⟨seq, pid, n, by rw [htmp]⟩
  refine ⟨?_, ?_, ?_, fun j u hu => (h.puts j u hu).createNew hnone, h.readers⟩
  · refine h.layout.createNew hnone htemp.ne_manifestPath ?_ ?_ ?_
    · rintro k (⟨j, u, hu, rfl⟩ | hleft)
      · have hj : j ≠ i := by
          rintro rfl
          rw [hi] at hu
          cases hu
        exact .inl ⟨j, u, (AList.lookup_insert_ne hj).trans hu, rfl⟩
      · exact .inr hleft
    · exact fun _ => .inl ⟨i, _, AList.lookup_insert _, rfl⟩
    · rintro k (⟨j, u, hu, rfl⟩ | hleft)
      · rcases AssocMap.of_lookup_insert hu with ⟨rfl, rfl⟩ | ⟨_, hu⟩
        · exact .inr ⟨rfl, htemp⟩
        · exact .inl (.inl ⟨j, u, hu, rfl⟩)
      · exact .inl (.inr hleft)
  · intro j u hu
    rcases AssocMap.of_lookup_insert hu with ⟨rfl, rfl⟩ | ⟨_, hu⟩
    · refine ⟨?_, rfl, ?_, ?_⟩
      · rw [Disk.create_new hnone]
        exact AList.lookup_insert _
      · intro hstage
        cases hstage
      · intro _ k hk
        rcases Disk.lookup_create_new hnone hk with ⟨rfl, _⟩ | ⟨_, hk⟩
        · rfl
        · have hlt := h.layout.allocated k _ hk
          rw [Disk.create_new hnone] at hlt
          exact absurd hlt (lt_irrefl _)
    · exact (h.publishes j u hu).createNew h.layout hnone
  · refine h.separate.insert ?_ ?_
    · rintro j v _ hv rfl
      rw [(h.publishes j v hv).named] at hnone
      cases hnone
    · intro hleft
      exact hfresh (h.layout.temps _ (.inr ⟨_, hleft, rfl⟩)).2

theorem Shared.Inv.write (h : s.Inv) {u : Publish} (hu : s.publishes.lookup i = some u)
    (hstage : u.stage = .created) :
    Shared.Inv { s with
      disk := s.disk.fill u.inode (.entry u.entry)
      publishes := s.publishes.insert i { u with stage := .written } } := by
  have halone := (h.publishes i u hu).alone hstage
  refine ⟨?_, ?_, h.separate.restage hu rfl, ?_, h.readers⟩
  · refine (h.layout.fill ?_ _).congr fun key =>
      or_congr (temp_insert hu { u with stage := .written } rfl key) Iff.rfl
    intro e _ hname
    exact (h.isTemp hu).ne_manifestPath e.seq (halone _ hname).symm
  · intro j v hv
    rcases AssocMap.of_lookup_insert hv with ⟨rfl, rfl⟩ | ⟨hj, hv⟩
    · refine ⟨(h.publishes j u hu).named, (h.publishes j u hu).format, ?_, ?_⟩
      · intro _
        simp [Disk.fill]
      · intro hcreated
        cases hcreated
    · have hold := h.publishes j v hv
      refine ⟨hold.named, hold.format, ?_, hold.alone⟩
      intro hwritten
      exact (fill_inode_ne _ (h.inode_ne hu hv hj hstage) _).trans (hold.whole hwritten)
  · intro j v hv
    have hold := h.puts j v hv
    exact ⟨hold.outside, hold.path, hold.allocated, hold.apart⟩

theorem Shared.Inv.link (h : s.Inv) {u : Publish} (hu : s.publishes.lookup i = some u)
    (hstage : u.stage = .written) {dest : CleanPath}
    (hdest : dest.1 = abs (manifestPath u.entry.seq)) : (s.link i u dest).Inv := by
  have hcall := h.publishes i u hu
  have hlinked : ∀ j v, (s.publishes.insert i { u with stage := .linked }).lookup j = some v →
      (v.stage = .created → j ≠ i ∧ s.publishes.lookup j = some v) ∧ v.Inv s.disk := by
    intro j v hv
    rcases AssocMap.of_lookup_insert hv with ⟨rfl, rfl⟩ | hold
    · have hcreated : Stage.linked ≠ Stage.created := by decide
      refine ⟨fun heq => absurd heq hcreated, hcall.named, hcall.format, ?_, ?_⟩
      · intro hwritten
        cases hwritten
      · intro heq
        exact absurd heq hcreated
    · exact ⟨fun _ => hold, h.publishes j v hold.2⟩
  have htemp : ∀ key, (∃ j v, (s.publishes.insert i { u with stage := .linked }).lookup j = some v ∧
      key = v.tmp.1) ∨ (∃ t ∈ s.stranded, key = t.1) ↔ s.Temp key := fun key =>
    or_congr (temp_insert hu { u with stage := .linked } rfl key) Iff.rfl
  have hsame : Shared.Inv { s with
      publishes := s.publishes.insert i { u with stage := .linked } } :=
    ⟨h.layout.congr htemp, fun j v hv => (hlinked j v hv).2, h.separate.restage hu rfl, h.puts,
      h.readers⟩
  unfold Shared.link
  simp only [hcall.named]
  split
  · exact hsame
  · next hfree =>
      rw [Bool.or_eq_true, not_or, Bool.not_eq_true, Option.isSome_eq_false_iff,
        Option.isNone_iff_eq_none] at hfree
      have hlayout := (h.layout.link (e := u.entry) hdest hcall.named
        (h.isTemp hu).under (hcall.whole hstage) hcall.format hfree.1).congr htemp
      refine ⟨hlayout, ?_, hsame.separate, ?_, fun j r hr => (h.readers j r hr).snoc u.entry⟩
      · intro j v hv
        obtain ⟨hother, hinv⟩ := hlinked j v hv
        refine ⟨?_, hinv.format, hinv.whole, ?_⟩
        · have hne : v.tmp.1 ≠ dest.1 := hdest ▸ (hsame.isTemp hv).ne_manifestPath u.entry.seq
          exact (Disk.lookup_setName_ne hne).trans hinv.named
        · intro hcreated key hkey
          obtain ⟨hj, hold⟩ := hother hcreated
          rcases Disk.of_lookup_setName hkey with ⟨_, heq⟩ | ⟨_, hkey⟩
          · exact absurd heq.symm (h.inode_ne hold hu hj.symm hcreated)
          · exact hinv.alone hcreated key hkey
      · intro j v hv
        have hput := h.puts j v hv
        refine ⟨hput.outside, hput.path, hput.allocated, ?_⟩
        intro key hkey
        rcases Disk.of_lookup_setName hkey with ⟨_, heq⟩ | ⟨_, hkey⟩
        · exact absurd (h.isTemp hu).under (hput.apart _ (heq ▸ hcall.named))
        · exact hput.apart key hkey

theorem Shared.Inv.unlink (h : s.Inv) {u : Publish} (hu : s.publishes.lookup i = some u) :
    Shared.Inv { s with
      disk := s.disk.removeName u.tmp.1
      publishes := s.publishes.erase i } := by
  refine ⟨?_, ?_, h.separate.erase i, ?_, h.readers⟩
  · refine h.layout.unlink (h.isTemp hu) ?_
    intro key
    constructor
    · rintro (⟨j, v, hv, rfl⟩ | ⟨t, ht, rfl⟩)
      · obtain ⟨hj, hold⟩ := AssocMap.of_lookup_erase hv
        refine ⟨.inl ⟨j, v, hold, rfl⟩, ?_⟩
        intro heq
        exact h.separate.apart j i v u hold hu hj (Subtype.ext heq)
      · refine ⟨.inr ⟨t, ht, rfl⟩, ?_⟩
        intro heq
        exact h.separate.kept i u hu (Subtype.ext heq ▸ ht)
    · rintro ⟨⟨j, v, hv, rfl⟩ | hleft, hne⟩
      · have hj : j ≠ i := by
          rintro rfl
          obtain rfl := Option.some.inj (hv.symm.trans hu)
          exact hne rfl
        exact .inl ⟨j, v, (AList.lookup_erase_ne hj).trans hv, rfl⟩
      · exact .inr hleft
  · intro j v hv
    obtain ⟨hj, hold⟩ := AssocMap.of_lookup_erase hv
    have hinv := h.publishes j v hold
    have hne : v.tmp.1 ≠ u.tmp.1 := by
      intro heq
      exact h.separate.apart j i v u hold hu hj (Subtype.ext heq)
    refine ⟨(AList.lookup_erase_ne hne).trans hinv.named, hinv.format, hinv.whole, ?_⟩
    intro hstage key hkey
    exact hinv.alone hstage key (AssocMap.of_lookup_erase hkey).2
  · intro j v hv
    have hput := h.puts j v hv
    refine ⟨hput.outside, hput.path, hput.allocated, ?_⟩
    intro key hkey
    exact hput.apart key (AssocMap.of_lookup_erase hkey).2

theorem Shared.Inv.stop (h : s.Inv) {u : Publish} (hu : s.publishes.lookup i = some u) :
    Shared.Inv { s with
      publishes := s.publishes.erase i
      stranded := s.stranded ++ [u.tmp] } := by
  refine ⟨h.layout.congr ?_, ?_, h.separate.stop hu, h.puts, h.readers⟩
  · intro key
    constructor
    · rintro (⟨j, v, hv, rfl⟩ | ⟨t, ht, rfl⟩)
      · exact .inl ⟨j, v, (AssocMap.of_lookup_erase hv).2, rfl⟩
      · rcases List.mem_append.mp ht with ht | ht
        · exact .inr ⟨t, ht, rfl⟩
        · exact .inl ⟨i, u, hu, by rw [List.mem_singleton.mp ht]⟩
    · rintro (⟨j, v, hv, rfl⟩ | ⟨t, ht, rfl⟩)
      · by_cases hj : j = i
        · subst hj
          obtain rfl := Option.some.inj (hv.symm.trans hu)
          exact .inr ⟨v.tmp, by simp, rfl⟩
        · exact .inl ⟨j, v, (AList.lookup_erase_ne hj).trans hv, rfl⟩
      · exact .inr ⟨t, List.mem_append_left _ ht, rfl⟩
  · intro j v hv
    exact h.publishes j v (AssocMap.of_lookup_erase hv).2

/-- A write to an inode outside the manifest. -/
theorem Shared.Inv.fillOutside (h : s.Inv) {ino : Nat}
    (hino : ∀ key, s.disk.names.lookup key = some ino → ¬ Under key) (c : Contents) :
    Shared.Inv { s with disk := s.disk.fill ino c } := by
  refine ⟨?_, ?_, h.separate, ?_, h.readers⟩
  · refine h.layout.fill ?_ c
    intro e _ hname
    exact hino _ hname (prefix_manifestPath e.seq)
  · intro j v hv
    have hinv := h.publishes j v hv
    refine ⟨hinv.named, hinv.format, ?_, hinv.alone⟩
    intro hstage
    have hne : v.inode ≠ ino := by
      rintro rfl
      exact hino _ hinv.named (h.isTemp hv).under
    exact (fill_inode_ne _ hne c).trans (hinv.whole hstage)
  · intro j v hv
    have hput := h.puts j v hv
    exact ⟨hput.outside, hput.path, hput.allocated, hput.apart⟩

/-- The handle of a `put`. -/
theorem Shared.Inv.setPut (h : s.Inv) {u : Putting} (hu : u.Inv s.disk) :
    Shared.Inv { s with puts := s.puts.insert i u } := by
  refine ⟨h.layout, h.publishes, h.separate, ?_, h.readers⟩
  intro j v hv
  rcases AssocMap.of_lookup_insert hv with ⟨rfl, rfl⟩ | ⟨_, hold⟩
  · exact hu
  · exact h.puts j v hold

theorem Shared.Inv.erasePut (h : s.Inv) (i : ι) :
    Shared.Inv { s with puts := s.puts.erase i } :=
  ⟨h.layout, h.publishes, h.separate,
    fun j v hv => h.puts j v (AssocMap.of_lookup_erase hv).2, h.readers⟩

theorem Shared.Inv.openPut (h : s.Inv) {path : String} (hpath : abs path ≠ [])
    (hout : Outside path) {tmp : CleanPath} (htmp : tmp = writeTemp path) :
    Shared.Inv { s with
      disk := (s.disk.create tmp).1
      puts := s.puts.insert i ⟨path, (s.disk.create tmp).2, false⟩ } := by
  have hunder : ¬ Under tmp.1 := htmp ▸ outside_writeTemp hpath hout
  cases hname : s.disk.names.lookup tmp.1 with
  | some ino =>
      have hcreate : s.disk.create tmp = (s.disk.fill ino .torn, ino) := by
        unfold Disk.create
        rw [hname]
      have hapart : ∀ key, s.disk.names.lookup key = some ino → ¬ Under key := by
        intro key hkey hin
        exact hunder (h.layout.sides key tmp.1 ino hkey hname hin)
      rw [hcreate]
      exact (h.fillOutside hapart .torn).setPut
        ⟨hout, hpath, h.layout.allocated _ _ hname, hapart⟩
  | none =>
      have hne : ∀ seq, tmp.1 ≠ abs (manifestPath seq) := by
        intro seq heq
        exact hunder (heq ▸ prefix_manifestPath seq)
      have hdisk : Shared.Inv { s with disk := (s.disk.create tmp).1 } := by
        refine ⟨?_, ?_, h.separate, fun j u hu => (h.puts j u hu).createNew hname, h.readers⟩
        · exact h.layout.createNew hname hne (fun _ hk => hk) (fun hin => absurd hin hunder)
            fun _ hk => .inl hk
        · intro j u hu
          exact (h.publishes j u hu).createNew h.layout hname
      refine hdisk.setPut ⟨hout, hpath, ?_, ?_⟩
      · rw [Disk.create_new hname]
        exact Nat.lt_succ_self _
      · intro key hkey
        rcases Disk.lookup_create_new hname hkey with ⟨rfl, _⟩ | ⟨_, hkey⟩
        · exact hunder
        · have hlt := h.layout.allocated key _ hkey
          rw [Disk.create_new hname] at hlt
          exact absurd hlt (lt_irrefl _)

theorem Shared.Inv.rename (h : s.Inv) {u : Putting} (hu : s.puts.lookup i = some u) :
    (s.rename i u).Inv := by
  have hput := h.puts i u hu
  have hunder := outside_writeTemp hput.path hput.outside
  have herased := h.erasePut i
  unfold Shared.rename
  simp only
  split
  · exact herased
  · next ino hname =>
      split
      · exact herased
      · have hdest : ¬ Under (cleanPath u.path).1 := hput.outside
        refine ⟨h.layout.rename hname hunder hdest, ?_, h.separate, ?_, h.readers⟩
        · intro j v hv
          have hinv := h.publishes j v hv
          have hin := (h.isTemp hv).under
          refine ⟨(Disk.lookup_rename hunder hdest ino hin).trans hinv.named, hinv.format,
            hinv.whole, ?_⟩
          intro hstage key hkey
          rcases Disk.of_lookup_rename hkey with ⟨_, heq⟩ | hkey
          · exact absurd (h.layout.sides _ _ _ (heq ▸ hinv.named) hname hin) hunder
          · exact hinv.alone hstage key hkey
        · intro j v hv
          have hother := herased.puts j v hv
          refine ⟨hother.outside, hother.path, hother.allocated, ?_⟩
          intro key hkey
          rcases Disk.of_lookup_rename hkey with ⟨rfl, _⟩ | hkey
          · exact hdest
          · exact hother.apart key hkey

theorem Shared.Inv.readEntry (h : s.Inv) {e : ManifestEntry} (he : e ∈ s.committed) :
    s.disk.store.readEntry (manifestPath e.seq) = .ok e := by
  obtain ⟨ino, hname, hino⟩ := h.layout.there e he
  have hget : s.disk.store.get (manifestPath e.seq) = some (.entry e) := by
    unfold LocalStore.get Disk.store
    rw [AssocMap.lookup_withValues, hname, ← hino]
    rfl
  simp [LocalStore.readEntry, hget, h.layout.format e he]

theorem Shared.Inv.read (h : s.Inv) {r : Reading} (hr : s.readers.lookup i = some r)
    (hstep : s.read i r = some t) : t.Inv := by
  obtain ⟨es, rest, hgot, hall, htodo, hsince⟩ := h.readers i r hr
  unfold Shared.read at hstep
  cases rest with
  | nil =>
      rw [htodo] at hstep
      cases hstep
  | cons e rest =>
      rw [htodo, hgot] at hstep
      simp only [List.map_cons] at hstep
      obtain rfl := Option.some.inj hstep
      have hmem : e ∈ r.since := by
        have hsorted : e ∈ inKeyOrder r.since := by
          rw [← hall]
          exact List.mem_append_right _ List.mem_cons_self
        exact (List.mem_insertionSort ByKey).mp hsorted
      refine ⟨h.layout, h.publishes, h.separate, h.puts, ?_⟩
      intro j v hv
      rcases AssocMap.of_lookup_insert hv with ⟨rfl, rfl⟩ | ⟨_, hold⟩
      · refine ⟨es ++ [e], rest, ?_, ?_, rfl, hsince⟩
        · simp only [h.readEntry (hsince.subset hmem)]
          rfl
        · rw [← hall]
          simp
      · exact h.readers j v hold

/-- A quiet directory holds the committed entries. -/
theorem Shared.Inv.holding (h : s.Inv) (hquiet : s.Quiet) :
    Holding s.disk.store s.committed := by
  refine ⟨?_, ?_, h.layout.distinct, h.layout.format⟩
  · intro key c hkey hunder hne
    unfold Disk.store at hkey
    rw [AssocMap.lookup_withValues] at hkey
    obtain ⟨ino, hname, hc⟩ := Option.map_eq_some_iff.mp hkey
    rcases h.layout.only key ino hname ⟨hunder, hne⟩ with ⟨e, he, hkeyEq⟩ | htemp
    · obtain ⟨x, hx, hentry⟩ := h.layout.there e he
      rw [hkeyEq] at hname
      obtain rfl := Option.some.inj (hname.symm.trans hx)
      exact ⟨e, he, hc.symm.trans hentry, hkeyEq⟩
    · rcases htemp with ⟨j, u, hu, _⟩ | ⟨t, ht, _⟩
      · have hmem : j ∈ s.publishes.keys :=
          AList.mem_keys.mp (AList.lookup_isSome.mp (by rw [hu]; rfl))
        rw [hquiet.1] at hmem
        cases hmem
      · rw [hquiet.2] at ht
        cases ht
  · intro e he
    obtain ⟨ino, hname, hino⟩ := h.layout.there e he
    unfold LocalStore.get Disk.store
    rw [AssocMap.lookup_withValues, hname, ← hino]
    rfl

theorem Shared.Inv.list (h : s.Inv) (hquiet : s.Quiet) :
    Shared.Inv { s with
      readers := s.readers.insert i
        ⟨s.committed, s.disk.store.list "catalog/manifest", .ok []⟩ } := by
  refine ⟨h.layout, h.publishes, h.separate, h.puts, ?_⟩
  intro j r hr
  rcases AssocMap.of_lookup_insert hr with ⟨rfl, rfl⟩ | ⟨_, hold⟩
  · exact ⟨[], inKeyOrder s.committed, rfl, rfl, (h.holding hquiet).list_eq, List.prefix_rfl⟩
  · exact h.readers j r hold

theorem Shared.Inv.step {a : SharedAct ι} (h : s.Inv) (hok : sharedOk s a)
    (hstep : sharedStep s a = some t) : t.Inv := by
  cases a with
  | openCas i args seq pid n =>
      simp only [sharedStep] at hstep
      split at hstep
      · cases hstep
      · next hi =>
          rw [Bool.not_eq_true, Option.isSome_eq_false_iff, Option.isNone_iff_eq_none] at hi
          split at hstep
          · obtain rfl := Option.some.inj hstep
            exact h
          · obtain rfl := Option.some.inj hstep
            exact h.openCas hi args seq pid n rfl hok
  | write i =>
      simp only [sharedStep, Option.bind_eq_bind, Option.bind_eq_some_iff] at hstep
      obtain ⟨u, hu, _, hguard, hstep⟩ := hstep
      obtain rfl := Option.some.inj hstep
      exact h.write hu ((Option.guard_eq_some' _).mp hguard)
  | link i =>
      simp only [sharedStep, Option.bind_eq_bind, Option.bind_eq_some_iff] at hstep
      obtain ⟨u, hu, _, hguard, hstep⟩ := hstep
      obtain rfl := Option.some.inj hstep
      have hdest : (cleanPath (manifestPath u.entry.seq)).1 = abs (manifestPath u.entry.seq) := by
        rw [cleanPath]
      exact h.link hu ((Option.guard_eq_some' _).mp hguard) hdest
  | unlink i =>
      simp only [sharedStep, Option.bind_eq_bind, Option.bind_eq_some_iff] at hstep
      obtain ⟨u, hu, _, _, hstep⟩ := hstep
      obtain rfl := Option.some.inj hstep
      exact h.unlink hu
  | stop i =>
      simp only [sharedStep, Option.bind_eq_bind, Option.bind_eq_some_iff] at hstep
      obtain ⟨u, hu, hstep⟩ := hstep
      obtain rfl := Option.some.inj hstep
      exact h.stop hu
  | openPut i path =>
      simp only [sharedStep] at hstep
      split at hstep
      · cases hstep
      · next hi =>
          rw [Bool.or_eq_true, not_or, List.isEmpty_iff] at hi
          split at hstep
          · obtain rfl := Option.some.inj hstep
            exact h
          · obtain rfl := Option.some.inj hstep
            exact h.openPut hi.2 hok rfl
  | writePut i =>
      simp only [sharedStep, Option.bind_eq_bind, Option.bind_eq_some_iff] at hstep
      obtain ⟨u, hu, _, _, hstep⟩ := hstep
      obtain rfl := Option.some.inj hstep
      have hput := h.puts i u hu
      exact (h.fillOutside hput.apart .data).setPut
        ⟨hput.outside, hput.path, hput.allocated, hput.apart⟩
  | rename i =>
      simp only [sharedStep, Option.bind_eq_bind, Option.bind_eq_some_iff] at hstep
      obtain ⟨u, hu, _, _, hstep⟩ := hstep
      obtain rfl := Option.some.inj hstep
      exact h.rename hu
  | stopPut i =>
      simp only [sharedStep, Option.bind_eq_bind, Option.bind_eq_some_iff] at hstep
      obtain ⟨_, _, hstep⟩ := hstep
      obtain rfl := Option.some.inj hstep
      exact h.erasePut i
  | list i =>
      obtain rfl := Option.some.inj hstep
      exact h.list hok
  | read i =>
      simp only [sharedStep, Option.bind_eq_bind, Option.bind_eq_some_iff] at hstep
      obtain ⟨r, hr, hstep⟩ := hstep
      exact h.read hr hstep

theorem Shared.inv_start : (Shared.start : Shared ι).Inv := by
  refine ⟨⟨?_, ?_, ?_, ?_, ?_, ?_, ?_⟩, ?_, ⟨?_, ?_⟩, ?_, ?_⟩ <;>
    simp [Shared.start, Disk.empty, Shared.Temp]

end Step

section Durable

variable {s : Shared ι}

/-- A temporary file is listed among the entries. -/
theorem Shared.Inv.temp_mem_list (h : s.Inv) {tmp : CleanPath} (htemp : s.Temp tmp.1) :
    joined tmp.1 ∈ s.disk.store.list "catalog/manifest" := by
  obtain ⟨hname, hmem⟩ := h.layout.temps tmp.1 htemp
  unfold LocalStore.list
  rw [List.mem_insertionSort, abs_manifestDir]
  refine List.mem_map_of_mem (List.mem_filter.mpr ⟨?_, decide_eq_true hname.under⟩)
  unfold Disk.store
  rw [AssocMap.keys_withValues]
  exact AList.mem_keys.mp hmem

theorem Shared.Inv.quiet_iff (h : s.Inv) :
    s.Quiet ↔ ∀ path ∈ s.disk.store.list "catalog/manifest", ∃ e ∈ s.committed,
      path = manifestPath e.seq ∧ s.disk.store.get path = some (.entry e) := by
  constructor
  · intro hquiet path hpath
    have hheld := h.holding hquiet
    rw [hheld.list_eq] at hpath
    obtain ⟨e, he, heq⟩ := List.mem_map.mp hpath
    have hmem : e ∈ s.committed := (List.mem_insertionSort ByKey).mp he
    rw [← heq]
    exact ⟨e, hmem, rfl, hheld.there e hmem⟩
  · intro hlisted
    have hnone : ∀ tmp : CleanPath, ¬ s.Temp tmp.1 := by
      intro tmp htemp
      obtain ⟨e, _, heq, _⟩ := hlisted _ (h.temp_mem_list htemp)
      have hkey := congrArg abs heq
      rw [abs_joined tmp.2] at hkey
      exact (h.layout.temps _ htemp).1.ne_manifestPath e.seq hkey
    refine ⟨List.eq_nil_iff_forall_not_mem.mpr ?_, List.eq_nil_iff_forall_not_mem.mpr ?_⟩
    · intro i hi
      obtain ⟨u, hu⟩ := Option.isSome_iff_exists.mp (AList.lookup_isSome.mpr
        (AList.mem_keys.mpr hi))
      exact hnone u.tmp (.inl ⟨i, u, hu, rfl⟩)
    · intro t ht
      exact hnone t (.inr ⟨t, ht, rfl⟩)

/-- A load or catch-up whose list is taken in a quiet directory reads the
entries that were committed then, each once and whole, whatever happens between
its reads; a load of a quiet directory folds the committed entries. A directory
is quiet exactly when nothing else than committed entries is listed. -/
theorem local_commit_durable_or_absent {acts : List (SharedAct ι)}
    (run : Run sharedStep sharedOk Shared.start acts s) :
    (∀ i r, s.readers.lookup i = some r → ∃ es rest, r.got = .ok es ∧
        es ++ rest = inKeyOrder r.since ∧ r.todo = rest.map (fun e => manifestPath e.seq) ∧
        r.since <+: s.committed) ∧
      (s.Quiet ↔ ∀ path ∈ s.disk.store.list "catalog/manifest", ∃ e ∈ s.committed,
        path = manifestPath e.seq ∧ s.disk.store.get path = some (.entry e)) ∧
      (s.Quiet → ∃ r, s.disk.store.load = .ok r ∧
        r.index = (inKeyOrder s.committed).foldl applyEntry .empty) := by
  have hinv : s.Inv :=
    run.invariant (fun _ _ _ h hok hstep => h.step hok hstep) Shared.inv_start
  exact ⟨hinv.readers, hinv.quiet_iff, fun hquiet => ⟨_, (hinv.holding hquiet).load, rfl⟩⟩

def sampleFile : FileMeta := ⟨"db", "m", "h", "db/m/data/h/a.parquet", 1, 1, 5, 5⟩

/-- A commit of one file. -/
def sampleArgs : CommitArgs := ⟨[sampleFile], [], [], [], [], false⟩

/-- One commit, a list, and a second commit that stops before its link while
the first entry is read. -/
def calmActs : List (SharedAct Bool) :=
  [.openCas false sampleArgs 1 7 0, .write false, .link false, .unlink false, .list true,
    .openCas false sampleArgs 2 7 1, .write false, .stop false, .read true]

theorem calm_reader_reads :
    ∃ s, Run sharedStep sharedOk Shared.start calmActs s ∧
      ¬ s.Quiet ∧
      ∀ i r, s.readers.lookup i = some r → ∃ es rest, r.got = .ok es ∧
        es ++ rest = inKeyOrder r.since ∧ r.todo = rest.map (fun e => manifestPath e.seq) ∧
        r.since <+: s.committed := by
  obtain ⟨s, run, hquiet⟩ := exists_run_with sharedStep sharedOk
    Shared.start calmActs (fun s => ¬ s.Quiet) (by decide +kernel)
  exact ⟨s, run, hquiet, (local_commit_durable_or_absent run).1⟩

/-- A commit that dies before its write leaves a directory no catalog can load.
One that dies between the link and the removal leaves its entry twice: the load
lists its file two times. -/
theorem stopped_commit_breaks_load :
    (∃ s : Shared Bool, Run sharedStep (fun _ _ => True) Shared.start
        [.openCas false sampleArgs 1 7 0, .stop false] s ∧
      s.committed = [] ∧ s.disk.store.load = .error .invalidData) ∧
    ∃ s : Shared Bool, Run sharedStep (fun _ _ => True) Shared.start
        [.openCas false sampleArgs 1 7 0, .write false, .link false, .stop false] s ∧
      s.committed = [sampleArgs.entry 1] ∧
      ∃ r, s.disk.store.load = .ok r ∧ r.index.files.allFiles = [sampleFile, sampleFile] := by
  refine ⟨?_, ?_⟩
  · obtain ⟨s, run, hnone, hload⟩ := exists_run_with sharedStep (fun _ _ => True)
      Shared.start [.openCas false sampleArgs 1 7 0, .stop false]
      (fun s => s.committed = [] ∧
        s.disk.store.load.map Replica.seq = .error .invalidData) (by decide +kernel)
    refine ⟨s, run, hnone, ?_⟩
    cases hresult : s.disk.store.load with
    | error e =>
        rw [hresult] at hload
        exact congrArg _ (Except.error.inj hload)
    | ok r =>
        rw [hresult] at hload
        cases hload
  · obtain ⟨s, run, hone, hload⟩ := exists_run_with sharedStep (fun _ _ => True)
      Shared.start [.openCas false sampleArgs 1 7 0, .write false, .link false, .stop false]
      (fun s => s.committed = [sampleArgs.entry 1] ∧
        s.disk.store.load.map (fun r => r.index.files.allFiles) = .ok [sampleFile, sampleFile])
      (by decide +kernel)
    refine ⟨s, run, hone, ?_⟩
    cases hresult : s.disk.store.load with
    | error e =>
        rw [hresult] at hload
        cases hload
    | ok r =>
        rw [hresult] at hload
        exact ⟨r, rfl, Except.ok.inj hload⟩

end Durable

end TimeLake.Store
