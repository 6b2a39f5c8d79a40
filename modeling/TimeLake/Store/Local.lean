import TimeLake.Store.Paths
import TimeLake.Catalog.Commit

/-!
`LocalStore` of `crates/store`: a directory tree, of which only the files
matter. A file is named by its segments below the root; `list` walks a
directory and gives the paths back as strings, sorted. `readEntry`, `load` and
`catchUp` are the catalog's own functions over this store, where a file under
`catalog/manifest` may be something else than an entry.

Manifest objects are kept as entries, as in `Catalog`. `serde_json` reads an
entry back from the whole of its text and fails on any shorter piece of it and
on the bytes of a Parquet file.
-/

namespace TimeLake.Store

open TimeLake.Library TimeLake.Catalog

inductive Contents where
  | entry (e : ManifestEntry)
  | torn
  | data
  deriving DecidableEq

/-- Segments `abs` can produce. -/
def Clean (key : AbsPath) : Prop := ∀ segment ∈ key, keepSegment segment = true ∧ '/' ∉ segment

theorem notMem_of_mem_splitOn {x : Char} {l segment : List Char} (h : segment ∈ l.splitOn x) :
    x ∉ segment := by
  induction l generalizing segment with
  | nil =>
      rw [List.splitOn_nil, List.mem_singleton] at h
      simp [h]
  | cons y rest ih =>
      rw [List.splitOn_cons_eq_if_modifyHead] at h
      split at h
      · rcases List.mem_cons.mp h with rfl | h
        · simp
        · exact ih h
      · next hy =>
          cases hrest : rest.splitOn x with
          | nil =>
              rw [hrest] at h
              cases h
          | cons head tail =>
              rw [hrest, List.modifyHead_cons] at h
              rw [hrest] at ih
              rcases List.mem_cons.mp h with rfl | h
              · have hne : x ≠ y := fun heq => hy (by simp [heq])
                have hhead : x ∉ head := ih List.mem_cons_self
                simp [hne, hhead]
              · exact ih (List.mem_cons_of_mem _ h)

theorem clean_abs (path : String) : Clean (abs path) := by
  intro segment hmem
  obtain ⟨hsplit, hkeep⟩ := List.mem_filter.mp hmem
  exact ⟨hkeep, notMem_of_mem_splitOn hsplit⟩

/-- A listed path. -/
def joined (key : AbsPath) : String := String.ofList (['/'].intercalate key)

/-- A listed path names the file it was made from. -/
theorem abs_joined {key : AbsPath} (h : Clean key) : abs (joined key) = key := by
  have hkeep : key.filter keepSegment = key :=
    List.filter_eq_self.mpr fun segment hmem => (h segment hmem).1
  cases key with
  | nil => rfl
  | cons segment rest =>
      rw [abs, joined, String.toList_ofList,
        List.splitOn_intercalate '/' (fun l hl => (h l hl).2) (by simp), hkeep]

/-- Segments of a directory and of what is in it. -/
theorem abs_append (dir rest : String) : abs (dir ++ "/" ++ rest) = abs dir ++ abs rest := by
  have hslash : (dir ++ "/" ++ rest).toList = dir.toList ++ '/' :: rest.toList := by
    have : "/".toList = ['/'] := by decide
    simp [this]
  rw [abs, hslash, List.splitOn_append_cons_self, List.filter_append]
  rfl

structure LocalStore where
  files : AssocMap AbsPath Contents
  clean : ∀ key ∈ files, Clean key

namespace LocalStore

def empty : LocalStore := ⟨∅, by simp⟩

/-- `walk` below a directory, sorted. -/
def list (s : LocalStore) (dir : String) : List String :=
  ((s.files.keys.filter fun key => abs dir <+: key ∧ abs dir ≠ key).map joined).insertionSort
    (· ≤ ·)

def get (s : LocalStore) (path : String) : Option Contents := s.files.lookup (abs path)

def write (s : LocalStore) (path : String) (c : Contents) : LocalStore where
  files := s.files.insert (abs path) c
  clean := by
    intro key hkey
    rcases (AList.mem_insert _).mp hkey with rfl | hkey
    · exact clean_abs path
    · exact s.clean key hkey

/-- `remove_file`. -/
def remove (s : LocalStore) (path : String) : LocalStore where
  files := s.files.erase (abs path)
  clean := by
    intro key hkey
    exact s.clean key (AList.mem_erase.mp hkey).2

/-- A file where the path needs a directory. -/
def fileAbove (s : LocalStore) (path : String) : Bool :=
  s.files.keys.any fun key => key <+: abs path ∧ key ≠ abs path

/-- A directory where the path needs a file. -/
def dirAt (s : LocalStore) (path : String) : Bool :=
  s.files.keys.any fun key => abs path <+: key ∧ key ≠ abs path

/-- `LocalStore::put`, from beginning to end. -/
def put (s : LocalStore) (path : String) (c : Contents) : Except IoError LocalStore :=
  if s.fileAbove path || s.dirAt path then .error .other else .ok (s.write path c)

/-- `LocalStore::put_if_absent`, from beginning to end. -/
def putIfAbsent (s : LocalStore) (path : String) (c : Contents) :
    Except IoError (LocalStore × Bool) :=
  if s.fileAbove path then .error .other
  else if (s.get path).isSome || s.dirAt path then .ok (s, false)
  else .ok (s.write path c, true)

def readEntry (s : LocalStore) (path : String) : Except IoError ManifestEntry :=
  match s.get path with
  | none => .error .notFound
  | some (.entry e) => if e.format > manifestFormatVersion then .error .invalidData else .ok e
  | some .torn | some .data => .error .invalidData

/-- `Catalog::load`. -/
def load (s : LocalStore) : Except IoError Replica :=
  (s.list "catalog/manifest").foldlM (fun r path => do
      let entry ← s.readEntry path
      pure { r with seq := max r.seq entry.seq, index := applyEntry r.index entry })
    Replica.fresh

/-- `catch_up_locked`. -/
def catchUp (s : LocalStore) (r : Replica) : Except IoError Replica := do
  let newer ← (s.list "catalog/manifest").foldlM (fun newer path => do
      let entry ← s.readEntry path
      pure (if entry.seq > r.seq then newer ++ [entry] else newer)) []
  pure (r.catchUp newer)

end LocalStore

section Manifest

/-- The segments of `catalog/manifest`. -/
def manifestDir : AbsPath := ["catalog".toList, "manifest".toList]

theorem abs_manifestDir : abs "catalog/manifest" = manifestDir := by decide +kernel

def manifestFile (seq : Nat) : List Char := padNat 12 seq ++ ".json".toList

theorem manifestPath_eq (seq : Nat) :
    manifestPath seq = "catalog/manifest" ++ "/" ++ String.ofList (manifestFile seq) := by
  have hdir : "catalog/manifest" ++ "/" = "catalog/manifest/" := by decide +kernel
  have hfile : String.ofList (manifestFile seq) = String.ofList (padNat 12 seq) ++ ".json" := by
    unfold manifestFile
    generalize padNat 12 seq = digits
    rw [String.ofList_append, String.ofList_toList]
  unfold manifestPath
  rw [hdir, hfile, String.append_assoc]

/-- A name without a slash, longer than the dots. -/
theorem abs_name {name : List Char} (hslash : '/' ∉ name) (hlen : 2 < name.length) :
    abs (String.ofList name) = [name] := by
  have hne : ∀ dots : List Char, dots.length ≤ 2 → name ≠ dots := by
    rintro dots hdots rfl
    omega
  have hkeep : keepSegment name = true := by
    simp [keepSegment, hne [] (by decide), hne ['.'] (by decide), hne ['.', '.'] (by decide)]
  rw [abs, String.toList_ofList, List.splitOn_eq_singleton hslash]
  simp [hkeep]

theorem slash_notMem_manifestFile (seq : Nat) : '/' ∉ manifestFile seq := by
  have hjson : '/' ∉ ".json".toList := by decide
  have hdigits : '/' ∉ padNat 12 seq := by
    intro h
    have := padNat_isDigit h
    revert this
    decide
  simp only [manifestFile, List.mem_append, not_or]
  exact ⟨hdigits, hjson⟩

theorem abs_manifestPath (seq : Nat) :
    abs (manifestPath seq) = manifestDir ++ [manifestFile seq] := by
  have hlen : 2 < (manifestFile seq).length := by
    have hjson : ".json".toList.length = 5 := by decide
    unfold manifestFile
    rw [List.length_append, hjson]
    omega
  rw [manifestPath_eq, abs_append, abs_manifestDir, abs_name (slash_notMem_manifestFile seq) hlen]

/-- A file of the manifest directory is listed under the directory's name. -/
theorem joined_manifestDir (name : List Char) :
    joined (manifestDir ++ [name]) = "catalog/manifest" ++ "/" ++ String.ofList name := by
  have hdir : String.ofList (['/'].intercalate manifestDir ++ ['/']) =
        "catalog/manifest" ++ "/" := by
    decide +kernel
  have hjoin : ['/'].intercalate (manifestDir ++ [name]) =
      ['/'].intercalate manifestDir ++ ['/'] ++ name := by
    unfold manifestDir
    generalize "catalog".toList = a
    generalize "manifest".toList = b
    simp
  rw [joined, hjoin, String.ofList_append, hdir]

theorem joined_manifestPath (seq : Nat) : joined (abs (manifestPath seq)) = manifestPath seq := by
  rw [abs_manifestPath, joined_manifestDir, manifestPath_eq]

end Manifest

section Holding

/-- Below `catalog/manifest` there are these entries, each at its key, and
nothing else. -/
structure Holding (s : LocalStore) (entries : List ManifestEntry) : Prop where
  only : ∀ key c, s.files.lookup key = some c → manifestDir <+: key → manifestDir ≠ key →
    ∃ e ∈ entries, c = .entry e ∧ key = abs (manifestPath e.seq)
  there : ∀ e ∈ entries, s.get (manifestPath e.seq) = some (.entry e)
  distinct : (entries.map ManifestEntry.seq).Nodup
  format : ∀ e ∈ entries, e.format = manifestFormatVersion

def ByKey (a b : ManifestEntry) : Prop := manifestPath a.seq ≤ manifestPath b.seq

instance : DecidableRel ByKey := fun a b =>
  inferInstanceAs (Decidable (manifestPath a.seq ≤ manifestPath b.seq))

instance : Std.Total ByKey := ⟨fun a b => le_total (manifestPath a.seq) (manifestPath b.seq)⟩

instance : IsTrans ManifestEntry ByKey := ⟨fun _ _ _ hab hbc => le_trans hab hbc⟩

/-- Entries in the order `list` gives their keys. -/
def inKeyOrder (entries : List ManifestEntry) : List ManifestEntry := entries.insertionSort ByKey

theorem prefix_manifestPath (seq : Nat) :
    manifestDir <+: abs (manifestPath seq) ∧ manifestDir ≠ abs (manifestPath seq) := by
  rw [abs_manifestPath]
  exact ⟨List.prefix_append _ _, by simp⟩

variable {s : LocalStore} {entries : List ManifestEntry}

theorem Holding.keys_perm (h : Holding s entries) :
    (s.files.keys.filter fun key => manifestDir <+: key ∧ manifestDir ≠ key).Perm
      (entries.map fun e => abs (manifestPath e.seq)) := by
  have hinj : Function.Injective fun seq => abs (manifestPath seq) := by
    intro a b heq
    have hjoined := congrArg joined heq
    simp only [joined_manifestPath] at hjoined
    exact manifestPath_injective hjoined
  have hnodup : (entries.map fun e => abs (manifestPath e.seq)).Nodup := by
    have hmap := h.distinct.map hinj
    rwa [List.map_map, Function.comp_def] at hmap
  refine (List.perm_ext_iff_of_nodup (s.files.nodupKeys.filter _) hnodup).mpr ?_
  intro key
  rw [List.mem_filter, List.mem_map, decide_eq_true_eq]
  constructor
  · rintro ⟨hkey, hunder, hne⟩
    obtain ⟨c, hc⟩ := Option.isSome_iff_exists.mp (AList.lookup_isSome.mpr hkey)
    obtain ⟨e, he, _, hkey⟩ := h.only key c hc hunder hne
    exact ⟨e, he, hkey.symm⟩
  · rintro ⟨e, he, rfl⟩
    refine ⟨?_, prefix_manifestPath e.seq⟩
    refine AList.lookup_isSome.mp ?_
    have hthere := h.there e he
    rw [LocalStore.get] at hthere
    rw [hthere]
    rfl

theorem Holding.list_eq (h : Holding s entries) :
    s.list "catalog/manifest" = (inKeyOrder entries).map fun e => manifestPath e.seq := by
  have hperm : (s.list "catalog/manifest").Perm
      ((inKeyOrder entries).map fun e => manifestPath e.seq) := by
    refine (List.perm_insertionSort _ _).trans ?_
    rw [abs_manifestDir]
    refine (h.keys_perm.map joined).trans ?_
    rw [List.map_map]
    have hjoined : (joined ∘ fun e : ManifestEntry => abs (manifestPath e.seq)) =
        fun e => manifestPath e.seq := by
      funext e
      exact joined_manifestPath e.seq
    rw [hjoined]
    exact ((List.perm_insertionSort ByKey entries).symm.map _)
  have hsorted : ((inKeyOrder entries).map fun e => manifestPath e.seq).Pairwise (· ≤ ·) := by
    rw [List.pairwise_map]
    exact List.pairwise_insertionSort ByKey entries
  refine hperm.eq_of_pairwise ?_ (List.pairwise_insertionSort _ _) hsorted
  intro a b _ _ hab hba
  exact le_antisymm hab hba

theorem Holding.readEntry (h : Holding s entries) {e : ManifestEntry} (he : e ∈ entries) :
    s.readEntry (manifestPath e.seq) = .ok e := by
  simp [LocalStore.readEntry, h.there e he, h.format e he]

/-- `load` on such a store folds the entries in the order of their keys, each
once. -/
theorem Holding.load (h : Holding s entries) :
    s.load = .ok ⟨(inKeyOrder entries).foldl (fun head e => max head e.seq) 0,
      (inKeyOrder entries).foldl applyEntry .empty, 0⟩ := by
  have hfold : ∀ (es : List ManifestEntry), (∀ e ∈ es, e ∈ entries) → ∀ r : Replica,
      (es.map fun e => manifestPath e.seq).foldlM (fun r path => do
          let entry ← s.readEntry path
          pure { r with seq := max r.seq entry.seq, index := applyEntry r.index entry }) r =
        (.ok ⟨es.foldl (fun head e => max head e.seq) r.seq, es.foldl applyEntry r.index,
          r.commitConflicts⟩ : Except IoError Replica) := by
    intro es
    induction es with
    | nil => exact fun _ _ => rfl
    | cons e rest ih =>
        intro hmem r
        obtain ⟨he, hrest⟩ := List.forall_mem_cons.mp hmem
        rw [List.map_cons, List.foldlM_cons, h.readEntry he]
        exact ih hrest _
  rw [LocalStore.load, h.list_eq]
  exact hfold _ (fun e he => (List.mem_insertionSort ByKey).mp he) Replica.fresh

/-- `catch_up` on such a store folds the entries past the replica's head. -/
theorem Holding.catchUp (h : Holding s entries) (r : Replica) :
    s.catchUp r = .ok (r.catchUp ((inKeyOrder entries).filter fun e => r.seq < e.seq)) := by
  have hfold : ∀ (es : List ManifestEntry), (∀ e ∈ es, e ∈ entries) → ∀ newer,
      (es.map fun e => manifestPath e.seq).foldlM (fun newer path => do
          let entry ← s.readEntry path
          pure (if entry.seq > r.seq then newer ++ [entry] else newer)) newer =
        (.ok (newer ++ es.filter fun e => r.seq < e.seq) :
          Except IoError (List ManifestEntry)) := by
    intro es
    induction es with
    | nil =>
        intro _ newer
        rw [List.filter_nil, List.append_nil]
        rfl
    | cons e rest ih =>
        intro hmem newer
        obtain ⟨he, hrest⟩ := List.forall_mem_cons.mp hmem
        rw [List.map_cons, List.foldlM_cons, h.readEntry he]
        refine (ih hrest _).trans ?_
        by_cases hseq : r.seq < e.seq <;> simp [hseq]
  rw [LocalStore.catchUp, h.list_eq,
    hfold (inKeyOrder entries) (fun e he => (List.mem_insertionSort ByKey).mp he) []]
  rfl

/-- Not a file below `catalog/manifest`. -/
def Outside (path : String) : Prop := ¬ (manifestDir <+: abs path ∧ manifestDir ≠ abs path)

theorem Holding.empty : Holding LocalStore.empty [] := by
  refine ⟨?_, by simp, by simp, by simp⟩
  intro key c hkey
  simp [LocalStore.empty] at hkey

theorem Outside.ne_manifestPath {path : String} (h : Outside path) (seq : Nat) :
    abs (manifestPath seq) ≠ abs path := by
  intro heq
  exact h (heq ▸ prefix_manifestPath seq)

theorem Holding.write_outside (h : Holding s entries) {path : String} (hout : Outside path)
    (c : Contents) : Holding (s.write path c) entries := by
  refine ⟨?_, ?_, h.distinct, h.format⟩
  · intro key c' hkey hunder hne
    have hother : key ≠ abs path := by
      rintro rfl
      exact hout ⟨hunder, hne⟩
    rw [LocalStore.write, AList.lookup_insert_ne hother] at hkey
    exact h.only key c' hkey hunder hne
  · intro e he
    rw [LocalStore.get, LocalStore.write, AList.lookup_insert_ne (hout.ne_manifestPath e.seq)]
    exact h.there e he

theorem Holding.remove_outside (h : Holding s entries) {path : String} (hout : Outside path) :
    Holding (s.remove path) entries := by
  refine ⟨?_, ?_, h.distinct, h.format⟩
  · intro key c hkey hunder hne
    have hother : key ≠ abs path := by
      rintro rfl
      exact hout ⟨hunder, hne⟩
    rw [LocalStore.remove, AList.lookup_erase_ne hother] at hkey
    exact h.only key c hkey hunder hne
  · intro e he
    rw [LocalStore.get, LocalStore.remove, AList.lookup_erase_ne (hout.ne_manifestPath e.seq)]
    exact h.there e he

/-- A new entry at a free key. -/
theorem Holding.write_entry (h : Holding s entries) {e : ManifestEntry}
    (hfree : s.get (manifestPath e.seq) = none) (hformat : e.format = manifestFormatVersion) :
    Holding (s.write (manifestPath e.seq) (.entry e)) (entries ++ [e]) := by
  have hnew : ∀ old ∈ entries, abs (manifestPath old.seq) ≠ abs (manifestPath e.seq) := by
    intro old hold heq
    have hthere := h.there old hold
    rw [LocalStore.get, heq] at hthere
    rw [LocalStore.get, hthere] at hfree
    cases hfree
  refine ⟨?_, ?_, ?_, ?_⟩
  · intro key c hkey hunder hne
    by_cases heq : key = abs (manifestPath e.seq)
    · rw [heq, LocalStore.write, AList.lookup_insert] at hkey
      exact ⟨e, by simp, (Option.some.inj hkey).symm, heq⟩
    · rw [LocalStore.write, AList.lookup_insert_ne heq] at hkey
      obtain ⟨old, hold, hc, hk⟩ := h.only key c hkey hunder hne
      exact ⟨old, List.mem_append_left _ hold, hc, hk⟩
  · intro old hold
    rcases List.mem_append.mp hold with hold | hold
    · rw [LocalStore.get, LocalStore.write, AList.lookup_insert_ne (hnew old hold)]
      exact h.there old hold
    · rw [List.mem_singleton.mp hold, LocalStore.get, LocalStore.write, AList.lookup_insert]
  · rw [List.map_append, List.nodup_append']
    refine ⟨h.distinct, by simp, ?_⟩
    intro seq hseq heq
    obtain ⟨old, hold, rfl⟩ := List.mem_map.mp hseq
    have hsame : old.seq = e.seq := by simpa using heq
    exact hnew old hold (by rw [hsame])
  · intro old hold
    rcases List.mem_append.mp hold with hold | hold
    · exact h.format old hold
    · rw [List.mem_singleton.mp hold]
      exact hformat

end Holding

end TimeLake.Store
