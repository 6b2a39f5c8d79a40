import TimeLake.Library.Decimal

/-!
Where data files go. A flush, a compaction and a tombstone rewrite each build
the path of their output from the table, the partition, the largest timestamp
and the node's own file counter; `LocalStore::abs` then drops the segments that
are empty or dots. Two such paths name one object exactly when all of this
agrees, so the object of a file is identified by its `FileTag`.
-/

namespace TimeLake.Store

open TimeLake.Library

/-- A path below the store's root, segment by segment. -/
abbrev AbsPath := List (List Char)

def keepSegment (segment : List Char) : Bool :=
  !(segment.isEmpty || segment == ['.'] || segment == ['.', '.'])

/-- `LocalStore::abs`. -/
def abs (path : String) : AbsPath :=
  (path.toList.splitOn '/').filter keepSegment

/-- The three kinds of data files, told apart by a prefix of the file name. -/
inductive FileKind where
  | fresh
  | compacted
  | rewritten
  deriving DecidableEq, Repr

def FileKind.mark : FileKind → List Char
  | .fresh => []
  | .compacted => ['c']
  | .rewritten => ['t']

/-- `{max_ts:020}-{seq:06}.parquet` behind the mark of the kind. -/
def fileName (kind : FileKind) (maxTs : Int) (seq : Nat) : List Char :=
  kind.mark ++ (padInt 20 maxTs ++ '-' :: (padNat 6 seq ++ ".parquet".toList))

def partitionDir (db table partition : String) : String :=
  db ++ "/" ++ table ++ "/data/" ++ partition

def dataPath (kind : FileKind) (db table partition : String) (maxTs : Int) (seq : Nat) :
    String :=
  partitionDir db table partition ++ "/" ++ String.ofList (fileName kind maxTs seq)

/-- What decides which object a data file is. -/
structure FileTag where
  dir : AbsPath
  kind : FileKind
  maxTs : Int
  seq : Nat
  deriving DecidableEq

def fileTag (kind : FileKind) (db table partition : String) (maxTs : Int) (seq : Nat) :
    FileTag :=
  ⟨abs (partitionDir db table partition), kind, maxTs, seq⟩

def FileTag.path (tag : FileTag) : AbsPath :=
  tag.dir ++ [fileName tag.kind tag.maxTs tag.seq]

private theorem padInt_char {width : Nat} {x : Int} {ch : Char} (h : ch ∈ padInt width x) :
    ch.isDigit = true ∨ ch = '-' := by
  unfold padInt at h
  split at h
  · rcases List.mem_cons.mp h with rfl | hdigit
    · exact .inr rfl
    · exact .inl (padNat_isDigit hdigit)
  · exact .inl (padNat_isDigit h)

private theorem slash_notMem_fileName (kind : FileKind) (maxTs : Int) (seq : Nat) :
    '/' ∉ fileName kind maxTs seq := by
  have hmark : '/' ∉ kind.mark := by cases kind <;> decide
  have hts : '/' ∉ padInt 20 maxTs := by
    intro h
    rcases padInt_char h with hdigit | heq
    · revert hdigit
      decide
    · revert heq
      decide
  have hseq : '/' ∉ padNat 6 seq := by
    intro h
    have := padNat_isDigit h
    revert this
    decide
  have htail : '/' ∉ ".parquet".toList := by decide
  simp only [fileName, List.mem_append, List.mem_cons, not_or]
  exact ⟨hmark, hts, by decide, hseq, htail⟩

private theorem keepSegment_fileName (kind : FileKind) (maxTs : Int) (seq : Nat) :
    keepSegment (fileName kind maxTs seq) = true := by
  have hlen : 8 < (fileName kind maxTs seq).length := by
    have htail : ".parquet".toList.length = 8 := by decide
    simp only [fileName, List.length_append, List.length_cons, htail]
    omega
  have hne : ∀ s : List Char, s.length ≤ 2 → fileName kind maxTs seq ≠ s := by
    rintro s hs rfl
    omega
  simp [keepSegment, hne [] (by decide), hne ['.'] (by decide), hne ['.', '.'] (by decide)]

/-- The object of a data file. -/
theorem abs_dataPath (kind : FileKind) (db table partition : String) (maxTs : Int) (seq : Nat) :
    abs (dataPath kind db table partition maxTs seq) =
      (fileTag kind db table partition maxTs seq).path := by
  have hslash : "/".toList = ['/'] := by decide
  have hsplit : (dataPath kind db table partition maxTs seq).toList =
      (partitionDir db table partition).toList ++ '/' :: fileName kind maxTs seq := by
    simp [dataPath, hslash]
  rw [abs, hsplit, List.splitOn_append_cons_self, List.filter_append,
    List.splitOn_eq_singleton (slash_notMem_fileName kind maxTs seq)]
  simp [keepSegment_fileName, FileTag.path, fileTag, abs]

/-- Text before and after the last dash. -/
private theorem dash_split {a a' b b' : List Char} (hb : '-' ∉ b) (hb' : '-' ∉ b')
    (h : a ++ '-' :: b = a' ++ '-' :: b') : a = a' ∧ b = b' := by
  rcases List.append_eq_append_iff.mp h with ⟨mid, rfl, hmid⟩ | ⟨mid, rfl, hmid⟩
  · cases mid with
    | nil => exact ⟨(List.append_nil a).symm, (List.cons.inj hmid).2⟩
    | cons c rest =>
        have hin : b = rest ++ '-' :: b' := (List.cons.inj hmid).2
        exact absurd (by rw [hin]; simp) hb
  · cases mid with
    | nil => exact ⟨List.append_nil a', (List.cons.inj hmid).2.symm⟩
    | cons c rest =>
        have hin : b' = rest ++ '-' :: b := (List.cons.inj hmid).2
        exact absurd (by rw [hin]; simp) hb'

private theorem padInt_ne_nil (width : Nat) (x : Int) : padInt width x ≠ [] := by
  unfold padInt
  split
  · simp
  · exact padNat_ne_nil _ _

private theorem mark_eq {kind kind' : FileKind} {a a' : List Char} (ha : a ≠ []) (ha' : a' ≠ [])
    (hhead : ∀ ch ∈ a, ch.isDigit = true ∨ ch = '-')
    (hhead' : ∀ ch ∈ a', ch.isDigit = true ∨ ch = '-')
    (h : kind.mark ++ a = kind'.mark ++ a') : kind = kind' ∧ a = a' := by
  obtain ⟨x, xs, rfl⟩ := List.exists_cons_of_ne_nil ha
  obtain ⟨y, ys, rfl⟩ := List.exists_cons_of_ne_nil ha'
  have hx := hhead x (by simp)
  have hy := hhead' y (by simp)
  have hc : ¬ ('c'.isDigit = true ∨ 'c' = '-') := by decide
  have ht : ¬ ('t'.isDigit = true ∨ 't' = '-') := by decide
  cases kind <;> cases kind' <;> simp only [FileKind.mark, List.nil_append, List.cons_append,
    List.cons.injEq] at h
  · exact ⟨rfl, by rw [h.1, h.2]⟩
  · exact absurd (h.1 ▸ hx) hc
  · exact absurd (h.1 ▸ hx) ht
  · exact absurd (h.1 ▸ hy) hc
  · exact ⟨rfl, by rw [h.2.1, h.2.2]⟩
  · exact absurd h.1 (by decide)
  · exact absurd (h.1 ▸ hy) ht
  · exact absurd h.1 (by decide)
  · exact ⟨rfl, by rw [h.2.1, h.2.2]⟩

theorem fileName_injective {kind kind' : FileKind} {maxTs maxTs' : Int} {seq seq' : Nat}
    (h : fileName kind maxTs seq = fileName kind' maxTs' seq') :
    kind = kind' ∧ maxTs = maxTs' ∧ seq = seq' := by
  have hdash : ∀ n, '-' ∉ padNat 6 n ++ ".parquet".toList := by
    intro n hmem
    rcases List.mem_append.mp hmem with hin | hin
    · have := padNat_isDigit hin
      revert this
      decide
    · revert hin
      decide
  unfold fileName at h
  rw [← List.append_assoc, ← List.append_assoc] at h
  obtain ⟨hleft, hright⟩ := dash_split (hdash seq) (hdash seq') h
  obtain ⟨hkind, hts⟩ := mark_eq (padInt_ne_nil _ _) (padInt_ne_nil _ _)
    (fun _ => padInt_char) (fun _ => padInt_char) hleft
  exact ⟨hkind, padInt_injective 20 hts, padNat_injective 6 (List.append_cancel_right hright)⟩

/-- Different tags are different objects. -/
theorem FileTag.path_injective : Function.Injective FileTag.path := by
  rintro ⟨dir, kind, maxTs, seq⟩ ⟨dir', kind', maxTs', seq'⟩ h
  obtain ⟨hdir, hname⟩ := List.append_inj' h rfl
  obtain ⟨hkind, hts, hseq⟩ := fileName_injective (List.singleton_inj.mp hname)
  simp only [FileTag.mk.injEq]
  exact ⟨hdir, hkind, hts, hseq⟩

end TimeLake.Store
