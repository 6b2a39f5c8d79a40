import TimeLake.Library.Spans
import TimeLake.Library.Fallible
import TimeLake.Library.Stream
import Mathlib.Data.List.Sort
import Mathlib.Data.List.Pairwise

/-!
A Parquet file read through the store in ranges: `StoreFile` and
`StoreRangeReader` of `crates/query`. The store is its `get_range`, with the
text of an error for the error, and the footer is what it says about the column
chunks of a row group. An offset is a natural number: the objects a store holds
end far below 2^64, so nothing wraps inside of one.
-/

namespace TimeLake.Query

open TimeLake.Library

/-- `Store::get_range`. -/
abbrev GetRange := String → Nat → Nat → Except String Bytes

structure StoreFile where
  path : String
  len : Nat
  blocks : List (Nat × Bytes)

/-- A reader that fetches on demand, chunk by chunk. -/
structure StoreRangeReader where
  path : String
  pos : Nat
  stop : Nat
  buf : Bytes
  bufPos : Nat

/-- What `get_read` returns: a cursor into a block, or a reader of the store. -/
inductive Reader where
  | cursor (rest : Bytes)
  | range (r : StoreRangeReader)

section Source

def chunkSize : Nat := 64 <<< 10

def gap : Nat := 64 <<< 10

/-- From the first to the last byte of a row group's column chunks, each given by
its start and its length. -/
def groupSpan (columns : List (Nat × Nat)) : Nat × Nat :=
  columns.foldl (fun s c => (min s.1 c.1, max s.2 (c.1 + c.2))) (2 ^ 64 - 1, 0)

/-- The spans of the kept row groups, sorted; one without a byte is left out. -/
def keptSpans (columns : Nat → List (Nat × Nat)) (keep : List Nat) : List (Nat × Nat) :=
  ((keep.map fun rg => groupSpan (columns rg)).filter fun s => s.1 < s.2).insertionSort
    fun a b => a.1 < b.1 ∨ (a.1 = b.1 ∧ a.2 ≤ b.2)

def StoreFile.withLen (path : String) (len : Nat) : StoreFile := ⟨path, len, []⟩

def fetchSpan (getRange : GetRange) (path : String) (s : Nat × Nat) :
    Except String (Nat × Bytes) :=
  match getRange path s.1 (s.2 - s.1) with
  | .ok bytes => .ok (s.1, bytes)
  | .error e => .error ("store range " ++ path ++ ": " ++ e)

/-- `prefetch_row_groups`: one request for each span that is left when spans at
most `GAP` apart are joined. -/
def StoreFile.prefetchRowGroups (getRange : GetRange) (file : StoreFile)
    (columns : Nat → List (Nat × Nat)) (keep : List Nat) : Except String StoreFile := do
  let fetched ← (coalesce (· + gap) (keptSpans columns keep)).mapM (fetchSpan getRange file.path)
  return { file with blocks := (file.blocks ++ fetched).insertionSort fun a b => a.1 ≤ b.1 }

/-- The prefetched block that contains `start`, and the offset into it. -/
def StoreFile.covering (file : StoreFile) (start : Nat) : Option (Bytes × Nat) :=
  file.blocks.findSome? fun b =>
    if b.1 ≤ start ∧ start < b.1 + b.2.length then some (b.2, start - b.1) else none

def StoreFile.getRead (file : StoreFile) (start : Nat) : Reader :=
  match file.covering start with
  | some (block, off) => .cursor (block.drop off)
  | none => .range { path := file.path, pos := start, stop := file.len, buf := [], bufPos := 0 }

def StoreFile.getBytes (getRange : GetRange) (file : StoreFile) (start length : Nat) :
    Except String Bytes :=
  let fallback := match getRange file.path start length with
    | .ok bytes => .ok bytes
    | .error e => .error ("store range " ++ file.path ++ "[" ++ toString start ++ "+" ++
        toString length ++ "]: " ++ e)
  match file.covering start with
  | some (block, off) =>
      if off + length ≤ block.length then .ok ((block.drop off).take length) else fallback
  | none => fallback

/-- The end of `read`: as many bytes as the buffer holds and the caller takes. -/
def StoreRangeReader.serve (r : StoreRangeReader) (size : Nat) : Bytes × StoreRangeReader :=
  let n := min size (r.buf.length - r.bufPos)
  ((r.buf.drop r.bufPos).take n, { r with bufPos := r.bufPos + n })

/-- `StoreRangeReader::read` into a buffer of `size` bytes. -/
def StoreRangeReader.read (getRange : GetRange) (r : StoreRangeReader) (size : Nat) :
    Except String (Bytes × StoreRangeReader) :=
  if r.buf.length ≤ r.bufPos then
    if r.stop ≤ r.pos then .ok ([], r)
    else do
      let buf ← getRange r.path r.pos (min chunkSize (r.stop - r.pos))
      if buf.isEmpty then return ([], { r with buf := buf, bufPos := 0 })
      else
        return { r with
          buf := buf, bufPos := 0, pos := r.pos + buf.length : StoreRangeReader }.serve size
  else .ok (r.serve size)

/-- `Cursor::read` and `StoreRangeReader::read`. -/
def Reader.read (getRange : GetRange) (size : Nat) : Reader → Except String (Bytes × Reader)
  | .cursor rest => .ok (rest.take size, .cursor (rest.drop size))
  | .range r => (r.read getRange size).map fun p => (p.1, .range p.2)

/-- Reading with one buffer after the other. -/
def Reader.readAll (getRange : GetRange) (r : Reader) :
    List Nat → Except String (Bytes × Reader)
  | [] => .ok ([], r)
  | size :: rest => do
      let (first, r) ← r.read getRange size
      let (more, r) ← r.readAll getRange rest
      return (first ++ more, r)

end Source

section Slices

def slice (object : Bytes) (start length : Nat) : Bytes := (object.drop start).take length

theorem length_slice {object : Bytes} {start length : Nat} (h : start + length ≤ object.length) :
    (slice object start length).length = length := by
  simp [slice]
  omega

theorem slice_add (object : Bytes) (start a b : Nat) :
    slice object start (a + b) = slice object start a ++ slice object (start + a) b := by
  rw [slice, slice, slice, List.take_add, List.drop_drop]

theorem slice_zero (object : Bytes) (start : Nat) : slice object start 0 = [] := by
  simp [slice]

theorem drop_slice (object : Bytes) (start off length : Nat) :
    (slice object start length).drop off = slice object (start + off) (length - off) := by
  rw [slice, slice, List.drop_take, List.drop_drop]

/-- The store returns the bytes asked for, of an object that has them. -/
def ExactStore (getRange : GetRange) (path : String) (object : Bytes) : Prop :=
  ∀ start length, start + length ≤ object.length →
    getRange path start length = .ok (slice object start length)

end Slices

section Reading

variable {getRange : GetRange} {path : String} {object : Bytes}

/-- What a reader has still to give. -/
def Reader.rest (object : Bytes) : Reader → Bytes
  | .cursor rest => rest
  | .range r => r.buf.drop r.bufPos ++ slice object r.pos (r.stop - r.pos)

def Reader.Inside (path : String) (object : Bytes) : Reader → Prop
  | .cursor _ => True
  | .range r => r.path = path ∧ r.stop ≤ object.length

theorem serve_spec (object : Bytes) (r : StoreRangeReader) (size : Nat)
    (hbuf : r.bufPos < r.buf.length) :
    (r.serve size).1 ++ (Reader.range (r.serve size).2).rest object =
        (Reader.range r).rest object ∧ ((r.serve size).1 = [] → size = 0) := by
  unfold StoreRangeReader.serve Reader.rest
  dsimp only
  refine ⟨?_, ?_⟩
  · rw [← List.append_assoc, ← List.drop_drop, List.take_append_drop]
  · intro h
    have hlen := congrArg List.length h
    simp at hlen
    omega

/-- One read gives a piece of what was left, and nothing only to an empty buffer
or at the end. -/
theorem range_read_spec (hexact : ExactStore getRange path object) (r : StoreRangeReader)
    (size : Nat) (hpath : r.path = path) (hstop : r.stop ≤ object.length) :
    ∃ out r', r.read getRange size = .ok (out, r') ∧ (Reader.range r').Inside path object ∧
      out ++ (Reader.range r').rest object = (Reader.range r).rest object ∧
      (out = [] → size = 0 ∨ (Reader.range r).rest object = []) := by
  obtain ⟨own, pos, stop, buf, bufPos⟩ := r
  dsimp only at hpath hstop
  subst hpath
  unfold StoreRangeReader.read
  dsimp only
  by_cases hempty : buf.length ≤ bufPos
  · rw [if_pos hempty]
    have hdrop : buf.drop bufPos = [] := List.drop_eq_nil_of_le hempty
    by_cases hend : stop ≤ pos
    · rw [if_pos hend]
      refine ⟨[], ⟨own, pos, stop, buf, bufPos⟩, rfl, ⟨rfl, hstop⟩, rfl, fun _ => Or.inr ?_⟩
      rw [Reader.rest]
      dsimp only
      rw [hdrop, Nat.sub_eq_zero_of_le hend, slice_zero]
      rfl
    · rw [if_neg hend]
      have hpos : 0 < min chunkSize (stop - pos) := by
        have hchunk : 0 < chunkSize := by decide
        omega
      have hle : min chunkSize (stop - pos) ≤ stop - pos := min_le_right _ _
      generalize min chunkSize (stop - pos) = want at hpos hle
      have hinside : pos + want ≤ object.length := by omega
      have hlen := length_slice hinside
      have hsome : (slice object pos want).isEmpty = false := by
        rw [List.isEmpty_eq_false_iff, ← List.length_pos_iff]
        omega
      rw [hexact pos want hinside]
      simp only [bind, Except.bind, hsome, Bool.false_eq_true, if_false]
      obtain ⟨hsplit, hnone⟩ := serve_spec object
        ⟨own, pos + (slice object pos want).length, stop, slice object pos want, 0⟩ size
        (by dsimp only; omega)
      refine ⟨_, _, rfl, ⟨rfl, hstop⟩, hsplit.trans ?_, fun h => Or.inl (hnone h)⟩
      have hrest : stop - pos = want + (stop - (pos + want)) := by omega
      rw [Reader.rest, Reader.rest]
      dsimp only
      rw [hdrop, hlen, hrest, slice_add, List.drop_zero, List.nil_append]
  · rw [if_neg hempty]
    obtain ⟨hsplit, hnone⟩ := serve_spec object ⟨own, pos, stop, buf, bufPos⟩ size
      (not_le.mp hempty)
    exact ⟨_, _, rfl, ⟨rfl, hstop⟩, hsplit, fun h => Or.inl (hnone h)⟩

theorem read_spec (hexact : ExactStore getRange path object) {r : Reader}
    (hr : r.Inside path object) (size : Nat) :
    ∃ out r', r.read getRange size = .ok (out, r') ∧ r'.Inside path object ∧
      out ++ r'.rest object = r.rest object ∧ (out = [] → size = 0 ∨ r.rest object = []) := by
  cases r with
  | cursor rest =>
      refine ⟨rest.take size, .cursor (rest.drop size), rfl, trivial,
        List.take_append_drop size rest, fun h => ?_⟩
      exact List.take_eq_nil_iff.mp h
  | range r =>
      obtain ⟨out, r', hread, hinside, hsplit, hnone⟩ :=
        range_read_spec hexact r size hr.1 hr.2
      refine ⟨out, .range r', ?_, hinside, hsplit, hnone⟩
      rw [Reader.read, hread]
      rfl

/-- Whatever the sizes of its buffers, a caller gets what the reader has, in
order, and with buffers enough all of it. -/
theorem readAll_spec (hexact : ExactStore getRange path object) (sizes : List Nat) {r : Reader}
    (hr : r.Inside path object) :
    ∃ out r', r.readAll getRange sizes = .ok (out, r') ∧ out ++ r'.rest object = r.rest object ∧
      ((∀ size ∈ sizes, 0 < size) → (r.rest object).length ≤ sizes.length →
        out = r.rest object) := by
  induction sizes generalizing r with
  | nil =>
      refine ⟨[], r, rfl, rfl, fun _ hlen => ?_⟩
      exact (List.eq_nil_of_length_eq_zero (Nat.le_zero.mp hlen)).symm
  | cons size rest ih =>
      obtain ⟨first, r', hread, hinside, hsplit, hnone⟩ := read_spec hexact hr size
      obtain ⟨more, r'', hmore, hsplit', henough⟩ := ih hinside
      refine ⟨first ++ more, r'', ?_, ?_, ?_⟩
      · rw [Reader.readAll, hread]
        simp only [bind, Except.bind, hmore]
        rfl
      · rw [List.append_assoc, hsplit', hsplit]
      · intro hpos hlen
        rw [List.forall_mem_cons] at hpos
        have hlens := congrArg List.length hsplit
        rw [List.length_append] at hlens
        have hrest : (r'.rest object).length ≤ rest.length := by
          by_cases hfirst : first = []
          · have hend := (hnone hfirst).resolve_left (by omega)
            rw [hend, List.length_nil] at hlens
            omega
          · have hsome := List.length_pos_iff.mpr hfirst
            rw [List.length_cons] at hlen
            omega
        rw [henough hpos.2 hrest, hsplit]

/-- A reader that gives these bytes and then no more: in whatever sizes it is
read, what it has given begins them, and enough buffers get all of them. -/
def Yields (getRange : GetRange) (r : Reader) (bytes : Bytes) : Prop :=
  ∀ sizes, ∃ out r', r.readAll getRange sizes = .ok (out, r') ∧ out <+: bytes ∧
    ((∀ size ∈ sizes, 0 < size) → bytes.length ≤ sizes.length → out = bytes)

theorem yields_rest (hexact : ExactStore getRange path object) {r : Reader}
    (hr : r.Inside path object) : Yields getRange r (r.rest object) := by
  intro sizes
  obtain ⟨out, r', hread, hsplit, henough⟩ := readAll_spec hexact sizes hr
  exact ⟨out, r', hread, ⟨_, hsplit⟩, henough⟩

end Reading

section Spans

theorem groupSpan_covers {columns : List (Nat × Nat)} {c : Nat × Nat} (hc : c ∈ columns) :
    (groupSpan columns).1 ≤ c.1 ∧ c.1 + c.2 ≤ (groupSpan columns).2 := by
  have hfold : ∀ (columns : List (Nat × Nat)) (s : Nat × Nat),
      (columns.foldl (fun s c => (min s.1 c.1, max s.2 (c.1 + c.2))) s).1 ≤ s.1 ∧
      s.2 ≤ (columns.foldl (fun s c => (min s.1 c.1, max s.2 (c.1 + c.2))) s).2 ∧
      ∀ c ∈ columns, (columns.foldl (fun s c => (min s.1 c.1, max s.2 (c.1 + c.2))) s).1 ≤ c.1 ∧
        c.1 + c.2 ≤ (columns.foldl (fun s c => (min s.1 c.1, max s.2 (c.1 + c.2))) s).2 := by
    intro columns
    induction columns with
    | nil => simp
    | cons d rest ih =>
        intro s
        obtain ⟨hlo, hhi, hall⟩ := ih (min s.1 d.1, max s.2 (d.1 + d.2))
        rw [List.foldl_cons, List.forall_mem_cons]
        dsimp only at hlo hhi
        exact ⟨by omega, by omega, ⟨by omega, by omega⟩, hall⟩
  exact (hfold columns _).2.2 c hc

theorem groupSpan_end {columns : List (Nat × Nat)} {n : Nat}
    (h : ∀ c ∈ columns, c.1 + c.2 ≤ n) : (groupSpan columns).2 ≤ n := by
  unfold groupSpan
  generalize hs : ((2 ^ 64 - 1, 0) : Nat × Nat) = s
  have hstart : s.2 ≤ n := by
    rw [← hs]
    exact Nat.zero_le n
  clear hs
  induction columns generalizing s with
  | nil => exact hstart
  | cons c rest ih =>
      rw [List.forall_mem_cons] at h
      exact ih h.2 _ (max_le hstart h.1)

theorem keptSpans_sorted (columns : Nat → List (Nat × Nat)) (keep : List Nat) :
    (keptSpans columns keep).Pairwise fun a b => a.1 ≤ b.1 := by
  have htotal : Std.Total fun a b : Nat × Nat => a.1 < b.1 ∨ (a.1 = b.1 ∧ a.2 ≤ b.2) :=
    ⟨fun a b => by omega⟩
  have htrans : IsTrans (Nat × Nat) fun a b => a.1 < b.1 ∨ (a.1 = b.1 ∧ a.2 ≤ b.2) :=
    ⟨fun a b c => by omega⟩
  refine (List.pairwise_insertionSort _ _).imp ?_
  intro a b h
  omega

theorem mem_keptSpans {columns : Nat → List (Nat × Nat)} {keep : List Nat} {s : Nat × Nat} :
    s ∈ keptSpans columns keep ↔ (∃ rg ∈ keep, groupSpan (columns rg) = s) ∧ s.1 < s.2 := by
  simp [keptSpans]

end Spans

section Blocks

variable {getRange : GetRange} {path : String} {object : Bytes} {file : StoreFile}

/-- Blocks that hold the object's bytes at their places, in order, each further
from those before than a gap that is bridged. -/
structure Prefetched (object : Bytes) (file : StoreFile) : Prop where
  inside : ∀ b ∈ file.blocks, b.1 + b.2.length ≤ object.length
  exact : ∀ b ∈ file.blocks, b.2 = slice object b.1 b.2.length
  apart : file.blocks.Pairwise fun a b => a.1 + a.2.length + gap < b.1

def InBlock (b : Nat × Bytes) (start : Nat) : Prop := b.1 ≤ start ∧ start < b.1 + b.2.length

theorem Prefetched.unique (h : Prefetched object file) {b b' : Nat × Bytes} {start : Nat}
    (hb : b ∈ file.blocks) (hb' : b' ∈ file.blocks) (hstart : InBlock b start)
    (hstart' : InBlock b' start) : b = b' := by
  have hsymm : Std.Symm fun x y : Nat × Bytes => InBlock x start → InBlock y start → x = y :=
    ⟨fun x y hxy hy hx => (hxy hx hy).symm⟩
  have hpairs : file.blocks.Pairwise fun x y => InBlock x start → InBlock y start → x = y := by
    refine h.apart.imp ?_
    intro x y hfar hx hy
    unfold InBlock at hx hy
    omega
  exact List.Pairwise.forall_of_forall (fun _ _ _ _ => rfl) hpairs hb hb' hstart hstart'

theorem covering_eq_some {start off : Nat} {block : Bytes}
    (h : file.covering start = some (block, off)) :
    ∃ b ∈ file.blocks, InBlock b start ∧ block = b.2 ∧ off = start - b.1 := by
  obtain ⟨b, hb, hfound⟩ := List.exists_of_findSome?_eq_some h
  by_cases hin : b.1 ≤ start ∧ start < b.1 + b.2.length
  · rw [if_pos hin] at hfound
    obtain ⟨rfl, rfl⟩ := Prod.mk.inj (Option.some.inj hfound)
    exact ⟨b, hb, hin, rfl, rfl⟩
  · rw [if_neg hin] at hfound
    cases hfound

theorem covering_eq_none {start : Nat} :
    file.covering start = none ↔ ∀ b ∈ file.blocks, ¬ InBlock b start := by
  unfold StoreFile.covering
  rw [List.findSome?_eq_none_iff]
  simp only [ite_eq_right_iff, reduceCtorEq, imp_false, InBlock]

theorem Prefetched.covering (h : Prefetched object file) {b : Nat × Bytes} {start : Nat}
    (hb : b ∈ file.blocks) (hstart : InBlock b start) :
    file.covering start = some (b.2, start - b.1) := by
  cases hcover : file.covering start with
  | none => exact absurd hstart (covering_eq_none.mp hcover b hb)
  | some found =>
      obtain ⟨block, off⟩ := found
      obtain ⟨b', hb', hstart', rfl, rfl⟩ := covering_eq_some hcover
      rw [h.unique hb hb' hstart hstart']

/-- A block from a place in it on is the object from there to the block's end. -/
theorem Prefetched.drop_block (h : Prefetched object file) {b : Nat × Bytes} {start : Nat}
    (hb : b ∈ file.blocks) (hstart : b.1 ≤ start) :
    b.2.drop (start - b.1) = slice object start (b.1 + b.2.length - start) := by
  calc b.2.drop (start - b.1)
      = (slice object b.1 b.2.length).drop (start - b.1) := by rw [← h.exact b hb]
    _ = slice object start (b.1 + b.2.length - start) := by
        rw [drop_slice]
        congr 1 <;> omega

/-- Bytes that lie in one block are read as they are in the object. -/
theorem Prefetched.read_block (h : Prefetched object file)
    (hexact : ExactStore getRange path object) {b : Nat × Bytes} {start length : Nat}
    (hb : b ∈ file.blocks) (hstart : InBlock b start)
    (hend : start + length ≤ b.1 + b.2.length) :
    file.getBytes getRange start length = .ok (slice object start length) ∧
      ∃ tail, Yields getRange (file.getRead start) (slice object start length ++ tail) := by
  have hcover := h.covering hb hstart
  have hblock := h.drop_block hb hstart.1
  have hsplit : b.1 + b.2.length - start = length + (b.1 + b.2.length - start - length) := by omega
  rw [hsplit, slice_add] at hblock
  have hlen : (slice object start length).length = length := by
    have hinside := h.inside b hb
    exact length_slice (by omega)
  refine ⟨?_, slice object (start + length) (b.1 + b.2.length - start - length), ?_⟩
  · unfold StoreFile.getBytes
    have hfit : start - b.1 + length ≤ b.2.length := by
      have hbegin := hstart.1
      omega
    rw [hcover]
    dsimp only
    rw [if_pos hfit, hblock, List.take_left' hlen]
  · have hread : file.getRead start = .cursor (b.2.drop (start - b.1)) := by
      rw [StoreFile.getRead, hcover]
    have hinside : (Reader.cursor (b.2.drop (start - b.1))).Inside path object := trivial
    rw [hread, ← hblock]
    exact yields_rest hexact hinside

theorem getRead_inside (hpath : file.path = path) (hlen : file.len ≤ object.length)
    (start : Nat) : (file.getRead start).Inside path object := by
  unfold StoreFile.getRead
  cases file.covering start with
  | none => exact ⟨hpath, hlen⟩
  | some found => trivial

/-- A read of no bytes gives none, wherever it begins. -/
theorem read_empty (hexact : ExactStore getRange path object) (hpath : file.path = path)
    (hlen : file.len ≤ object.length) {start : Nat} (hstart : start ≤ object.length) :
    file.getBytes getRange start 0 = .ok [] ∧
      ∃ tail, Yields getRange (file.getRead start) tail := by
  refine ⟨?_, _, yields_rest hexact (getRead_inside hpath hlen start)⟩
  have hrange : getRange file.path start 0 = .ok [] := by
    rw [hpath, hexact start 0 hstart, slice_zero]
  unfold StoreFile.getBytes
  rw [hrange]
  cases file.covering start with
  | none => rfl
  | some found =>
      dsimp only
      rw [List.take_zero, ite_self]

/-- Outside the blocks the reader goes to the store, up to the recorded length. -/
theorem read_outside (hexact : ExactStore getRange path object) (hpath : file.path = path)
    (hlen : file.len ≤ object.length) {start : Nat}
    (hout : ∀ b ∈ file.blocks, ¬ InBlock b start) :
    Yields getRange (file.getRead start) (slice object start (file.len - start)) := by
  have hread := yields_rest hexact (getRead_inside hpath hlen start)
  have hrest : (file.getRead start).rest object = slice object start (file.len - start) := by
    rw [StoreFile.getRead, covering_eq_none.mpr hout]
    rfl
  rw [hrest] at hread
  exact hread

end Blocks

section Prefetch

variable {getRange : GetRange} {path : String} {object : Bytes}
  {columns : Nat → List (Nat × Nat)} {keep : List Nat}

/-- The spans that are fetched have bytes and end inside the object. -/
theorem fetched_inside
    (hinside : ∀ rg ∈ keep, ∀ c ∈ columns rg, c.1 + c.2 ≤ object.length) :
    ∀ s ∈ coalesce (· + gap) (keptSpans columns keep), s.1 < s.2 ∧ s.2 ≤ object.length := by
  refine coalesce_forall ?_ ?_
  · intro a b ha hb
    exact ⟨lt_max_of_lt_left ha.1, max_le ha.2 hb.2⟩
  · intro s hs
    obtain ⟨⟨rg, hrg, rfl⟩, hlt⟩ := mem_keptSpans.mp hs
    exact ⟨hlt, groupSpan_end (hinside rg hrg)⟩

def blockOf (object : Bytes) (s : Nat × Nat) : Nat × Bytes := (s.1, slice object s.1 (s.2 - s.1))

theorem blockOf_end {s : Nat × Nat} (hlt : s.1 < s.2) (hend : s.2 ≤ object.length) :
    (blockOf object s).1 + (blockOf object s).2.length = s.2 := by
  unfold blockOf
  dsimp only
  rw [length_slice (by omega)]
  omega

/-- The first call of `prefetch_row_groups` on a file fetches the joined spans. -/
theorem prefetch_spec (hexact : ExactStore getRange path object) (len : Nat)
    (hinside : ∀ rg ∈ keep, ∀ c ∈ columns rg, c.1 + c.2 ≤ object.length) :
    (StoreFile.withLen path len).prefetchRowGroups getRange columns keep =
      .ok ⟨path, len, (coalesce (· + gap) (keptSpans columns keep)).map (blockOf object)⟩ := by
  have hspans := fetched_inside hinside
  have hfetch : (coalesce (· + gap) (keptSpans columns keep)).mapM (fetchSpan getRange path) =
      .ok ((coalesce (· + gap) (keptSpans columns keep)).map (blockOf object)) := by
    rw [mapM_eq_ok, List.forall₂_map_right_iff, List.forall₂_same]
    intro s hs
    obtain ⟨hlt, hend⟩ := hspans s hs
    rw [fetchSpan, hexact s.1 (s.2 - s.1) (by omega)]
    rfl
  have hsorted : ((coalesce (· + gap) (keptSpans columns keep)).map (blockOf object)).Pairwise
      fun a b => a.1 ≤ b.1 := by
    rw [List.pairwise_map]
    refine (coalesce_separated (keptSpans_sorted columns keep)).imp_of_mem ?_
    intro a b ha _ hfar
    have hlt := (hspans a ha).1
    unfold blockOf
    dsimp only
    omega
  unfold StoreFile.prefetchRowGroups StoreFile.withLen
  dsimp only
  rw [hfetch]
  simp only [bind, Except.bind, List.nil_append]
  rw [hsorted.insertionSort_eq]
  rfl

theorem prefetched (path : String) (len : Nat)
    (hinside : ∀ rg ∈ keep, ∀ c ∈ columns rg, c.1 + c.2 ≤ object.length) :
    Prefetched object
      ⟨path, len, (coalesce (· + gap) (keptSpans columns keep)).map (blockOf object)⟩ := by
  have hspans := fetched_inside hinside
  refine ⟨?_, ?_, ?_⟩
  · intro b hb
    obtain ⟨s, hs, rfl⟩ := List.mem_map.mp hb
    obtain ⟨hlt, hend⟩ := hspans s hs
    rw [blockOf_end hlt hend]
    exact hend
  · intro b hb
    obtain ⟨s, hs, rfl⟩ := List.mem_map.mp hb
    obtain ⟨hlt, hend⟩ := hspans s hs
    unfold blockOf
    dsimp only
    rw [length_slice (by omega)]
  · rw [List.pairwise_map]
    refine (coalesce_separated (keptSpans_sorted columns keep)).imp_of_mem ?_
    intro a b ha _ hfar
    obtain ⟨hlt, hend⟩ := hspans a ha
    rw [blockOf_end hlt hend]
    exact hfar

/-- A column chunk of a row group with a byte to fetch lies in one block. -/
theorem chunk_in_block (path : String) (len : Nat)
    (hinside : ∀ rg ∈ keep, ∀ c ∈ columns rg, c.1 + c.2 ≤ object.length) {rg : Nat}
    (hrg : rg ∈ keep) (hbytes : ∃ c ∈ columns rg, ∃ d ∈ columns rg, c.1 < d.1 + d.2)
    {c : Nat × Nat} (hc : c ∈ columns rg) :
    ∃ b ∈ (⟨path, len, (coalesce (· + gap) (keptSpans columns keep)).map (blockOf object)⟩ :
      StoreFile).blocks, b.1 ≤ c.1 ∧ c.1 + c.2 ≤ b.1 + b.2.length := by
  have hkept : groupSpan (columns rg) ∈ keptSpans columns keep := by
    obtain ⟨first, hfirst, last, hlast, hlt⟩ := hbytes
    have hbegin := (groupSpan_covers hfirst).1
    have hend := (groupSpan_covers hlast).2
    exact mem_keptSpans.mpr ⟨⟨rg, hrg, rfl⟩, by omega⟩
  obtain ⟨m, hm, hbegin, hend⟩ := coalesce_covers (keptSpans_sorted columns keep) hkept
  obtain ⟨hlt, hobject⟩ := fetched_inside hinside m hm
  obtain ⟨hlo, hhi⟩ := groupSpan_covers hc
  refine ⟨blockOf object m, List.mem_map_of_mem hm, ?_, ?_⟩
  · exact hbegin.trans hlo
  · rw [blockOf_end hlt hobject]
    exact hhi.trans hend

end Prefetch

/-- Over a store that returns the bytes asked for, the first prefetch of a file
gives blocks in order and apart, in one of which each column chunk of a kept row
group lies, unless nothing of the group is to be fetched. What lies in a kept
chunk is read from the file as it is in the object, and a read from outside the
blocks gives the object up to the recorded length. -/
theorem prefetched_reads_exact (getRange : GetRange) (path : String) (object : Bytes) (len : Nat)
    (columns : Nat → List (Nat × Nat)) (keep : List Nat)
    (hexact : ExactStore getRange path object) (hlen : len ≤ object.length)
    (hinside : ∀ rg ∈ keep, ∀ c ∈ columns rg, c.1 + c.2 ≤ object.length) :
    ∃ file, (StoreFile.withLen path len).prefetchRowGroups getRange columns keep = .ok file ∧
      (file.blocks.Pairwise fun a b => a.1 + a.2.length < b.1) ∧
      (∀ rg ∈ keep, (∃ c ∈ columns rg, ∃ d ∈ columns rg, c.1 < d.1 + d.2) → ∀ c ∈ columns rg,
        ∃ b ∈ file.blocks, b.1 ≤ c.1 ∧ c.1 + c.2 ≤ b.1 + b.2.length) ∧
      (∀ rg ∈ keep, ∀ c ∈ columns rg, ∀ start length, c.1 ≤ start →
        start + length ≤ c.1 + c.2 →
        file.getBytes getRange start length = .ok (slice object start length) ∧
        ∃ tail, Yields getRange (file.getRead start) (slice object start length ++ tail)) ∧
      (∀ start, (∀ b ∈ file.blocks, ¬ InBlock b start) →
        Yields getRange (file.getRead start) (slice object start (len - start))) := by
  have hfile := prefetched path len hinside
  refine ⟨_, prefetch_spec hexact len hinside, ?_, ?_, ?_, ?_⟩
  · exact hfile.apart.imp fun h => by omega
  · exact fun rg hrg hbytes c hc => chunk_in_block path len hinside hrg hbytes hc
  · intro rg hrg c hc start length hbegin hend
    by_cases hempty : length = 0
    · subst hempty
      have hend' := hinside rg hrg c hc
      rw [slice_zero]
      exact read_empty hexact rfl hlen (by omega)
    · obtain ⟨b, hb, hlo, hhi⟩ := chunk_in_block path len hinside hrg
        ⟨c, hc, c, hc, by omega⟩ hc
      exact hfile.read_block hexact hb ⟨by omega, by omega⟩ (by omega)
  · exact fun start hout => read_outside hexact rfl hlen hout

/-- A store of one object. -/
def storeOf (object : Bytes) : GetRange := fun _ start length => .ok (slice object start length)

/-- Two chunks of a row group, the second in front of the first. -/
theorem two_chunks_read :
    ∃ file, (StoreFile.withLen "p" 8).prefetchRowGroups (storeOf [1, 2, 3, 4, 5, 6, 7, 8])
        (fun _ => [(5, 2), (2, 3)]) [0] = .ok file ∧
      file.getBytes (storeOf [1, 2, 3, 4, 5, 6, 7, 8]) 5 2 = .ok [6, 7] := by
  obtain ⟨file, hfile, -, -, hread, -⟩ := prefetched_reads_exact (storeOf [1, 2, 3, 4, 5, 6, 7, 8])
    "p" [1, 2, 3, 4, 5, 6, 7, 8] 8 (fun _ => [(5, 2), (2, 3)]) [0] (fun _ _ _ => rfl) (by decide)
    (by decide)
  exact ⟨file, hfile, (hread 0 (by decide) (5, 2) (by decide) 5 2 (by decide) (by decide)).1⟩

/-- A row group whose only chunk is empty: nothing is fetched, and the chunk lies
in no block. -/
theorem empty_chunk_in_no_block :
    ∃ file, (StoreFile.withLen "p" 8).prefetchRowGroups (storeOf [1, 2, 3, 4, 5, 6, 7, 8])
        (fun _ => [(4, 0)]) [0] = .ok file ∧
      (4 + 0 ≤ 8 ∧ ¬ ∃ b ∈ file.blocks, b.1 ≤ 4 ∧ 4 + 0 ≤ b.1 + b.2.length) :=
  ⟨⟨"p", 8, []⟩, rfl, by decide⟩

end TimeLake.Query
