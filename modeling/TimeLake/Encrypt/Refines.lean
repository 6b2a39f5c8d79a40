import TimeLake.Encrypt.Contract

/-!
The encrypting store against the store it wraps. `Simulates` relates the two:
alike but for the bytes, every object either untouched from before or sealed under
the path that names it, and every cached header the one its object has. Each call
keeps it and answers as the plain store does, as long as the wrapped store keeps its
contract for the paths: the path is part of what the chunks are authenticated with, and
the cache knows a header by the path it was read under.
-/

namespace TimeLake.Encrypt

open TimeLake.Library TimeLake.Store
open TimeLake.Catalog (IoError)

section Chunks

variable {Key : Type} {aead : ChunkAead Key} {dek : Key} {noncePrefix aad : Bytes}

theorem openFrom_sealFrom (i : Nat) (pieces : List Bytes) :
    openFrom aead dek noncePrefix aad i (sealFrom aead dek noncePrefix aad i pieces) =
      .ok pieces.flatten := by
  induction pieces generalizing i with
  | nil => rfl
  | cons piece rest ih =>
      simp only [sealFrom, openFrom, aead.decrypt_encrypt, ih, List.flatten_cons]
      rfl

theorem length_flatten_sealFrom (i : Nat) (pieces : List Bytes) :
    (sealFrom aead dek noncePrefix aad i pieces).flatten.length =
      pieces.flatten.length + pieces.length * 16 := by
  induction pieces generalizing i with
  | nil => rfl
  | cons piece rest ih =>
      rw [sealFrom, List.flatten_cons, List.length_append, ih, aead.length_encrypt,
        List.flatten_cons, List.length_append, List.length_cons]
      omega

theorem regular_sealFrom {n : Nat} (i : Nat) {pieces : List Bytes} (h : Regular n pieces) :
    Regular (n + tagLen) (sealFrom aead dek noncePrefix aad i pieces) := by
  induction pieces generalizing i with
  | nil => exact trivial
  | cons piece rest ih =>
      cases rest with
      | nil =>
          have hlen := aead.length_encrypt dek (chunkNonce noncePrefix i) aad piece
          have hpiece := h.2
          refine ⟨?_, ?_⟩
          · rw [hlen]
            omega
          · rw [hlen, tagLen]
            omega
      | cons next rest =>
          refine ⟨?_, ih (i + 1) h.2⟩
          rw [aead.length_encrypt, h.1, tagLen]

theorem sealFrom_drop (i k : Nat) (pieces : List Bytes) :
    (sealFrom aead dek noncePrefix aad i pieces).drop k =
      sealFrom aead dek noncePrefix aad (i + k) (pieces.drop k) := by
  induction k generalizing i pieces with
  | zero => rfl
  | succ k ih =>
      cases pieces with
      | nil => rfl
      | cons piece rest =>
          rw [sealFrom, List.drop_succ_cons, ih, List.drop_succ_cons, Nat.add_right_comm,
            Nat.add_assoc]

theorem sealFrom_take (i k : Nat) (pieces : List Bytes) :
    (sealFrom aead dek noncePrefix aad i pieces).take k =
      sealFrom aead dek noncePrefix aad i (pieces.take k) := by
  induction k generalizing i pieces with
  | zero => rfl
  | succ k ih =>
      cases pieces with
      | nil => rfl
      | cons piece rest => rw [sealFrom, List.take_succ_cons, ih, List.take_succ_cons, sealFrom]

end Chunks

section Header

variable {Key : Type} {aead : ChunkAead Key} {kms : Kms Key}

theorem slice_append {pre field post : Bytes} {k n : Nat} (hpre : pre.length = k)
    (hfield : field.length = n) : ((pre ++ (field ++ post)).drop k).take n = field := by
  rw [← hpre, List.drop_left, ← hfield, List.take_left]

theorem slice_take {bytes : Bytes} {a n k : Nat} (h : a + n ≤ k) :
    ((bytes.take k).drop a).take n = (bytes.drop a).take n := by
  rw [List.drop_take, List.take_take, Nat.min_eq_left (by omega)]

/-- What goes into a header, within the limits of the reader. -/
structure Layout (kms : Kms Key) (size plen : Nat) (noncePrefix wrapped : Bytes) (dek : Key) :
    Prop where
  size_pos : 0 < size
  size_lt : size < 2 ^ 32
  plen_lt : plen < 2 ^ 64
  nonce : noncePrefix.length = 8
  wrapped_pos : 0 < wrapped.length
  wrapped_le : wrapped.length ≤ maxWrap
  unwrap : kms.unwrap wrapped = some dek

section Layout

variable {size plen : Nat} {noncePrefix wrapped : Bytes} {dek : Key}

theorem length_fixedFields (size plen : Nat) (hnonce : noncePrefix.length = 8) :
    (fixedFields size plen noncePrefix).length = fixedLen := by
  have hmagic : objectMagic.length = 8 := rfl
  simp [fixedFields, hmagic, hnonce, fixedLen]

/-- The fields of an object, where the reader looks for them. -/
theorem Layout.fields (h : Layout kms size plen noncePrefix wrapped dek) (body : Bytes)
    {out : Bytes}
    (hout : out = fixedFields size plen noncePrefix ++
        (leBytes 2 wrapped.length ++ (wrapped ++ body))) :
    (out.take 8 = objectMagic ∧ (out.drop 8).take 4 = leBytes 4 size ∧
      (out.drop 12).take 8 = leBytes 8 plen ∧ (out.drop 20).take 8 = noncePrefix) ∧
    out.take fixedLen = fixedFields size plen noncePrefix ∧
      (out.drop fixedLen).take wrapLenLen = leBytes 2 wrapped.length ∧
      (out.drop (fixedLen + wrapLenLen)).take wrapped.length = wrapped := by
  have hlen := length_fixedFields size plen h.nonce
  have hmagic : objectMagic.length = 8 := rfl
  subst hout
  refine ⟨⟨?_, ?_, ?_, ?_⟩, List.take_left' hlen, slice_append hlen (length_leBytes _ _), ?_⟩
  · rw [fixedFields, List.append_assoc]
    exact List.take_left' hmagic
  · rw [fixedFields, List.append_assoc, List.append_assoc]
    exact slice_append hmagic (length_leBytes _ _)
  · rw [fixedFields, ← List.append_assoc objectMagic, List.append_assoc, List.append_assoc]
    exact slice_append (by simp) (length_leBytes _ _)
  · rw [fixedFields, ← List.append_assoc (leBytes 4 size), ← List.append_assoc objectMagic,
      List.append_assoc]
    exact slice_append (by simp [hmagic]) h.nonce
  · rw [← List.append_assoc]
    exact slice_append (by rw [List.length_append, hlen, length_leBytes, wrapLenLen]) rfl

/-- The header is read from any piece of the object that has it whole, and a
shorter piece asks for more. -/
theorem Layout.parse_take (h : Layout kms size plen noncePrefix wrapped dek) (body : Bytes)
    {out : Bytes}
    (hout : out = fixedFields size plen noncePrefix ++
        (leBytes 2 wrapped.length ++ (wrapped ++ body)))
    {k : Nat} (hk : fixedLen + wrapLenLen ≤ k) :
    parseHeader kms (out.take k) =
      .ok (if k < fixedLen + wrapLenLen + wrapped.length then none
        else some (.encrypted size plen (fixedLen + wrapLenLen + wrapped.length)
          (fixedFields size plen noncePrefix) noncePrefix dek)) := by
  obtain ⟨⟨h8, hsize, hplen, hprefix⟩, hfixed, hwl, hkey⟩ := h.fields body hout
  have hlen : fixedLen + wrapLenLen + wrapped.length ≤ out.length := by
    rw [hout, List.length_append, length_fixedFields size plen h.nonce,
      List.length_append, length_leBytes,
      List.length_append, wrapLenLen]
    omega
  have hk' : 30 ≤ k := hk
  have hlong : ¬((out.take k).length < fixedLen + wrapLenLen ∨
      (out.take k).take 8 ≠ objectMagic) := by
    rw [List.take_take, Nat.min_eq_left (by omega), h8, List.length_take]
    simp only [ne_eq, not_true_eq_false, or_false]
    omega
  have hsize' : ofLe (((out.take k).drop 8).take 4) = size := by
    rw [slice_take (by omega), hsize, ofLe_leBytes h.size_lt]
  have hplen' : ofLe (((out.take k).drop 12).take 8) = plen := by
    rw [slice_take (by omega), hplen, ofLe_leBytes h.plen_lt]
  have hprefix' : ((out.take k).drop 20).take 8 = noncePrefix := by
    rw [slice_take (by omega), hprefix]
  have hwl' : ofLe (((out.take k).drop fixedLen).take wrapLenLen) = wrapped.length := by
    have hle := h.wrapped_le
    rw [maxWrap] at hle
    rw [slice_take hk, hwl, ofLe_leBytes (by omega)]
  have hgood : ¬(size = 0 ∨ wrapped.length = 0 ∨ maxWrap < wrapped.length) := by
    have := h.size_pos
    have := h.wrapped_pos
    have := h.wrapped_le
    omega
  rw [parseHeader, if_neg hlong]
  simp only [hsize', hplen', hprefix', hwl', if_neg hgood]
  by_cases hcut : k < fixedLen + wrapLenLen + wrapped.length
  · rw [if_pos hcut, if_pos]
    rw [List.length_take]
    omega
  · have hwhole : ¬(out.take k).length < fixedLen + wrapLenLen + wrapped.length := by
      rw [List.length_take]
      omega
    rw [if_neg hcut, if_neg hwhole, slice_take (by omega), hkey, h.unwrap, List.take_take,
      Nat.min_eq_left (by omega), hfixed]

end Layout

/-- An object as `seal` makes it for a path. -/
def SealedAs (aead : ChunkAead Key) (kms : Kms Key) (path : String) (bytes out : Bytes)
    (h : ObjHeader Key) : Prop :=
  bytes.length < 2 ^ 62 ∧
    ∃ i, out = sealedBytes aead kms i path bytes ∧ h = sealedHeader kms i bytes

theorem sealObject_eq (i : Nat) (path : String) (bytes : Bytes) :
    sealObject aead kms i path bytes =
      .ok (sealedBytes aead kms i path bytes, sealedHeader kms i bytes) :=
  if_neg (Nat.not_lt.mpr (kms.wrapped_le i))

/-- A sealed object is a header and a body, and its header is what is cached. -/
theorem SealedAs.parts {path : String} {bytes out : Bytes} {h : ObjHeader Key}
    (hs : SealedAs aead kms path bytes out h) :
    ∃ headerLen aadFixed noncePrefix dek,
      h = .encrypted chunkSize bytes.length headerLen aadFixed noncePrefix dek ∧
      out.drop headerLen = (sealFrom aead dek noncePrefix (chunkAad aadFixed path) 0
        (chunks chunkSize bytes)).flatten ∧
      fixedLen + wrapLenLen ≤ headerLen ∧ headerLen ≤ fixedLen + wrapLenLen + maxWrap ∧
      headerLen ≤ out.length ∧
      ∀ k, fixedLen + wrapLenLen ≤ k → parseHeader kms (out.take k) =
        .ok (if k < headerLen then none else some h) := by
  obtain ⟨hshort, i, hout, rfl⟩ := hs
  have hlayout : Layout kms chunkSize bytes.length (kms.noncePrefix i) (kms.generate i).2
      (kms.generate i).1 :=
    ⟨by decide, by decide, by omega, kms.length_noncePrefix i, kms.wrapped_pos i, kms.wrapped_le i,
      kms.unwrap_generate i⟩
  have hfixed := length_fixedFields chunkSize bytes.length hlayout.nonce
  have hle := hlayout.wrapped_le
  rw [sealedBytes] at hout
  refine ⟨_, _, _, _, rfl, ?_, by omega, by omega, ?_, fun k hk => hlayout.parse_take _ hout hk⟩
  · rw [hout, ← List.append_assoc, ← List.append_assoc]
    apply List.drop_left'
    rw [List.length_append, List.length_append, hfixed, length_leBytes, wrapLenLen]
  · rw [hout, List.length_append, List.length_append, List.length_append, hfixed, length_leBytes,
      wrapLenLen]
    omega

end Header

section Simulation

variable {σ Key : Type}

/-- Bytes that `parse_header` takes for an object from before. -/
def Unmarked (bytes : Bytes) : Prop :=
  bytes.length < fixedLen + wrapLenLen ∨ bytes.take 8 ≠ objectMagic

/-- What the wrapped store has at a path: the bytes as they were before, or sealed under
the path. -/
def Holds (aead : ChunkAead Key) (kms : Kms Key) (path : String) (enc plain : Bytes) : Prop :=
  (enc = plain ∧ Unmarked plain) ∨ ∃ h, SealedAs aead kms path plain enc h

variable (aead : ChunkAead Key) (kms : Kms Key) {b : Backend σ} {P : Set String}

structure Simulates (c : Contract b P) (s : Encrypting σ Key) (objects : σ) : Prop where
  alike : c.Alike s.inner objects
  holds : ∀ path ∈ P, ∀ enc, c.read s.inner path = some enc →
    ∃ plain, c.read objects path = some plain ∧ Holds aead kms path enc plain
  cached : ∀ path h, s.headers.lookup path = some h → path ∈ P ∧
    ∃ enc, c.read s.inner path = some enc ∧ parseHeader kms enc = .ok (some h)

variable {aead kms} {c : Contract b P} {s : Encrypting σ Key} {objects : σ}

theorem parseHeader_unmarked {bytes : Bytes} (h : Unmarked bytes) :
    parseHeader kms bytes = .ok (some .plain) := by
  unfold Unmarked at h
  rw [parseHeader, if_pos h]

theorem Unmarked.take {bytes : Bytes} (h : Unmarked bytes) {k : Nat}
    (hk : fixedLen + wrapLenLen ≤ k) : Unmarked (bytes.take k) := by
  rcases h with h | h
  · left
    rw [List.length_take]
    omega
  · right
    have : 8 ≤ k := Nat.le_trans (by decide) hk
    rwa [List.take_take, Nat.min_eq_left this]

theorem SealedAs.parse {path : String} {bytes out : Bytes} {h : ObjHeader Key}
    (hs : SealedAs aead kms path bytes out h) : parseHeader kms out = .ok (some h) := by
  obtain ⟨headerLen, _, _, _, _, _, hge, _, hle, hparse⟩ := hs.parts
  have hout := hparse out.length (Nat.le_trans hge hle)
  rwa [List.take_of_length_le (Nat.le_refl _), if_neg (Nat.not_lt.mpr hle)] at hout

/-- The object of a path in use: from before, or sealed under this very path. -/
theorem Simulates.object (hsim : Simulates aead kms c s objects) {path : String}
    (hpath : path ∈ P) :
    (c.read s.inner path = none ∧ c.read objects path = none) ∨
      ∃ enc plain, c.read s.inner path = some enc ∧ c.read objects path = some plain ∧
        Holds aead kms path enc plain := by
  cases henc : c.read s.inner path with
  | none =>
      have hsome := c.isSome_eq hsim.alike hpath
      rw [henc] at hsome
      exact .inl ⟨rfl, by simpa using hsome.symm⟩
  | some enc =>
      obtain ⟨plain, hplain, hholds⟩ := hsim.holds path hpath enc henc
      exact .inr ⟨enc, plain, rfl, hplain, hholds⟩

theorem Simulates.good (hsim : Simulates aead kms c s objects) : c.Good s.inner :=
  (c.good hsim.alike).1

theorem Simulates.good_plain (hsim : Simulates aead kms c s objects) : c.Good objects :=
  (c.good hsim.alike).2

theorem mem_cachePut {path path' : String} {h h' : ObjHeader Key}
    (hl : (s.cachePut path h).headers.lookup path' = some h') :
    (path' = path ∧ h' = h) ∨ (path' ≠ path ∧ s.headers.lookup path' = some h') := by
  unfold Encrypting.cachePut at hl
  by_cases heq : path' = path
  · subst heq
    simp only [AList.lookup_insert, Option.some.injEq] at hl
    exact .inl ⟨rfl, hl.symm⟩
  · simp only [AList.lookup_insert_ne heq] at hl
    split at hl
    · cases hl
    · exact .inr ⟨heq, hl⟩

theorem Simulates.cachePut (hsim : Simulates aead kms c s objects) {path : String}
    (hpath : path ∈ P) {enc : Bytes} {h : ObjHeader Key}
    (henc : c.read s.inner path = some enc) (hparse : parseHeader kms enc = .ok (some h)) :
    Simulates aead kms c (s.cachePut path h) objects where
  alike := hsim.alike
  holds := hsim.holds
  cached path' h' hl := by
    rcases mem_cachePut hl with ⟨rfl, rfl⟩ | ⟨_, hl⟩
    · exact ⟨hpath, enc, henc, hparse⟩
    · exact hsim.cached path' h' hl

end Simulation

section Reads

variable {σ Key : Type} {aead : ChunkAead Key} {kms : Kms Key} {b : Backend σ} {P : Set String}
  {c : Contract b P} {s : Encrypting σ Key} {objects : σ}

/-- The header of an object, as it is read from the whole of it and from a piece
of it. -/
structure Headed (kms : Kms Key) (enc : Bytes) (h : ObjHeader Key) : Prop where
  whole : parseHeader kms enc = .ok (some h)
  piece : ∀ k, fixedLen + wrapLenLen ≤ k → parseHeader kms (enc.take k) = .ok (some h) ∨
    (k < fixedLen + wrapLenLen + maxWrap ∧ parseHeader kms (enc.take k) = .ok none)

theorem Unmarked.headed {bytes : Bytes} (h : Unmarked bytes) : Headed kms bytes .plain where
  whole := parseHeader_unmarked h
  piece _ hk := .inl (parseHeader_unmarked (h.take hk))

theorem SealedAs.headed {path : String} {bytes out : Bytes} {h : ObjHeader Key}
    (hs : SealedAs aead kms path bytes out h) : Headed kms out h where
  whole := hs.parse
  piece k hk := by
    obtain ⟨headerLen, _, _, _, _, _, _, hmax, _, hparse⟩ := hs.parts
    rw [hparse k hk]
    by_cases hlt : k < headerLen
    · rw [if_pos hlt]
      exact .inr ⟨by omega, rfl⟩
    · rw [if_neg hlt]
      exact .inl rfl

/-- The header of an object that exists, from wherever it is taken. -/
theorem Simulates.header (hsim : Simulates aead kms c s objects) {path : String}
    (hpath : path ∈ P) {enc : Bytes} {h : ObjHeader Key}
    (henc : c.read s.inner path = some enc) (hhead : Headed kms enc h) :
    ∃ s', s.header kms b path = .ok (s', h) ∧ s'.inner = s.inner ∧
      Simulates aead kms c s' objects := by
  have hrange : ∀ k, b.getRange s.inner path 0 k = .ok (enc.take k) := by
    intro k
    rw [c.getRange_eq hsim.good hpath (by norm_num), henc]
    rfl
  have hput := hsim.cachePut hpath henc hhead.whole
  unfold Encrypting.header
  cases hcached : s.headers.lookup path with
  | some h' =>
      obtain ⟨_, enc', henc', hparse'⟩ := hsim.cached path h' hcached
      rw [henc] at henc'
      obtain rfl := Option.some.inj henc'
      rw [hhead.whole] at hparse'
      obtain rfl := Option.some.inj (Except.ok.inj hparse')
      exact ⟨s, rfl, rfl, hsim⟩
  | none =>
      simp only [hrange]
      rcases hhead.piece (fixedLen + wrapLenLen + 512) (by omega) with hok | ⟨_, hmore⟩
      · refine ⟨s.cachePut path h, ?_, rfl, hput⟩
        simp only [bind, Except.bind, hok]
        rfl
      · rcases hhead.piece (fixedLen + wrapLenLen + maxWrap) (by omega) with hok | ⟨hlt, _⟩
        · refine ⟨s.cachePut path h, ?_, rfl, hput⟩
          simp only [bind, Except.bind, hmore, hok]
          rfl
        · exact absurd hlt (Nat.lt_irrefl _)

theorem Simulates.header_absent (hsim : Simulates aead kms c s objects) {path : String}
    (hpath : path ∈ P) (henc : c.read s.inner path = none) :
    s.header kms b path = .error (c.missing objects path) := by
  unfold Encrypting.header
  cases hcached : s.headers.lookup path with
  | some h' =>
      obtain ⟨_, enc', henc', _⟩ := hsim.cached path h' hcached
      rw [henc] at henc'
      cases henc'
  | none =>
      simp only [c.getRange_eq hsim.good hpath (show 0 < 2 ^ 63 by norm_num), henc,
        c.missing_eq hsim.alike hpath]
      rfl

theorem get_encrypted {path : String} {enc fixed noncePrefix out : Bytes}
    {size plen headerLen : Nat} {dek : Key} (henc : b.get s.inner path = .ok enc)
    (hparse : parseHeader kms enc =
      .ok (some (.encrypted size plen headerLen fixed noncePrefix dek)))
    (hopen : openFrom aead dek noncePrefix (chunkAad fixed path) 0
      (chunks (size + tagLen) (enc.drop headerLen)) = .ok out) (hlen : out.length = plen) :
    s.get aead kms b path =
      .ok (s.cachePut path (.encrypted size plen headerLen fixed noncePrefix dek), out) := by
  unfold Encrypting.get
  simp only [henc, bind, Except.bind, hparse, hopen, hlen, ne_eq, not_true_eq_false, if_false]
  rfl

theorem Simulates.get_ok (hsim : Simulates aead kms c s objects) {path : String}
    (hpath : path ∈ P) :
    ∃ s', Simulates aead kms c s' objects ∧
      s.get aead kms b path = (b.get objects path).map fun bytes => (s', bytes) := by
  have hget := c.get_eq hsim.good hpath
  have hget' := c.get_eq hsim.good_plain hpath
  rcases hsim.object hpath with ⟨henc, hplain⟩ | ⟨enc, plain, henc, hplain, hkind⟩
  · refine ⟨s, hsim, ?_⟩
    rw [henc] at hget
    rw [Encrypting.get, hget, hget', hplain, c.missing_eq hsim.alike hpath]
    rfl
  · rw [henc] at hget
    rw [hget', hplain]
    rcases hkind with ⟨rfl, hun⟩ | ⟨h, hs⟩
    · refine ⟨s, hsim, ?_⟩
      simp only [Encrypting.get, hget, Option.elim, bind, Except.bind, parseHeader_unmarked hun]
      rfl
    · have hparse := hs.parse
      obtain ⟨headerLen, fixed, noncePrefix, dek, rfl, hbody, _⟩ := hs.parts
      refine ⟨_, hsim.cachePut hpath henc hparse, get_encrypted hget hparse ?_ rfl⟩
      have hpos : 0 < chunkSize := by decide
      have hregular : Regular (chunkSize + tagLen) (sealFrom aead dek noncePrefix
          (chunkAad fixed path) 0 (chunks chunkSize plain)) :=
        regular_sealFrom 0 (regular_chunks hpos plain)
      rw [hbody, chunks_flatten (Nat.add_pos_left hpos tagLen) hregular, openFrom_sealFrom,
        flatten_chunks hpos]

theorem Simulates.size_ok (hsim : Simulates aead kms c s objects) {path : String}
    (hpath : path ∈ P) :
    ∃ s', Simulates aead kms c s' objects ∧
      s.size kms b path = (b.size objects path).map fun n => (s', n) := by
  unfold Encrypting.size
  rw [c.size_eq hsim.good_plain hpath]
  rcases hsim.object hpath with ⟨henc, hplain⟩ | ⟨enc, plain, henc, hplain, hkind⟩
  · refine ⟨s, hsim, ?_⟩
    rw [hsim.header_absent hpath henc, hplain]
    rfl
  · rcases hkind with ⟨rfl, hun⟩ | ⟨h, hs⟩
    · obtain ⟨s', hheader, hinner, hsim'⟩ := hsim.header hpath henc hun.headed
      refine ⟨s', hsim', ?_⟩
      have hsize := c.size_eq hsim'.good hpath
      rw [hinner, henc] at hsize
      simp only [hheader, bind, Except.bind, hinner, hsize, hplain, Option.elim, Except.map]
    · obtain ⟨s', hheader, _, hsim'⟩ := hsim.header hpath henc hs.headed
      obtain ⟨headerLen, fixed, noncePrefix, dek, rfl, _⟩ := hs.parts
      refine ⟨s', hsim', ?_⟩
      simp only [hheader, bind, Except.bind, hplain]
      rfl

/-- The length of the touched ciphertext: whole chunks, or all that is left. -/
theorem touched_length {plen first last ctLen : Nat} (hfirst : first ≤ last)
    (hlast : last * chunkSize < plen)
    (hct : ctLen = (last - first) * (chunkSize + tagLen) +
      (if last = (plen + chunkSize - 1) / chunkSize - 1 then plen - last * chunkSize
        else chunkSize) + tagLen) :
    ctLen = min ((last + 1 - first) * (chunkSize + tagLen))
      (plen + (plen + chunkSize - 1) / chunkSize * 16 - first * (chunkSize + tagLen)) := by
  have hsize : chunkSize = 65536 := rfl
  have htag : tagLen = 16 := rfl
  by_cases hfinal : last = (plen + chunkSize - 1) / chunkSize - 1
  · rw [if_pos hfinal] at hct
    simp only [hsize, htag] at hlast hct hfinal ⊢
    omega
  · rw [if_neg hfinal] at hct
    simp only [hsize, htag] at hlast hct hfinal ⊢
    omega

/-- The chunks of a sealed object that a range touches, and what is in them. -/
theorem open_touched {dek : Key} {noncePrefix aad bytes body : Bytes} {first last ctLen : Nat}
    (hbody : body = (sealFrom aead dek noncePrefix aad 0 (chunks chunkSize bytes)).flatten)
    (hlen : ctLen = min ((last + 1 - first) * (chunkSize + tagLen))
      (bytes.length + (bytes.length + chunkSize - 1) / chunkSize * 16 -
        first * (chunkSize + tagLen))) :
    ((body.drop (first * (chunkSize + tagLen))).take ctLen).length = ctLen ∧
      openFrom aead dek noncePrefix aad first
        (chunks (chunkSize + tagLen) ((body.drop (first * (chunkSize + tagLen))).take ctLen)) =
      .ok ((bytes.drop (first * chunkSize)).take ((last + 1 - first) * chunkSize)) := by
  have hpos : 0 < chunkSize := by decide
  have hpos' : 0 < chunkSize + tagLen := by decide
  have hreg := regular_chunks hpos bytes
  have hregular : Regular (chunkSize + tagLen)
      (sealFrom aead dek noncePrefix aad 0 (chunks chunkSize bytes)) := regular_sealFrom 0 hreg
  have hdrop : body.drop (first * (chunkSize + tagLen)) =
      (sealFrom aead dek noncePrefix aad first ((chunks chunkSize bytes).drop first)).flatten := by
    rw [hbody, ← hregular.flatten_drop, sealFrom_drop, Nat.zero_add]
  have hmid : Regular (chunkSize + tagLen)
      (sealFrom aead dek noncePrefix aad first ((chunks chunkSize bytes).drop first)) :=
    regular_sealFrom first (hreg.drop first)
  have hrest : (body.drop (first * (chunkSize + tagLen))).length =
      bytes.length + (bytes.length + chunkSize - 1) / chunkSize * 16 -
        first * (chunkSize + tagLen) := by
    rw [List.length_drop, hbody, length_flatten_sealFrom, flatten_chunks hpos, length_chunks]
  have htake : (body.drop (first * (chunkSize + tagLen))).take ctLen =
      (body.drop (first * (chunkSize + tagLen))).take
        ((last + 1 - first) * (chunkSize + tagLen)) := by
    rw [List.take_eq_take_iff, hrest]
    omega
  refine ⟨?_, ?_⟩
  · rw [List.length_take, hrest]
    omega
  · rw [htake, hdrop, ← hmid.flatten_take, sealFrom_take,
      chunks_flatten hpos' (regular_sealFrom first ((hreg.drop first).take hpos _)),
      openFrom_sealFrom, (hreg.drop first).flatten_take, hreg.flatten_drop, flatten_chunks hpos]

/-- Cutting the opened chunks down to the range. -/
theorem slice_touched {bytes : Bytes} {offset stop : Nat} (hlt : offset < stop)
    (hstop : stop ≤ bytes.length) :
    let first := offset / chunkSize
    let plain := (bytes.drop (first * chunkSize)).take
      (((stop - 1) / chunkSize + 1 - first) * chunkSize)
    (offset - first * chunkSize) + (stop - offset) ≤ plain.length ∧
      (plain.drop (offset - first * chunkSize)).take (stop - offset) =
        (bytes.drop offset).take (stop - offset) := by
  have hsize : chunkSize = 65536 := rfl
  simp only [hsize, List.length_take, List.length_drop]
  refine ⟨by omega, ?_⟩
  have hoffset : offset / 65536 * 65536 + (offset - offset / 65536 * 65536) = offset := by omega
  rw [List.drop_take, List.drop_drop, hoffset, List.take_take]
  congr 1
  omega

theorem range_past_end {path : String} {s' : Encrypting σ Key} {fixed noncePrefix : Bytes}
    {cs plen headerLen offset len : Nat} {dek : Key}
    (hheader : s.header kms b path =
      .ok (s', .encrypted cs plen headerLen fixed noncePrefix dek))
    (hfits : offset + len < 2 ^ 64) (hend : min (offset + len) plen ≤ offset) :
    s.getRange aead kms b path offset len = .ok (s', []) := by
  simp only [Encrypting.getRange, hheader, bind, Except.bind, Nat.mod_eq_of_lt hfits,
    if_pos hend]
  rfl

theorem range_encrypted {path : String} {s' : Encrypting σ Key}
    {fixed noncePrefix raw plain : Bytes} {cs plen headerLen offset len : Nat} {dek : Key}
    (hheader : s.header kms b path =
      .ok (s', .encrypted cs plen headerLen fixed noncePrefix dek))
    (hfits : offset + len < 2 ^ 64) {stop ctLen : Nat}
    (hstop : min (offset + len) plen = stop) (hlt : offset < stop)
    (hct : ctLen = ((stop - 1) / cs - offset / cs) * (cs + tagLen) +
      (if (stop - 1) / cs = (plen + cs - 1) / cs - 1 then plen - (stop - 1) / cs * cs else cs) +
        tagLen)
    (hread : b.getRange s'.inner path (headerLen + offset / cs * (cs + tagLen)) ctLen = .ok raw)
    (hraw : raw.length = ctLen)
    (hopen : openFrom aead dek noncePrefix (chunkAad fixed path) (offset / cs)
      (chunks (cs + tagLen) raw) = .ok plain)
    (hwithin : (offset - offset / cs * cs) + (stop - offset) ≤ plain.length) :
    s.getRange aead kms b path offset len =
      .ok (s', (plain.drop (offset - offset / cs * cs)).take (stop - offset)) := by
  subst hct
  unfold Encrypting.getRange
  simp only [hheader, bind, Except.bind, Nat.mod_eq_of_lt hfits, hstop,
    if_neg (Nat.not_le.mpr hlt), hread, hraw, ne_eq, not_true_eq_false, if_false, hopen,
    if_neg (Nat.not_lt.mpr hwithin)]
  rfl

theorem Simulates.range_ok (hsim : Simulates aead kms c s objects) {path : String}
    (hpath : path ∈ P) {offset len : Nat} (hseek : offset < 2 ^ 63)
    (hfits : offset + len < 2 ^ 64) :
    ∃ s', Simulates aead kms c s' objects ∧
      s.getRange aead kms b path offset len =
        (b.getRange objects path offset len).map fun bytes => (s', bytes) := by
  rw [c.getRange_eq hsim.good_plain hpath hseek]
  rcases hsim.object hpath with ⟨henc, hplain⟩ | ⟨enc, plain, henc, hplain, hkind⟩
  · refine ⟨s, hsim, ?_⟩
    rw [Encrypting.getRange, hsim.header_absent hpath henc, hplain]
    rfl
  · rw [hplain]
    have hread : ∀ s', Simulates aead kms c s' objects → s'.inner = s.inner → ∀ start n,
        start < 2 ^ 63 → b.getRange s'.inner path start n = .ok ((enc.drop start).take n) := by
      intro s' hsim' hinner start n hstart
      rw [c.getRange_eq hsim'.good hpath hstart, hinner, henc]
      rfl
    rcases hkind with ⟨rfl, hun⟩ | ⟨h, hs⟩
    · obtain ⟨s', hheader, hinner, hsim'⟩ := hsim.header hpath henc hun.headed
      refine ⟨s', hsim', ?_⟩
      simp only [Encrypting.getRange, hheader, bind, Except.bind,
        hread s' hsim' hinner offset len hseek, Option.elim, Except.map]
    · obtain ⟨s', hheader, hinner, hsim'⟩ := hsim.header hpath henc hs.headed
      have hshort : plain.length < 2 ^ 62 := hs.1
      obtain ⟨headerLen, fixed, noncePrefix, dek, rfl, hbody, _, hheaderLen, _⟩ := hs.parts
      refine ⟨s', hsim', ?_⟩
      by_cases hend : min (offset + len) plain.length ≤ offset
      · have hnil : (plain.drop offset).take len = [] := by
          rw [← List.length_eq_zero_iff, List.length_take, List.length_drop]
          omega
        rw [range_past_end hheader hfits hend]
        simp only [Option.elim, Except.map, hnil]
      · generalize hstop : min (offset + len) plain.length = stop at hend
        have hlt : offset < stop := Nat.lt_of_not_le hend
        have hle : stop ≤ plain.length := hstop ▸ Nat.min_le_right _ _
        have hfirst : offset / chunkSize ≤ (stop - 1) / chunkSize :=
          Nat.div_le_div_right (by omega)
        have hlast : (stop - 1) / chunkSize * chunkSize < plain.length :=
          Nat.lt_of_le_of_lt (Nat.div_mul_le_self _ _) (by omega)
        have hstart : headerLen + offset / chunkSize * (chunkSize + tagLen) < 2 ^ 63 := by
          have hsize : chunkSize = 65536 := rfl
          have htag : tagLen = 16 := rfl
          have hlens : fixedLen + wrapLenLen + maxWrap = 4126 := rfl
          rw [hsize, htag]
          omega
        obtain ⟨hraw, hopen⟩ := open_touched hbody (touched_length hfirst hlast rfl)
        obtain ⟨hwithin, hslice⟩ := slice_touched hlt hle
        have hlen : (plain.drop offset).take (stop - offset) = (plain.drop offset).take len := by
          rw [List.take_eq_take_iff, List.length_drop]
          omega
        rw [List.drop_drop] at hraw hopen
        rw [range_encrypted hheader hfits hstop hlt rfl (hread s' hsim' hinner _ _ hstart) hraw
          hopen hwithin, hslice, hlen]
        rfl

end Reads

section Writes

variable {σ Key : Type} {aead : ChunkAead Key} {kms : Kms Key} {b : Backend σ} {P : Set String}
  {c : Contract b P} {s : Encrypting σ Key} {objects : σ}

/-- The paths of a call are in the set, its numbers within what a seek takes and its bytes
within what can be sealed. -/
def Call.Within (P : Set String) : Call → Prop
  | .put path bytes | .putIfAbsent path bytes => path ∈ P ∧ bytes.length < 2 ^ 62
  | .get path | .size path | .delete path => path ∈ P
  | .getRange path offset len => path ∈ P ∧ offset < 2 ^ 63 ∧ offset + len < 2 ^ 64
  | .list _ => True

/-- A write that seals an object, with its header in the cache. -/
theorem Simulates.write (hsim : Simulates aead kms c s objects) {path : String} (hpath : path ∈ P)
    {inner objects' : σ} {n : Nat} {bytes out : Bytes} {h : ObjHeader Key}
    (halike : c.Alike inner objects') (hs : SealedAs aead kms path bytes out h)
    (henc : ∀ q ∈ P, c.read inner q = if q = path then some out else c.read s.inner q)
    (hplain : ∀ q ∈ P, c.read objects' q = if q = path then some bytes else c.read objects q) :
    Simulates aead kms c (Encrypting.cachePut ⟨inner, s.headers, n⟩ path h) objects' where
  alike := halike
  holds q hq enc hread := by
    change c.read inner q = some enc at hread
    rw [henc q hq] at hread
    rw [hplain q hq]
    by_cases hqp : q = path
    · subst hqp
      rw [if_pos rfl] at hread ⊢
      obtain rfl := Option.some.inj hread
      exact ⟨bytes, rfl, .inr ⟨h, hs⟩⟩
    · rw [if_neg hqp] at hread ⊢
      exact hsim.holds q hq enc hread
  cached q h' hl := by
    have hinner : (Encrypting.cachePut ⟨inner, s.headers, n⟩ path h).inner = inner := rfl
    rw [hinner]
    rcases mem_cachePut hl with ⟨rfl, rfl⟩ | ⟨hne, hold⟩
    · exact ⟨hpath, out, by rw [henc q hpath, if_pos rfl], hs.parse⟩
    · obtain ⟨hq, enc, hread, hparse⟩ := hsim.cached q h' hold
      exact ⟨hq, enc, by rw [henc q hq, if_neg hne, hread], hparse⟩

/-- A call that changes no object. -/
theorem Simulates.keep (hsim : Simulates aead kms c s objects) {inner objects' : σ} {n : Nat}
    (halike : c.Alike inner objects') (henc : ∀ q ∈ P, c.read inner q = c.read s.inner q)
    (hplain : ∀ q ∈ P, c.read objects' q = c.read objects q) :
    Simulates aead kms c ⟨inner, s.headers, n⟩ objects' where
  alike := halike
  holds q hq enc hread := by
    change c.read inner q = some enc at hread
    rw [henc q hq] at hread
    rw [hplain q hq]
    exact hsim.holds q hq enc hread
  cached q h' hl := by
    obtain ⟨hq, enc, hread, hparse⟩ := hsim.cached q h' hl
    exact ⟨hq, enc, (henc q hq).trans hread, hparse⟩

/-- A delete, whether or not it takes the object away, forgets the header. -/
theorem Simulates.erase (hsim : Simulates aead kms c s objects) {path : String}
    {inner objects' : σ} {gone : Bool} (halike : c.Alike inner objects')
    (henc : ∀ q ∈ P, c.read inner q = if q = path ∧ gone then none else c.read s.inner q)
    (hplain : ∀ q ∈ P, c.read objects' q = if q = path ∧ gone then none else c.read objects q) :
    Simulates aead kms c ⟨inner, s.headers.erase path, s.sealed⟩ objects' where
  alike := halike
  holds q hq enc hread := by
    change c.read inner q = some enc at hread
    rw [henc q hq] at hread
    rw [hplain q hq]
    by_cases hgone : q = path ∧ gone
    · rw [if_pos hgone] at hread
      cases hread
    · rw [if_neg hgone] at hread ⊢
      exact hsim.holds q hq enc hread
  cached q h' hl := by
    change (s.headers.erase path).lookup q = _ at hl
    have hne : q ≠ path := by
      rintro rfl
      rw [AList.lookup_erase] at hl
      cases hl
    rw [AList.lookup_erase_ne hne] at hl
    obtain ⟨hq, enc, hread, hparse⟩ := hsim.cached q h' hl
    refine ⟨hq, enc, ?_, hparse⟩
    change c.read inner q = some enc
    rw [henc q hq, if_neg fun hgone => hne hgone.1]
    exact hread

theorem reply_map {α : Type} (f : α → Answer) {s' : Encrypting σ Key} {x : Except IoError α}
    {y : Except IoError (Encrypting σ Key × α)} (hsim : Simulates aead kms c s objects)
    (hsim' : Simulates aead kms c s' objects) (h : y = x.map fun a => (s', a)) :
    Simulates aead kms c (s.reply f y).1 objects ∧ (s.reply f y).2 = x.map f := by
  subst h
  cases x with
  | error e => exact ⟨hsim, rfl⟩
  | ok a => exact ⟨hsim', rfl⟩

theorem Simulates.put (hsim : Simulates aead kms c s objects) {path : String} (hpath : path ∈ P)
    {bytes : Bytes} (hshort : bytes.length < 2 ^ 62) :
    Simulates aead kms c (s.put aead kms b path bytes).1 (b.put objects path bytes).1 ∧
      (s.put aead kms b path bytes).2 = (b.put objects path bytes).2.map fun _ => .done := by
  have hs : SealedAs aead kms path bytes _ _ := ⟨hshort, s.sealed, rfl, rfl⟩
  obtain ⟨halike, hsame⟩ := c.put_alike (x := sealedBytes aead kms s.sealed path bytes)
    (y := bytes) hsim.alike hpath
  have henc := fun q hq => c.read_put (x := sealedBytes aead kms s.sealed path bytes)
    (q := q) hsim.good hpath hq
  have hplain := fun q hq => c.read_put (x := bytes) (q := q) hsim.good_plain hpath hq
  rw [hsame] at henc
  simp only [Encrypting.put, sealObject_eq, hsame]
  cases hresult : (b.put objects path bytes).2 with
  | error e =>
      simp only [hresult, Except.isOk, Except.toBool, Bool.false_eq_true, and_false, if_false]
        at henc hplain
      exact ⟨hsim.keep halike henc hplain, rfl⟩
  | ok u =>
      simp only [hresult, Except.isOk, Except.toBool, and_true] at henc hplain
      exact ⟨hsim.write hpath halike hs henc hplain, rfl⟩

theorem Simulates.putIfAbsent (hsim : Simulates aead kms c s objects) {path : String}
    (hpath : path ∈ P) {bytes : Bytes} (hshort : bytes.length < 2 ^ 62) :
    Simulates aead kms c (s.putIfAbsent aead kms b path bytes).1
        (b.putIfAbsent objects path bytes).1 ∧
      (s.putIfAbsent aead kms b path bytes).2 =
        (b.putIfAbsent objects path bytes).2.map .created := by
  have hs : SealedAs aead kms path bytes _ _ := ⟨hshort, s.sealed, rfl, rfl⟩
  obtain ⟨halike, hsame⟩ := c.putIfAbsent_alike (x := sealedBytes aead kms s.sealed path bytes)
    (y := bytes) hsim.alike hpath
  have henc := fun q hq => c.read_putIfAbsent (x := sealedBytes aead kms s.sealed path bytes)
    (q := q) hsim.good hpath hq
  have hplain := fun q hq => c.read_putIfAbsent (x := bytes) (q := q) hsim.good_plain hpath hq
  rw [hsame] at henc
  simp only [Encrypting.putIfAbsent, sealObject_eq, hsame]
  cases hresult : (b.putIfAbsent objects path bytes).2 with
  | error e =>
      simp only [hresult, created, Bool.false_eq_true, and_false, if_false] at henc hplain
      exact ⟨hsim.keep halike henc hplain, rfl⟩
  | ok new =>
      cases new with
      | false =>
          simp only [hresult, created, Bool.false_eq_true, and_false, if_false] at henc hplain
          exact ⟨hsim.keep halike henc hplain, rfl⟩
      | true =>
          simp only [hresult, created, and_true] at henc hplain
          exact ⟨hsim.write hpath halike hs henc hplain, rfl⟩

/-- Every call answers as the plain store does. -/
theorem Simulates.call (hsim : Simulates aead kms c s objects) (call : Call)
    (hcall : call.Within P) :
    Simulates aead kms c (s.call aead kms b call).1 (b.call objects call).1 ∧
      (s.call aead kms b call).2 = (b.call objects call).2 := by
  cases call with
  | put path bytes => exact hsim.put hcall.1 hcall.2
  | putIfAbsent path bytes => exact hsim.putIfAbsent hcall.1 hcall.2
  | get path =>
      obtain ⟨s', hsim', h⟩ := hsim.get_ok hcall
      exact reply_map .bytes hsim hsim' h
  | getRange path offset len =>
      obtain ⟨s', hsim', h⟩ := hsim.range_ok hcall.1 hcall.2.1 hcall.2.2
      exact reply_map .bytes hsim hsim' h
  | size path =>
      obtain ⟨s', hsim', h⟩ := hsim.size_ok hcall
      exact reply_map .size hsim hsim' h
  | delete path =>
      obtain ⟨halike, hsame⟩ := c.delete_alike hsim.alike hcall
      have henc := fun q hq => c.read_delete (q := q) hsim.good hcall hq
      rw [hsame] at henc
      exact ⟨hsim.erase halike henc fun q hq => c.read_delete hsim.good_plain hcall hq,
        congrArg (Except.map fun _ => Answer.done) hsame⟩
  | list dir => exact ⟨hsim, congrArg (Except.map Answer.paths) (c.list_eq hsim.alike)⟩

end Writes

section Runs

variable {σ Key : Type} {aead : ChunkAead Key} {kms : Kms Key} {b : Backend σ} {P : Set String}
  {c : Contract b P}

theorem Simulates.replies {s : Encrypting σ Key} {objects : σ}
    (hsim : Simulates aead kms c s objects) (calls : List Call)
    (hcalls : ∀ call ∈ calls, call.Within P) :
    replies (Encrypting.call aead kms b) s calls = replies b.call objects calls ∧
      Simulates aead kms c (after (Encrypting.call aead kms b) s calls)
        (after b.call objects calls) := by
  induction calls generalizing s objects with
  | nil => exact ⟨rfl, hsim⟩
  | cons call rest ih =>
      obtain ⟨hsim', hreply⟩ := hsim.call call (hcalls call List.mem_cons_self)
      obtain ⟨hrest, hend⟩ := ih hsim' fun d hd => hcalls d (List.mem_cons_of_mem _ hd)
      refine ⟨?_, hend⟩
      rw [Encrypt.replies, Encrypt.replies, hreply, hrest]

/-- A store that has sealed nothing yet, over objects without the magic. -/
theorem simulates_fresh {objects : σ} (hgood : c.Good objects)
    (hplain : ∀ path ∈ P, ∀ bytes, c.read objects path = some bytes → Unmarked bytes) :
    Simulates aead kms c ⟨objects, ∅, 0⟩ objects where
  alike := c.alike_refl hgood
  holds path hpath enc henc := ⟨enc, henc, .inl ⟨rfl, hplain path hpath enc henc⟩⟩
  cached path h hl := by cases hl

end Runs

section Samples

/-- A cipher whose tag is a checksum of key, nonce and associated data. -/
def sumTag (key : Nat) (nonce aad : Bytes) : Bytes :=
  leBytes 16 ((nonce ++ aad).foldl (fun sum byte => 31 * sum + byte.toNat) key)

def sumAead : ChunkAead Nat where
  encrypt key nonce aad msg := msg ++ sumTag key nonce aad
  decrypt key nonce aad ct :=
    if ct.drop (ct.length - 16) = sumTag key nonce aad then some (ct.take (ct.length - 16))
    else none
  decrypt_encrypt := by simp [sumTag]
  length_encrypt := by simp [sumTag]

def oneKek : Kms Nat where
  generate _ := (7, [1, 2, 3])
  noncePrefix i := leBytes 8 i
  unwrap wrapped := if wrapped = [1, 2, 3] then some 7 else none
  unwrap_generate := by simp
  wrapped_pos := by simp
  wrapped_le := by simp [maxWrap]
  length_noncePrefix := by simp

def sampleCalls : List Call :=
  [.put "db/x" [1, 2, 3], .get "db/x", .getRange "db/x" 1 5, .delete "db/x", .size "db/x",
    .putIfAbsent "old" [9], .getRange "old" 0 1]

/-- A store with one object from before. -/
def oldTree : Tree := ⟨(∅ : AssocMap AbsPath Bytes).insert (abs "old") [4, 5], [], 0⟩

end Samples

end TimeLake.Encrypt
