import TimeLake.Wal.Log

/-!
What a generation file is made of: for an encrypted file its header, then
whole frames, then what a write that did not come to its end left behind. A
`Segment` is such a file together with what became of the call that wrote each
frame, `Segment.Sound` says which leftovers a replay gets past, and
`replayFile_bytes` is that replay.
-/

namespace TimeLake.Wal

open TimeLake.Library

variable {Key : Type}

/-- `key` is the answer of the key service the header holds; a file without a
whole header has none. A frame is paired with whether its `append` returned
`Ok`. -/
structure Segment where
  num : Nat
  key : Option Nat
  frames : List (Frame × Bool)
  tail : Bytes

namespace Segment

section Layout

variable (aead : Aead Key) (cipher : Option (WalCipher Key))

def head (seg : Segment) : Bytes :=
  match cipher, seg.key with
  | some c, some i => encHeader (c.generate i).1
  | _, _ => []

def encode (seg : Segment) : Nat → Frame → Bytes :=
  match cipher, seg.key with
  | some c, some i => sealedFrame aead (c.generate i).2
  | _, _ => fun _ => encodeFrame

def records (seg : Segment) : List Frame := seg.frames.map Prod.fst

def bytes (seg : Segment) : Bytes :=
  seg.head cipher ++ (encodeFrom (seg.encode aead cipher) 0 seg.records ++ seg.tail)

/-- A proper prefix of a frame that the reader would accept. -/
def Torn (fits : Frame → Prop) (encode : Frame → Bytes) (tail : Bytes) : Prop :=
  tail = [] ∨ ∃ f, fits f ∧ tail <+: encode f ∧ tail ≠ encode f

/-- In an encrypted directory a file without a whole header has less of it than
the file magic. -/
def Sound (seg : Segment) : Prop :=
  match cipher, seg.key with
  | none, none => (∀ f ∈ seg.records, f.Fits) ∧ Torn Frame.Fits encodeFrame seg.tail
  | none, some _ => False
  | some _, none => seg.frames = [] ∧ seg.tail.length < 4
  | some c, some i => (c.generate i).1.length ≤ 4096 ∧ (∀ f ∈ seg.records, f.FitsSealed) ∧
      Torn Frame.FitsSealed (sealedFrame aead (c.generate i).2 seg.records.length) seg.tail

/-- What the replay leaves of the file. -/
def trim (seg : Segment) : Segment :=
  match cipher, seg.key with
  | some _, some _ => { seg with tail := [] }
  | some _, none => seg
  | none, _ => { seg with tail := if seg.tail.length < 4 then seg.tail else [] }

end Layout

@[simp] theorem trim_num (cipher : Option (WalCipher Key)) (seg : Segment) :
    (seg.trim cipher).num = seg.num := by
  unfold trim
  split <;> rfl

@[simp] theorem trim_frames (cipher : Option (WalCipher Key)) (seg : Segment) :
    (seg.trim cipher).frames = seg.frames := by
  unfold trim
  split <;> rfl

variable {aead : Aead Key} {cipher : Option (WalCipher Key)} {seg : Segment}

theorem Torn.nil {fits : Frame → Prop} {encode : Frame → Bytes} : Torn fits encode [] :=
  .inl rfl

theorem Sound.trim (h : seg.Sound aead cipher) : (seg.trim cipher).Sound aead cipher := by
  obtain ⟨num, key, frames, tail⟩ := seg
  cases cipher with
  | none =>
      cases key with
      | none =>
          refine ⟨h.1, ?_⟩
          dsimp only [Segment.trim]
          split
          · exact h.2
          · exact .nil
      | some i => exact h
  | some c =>
      cases key with
      | none => exact h
      | some i => exact ⟨h.1, h.2.1, .nil⟩

theorem scanPlaintext_bytes {frames : List Frame} {tail : Bytes}
    (hfits : ∀ f ∈ frames, f.Fits) (htail : Torn Frame.Fits encodeFrame tail) :
    scanPlaintext (encodeFrom (fun _ => encodeFrame) 0 frames ++ tail) =
      ⟨frames, tail, if tail.length < 4 then none else some .unexpectedEof⟩ := by
  have hend : readFrame tail =
      if tail.length < 4 then .ok none else .error .unexpectedEof := by
    rcases htail with rfl | ⟨f, hf, hpre, hne⟩
    · rfl
    · exact readFrame_torn hf hpre hne
  refine scan_encodeFrom frames tail (fun _ f hf rest => readFrame_encode (hfits f hf) rest)
    ?_ ?_
  · intro fuel hpos
    obtain ⟨fuel, rfl⟩ := Nat.exists_eq_add_one_of_ne_zero (Nat.ne_zero_of_lt hpos)
    rw [scan, hend]
    by_cases hlt : tail.length < 4 <;> simp [hlt]
  · have := length_le_encodeFrom (fun _ => encodeFrame) frames 0
      (fun _ f => by rw [length_encodeFrame]; omega)
    simp only [List.length_append]
    omega

theorem scanEncrypted_bytes {dek : Key} {frames : List Frame} {tail : Bytes}
    (hfits : ∀ f ∈ frames, f.FitsSealed)
    (htail : Torn Frame.FitsSealed (sealedFrame aead dek frames.length) tail) :
    scanEncrypted aead dek (encodeFrom (sealedFrame aead dek) 0 frames ++ tail) =
      ⟨frames, tail, if tail.length = 0 then none else some .unexpectedEof⟩ := by
  have hend : readFrameEncrypted aead dek frames.length tail =
      if tail.length = 0 then .ok none else .error .unexpectedEof := by
    rcases htail with rfl | ⟨f, hf, hpre, hne⟩
    · rfl
    · exact readFrameEncrypted_torn aead dek _ hf hpre hne
  refine scan_encodeFrom frames tail
    (fun seq f hf rest => readFrameEncrypted_sealed aead dek seq (hfits f hf) rest) ?_ ?_
  · intro fuel hpos
    obtain ⟨fuel, rfl⟩ := Nat.exists_eq_add_one_of_ne_zero (Nat.ne_zero_of_lt hpos)
    rw [scan, Nat.zero_add, hend]
    by_cases hzero : tail.length = 0 <;> simp [hzero]
  · have := length_le_encodeFrom (sealedFrame aead dek) frames 0
      (fun _ f => by rw [length_sealedFrame]; omega)
    simp only [List.length_append]
    omega

private theorem cutOff_append (a b : Bytes) : cutOff (a ++ b) b = a := by
  simp [cutOff]

private theorem peekMagic_append {m : Nat} (hm : m < 256 ^ 4) (rest : Bytes) :
    peekMagic (leBytes 4 m ++ rest) = some m := by
  have hlen : ¬ (leBytes 4 m ++ rest).length < 4 := by simp
  rw [peekMagic, if_neg hlen, List.take_append_of_le_length (by simp),
    List.take_of_length_le (by simp), ofLe_leBytes hm]

/-- The first four bytes of a plaintext file, when it has as many, are the
magic of its first frame, whole or torn. -/
private theorem peekMagic_plaintext {frames : List Frame} {tail : Bytes}
    (htail : Torn Frame.Fits encodeFrame tail) :
    peekMagic (encodeFrom (fun _ => encodeFrame) 0 frames ++ tail) =
      if frames = [] ∧ tail.length < 4 then none else some magic := by
  cases frames with
  | cons f rest =>
      simp only [encodeFrom, encodeFrame, List.append_assoc, reduceCtorEq, false_and, if_false]
      exact peekMagic_append (by decide) _
  | nil =>
      simp only [encodeFrom, List.nil_append, true_and]
      by_cases hlt : tail.length < 4
      · simp [peekMagic, hlt]
      · rw [if_neg hlt]
        rcases htail with rfl | ⟨f, _, hpre, _⟩
        · simp at hlt
        · have hmagic : leBytes 4 magic <+: tail :=
            List.prefix_of_prefix_length_le (List.prefix_append _ _) hpre
              (by rw [length_leBytes]; omega)
          obtain ⟨rest, rfl⟩ := hmagic
          exact peekMagic_append (by decide) _

private theorem replayFile_plaintext {num : Nat} {frames : List (Frame × Bool)} {tail : Bytes}
    (hfits : ∀ f ∈ frames.map Prod.fst, f.Fits) (htail : Torn Frame.Fits encodeFrame tail) :
    replayFile aead none (encodeFrom (fun _ => encodeFrame) 0 (frames.map Prod.fst) ++ tail) =
      .ok (frames.map Prod.fst,
        (Segment.trim (none : Option (WalCipher Key)) ⟨num, none, frames, tail⟩).bytes aead
          none) := by
  simp only [replayFile, peekMagic_plaintext htail, Segment.trim, Segment.bytes, Segment.head,
    Segment.encode, Segment.records, List.nil_append]
  split
  · next hpeek =>
      obtain ⟨hnil, hlt⟩ : frames.map Prod.fst = [] ∧ tail.length < 4 := by
        by_contra hcon
        rw [if_neg hcon] at hpeek
        cases hpeek
      rw [hnil, if_pos hlt]
  · next m hpeek =>
      obtain rfl : magic = m := by
        split at hpeek
        · cases hpeek
        · exact Option.some.inj hpeek
      rw [if_neg (by decide), if_pos rfl]
      simp only [replayPlaintext, scanPlaintext_bytes hfits htail]
      by_cases hlt : tail.length < 4
      · simp only [if_pos hlt]
      · simp only [if_neg hlt, cutOff_append, List.append_nil]

private theorem replayFile_encrypted {c : WalCipher Key} {num i : Nat}
    {frames : List (Frame × Bool)} {tail : Bytes} (hkey : (c.generate i).1.length ≤ 4096)
    (hfits : ∀ f ∈ frames.map Prod.fst, f.FitsSealed)
    (htail : Torn Frame.FitsSealed
      (sealedFrame aead (c.generate i).2 (frames.map Prod.fst).length) tail) :
    replayFile aead (some c) (Segment.bytes aead (some c) ⟨num, some i, frames, tail⟩) =
      .ok (frames.map Prod.fst, Segment.bytes aead (some c) ⟨num, some i, frames, []⟩) := by
  have hpeek : peekMagic (Segment.bytes aead (some c) ⟨num, some i, frames, tail⟩) =
      some wmagic := by
    simp only [Segment.bytes, Segment.head, encHeader, List.append_assoc]
    exact peekMagic_append (by decide) _
  simp only [replayFile, hpeek, if_true, replayEncrypted]
  simp only [Segment.bytes, Segment.head, Segment.encode, Segment.records,
    readEncHeader_encHeader c i hkey, scanEncrypted_bytes hfits htail, List.append_nil]
  by_cases hzero : tail.length = 0
  · simp only [if_pos hzero]
    rw [List.length_eq_zero_iff.mp hzero, List.append_nil]
  · simp only [if_neg hzero]
    rw [← List.append_assoc, cutOff_append]

/-- A sound file replays to its frames and is cut back to its trimmed form. -/
theorem replayFile_bytes (h : seg.Sound aead cipher) :
    replayFile aead cipher (seg.bytes aead cipher) =
      .ok (seg.records, (seg.trim cipher).bytes aead cipher) := by
  obtain ⟨num, key, frames, tail⟩ := seg
  cases cipher with
  | none =>
      cases key with
      | none => exact replayFile_plaintext h.1 h.2
      | some i => exact h.elim
  | some c =>
      cases key with
      | none =>
          obtain ⟨rfl, hlt⟩ : frames = [] ∧ tail.length < 4 := h
          have hpeek : peekMagic tail = none := by simp [peekMagic, hlt]
          simp [replayFile, Segment.bytes, Segment.head, Segment.records, encodeFrom, hpeek,
            Segment.trim]
      | some i => exact replayFile_encrypted h.1 h.2.1 h.2.2

end Segment

/-- The directory of a list of segments. -/
def render (aead : Aead Key) (cipher : Option (WalCipher Key)) (segs : List Segment) : Gens :=
  segs.map fun seg => (seg.num, seg.bytes aead cipher)

theorem replayAll_bytes {aead : Aead Key} {cipher : Option (WalCipher Key)}
    {segs : List Segment} (h : ∀ seg ∈ segs, seg.Sound aead cipher) :
    replayAll aead cipher (render aead cipher segs) =
      (render aead cipher (segs.map (Segment.trim cipher)),
        .ok (segs.flatMap Segment.records)) := by
  unfold render
  induction segs with
  | nil => rfl
  | cons seg rest ih =>
      simp only [List.map_cons, replayAll, Segment.replayFile_bytes (h seg (by simp)),
        ih fun s hs => h s (by simp [hs]), Segment.trim_num]
      rfl

end TimeLake.Wal
