import TimeLake.Library.Utf8

/-!
The bytes of `crates/wal`: plaintext and sealed frames, the header of an
encrypted file, and the readers that take them apart again. AES-256-GCM and
the key service are parameters; what the log relies on is a field of `Aead`
and of `WalCipher`.
-/

namespace TimeLake.Wal

open TimeLake.Library

/-- `"TLDB"`: a plaintext file, and each of its frames. -/
def magic : Nat := 0x544C4442

/-- `"TLDW"`: the header of an encrypted file. -/
def wmagic : Nat := 0x544C4457

def walVersion : UInt8 := 1

def maxCt : Nat := 128 * 2 ^ 20

inductive WalError where
  | unrecognisedFileMagic
  | badFrameMagic
  | dbNameTooLong
  | dbNotUtf8
  | frameBodyTruncated
  | authenticationFailed
  | noKeyConfigured
  | notAnEncryptedHeader
  | unsupportedVersion
  | wrappedKeyTooLong
  | ciphertextLengthTooLarge
  | unwrapFailed
  deriving DecidableEq, Repr

abbrev Io (α : Type) := Except (ReadError WalError) α

structure Frame where
  db : String
  mult : Int64
  body : Bytes
  deriving DecidableEq

def utf8 (s : String) : Bytes := s.toUTF8.data.toList

theorem utf8_eq (s : String) : utf8 s = encodeChars s.toList := by
  have hs : s = String.ofList s.toList := (String.ofList_toList).symm
  rw [utf8, hs]
  simp only [String.toUTF8, String.toByteArray_ofList, String.toList_ofList, List.utf8Encode,
    List.toList_data_toByteArray, encodeChars]

def fromUtf8 (bytes : Bytes) : Option String := String.fromUTF8? ⟨bytes.toArray⟩

/-- `encode_frame_body`. The two `as u32` casts keep the low four bytes. -/
def encodeFrameBody (f : Frame) : Bytes :=
  leBytes 4 (utf8 f.db).length ++ (utf8 f.db ++ (leBytes 8 f.mult.toUInt64.toNat ++
    (leBytes 4 f.body.length ++ f.body)))

/-- A plaintext frame, as `append` writes it. -/
def encodeFrame (f : Frame) : Bytes :=
  leBytes 4 magic ++ encodeFrameBody f

/-- The fields behind the magic, common to both readers. -/
def frameFields : Parser WalError Frame := do
  let dbLen ← readExact 4
  if 4096 < ofLe dbLen then fail .dbNameTooLong
  else
    let db ← readExact (ofLe dbLen)
    let mult ← readExact 8
    let bodyLen ← readExact 4
    let body ← readExact (ofLe bodyLen)
    let db ← require .dbNotUtf8 (fromUtf8 db)
    pure ⟨db, (UInt64.ofNat (ofLe mult)).toInt64, body⟩

/-- `read_frame`: fewer than four bytes are a clean end, whatever they are. -/
def readFrame (bytes : Bytes) : Io (Option (Frame × Bytes)) :=
  match (readExact 4 : Parser WalError Bytes) bytes with
  | .error .unexpectedEof => .ok none
  | .error e => .error e
  | .ok (hdr, rest) =>
      if ofLe hdr ≠ magic then .error (.invalid .badFrameMagic)
      else (frameFields rest).map some

/-- `parse_frame_body` of an authenticated buffer: running short is corruption
here, and bytes behind the body are ignored. -/
def parseFrameBody (buf : Bytes) : Io Frame :=
  match frameFields buf with
  | .ok (f, _) => .ok f
  | .error .unexpectedEof => .error (.invalid .frameBodyTruncated)
  | .error e => .error e

/-- AES-256-GCM with the frame number as nonce and associated data. -/
structure Aead (Key : Type) where
  sealBytes : Key → Nat → Bytes → Bytes
  openSealed : Key → Nat → Bytes → Option Bytes
  open_sealBytes : ∀ key seq plain, openSealed key seq (sealBytes key seq plain) = some plain
  length_sealBytes : ∀ key seq plain, (sealBytes key seq plain).length = plain.length + 16

/-- `trait WalCipher`. Which key `generate` returns is up to the key service,
so its answers are indexed. -/
structure WalCipher (Key : Type) where
  generate : Nat → Bytes × Key
  unwrap : Bytes → Option Key
  unwrap_generate : ∀ i, unwrap (generate i).1 = some (generate i).2

variable {Key : Type}

def sealedFrame (aead : Aead Key) (dek : Key) (seq : Nat) (f : Frame) : Bytes :=
  let ct := aead.sealBytes dek seq (encodeFrameBody f)
  leBytes 4 ct.length ++ ct

def readLen (bytes : Bytes) : Io (Option (Nat × Bytes)) :=
  if bytes.length = 0 then .ok none
  else if bytes.length < 4 then .error .unexpectedEof
  else .ok (some (ofLe (bytes.take 4), bytes.drop 4))

def readFrameEncrypted (aead : Aead Key) (dek : Key) (seq : Nat) (bytes : Bytes) :
    Io (Option (Frame × Bytes)) :=
  match readLen bytes with
  | .error e => .error e
  | .ok none => .ok none
  | .ok (some (ctLen, rest)) =>
      if maxCt < ctLen then .error (.invalid .ciphertextLengthTooLarge)
      else match (readExact ctLen : Parser WalError Bytes) rest with
        | .error e => .error e
        | .ok (ct, rest') =>
            match aead.openSealed dek seq ct with
            | none => .error (.invalid .authenticationFailed)
            | some plain => (parseFrameBody plain).map fun f => some (f, rest')

/-- `write_enc_header`; the `as u16` cast keeps the low two bytes. -/
def encHeader (wrapped : Bytes) : Bytes :=
  leBytes 4 wmagic ++ ([walVersion] ++ (leBytes 2 wrapped.length ++ wrapped))

def readEncHeader (cipher : WalCipher Key) : Parser WalError Key := do
  let m ← readExact 4
  if ofLe m ≠ wmagic then fail .notAnEncryptedHeader
  else
    let v ← readExact 1
    if v ≠ [walVersion] then fail .unsupportedVersion
    else
      let wrappedLen ← readExact 2
      if 4096 < ofLe wrappedLen then fail .wrappedKeyTooLong
      else
        let wrapped ← readExact (ofLe wrappedLen)
        require .unwrapFailed (cipher.unwrap wrapped)

/-- A frame whose lengths survive the casts of the writer and the limits of
the reader. -/
structure Frame.Fits (f : Frame) : Prop where
  db : (utf8 f.db).length ≤ 4096
  body : f.body.length < 2 ^ 32

instance (f : Frame) : Decidable f.Fits :=
  decidable_of_iff ((utf8 f.db).length ≤ 4096 ∧ f.body.length < 2 ^ 32)
    ⟨fun h => ⟨h.1, h.2⟩, fun h => ⟨h.db, h.body⟩⟩

/-- The same for a frame that goes into an encrypted file. -/
structure Frame.FitsSealed (f : Frame) : Prop extends f.Fits where
  ciphertext : (encodeFrameBody f).length + 16 ≤ maxCt

instance (f : Frame) : Decidable f.FitsSealed :=
  decidable_of_iff (f.Fits ∧ (encodeFrameBody f).length + 16 ≤ maxCt)
    ⟨fun h => ⟨h.1, h.2⟩, fun h => ⟨h.toFits, h.ciphertext⟩⟩

theorem fromUtf8_utf8 (s : String) : fromUtf8 (utf8 s) = some s := by
  simp only [fromUtf8, utf8, String.fromUTF8?]
  exact dif_pos s.isValidUTF8

theorem streaming_frameFields : Streaming frameFields :=
  (Streaming.readExact _).bind fun _ => (Streaming.fail _).ite <|
    (Streaming.readExact _).bind fun _ => (Streaming.readExact _).bind fun _ =>
      (Streaming.readExact _).bind fun _ => (Streaming.readExact _).bind fun _ =>
        (Streaming.require _ _).bind fun _ => Streaming.pure _

theorem frameFields_encode {f : Frame} (hf : f.Fits) (rest : Bytes) :
    frameFields (encodeFrameBody f ++ rest) = .ok (f, rest) := by
  have hdb : ofLe (leBytes 4 (utf8 f.db).length) = (utf8 f.db).length :=
    ofLe_leBytes (by have := hf.db; omega)
  have hbody : ofLe (leBytes 4 f.body.length) = f.body.length :=
    ofLe_leBytes (by have := hf.body; omega)
  have hmult : ofLe (leBytes 8 f.mult.toUInt64.toNat) = f.mult.toUInt64.toNat :=
    ofLe_leBytes (by simpa using f.mult.toUInt64.toNat_lt)
  unfold frameFields encodeFrameBody
  simp only [List.append_assoc]
  rw [bind_ok (readExact_append (length_leBytes _ _) _), hdb,
    if_neg (Nat.not_lt.mpr hf.db), bind_ok (readExact_append rfl _),
    bind_ok (readExact_append (length_leBytes _ _) _),
    bind_ok (readExact_append (length_leBytes _ _) _), hbody,
    bind_ok (readExact_append rfl _), fromUtf8_utf8, hmult]
  have hi64 : (UInt64.ofNat f.mult.toUInt64.toNat).toInt64 = f.mult := by simp
  rw [hi64]
  rfl

theorem readFrame_encode {f : Frame} (hf : f.Fits) (rest : Bytes) :
    readFrame (encodeFrame f ++ rest) = .ok (some (f, rest)) := by
  simp only [readFrame, encodeFrame, List.append_assoc]
  rw [readExact_append (length_leBytes _ _)]
  simp only [ofLe_leBytes (show magic < 256 ^ 4 by decide), ne_eq, not_true_eq_false, if_false,
    frameFields_encode hf]
  rfl

/-- A frame cut short is dropped silently below four bytes and is an error
from there on. -/
theorem readFrame_torn {f : Frame} (hf : f.Fits) {t : Bytes} (hpre : t <+: encodeFrame f)
    (hne : t ≠ encodeFrame f) :
    readFrame t = if t.length < 4 then .ok none else .error .unexpectedEof := by
  split
  · next hlt => simp [readFrame, readExact_short hlt]
  · next hge =>
      have hmagic : leBytes 4 magic <+: t :=
        List.prefix_of_prefix_length_le (List.prefix_append _ _) hpre
          (by rw [length_leBytes]; omega)
      obtain ⟨t', rfl⟩ := hmagic
      have hbody : t' <+: encodeFrameBody f := (List.prefix_append_right_inj _).mp hpre
      have hneb : t' ≠ encodeFrameBody f := fun heq => hne (by rw [heq, encodeFrame])
      have hwhole : frameFields (encodeFrameBody f) = .ok (f, []) := by
        simpa using frameFields_encode hf []
      simp only [readFrame]
      rw [readExact_append (length_leBytes _ _)]
      simp only [ofLe_leBytes (show magic < 256 ^ 4 by decide), ne_eq, not_true_eq_false,
        if_false, streaming_frameFields.torn hwhole hbody hneb]
      rfl

theorem length_sealedFrame (aead : Aead Key) (dek : Key) (seq : Nat) (f : Frame) :
    (sealedFrame aead dek seq f).length = (encodeFrameBody f).length + 20 := by
  simp [sealedFrame, aead.length_sealBytes]
  omega

theorem length_encodeFrame (f : Frame) :
    (encodeFrame f).length = (utf8 f.db).length + f.body.length + 20 := by
  simp [encodeFrame, encodeFrameBody]
  omega

private theorem readLen_append {n : Nat} (hn : n < 256 ^ 4) (rest : Bytes) :
    readLen (leBytes 4 n ++ rest) = .ok (some (n, rest)) := by
  have hlen : (leBytes 4 n ++ rest).length = 4 + rest.length := by simp
  have htake : (leBytes 4 n ++ rest).take 4 = leBytes 4 n := by
    rw [List.take_append_of_le_length (by simp), List.take_of_length_le (by simp)]
  have hdrop : (leBytes 4 n ++ rest).drop 4 = rest := by
    rw [List.drop_append_of_le_length (by simp), List.drop_of_length_le (by simp),
      List.nil_append]
  rw [readLen, if_neg (by omega), if_neg (by omega), htake, hdrop, ofLe_leBytes hn]

section Sealed

variable (aead : Aead Key) (dek : Key) (seq : Nat) {f : Frame}

theorem readFrameEncrypted_sealed (hf : f.FitsSealed) (rest : Bytes) :
    readFrameEncrypted aead dek seq (sealedFrame aead dek seq f ++ rest) =
      .ok (some (f, rest)) := by
  have hct := hf.ciphertext
  have hle : (aead.sealBytes dek seq (encodeFrameBody f)).length ≤ maxCt := by
    rw [aead.length_sealBytes]
    exact hct
  have hbody : frameFields (encodeFrameBody f) = .ok (f, []) := by
    simpa using frameFields_encode hf.toFits []
  simp only [readFrameEncrypted, sealedFrame, List.append_assoc]
  rw [readLen_append (by rw [maxCt] at hle; omega)]
  simp only [if_neg (Nat.not_lt.mpr hle)]
  rw [readExact_append rfl]
  simp only [aead.open_sealBytes, parseFrameBody, hbody]
  rfl

/-- A sealed frame cut short is a torn tail at every byte but the first. -/
theorem readFrameEncrypted_torn (hf : f.FitsSealed) {t : Bytes}
    (hpre : t <+: sealedFrame aead dek seq f) (hne : t ≠ sealedFrame aead dek seq f) :
    readFrameEncrypted aead dek seq t =
      if t.length = 0 then .ok none else .error .unexpectedEof := by
  have hle : (aead.sealBytes dek seq (encodeFrameBody f)).length ≤ maxCt := by
    rw [aead.length_sealBytes]
    exact hf.ciphertext
  by_cases hzero : t.length = 0
  · simp [readFrameEncrypted, readLen, hzero]
  · rw [if_neg hzero]
    by_cases hlt : t.length < 4
    · simp [readFrameEncrypted, readLen, hzero, hlt]
    · have hlen : leBytes 4 (aead.sealBytes dek seq (encodeFrameBody f)).length <+: t :=
        List.prefix_of_prefix_length_le (List.prefix_append _ _) hpre
          (by rw [length_leBytes]; omega)
      obtain ⟨t', rfl⟩ := hlen
      have hct : t' <+: aead.sealBytes dek seq (encodeFrameBody f) :=
        (List.prefix_append_right_inj _).mp hpre
      have hshort : t'.length < (aead.sealBytes dek seq (encodeFrameBody f)).length := by
        refine Nat.lt_of_le_of_ne hct.length_le fun heq => hne ?_
        rw [hct.eq_of_length heq, sealedFrame]
      simp only [readFrameEncrypted]
      rw [readLen_append (by rw [maxCt] at hle; omega)]
      simp only [if_neg (Nat.not_lt.mpr hle), readExact_short hshort]

end Sealed

theorem readEncHeader_encHeader (cipher : WalCipher Key) (i : Nat)
    (hfits : (cipher.generate i).1.length ≤ 4096) (rest : Bytes) :
    readEncHeader cipher (encHeader (cipher.generate i).1 ++ rest) =
      .ok ((cipher.generate i).2, rest) := by
  have hlen : ofLe (leBytes 2 (cipher.generate i).1.length) = (cipher.generate i).1.length :=
    ofLe_leBytes (by omega)
  have hmagic : ofLe (leBytes 4 wmagic) = wmagic := ofLe_leBytes (by decide)
  have hversion : [walVersion].length = 1 := rfl
  unfold readEncHeader encHeader
  simp only [List.append_assoc]
  rw [bind_ok (readExact_append (length_leBytes _ _) _), hmagic, if_neg (by simp),
    bind_ok (readExact_append hversion _), if_neg (by simp),
    bind_ok (readExact_append (length_leBytes _ _) _), hlen,
    if_neg (Nat.not_lt.mpr hfits), bind_ok (readExact_append rfl _), cipher.unwrap_generate]
  rfl

end TimeLake.Wal
