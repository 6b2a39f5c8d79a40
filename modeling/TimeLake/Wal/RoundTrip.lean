import TimeLake.Wal.Recovery

/-!
The frame codec taken by itself: which frames the reader gives back. The
writer casts lengths and checks nothing; the readers have limits. Whatever a
reader returns is within them, so a frame comes back exactly when it is.
-/

namespace TimeLake.Wal

open TimeLake.Library

variable {Key : Type}

section Property

/-- The reader for the file a handle appends to, at the frame number its next
frame is sealed under. -/
def Handle.readFrame (aead : Aead Key) (w : Handle Key) (bytes : Bytes) :
    Io (Option (Frame × Bytes)) :=
  match w.enc with
  | some (dek, seq) => readFrameEncrypted aead dek seq bytes
  | none => Wal.readFrame bytes

/-- The frame is read back from what `append` writes for it, whatever follows,
and the reader stops at its end. -/
def RoundTrips (aead : Aead Key) (w : Handle Key) (f : Frame) : Prop :=
  ∀ rest, w.readFrame aead (w.frameBytes aead f ++ rest) = .ok (some (f, rest))

/-- The frame is within the limits of the reader. -/
def Handle.Fits (w : Handle Key) (f : Frame) : Prop :=
  match w.enc with
  | some _ => f.FitsSealed
  | none => f.Fits

end Property

section Readers

theorem utf8_of_fromUtf8 {bytes : Bytes} {s : String} (h : fromUtf8 bytes = some s) :
    utf8 s = bytes := by
  unfold fromUtf8 String.fromUTF8? at h
  split at h
  · obtain rfl := Option.some.inj h
    simp [utf8, String.fromUTF8]
  · cases h

/-- What a reader takes out of its bytes is within its limits. -/
theorem fits_of_frameFields {bytes rest : Bytes} {f : Frame}
    (h : frameFields bytes = .ok (f, rest)) : f.Fits := by
  unfold frameFields at h
  obtain ⟨dbLen, t, _, h⟩ := bind_ok_iff.mp h
  split at h
  · cases h
  · next hlimit =>
      obtain ⟨db, t', hdb, h⟩ := bind_ok_iff.mp h
      obtain ⟨mult, t', _, h⟩ := bind_ok_iff.mp h
      obtain ⟨bodyLen, t', hlen, h⟩ := bind_ok_iff.mp h
      obtain ⟨body, t', hbody, h⟩ := bind_ok_iff.mp h
      obtain ⟨name, t', hname, h⟩ := bind_ok_iff.mp h
      cases h
      refine ⟨?_, ?_⟩
      · cases hdec : fromUtf8 db with
        | none =>
            rw [hdec] at hname
            cases hname
        | some s =>
            rw [hdec] at hname
            cases hname
            rw [utf8_of_fromUtf8 hdec, (readExact_ok hdb).1]
            omega
      · have hbound := ofLe_lt bodyLen
        rw [(readExact_ok hlen).1] at hbound
        rw [(readExact_ok hbody).1]
        exact hbound

theorem fits_of_readFrame {bytes rest : Bytes} {f : Frame}
    (h : readFrame bytes = .ok (some (f, rest))) : f.Fits := by
  unfold readFrame at h
  split at h
  · cases h
  · cases h
  · split at h
    · cases h
    · next t _ _ =>
        cases hfields : frameFields t with
        | error e =>
            rw [hfields] at h
            cases h
        | ok p =>
            rw [hfields] at h
            cases h
            exact fits_of_frameFields hfields

/-- A sealed frame that is read had a whole ciphertext within the limit. -/
theorem of_readFrameEncrypted {aead : Aead Key} {dek : Key} {seq : Nat} {bytes rest : Bytes}
    {f : Frame} (h : readFrameEncrypted aead dek seq bytes = .ok (some (f, rest))) :
    f.Fits ∧ bytes.length ≤ rest.length + 4 + maxCt := by
  unfold readFrameEncrypted at h
  split at h
  · cases h
  · cases h
  · next ctLen t hlen =>
      split at h
      · cases h
      · next hlimit =>
          split at h
          · cases h
          · next ct t' hct =>
              split at h
              · cases h
              · next plain _ =>
                  unfold readLen at hlen
                  split at hlen
                  · cases hlen
                  · split at hlen
                    · cases hlen
                    · cases hlen
                      unfold parseFrameBody at h
                      split at h
                      · next g t'' hfields =>
                          cases h
                          refine ⟨fits_of_frameFields hfields, ?_⟩
                          obtain ⟨hctlen, hsplit⟩ := readExact_ok hct
                          have := congrArg List.length hsplit
                          rw [List.length_drop, List.length_append] at this
                          omega
                      · cases h
                      · cases h

end Readers

section RoundTrip

variable {aead : Aead Key} {w : Handle Key} {f : Frame}

theorem Handle.Fits.frame (h : w.Fits f) : f.Fits := by
  unfold Handle.Fits at h
  split at h
  · exact h.toFits
  · exact h

theorem RoundTrips.fits (h : RoundTrips aead w f) : w.Fits f := by
  have hnone := h []
  unfold Handle.readFrame Handle.frameBytes at hnone
  unfold Handle.Fits
  cases henc : w.enc with
  | none =>
      rw [henc] at hnone
      exact fits_of_readFrame hnone
  | some p =>
      rw [henc] at hnone
      obtain ⟨hfits, hlen⟩ := of_readFrameEncrypted hnone
      refine ⟨hfits, ?_⟩
      rw [List.append_nil, length_sealedFrame, List.length_nil] at hlen
      omega

theorem Handle.Fits.roundTrips (h : w.Fits f) : RoundTrips aead w f := by
  intro rest
  unfold Handle.Fits at h
  unfold Handle.readFrame Handle.frameBytes
  cases henc : w.enc with
  | none =>
      rw [henc] at h
      exact readFrame_encode h rest
  | some p =>
      rw [henc] at h
      exact readFrameEncrypted_sealed aead p.1 p.2 h rest

end RoundTrip

/-- A frame comes back from the log exactly when it is within the limits of the
reader. -/
theorem append_round_trips_iff (aead : Aead Key) (w : Handle Key) (f : Frame) :
    RoundTrips aead w f ↔ w.Fits f :=
  ⟨RoundTrips.fits, Handle.Fits.roundTrips⟩

theorem length_utf8_replicate (n : Nat) :
    (utf8 (String.ofList (List.replicate n 'a'))).length = n := by
  have hsize : ∀ s : String, (utf8 s).length = s.toByteArray.size := fun _ => rfl
  rw [hsize, String.toByteArray_ofList]
  induction n with
  | zero => rfl
  | succ n ih =>
      have hone : ['a'].utf8Encode.size = 1 := by decide +kernel
      rw [List.replicate_succ, List.utf8Encode_cons, ByteArray.size_append, hone, ih,
        Nat.add_comm]

theorem readFrame_long {f : Frame} (h : 4096 < (utf8 f.db).length)
    (hcast : (utf8 f.db).length < 2 ^ 32) :
    readFrame (encodeFrame f) = .error (.invalid .dbNameTooLong) := by
  have hdb : ofLe (leBytes 4 (utf8 f.db).length) = (utf8 f.db).length := ofLe_leBytes hcast
  simp only [readFrame, encodeFrame]
  rw [readExact_append (length_leBytes _ _)]
  simp only [ofLe_leBytes (show magic < 256 ^ 4 by decide), ne_eq, not_true_eq_false, if_false]
  unfold frameFields encodeFrameBody
  rw [bind_ok (readExact_append (length_leBytes _ _) _), hdb, if_pos h]
  rfl

/-- A point for a database with a name of 4097 bytes. -/
def longName : Frame := ⟨String.ofList (List.replicate 4097 'a'), 1, utf8 "cpu v=1"⟩

/-- The writer takes it, and both readers refuse it. -/
theorem long_name_refused :
    readFrame (encodeFrame longName) = .error (.invalid .dbNameTooLong) ∧
      ¬RoundTrips tagAead ⟨0, 0, none⟩ longName ∧
        ¬RoundTrips tagAead ⟨0, 0, some (7, 0)⟩ longName := by
  have hlen : (utf8 longName.db).length = 4097 := length_utf8_replicate 4097
  have not_fits : ¬longName.Fits := fun hfits => absurd (hlen ▸ hfits.db) (by decide)
  refine ⟨readFrame_long (by omega) (by omega), fun h => ?_, fun h => ?_⟩
  · exact not_fits h.fits.frame
  · exact not_fits h.fits.frame

end TimeLake.Wal
