import TimeLake.S3.Store

/-!
A service that answers as S3 is documented to: it keeps its objects by their keys,
gives the keys of a listing in order from a last key on, and lets one conditional
write at a time through. It meets the laws.
-/

namespace TimeLake.S3

open TimeLake.Library TimeLake.Encrypt

section Plain

/-- A request is answered; meets another conditional write; is done without an
answer; or comes to nothing. -/
inductive Weather where
  | fair
  | busy
  | unheard
  | down
  deriving DecidableEq

def plainWrite (bucket : Bucket) : Write → Bucket × Except S3Error Unit
  | .putObject key bytes => (bucket.insert key bytes, .ok ())
  | .putIfNoneMatch key bytes =>
      if (bucket.lookup key).isSome then (bucket, .error .preconditionFailed)
      else (bucket.insert key bytes, .ok ())
  | .deleteObject key => (bucket.erase key, .ok ())

/-- A range whose end is before its start is no range, and the object is given
whole. -/
def plainGet (range : Option (Nat × Nat)) : Option Bytes → Except S3Error Bytes
  | none => .error .noSuchKey
  | some bytes =>
      match range with
      | none => .ok bytes
      | some (start, stop) =>
          if stop < start then .ok bytes
          else if bytes.length ≤ start then .error .invalidRange
          else .ok ((bytes.drop start).take (stop + 1 - start))

def answered {α : Type} (w : Weather) (answer : Except S3Error α) : Except S3Error α :=
  match w with
  | .fair | .busy => answer
  | .unheard | .down => .error .unanswered

/-- Pages have `n` keys. -/
def plainService (n : Nat) : Service Weather String where
  write w bucket r :=
    match w, r with
    | .down, _ => (bucket, .error .unanswered)
    | .unheard, r => ((plainWrite bucket r).1, .error .unanswered)
    | .busy, .putIfNoneMatch .. => (bucket, .error .conditionalConflict)
    | _, r => plainWrite bucket r
  getObject w bucket key range := answered w (plainGet range (bucket.lookup key))
  headObject w bucket key :=
    answered w ((plainGet none (bucket.lookup key)).map fun bytes => some bytes.length)
  listObjects w bucket front token := answered w (.ok (sortedPage n (keysUnder bucket front) token))

variable {n : Nat} {a b : Bucket}

theorem plainWrite_elsewhere (r : Write) {k : String} (hk : k ≠ r.key) :
    (plainWrite a r).1.lookup k = a.lookup k := by
  cases r with
  | putObject key bytes => exact AList.lookup_insert_ne hk
  | putIfNoneMatch key bytes =>
      rw [plainWrite]
      split
      · rfl
      · exact AList.lookup_insert_ne hk
  | deleteObject key => exact AList.lookup_erase_ne hk

theorem plainWrite_congr (r : Write) (h : a.lookup r.key = b.lookup r.key) :
    (plainWrite a r).2 = (plainWrite b r).2 ∧
      (plainWrite a r).1.lookup r.key = (plainWrite b r).1.lookup r.key := by
  cases r with
  | putObject key bytes => exact ⟨rfl, by simp [plainWrite, Write.key]⟩
  | putIfNoneMatch key bytes =>
      simp only [Write.key] at h ⊢
      cases hb : b.lookup key with
      | none => simp [plainWrite, h, hb]
      | some old => simp [plainWrite, h, hb]
  | deleteObject key => exact ⟨rfl, by simp [plainWrite, Write.key]⟩

theorem keysUnder_congr {front : String}
    (h : ∀ k, front.toList <+: k.toList → a.lookup k = b.lookup k) (token : Option String) :
    behind (keysUnder a front) token = behind (keysUnder b front) token := by
  refine insertionSort_congr ((nodup_keysUnder _ _).filter _) ((nodup_keysUnder _ _).filter _) ?_
  intro k
  simp only [List.mem_filter, mem_keysUnder]
  refine and_congr_left fun _ => and_congr_left fun hk => ?_
  rw [← AList.lookup_isSome, ← AList.lookup_isSome, h k hk]

theorem plainService_separate (n : Nat) : (plainService n).Separate where
  elsewhere w bucket r k hk := by
    cases w with
    | fair => exact plainWrite_elsewhere r hk
    | busy =>
        cases r with
        | putIfNoneMatch key bytes => rfl
        | putObject | deleteObject => exact plainWrite_elsewhere _ hk
    | unheard => exact plainWrite_elsewhere r hk
    | down => rfl
  write w a b r h := by
    cases w with
    | fair => exact plainWrite_congr r h
    | busy =>
        cases r with
        | putIfNoneMatch key bytes => exact ⟨rfl, h⟩
        | putObject | deleteObject => exact plainWrite_congr _ h
    | unheard => exact ⟨rfl, (plainWrite_congr r h).2⟩
    | down => exact ⟨rfl, h⟩
  get w a b key range h := by simp only [plainService, h]
  head w a b key h := by simp only [plainService, h]
  list w a b front token h := by
    simp only [plainService, sortedPage, keysUnder_congr h token]

theorem plainService_listing (hn : 0 < n) : (plainService n).Listing id where
  page w bucket front token keys next h := by
    have hpage : sortedPage n (keysUnder bucket front) token = (keys, next) := by
      cases w with
      | fair | busy => exact Except.ok.inj h
      | unheard | down => cases h
    have hlaw := sortedPage_pageOf (nodup_keysUnder bucket front) hn token
    rwa [hpage] at hlaw

theorem plainService_conditional (n : Nat) : (plainService n).Conditional where
  effect w bucket key bytes := by
    cases w with
    | fair | unheard =>
        cases hthere : bucket.lookup key with
        | none => exact .inr ⟨rfl, by simp [plainService, plainWrite, hthere],
            by simp [plainService, plainWrite, hthere]⟩
        | some old => exact .inl (by simp [plainService, plainWrite, hthere])
    | busy | down => exact .inl rfl
  created w bucket key bytes h := by
    cases w with
    | fair =>
        cases hthere : bucket.lookup key with
        | none => exact ⟨rfl, by simp [plainService, plainWrite, hthere]⟩
        | some old => simp [plainService, plainWrite, hthere] at h
    | busy | unheard | down => cases h
  refused w bucket key bytes h := by
    cases w with
    | fair =>
        cases hthere : bucket.lookup key with
        | none => simp [plainService, plainWrite, hthere] at h
        | some old => rfl
    | busy | unheard | down => cases h

/-- What is answered at all is what the service has to say. -/
theorem of_answered {α : Type} {w : Weather} {answer got : Except S3Error α}
    (h : answered w answer = got) (hgot : got ≠ .error .unanswered) : answer = got := by
  cases w with
  | fair | busy => exact h
  | unheard | down => exact absurd h.symm hgot

theorem plainService_truthful (n : Nat) : (plainService n).Truthful where
  put w b key bytes := by
    cases w with
    | fair | unheard | busy => exact .inr (AList.lookup_insert _)
    | down => exact .inl rfl
  stored w b key bytes h := by
    cases w with
    | fair | busy => exact AList.lookup_insert _
    | unheard | down => cases h
  delete w b key := by
    cases w with
    | fair | unheard | busy => exact .inr (AList.lookup_erase _ _)
    | down => exact .inl rfl
  deleted w b key h := by
    cases w with
    | fair | busy => exact AList.lookup_erase _ _
    | unheard | down => cases h
  get w b key bytes h := by
    have hget := of_answered h (by intro hgot; cases hgot)
    cases hobject : b.lookup key with
    | none =>
        rw [hobject] at hget
        cases hget
    | some object =>
        rw [hobject] at hget
        exact congrArg some (Except.ok.inj hget)
  missing w b key h := by
    have hget := of_answered h (by intro hgot; cases hgot)
    cases hobject : b.lookup key with
    | none => rfl
    | some object =>
        rw [hobject] at hget
        cases hget
  range w b key start stop bytes hle h := by
    have hget := of_answered h (by intro hgot; cases hgot)
    cases hobject : b.lookup key with
    | none =>
        rw [hobject] at hget
        cases hget
    | some object =>
        rw [hobject, plainGet, if_neg (Nat.not_lt.mpr hle)] at hget
        split at hget
        · cases hget
        · exact ⟨object, rfl, (Except.ok.inj hget).symm⟩
  beyond w b key start stop hle h := by
    have hget := of_answered h (by intro hgot; cases hgot)
    cases hobject : b.lookup key with
    | none =>
        rw [hobject] at hget
        cases hget
    | some object =>
        rw [hobject, plainGet, if_neg (Nat.not_lt.mpr hle)] at hget
        split at hget
        · next hshort => exact ⟨object, rfl, hshort⟩
        · cases hget
  head w b key n h := by
    have hhead := of_answered h (by intro hgot; cases hgot)
    cases hobject : b.lookup key with
    | none =>
        rw [hobject] at hhead
        cases hhead
    | some object =>
        rw [hobject] at hhead
        exact Except.ok.inj hhead

end Plain

end TimeLake.S3
