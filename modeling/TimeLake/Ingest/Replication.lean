import TimeLake.Ingest.Node
import TimeLake.Ingest.RoundTrip
import TimeLake.Wal.RoundTrip

/-!
A frame on its way to the replication peer (`Replicator::replicate`, `internal_replicate`,
`replicate_receive`). The body travels as bytes, the database and the multiplier as header
values: a value that holds a control character is not sent, the blanks around it are
dropped on the way, and the peer reads it only if it is visible ASCII.
-/

namespace TimeLake.Ingest.Replication

open TimeLake.Library
open TimeLake.Wal (Aead Frame Handle utf8)

variable {Key : Type}

section Headers

/-- What is dropped around a header value. -/
def isBlank (c : Char) : Bool := c = ' ' || c = '\t'

def isControl (c : Char) : Bool := c ≠ '\t' && (c.toNat < 32 || c.toNat = 127)

def isVisible (c : Char) : Bool := c = '\t' || 32 ≤ c.toNat && c.toNat < 127

/-- `HeaderValue::from_str`. -/
def headerValue (text : List Char) : Option (List Char) :=
  if text.any isControl then none else some text

def stripBlanks (value : List Char) : List Char :=
  (value.dropWhile isBlank).rdropWhile isBlank

/-- `HeaderValue::to_str`. -/
def toStr (value : List Char) : Option (List Char) :=
  if value.all isVisible then some value else none

end Headers

section Machine

/-- The peer's replica log: the open file with its bytes, and the gauge of its frames. -/
structure Peer (Key : Type) where
  wal : Option (Handle Key × Bytes)
  frames : Nat

inductive Status where
  | ok
  | badRequest (message : String)
  | internal (message : String)
  deriving DecidableEq, Repr

/-- `replicate_receive`; an append that fails may have written some of its bytes. -/
def replicateReceive (aead : Aead Key) (s : Peer Key) (f : Frame) (fault : Option (Nat × String)) :
    Peer Key × Except String Unit :=
  match s.wal, fault with
  | none, _ => (s, .error "replica WAL not enabled")
  | some (w, bytes), some (written, message) =>
      ({ s with wal := some (w, bytes ++ (w.frameBytes aead f).take written) }, .error message)
  | some (w, bytes), none =>
      (⟨some (w.advance, bytes ++ w.frameBytes aead f), s.frames + 1⟩, .ok ())

/-- `internal_replicate`. -/
def internalReplicate (aead : Aead Key) (s : Peer Key) (dbHeader multHeader : List Char)
    (body : Bytes) (fault : Option (Nat × String)) : Peer Key × Status :=
  let db := (toStr dbHeader).getD []
  if db = [] then (s, .badRequest "missing x-repl-db")
  else
    let mult := ((toStr multHeader).bind parseI64).getD 1
    match replicateReceive aead s ⟨String.ofList db, Int64.ofInt mult, body⟩ fault with
    | (s, .ok ()) => (s, .ok)
    | (s, .error message) => (s, .internal message)

/-- What becomes of a request: it does not reach the peer, or it does, with what the append
meets there and whether the answer comes back in time. -/
inductive Passage where
  | lost
  | reached (fault : Option (Nat × String)) (answered : Bool)
  deriving DecidableEq, Repr

/-- `replicate`, and what it does to the peer. -/
def replicate (aead : Aead Key) (s : Peer Key) (db : String) (mult : Int64) (body : Bytes)
    (passage : Passage) : Peer Key × Bool :=
  match headerValue db.toList, headerValue (padInt 0 mult.toInt), passage with
  | some dbValue, some multValue, .reached fault answered =>
      match internalReplicate aead s (stripBlanks dbValue) (stripBlanks multValue) body fault with
      | (s, .ok) => (s, answered)
      | (s, _) => (s, false)
  | _, _, _ => (s, false)

end Machine

section Statement

/-- The log has taken bytes that its reader takes for this frame, whatever follows. -/
def Gained (aead : Aead Key) (before after : Peer Key) (f : Frame) : Prop :=
  ∃ w bytes gained, before.wal = some (w, bytes) ∧
    after = ⟨some (w.advance, bytes ++ gained), before.frames + 1⟩ ∧
    ∀ rest, w.readFrame aead (gained ++ rest) = .ok (some (f, rest))

/-- A write that is acknowledged as replicated is held by the peer as it is. -/
def Faithful (aead : Aead Key) (s : Peer Key) (f : Frame) : Prop :=
  ∀ passage, (replicate aead s f.db f.mult f.body passage).2 = true →
    Gained aead s (replicate aead s f.db f.mult f.body passage).1 f

/-- A name that the peer reads at all. -/
def Crosses (db : String) : Prop :=
  (∀ c ∈ db.toList, isVisible c = true) ∧ stripBlanks db.toList ≠ []

end Statement

section Headers

theorem isControl_of_isVisible {c : Char} (h : isVisible c = true) : isControl c = false := by
  by_cases htab : c = '\t'
  · simp [isControl, htab]
  · simp only [isVisible, htab, decide_false, Bool.false_or, Bool.and_eq_true,
      decide_eq_true_eq] at h
    have hlow : ¬ c.toNat < 32 := by omega
    have hdel : c.toNat ≠ 127 := by omega
    simp [isControl, hlow, hdel]

theorem headerValue_of_visible {text : List Char} (h : ∀ c ∈ text, isVisible c = true) :
    headerValue text = some text := by
  rw [headerValue, if_neg]
  rw [List.any_eq_true]
  rintro ⟨c, hc, hcontrol⟩
  rw [isControl_of_isVisible (h c hc)] at hcontrol
  cases hcontrol

theorem isInfix_stripBlanks (value : List Char) : stripBlanks value <:+: value :=
  (List.rdropWhile_prefix _ _).isInfix.trans (List.dropWhile_suffix _).isInfix

/-- A blank is visible, so what is dropped does not decide whether a value is read. -/
theorem visible_of_stripBlanks {value : List Char}
    (h : ∀ c ∈ stripBlanks value, isVisible c = true) : ∀ c ∈ value, isVisible c = true := by
  have hblank : ∀ c, isBlank c = true → isVisible c = true := by
    intro c hc
    rcases Bool.or_eq_true_iff.mp hc with hc | hc
    · rw [of_decide_eq_true hc]
      rfl
    · rw [of_decide_eq_true hc]
      rfl
  intro c hc
  rw [← List.takeWhile_append_dropWhile (p := isBlank) (l := value)] at hc
  rcases List.mem_append.mp hc with hc | hc
  · exact hblank c (List.mem_takeWhile_imp hc)
  · rw [← List.rdropWhile_append_rtakeWhile (p := isBlank) (l := value.dropWhile isBlank)] at hc
    rcases List.mem_append.mp hc with hc | hc
    · exact h c hc
    · exact hblank c (List.mem_rtakeWhile_imp hc)

end Headers

section Names

theorem ofList_append_length (left right : List Char) :
    (utf8 (String.ofList (left ++ right))).length =
      (utf8 (String.ofList left)).length + (utf8 (String.ofList right)).length := by
  have hsize : ∀ s : String, (utf8 s).length = s.toByteArray.size := fun _ => rfl
  rw [hsize, hsize, hsize, String.ofList_append, String.toByteArray_append, ByteArray.size_append]

theorem length_utf8_stripBlanks (db : String) :
    (utf8 (String.ofList (stripBlanks db.toList))).length ≤ (utf8 db).length := by
  obtain ⟨front, back, hsplit⟩ := isInfix_stripBlanks db.toList
  have hwhole := congrArg (fun l => (utf8 (String.ofList l)).length) hsplit
  simp only [ofList_append_length, String.ofList_toList] at hwhole
  omega

theorem number_visible {c : Char} (h : c = '-' ∨ c.isDigit = true) :
    isVisible c = true ∧ isBlank c = false := by
  rcases h with rfl | h
  · exact ⟨rfl, rfl⟩
  · have hbounds : 48 ≤ c.toNat ∧ c.toNat ≤ 57 := by
      simpa [Char.isDigit, UInt32.le_iff_toNat_le] using h
    have hspace : c ≠ ' ' := by
      rintro rfl
      exact absurd h (by decide)
    have htab : c ≠ '\t' := by
      rintro rfl
      exact absurd h (by decide)
    have hlow : 32 ≤ c.toNat := by omega
    have hhigh : c.toNat < 127 := by omega
    simp [isVisible, isBlank, hspace, htab, hlow, hhigh]

theorem stripBlanks_self {value : List Char} (h : ∀ c ∈ value, isBlank c = false) :
    stripBlanks value = value := by
  have hdrop : value.dropWhile isBlank = value :=
    List.dropWhile_eq_self_iff.mpr fun hl => by simp [h _ (List.getElem_mem hl)]
  rw [stripBlanks, hdrop, List.rdropWhile_eq_self_iff]
  intro hne
  rw [h _ (List.getLast_mem hne)]
  exact Bool.false_ne_true

/-- The multiplier arrives as it was. -/
theorem multHeader_read (mult : Int64) :
    headerValue (padInt 0 mult.toInt) = some (padInt 0 mult.toInt) ∧
      Int64.ofInt (((toStr (stripBlanks (padInt 0 mult.toInt))).bind parseI64).getD 1) = mult := by
  have hchars : ∀ c ∈ padInt 0 mult.toInt, isVisible c = true ∧ isBlank c = false :=
    fun c hc => number_visible (padInt_chars hc)
  refine ⟨headerValue_of_visible fun c hc => (hchars c hc).1, ?_⟩
  have hread : toStr (padInt 0 mult.toInt) = some (padInt 0 mult.toInt) :=
    if_pos (List.all_eq_true.mpr fun c hc => (hchars c hc).1)
  have hrange : i64 mult.toInt = some mult.toInt :=
    if_pos ⟨Int64.le_toInt mult, Int64.toInt_lt mult⟩
  rw [stripBlanks_self fun c hc => (hchars c hc).2, hread, Option.bind_some,
    parseI64_padInt hrange, Option.getD_some, Int64.ofInt_toInt]

/-- The peer's side of a name that crosses, and of one that does not. -/
theorem internalReplicate_crosses (aead : Aead Key) (s : Peer Key) {f : Frame}
    (hdb : Crosses f.db) (fault : Option (Nat × String)) :
    internalReplicate aead s (stripBlanks f.db.toList)
        (stripBlanks (padInt 0 f.mult.toInt)) f.body fault =
      match replicateReceive aead s
        ⟨String.ofList (stripBlanks f.db.toList), f.mult, f.body⟩ fault with
      | (s, .ok ()) => (s, .ok)
      | (s, .error message) => (s, .internal message) := by
  have hread : toStr (stripBlanks f.db.toList) = some (stripBlanks f.db.toList) :=
    if_pos (List.all_eq_true.mpr fun c hc =>
      hdb.1 c ((isInfix_stripBlanks f.db.toList).subset hc))
  simp only [internalReplicate, hread, Option.getD_some, if_neg hdb.2, (multHeader_read f.mult).2]

theorem crosses_of_ok {aead : Aead Key} {s t : Peer Key} {db : String} {mult : List Char}
    {body : Bytes} {fault : Option (Nat × String)}
    (h : internalReplicate aead s (stripBlanks db.toList) mult body fault = (t, .ok)) :
    Crosses db := by
  have hne : (toStr (stripBlanks db.toList)).getD [] ≠ [] := by
    intro hnil
    rw [internalReplicate, if_pos hnil] at h
    cases h
  by_cases hall : (stripBlanks db.toList).all isVisible
  · rw [toStr, if_pos hall] at hne
    exact ⟨visible_of_stripBlanks (List.all_eq_true.mp hall), hne⟩
  · rw [toStr, if_neg hall] at hne
    exact absurd rfl hne

end Names

section Passages

variable {aead : Aead Key} {s : Peer Key} {f : Frame}

/-- What the peer holds after a request that was acknowledged. -/
theorem replicate_acknowledged {passage : Passage}
    (h : (replicate aead s f.db f.mult f.body passage).2 = true) :
    Crosses f.db ∧ ∃ w bytes, s.wal = some (w, bytes) ∧
      (replicate aead s f.db f.mult f.body passage).1 =
        ⟨some (w.advance, bytes ++ w.frameBytes aead
          ⟨String.ofList (stripBlanks f.db.toList), f.mult, f.body⟩), s.frames + 1⟩ := by
  cases passage with
  | lost => simp [replicate] at h
  | reached fault answered =>
      cases hvalue : headerValue f.db.toList with
      | none => simp [replicate, hvalue] at h
      | some value =>
          obtain rfl : value = f.db.toList := by
            unfold headerValue at hvalue
            split at hvalue
            · cases hvalue
            · exact (Option.some.inj hvalue).symm
          simp only [replicate, hvalue, (multHeader_read f.mult).1] at h ⊢
          split at h
          · next t hstatus =>
              have hdb := crosses_of_ok hstatus
              refine ⟨hdb, ?_⟩
              rw [internalReplicate_crosses aead s hdb] at hstatus
              cases hwal : s.wal with
              | none => simp [replicateReceive, hwal] at hstatus
              | some p =>
                  obtain ⟨w, bytes⟩ := p
                  cases fault with
                  | some p => simp [replicateReceive, hwal] at hstatus
                  | none =>
                      simp only [replicateReceive, hwal, Prod.mk.injEq, and_true] at hstatus
                      exact ⟨w, bytes, rfl, hstatus.symm⟩
          · cases h

/-- A name that crosses is acknowledged where nothing goes wrong. -/
theorem replicate_reached {w : Handle Key} {bytes : Bytes} (hwal : s.wal = some (w, bytes))
    (hdb : Crosses f.db) :
    (replicate aead s f.db f.mult f.body (.reached none true)).2 = true := by
  have hstatus := internalReplicate_crosses aead s hdb none
  simp only [replicateReceive, hwal] at hstatus
  simp only [replicate, headerValue_of_visible hdb.1, (multHeader_read f.mult).1, hstatus]

/-- A frame that is read where another was written is that frame. -/
theorem eq_of_reads {w : Handle Key} {g : Frame}
    (hdb : (utf8 g.db).length ≤ (utf8 f.db).length) (hbody : g.body = f.body)
    (h : ∀ rest, w.readFrame aead (w.frameBytes aead g ++ rest) = .ok (some (f, rest))) :
    g = f ∧ w.Fits f := by
  have hfits : w.Fits g := by
    have hnil := h []
    unfold Handle.readFrame Handle.frameBytes at hnil
    unfold Handle.Fits
    have hsmall : f.Fits → g.Fits := fun hf => ⟨hdb.trans hf.db, hbody ▸ hf.body⟩
    cases henc : w.enc with
    | none =>
        rw [henc] at hnil
        exact hsmall (Wal.fits_of_readFrame hnil)
    | some p =>
        rw [henc] at hnil
        obtain ⟨hf, hlen⟩ := Wal.of_readFrameEncrypted hnil
        refine ⟨hsmall hf, ?_⟩
        rw [List.append_nil, Wal.length_sealedFrame, List.length_nil] at hlen
        omega
  have hread : w.readFrame aead (w.frameBytes aead g ++ []) = .ok (some (g, [])) :=
    hfits.roundTrips []
  rw [h []] at hread
  obtain rfl : f = g := by
    injection hread with hread
    exact congrArg Prod.fst (Option.some.inj hread)
  exact ⟨rfl, hfits⟩

end Passages

/-- A name that crosses and is held as it is has no blank around it. -/
theorem stripped_of_faithful {aead : Aead Key} {s : Peer Key} {f : Frame}
    (hall : Faithful aead s f) {w : Handle Key} {bytes : Bytes}
    (hwal : s.wal = some (w, bytes)) (hdb : Crosses f.db) :
    stripBlanks f.db.toList = f.db.toList ∧ w.Fits f := by
  have hack : (replicate aead s f.db f.mult f.body (.reached none true)).2 = true :=
    replicate_reached hwal hdb
  obtain ⟨v, held, gained, hbefore, hafter, hreads⟩ := hall _ hack
  obtain ⟨-, v', held', hbefore', hafter'⟩ := replicate_acknowledged hack
  obtain ⟨rfl, rfl⟩ := Prod.mk.inj (Option.some.inj (hwal.symm.trans hbefore))
  obtain ⟨rfl, rfl⟩ := Prod.mk.inj (Option.some.inj (hwal.symm.trans hbefore'))
  have hgained : gained = w.frameBytes aead
      ⟨String.ofList (stripBlanks f.db.toList), f.mult, f.body⟩ := by
    rw [hafter, Peer.mk.injEq, Option.some.injEq, Prod.mk.injEq] at hafter'
    exact List.append_cancel_left hafter'.1.2
  rw [hgained] at hreads
  obtain ⟨hself, hfits⟩ := eq_of_reads
    (g := ⟨String.ofList (stripBlanks f.db.toList), f.mult, f.body⟩)
    (length_utf8_stripBlanks f.db) rfl hreads
  refine ⟨?_, hfits⟩
  have hname : String.ofList (stripBlanks f.db.toList) = f.db := congrArg Frame.db hself
  exact String.toList_ofList.symm.trans (congrArg String.toList hname)

/-- A frame of any name, multiplier and body is held as it is whenever it is acknowledged,
exactly if the name cannot be read by the peer, or has no blank around it and the frame is
within the limits of the log's reader. -/
theorem acknowledged_faithful_iff (aead : Aead Key) (s : Peer Key) (f : Frame) :
    Faithful aead s f ↔ ∀ w bytes, s.wal = some (w, bytes) → Crosses f.db →
      stripBlanks f.db.toList = f.db.toList ∧ w.Fits f := by
  constructor
  · exact fun hall w bytes hwal hdb => stripped_of_faithful hall hwal hdb
  · intro hcond passage hack
    obtain ⟨hdb, w, bytes, hwal, hafter⟩ := replicate_acknowledged hack
    obtain ⟨hstrip, hfits⟩ := hcond w bytes hwal hdb
    rw [hstrip, String.ofList_toList] at hafter
    exact ⟨w, bytes, _, hwal, hafter, hfits.roundTrips⟩

/-- A point for a database whose name starts with a blank. -/
def spacedCall : Call := ⟨" poc", utf8 "cpu v=1i", none⟩

/-- It is written, acknowledged as replicated and kept by the peer for another database. -/
theorem spaced_name_kept_trimmed :
    ¬∀ (fl : FloatOps) (n : Node) (c : Call) (weather : Weather) (lines : Nat) (mult : Int64),
      (n.write fl c weather).2 = .ok lines → c.mult = .ok mult →
      ∀ s : Peer Nat, Faithful Wal.tagAead s ⟨c.db, mult, c.body⟩ := by
  intro hall
  have hwritten : ((openNode noFloats emptyBoot []).write noFloats spacedCall (clear 0)).2 =
      .ok 1 := by
    decide +kernel
  have hfaithful := hall noFloats _ spacedCall _ 1 1 hwritten rfl ⟨some (⟨0, 0, none⟩, []), 0⟩
  have hvisible : " poc".toList.all isVisible = true := by decide +kernel
  have hcrosses : Crosses " poc" :=
    ⟨List.all_eq_true.mp hvisible, by decide +kernel⟩
  have hblank : stripBlanks [' ', 'p', 'o', 'c'] ≠ [' ', 'p', 'o', 'c'] := by decide
  exact hblank (stripped_of_faithful hfaithful rfl hcrosses).1

end TimeLake.Ingest.Replication
