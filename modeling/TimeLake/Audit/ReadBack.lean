import TimeLake.Audit.Evident
import TimeLake.Library.Run

/-!
The trail of an `AuditSink` as the texts of its segments, written by appends and read back
line by line. A record is read back with its own text if its values are not nested deeper
than `serde_json` reads and their numbers keep their texts; then the hashes agree too, and
what a run of appends wrote verifies. A value that is nested deeper is written and hashed
like any other, and from then on the trail cannot be read.
-/

namespace TimeLake.Audit

open TimeLake.Library

section Kept

variable {F : Type} (fmt : FloatFormat F)

/-- A value that a record can be read back with: the record itself is one level of
nesting more. -/
def Value.Kept (v : Value F) : Prop :=
  v.json.depth < nesting ∧ v.json.Proper (Number.Rereads fmt)

def Event.Kept (e : Event F) : Prop :=
  (∀ v, e.before = some v → v.Kept fmt) ∧ ∀ v, e.after = some v → v.Kept fmt

theorem optionOf_some {α : Type} (f : Json (List Char) → Option α) {v : Json (List Char)}
    (h : v ≠ .null) : optionOf f (some v) = (f v).map some := by
  cases v with
  | null => exact absurd rfl h
  | _ => rfl

theorem optionOf_optionText (s : Option String) :
    optionOf stringOf (some (optionText s)) = some s := by
  cases s <;> rfl

theorem valueOf_kept {v : Value F} (h : v.Kept fmt) :
    ∃ w, valueOf fmt (treeOf fmt (some v)) = some w ∧
      (treeOf fmt (some w)).write id = (treeOf fmt (some v)).write id := by
  have hnumbers : ∀ n : Number F, n.Rereads fmt →
      ∃ m, Number.parse fmt (n.text fmt) = some m ∧ m.text fmt = n.text fmt :=
    fun _ => Number.parse_text fmt
  obtain ⟨w, hw, htext⟩ := Json.decode_write hnumbers v.json h.2
  refine ⟨⟨w, Json.decode_proper (fun _ _ _ => trivial) _ hw⟩, ?_, ?_⟩
  · unfold valueOf
    split
    · next u hu =>
        obtain rfl := Option.some.inj (hu.symm.trans hw)
        rfl
    · next hnone =>
        rw [treeOf_some, hw] at hnone
        cases hnone
  · rw [treeOf_some, treeOf_some, Json.write_mapNum, Json.write_mapNum]
    exact htext

/-- A kept value is read as a value of the same text; `Some(Value::Null)` as `None`. -/
theorem optionOf_treeOf (o : Option (Value F)) (h : ∀ v, o = some v → v.Kept fmt) :
    ∃ p, optionOf (valueOf fmt) (some (treeOf fmt o)) = some p ∧
      (treeOf fmt p).write id = (treeOf fmt o).write id := by
  cases o with
  | none => exact ⟨none, rfl, rfl⟩
  | some v =>
      by_cases hnull : treeOf fmt (some v) = .null
      · rw [hnull]
        exact ⟨none, rfl, rfl⟩
      · obtain ⟨w, hw, htext⟩ := valueOf_kept fmt (h v rfl)
        exact ⟨some w, by rw [optionOf_some _ hnull, hw, Option.map_some], htext⟩

theorem depth_treeOf (o : Option (Value F)) (h : ∀ v, o = some v → v.Kept fmt) :
    (treeOf fmt o).depth < nesting := by
  cases o with
  | none => exact Nat.zero_lt_succ _
  | some v =>
      rw [treeOf_some, Json.depth_mapNum]
      exact (h v rfl).1

theorem recordOf_members (x : Entry F) (hseq : x.seq < 2 ^ 64) {before after : Option (Value F)}
    (hbefore : optionOf (valueOf fmt) (some (treeOf fmt x.before)) = some before)
    (hafter : optionOf (valueOf fmt) (some (treeOf fmt x.after)) = some after) :
    recordOf fmt (x.members fmt ++ [("hash", .str x.hash)]) =
      some { x with before := before, after := after } := by
  have hnames : (x.members fmt ++ [("hash", Json.str x.hash)]).map Prod.fst = fieldNames := rfl
  have hu64 : u64Of (.num (Nat.toDigits 10 x.seq)) = some x.seq := by
    rw [u64Of, Json.natural_toDigits, Option.filter_some, if_pos (decide_eq_true hseq)]
  rw [recordOf, hnames, if_pos (by decide)]
  -- The strings read as themselves.
  change (do
    let seq ← u64Of (.num (Nat.toDigits 10 x.seq))
    let session ← optionOf stringOf (some (optionText x.session))
    let source ← optionOf stringOf (some (optionText x.source))
    let requestId ← optionOf stringOf (some (optionText x.requestId))
    let target ← optionOf stringOf (some (optionText x.target))
    let before ← optionOf (valueOf fmt) (some (treeOf fmt x.before))
    let after ← optionOf (valueOf fmt) (some (treeOf fmt x.after))
    some { x with seq, session, source, requestId, target, before, after }) = _
  simp only [hu64, optionOf_optionText, hbefore, hafter, Option.bind_eq_bind, Option.bind_some]

theorem depth_members (x : Entry F) (h : x.toEvent.Kept fmt) :
    (Json.obj (x.members fmt ++ [("hash", .str x.hash)])).depth ≤ nesting := by
  have hoption : ∀ s, (optionText s).depth = 0 := by
    intro s
    cases s <;> rfl
  have hbefore := depth_treeOf fmt x.before h.1
  have hafter := depth_treeOf fmt x.after h.2
  simp only [Entry.members, fields, List.cons_append, List.nil_append, Json.depth,
    Json.depthMembers, hoption]
  omega

/-- A value that is nested deeper than that cannot be read back. -/
theorem readRecord_deep (x : Entry F) {v : Value F} (hv : x.before = some v ∨ x.after = some v)
    (h : nesting ≤ v.json.depth) : readRecord fmt (x.texts fmt).text = none := by
  have hdeep : ¬(Json.obj (x.members fmt ++ [("hash", .str x.hash)])).depth ≤ nesting := by
    have hmember : ∃ key, (key, treeOf fmt (some v)) ∈
        x.members fmt ++ [("hash", .str x.hash)] := by
      rcases hv with hv | hv
      · exact ⟨"before", by simp [Entry.members, fields, hv]⟩
      · exact ⟨"after", by simp [Entry.members, fields, hv]⟩
    obtain ⟨key, hin⟩ := hmember
    have hle := Json.depth_le_depthMembers hin
    rw [treeOf_some, Json.depth_mapNum] at hle
    rw [Json.depth]
    omega
  have hread := Json.read_write _ (proper_members fmt x) nesting [] trivial
  rw [if_neg hdeep, List.append_nil, ← text_eq] at hread
  rw [readRecord, hread]

/-- What `append` writes for a kept event is read as a record with the same text. -/
theorem readRecord_text (x : Entry F) (hseq : x.seq < 2 ^ 64) (h : x.toEvent.Kept fmt) :
    ∃ y : Entry F, readRecord fmt (x.texts fmt).text = some y ∧
      y.seq = x.seq ∧ y.hash = x.hash ∧ y.prevHash = x.prevHash ∧
      (y.texts fmt).text = (x.texts fmt).text ∧
      hashedBytes (y.texts fmt).toHashInput = hashedBytes (x.texts fmt).toHashInput := by
  obtain ⟨before, hbefore, hb⟩ := optionOf_treeOf fmt x.before h.1
  obtain ⟨after, hafter, ha⟩ := optionOf_treeOf fmt x.after h.2
  have hread := Json.read_write _ (proper_members fmt x) nesting [] trivial
  rw [if_pos (depth_members fmt x h)] at hread
  refine ⟨{ x with before := before, after := after }, ?_, rfl, rfl, rfl, ?_, ?_⟩
  · rw [List.append_nil, ← text_eq] at hread
    rw [readRecord, hread]
    change (if true = true then recordOf fmt _ else none) = _
    rw [if_pos rfl]
    exact recordOf_members fmt x hseq hbefore hafter
  · rw [text_eq, text_eq]
    exact write_fields _ hb ha _
  · rw [hashedBytes, hashedBytes, json_write, json_write]
    have hjson := write_fields (x.texts fmt).toHashInput hb ha []
    rw [List.append_nil, List.append_nil] at hjson
    exact congrArg (fun cs => encodeChars (cs ++ x.prevHash.toList)) hjson

end Kept

section Lines

variable {F : Type} (fmt : FloatFormat F)

theorem isNumberChar_visible {c : Char} (h : Json.isNumberChar c = true) : 32 ≤ c.toNat := by
  simp only [Json.isNumberChar, Bool.or_eq_true, decide_eq_true_eq] at h
  rcases h with ((((h | rfl) | rfl) | rfl) | rfl) | rfl
  · have hzero : '0'.toNat = 48 := rfl
    have hdigit := (Char.isDigit_iff_toNat.mp h).1
    omega
  · decide
  · decide
  · decide
  · decide
  · decide

/-- The text of a record has no line feeds and no carriage returns. -/
theorem text_visible (x : Entry F) : ∀ c ∈ (x.texts fmt).text, 32 ≤ c.toNat := by
  rw [text_eq]
  exact Json.write_visible (fun n hn c hc => isNumberChar_visible (hn.1 c hc)) _
    (proper_members fmt x)

theorem lines_concat {text line : List Char} (hends : text = [] ∨ ∃ front, text = front ++ ['\n'])
    (h : ∀ c ∈ line, 32 ≤ c.toNat) : lines (text ++ (line ++ ['\n'])) = lines text ++ [line] := by
  have hbreak : '\n' ∉ line := fun hin => absurd (h _ hin) (by decide)
  have hreturn : line.getLast? ≠ some '\r' := fun hlast =>
    absurd (h _ (List.mem_of_getLast? hlast)) (by decide)
  have hpieces : pieces '\n' (text ++ (line ++ ['\n'])) = pieces '\n' text ++ [line] := by
    rcases hends with rfl | ⟨front, rfl⟩
    · exact pieces_concat hbreak
    · rw [List.append_assoc, List.singleton_append, pieces_append, pieces_concat hbreak]
  rw [lines, hpieces, List.map_append, List.map_singleton, if_neg hreturn, lines]

theorem readText_concat {text : List Char} (hends : text = [] ∨ ∃ front, text = front ++ ['\n'])
    (x : Entry F) : readText fmt (text ++ (x.texts fmt).line) =
      (readText fmt text).bind fun xs => (readRecord fmt (x.texts fmt).text).map fun y =>
        xs ++ [y] := by
  have hfull : [(x.texts fmt).text].filter (fun line => !line.all Query.isWhitespace) =
      [(x.texts fmt).text] := List.filter_cons_of_pos rfl
  rw [readText, AuditRecord.line, lines_concat hends (text_visible fmt x), List.filter_append,
    hfull, List.mapM_append, List.mapM_cons, List.mapM_nil, readText]
  simp only [Option.bind_eq_bind, Option.pure_def, Option.bind_some, Option.bind_assoc,
    Option.map_eq_bind]
  rfl

end Lines

section Machine

variable {F : Type} (fmt : FloatFormat F) (digest : Bytes → String)

/-- `AuditSink` with the texts of its segments. -/
structure Trail where
  nextSeq : Nat
  head : String
  rotated : List (List Char)
  live : List Char

namespace Trail

def fresh : Trail := ⟨1, genesis, [], []⟩

def segments (t : Trail) : List (List Char) := t.rotated ++ [t.live]

def readAll (t : Trail) : Option (List (Entry F)) :=
  (t.segments.mapM (readText fmt)).map List.flatten

/-- The live segment is renamed, and `prune` deletes the expired ones, which are given by
their places. -/
def rotate (t : Trail) (expired : List Nat) : Trail :=
  { t with
    rotated := ((t.rotated ++ [t.live]).zipIdx.filter fun p => !expired.contains p.2).map Prod.fst
    live := [] }

structure Append (F : Type) where
  node : String
  ts : String
  event : Event F
  /-- Whether one of the triggers fires. -/
  due : Bool
  expired : List Nat

/-- An `append` that succeeds; none does behind the last sequence number. -/
def append (t : Trail) (a : Append F) : Option Trail :=
  let r := newRecord (sha256 digest) (t.nextSeq, t.head) a.node a.ts (a.event.texts fmt)
  let t := if a.due && !t.live.isEmpty then t.rotate a.expired else t
  if r.seq + 1 < 2 ^ 64 then
    some { t with nextSeq := r.seq + 1, head := r.hash, live := t.live ++ r.line }
  else none

inductive Action (F : Type) where
  | append (a : Append F)
  | reopen

/-- `open_with` on the segments, if it can read them. -/
def reopen (t : Trail) : Option Trail :=
  (t.readAll fmt).map fun es =>
    let next := recover (es.map (Entry.texts fmt))
    { t with nextSeq := next.1, head := next.2 }

def step (t : Trail) : Action F → Option Trail
  | .append a => t.append fmt digest a
  | .reopen => t.reopen fmt

/-- The values can be read back, and no segment is deleted. -/
def Action.Kept : Action F → Prop
  | .append a => a.event.Kept fmt ∧ (a.due = true → a.expired = [])
  | .reopen => True

def appends (actions : List (Action F)) : Nat :=
  actions.countP fun
    | .append _ => true
    | .reopen => false

end Trail

end Machine

section Runs

variable {F : Type} (fmt : FloatFormat F) (digest : Bytes → String)

namespace Trail

/-- The entries a trail reads as are chained, written as they stand in the segments, and
what the sink continues from. -/
structure Holds (t : Trail) (es : List (Entry F)) : Prop where
  read : t.readAll fmt = some es
  chained : Chained (sha256 digest) (1, genesis) (es.map (Entry.texts fmt))
  next : recover (es.map (Entry.texts fmt)) = (t.nextSeq, t.head)
  small : t.nextSeq < 2 ^ 64
  content : (es.map fun e => (e.texts fmt).line).flatten = t.segments.flatten
  ended : t.live = [] ∨ ∃ front, t.live = front ++ ['\n']

variable {fmt digest} {t : Trail} {es : List (Entry F)}

theorem Holds.rotate (h : t.Holds fmt digest es) : (t.rotate []).Holds fmt digest es := by
  have hsegments : (t.rotate []).segments = t.segments ++ [[]] := by
    simp [Trail.rotate, Trail.segments, List.filter_true, List.zipIdx_map_fst]
  refine ⟨?_, h.chained, h.next, h.small, ?_, .inl rfl⟩
  · have hread := h.read
    rw [readAll] at hread ⊢
    obtain ⟨ess, hess, hflat⟩ := Option.map_eq_some_iff.mp hread
    have hempty : [[]].mapM (readText fmt) = some [[]] := rfl
    rw [hsegments, List.mapM_append, hess, hempty]
    exact congrArg some (by rw [List.flatten_append, hflat]; exact List.append_nil es)
  · rw [h.content, hsegments, List.flatten_append]
    exact (List.append_nil _).symm

theorem readAll_eq_some {es : List (Entry F)} : t.readAll fmt = some es ↔
    ∃ ess xs, t.rotated.mapM (readText fmt) = some ess ∧ readText fmt t.live = some xs ∧
      es = ess.flatten ++ xs := by
  rw [readAll, segments, List.mapM_append, List.mapM_cons, List.mapM_nil]
  cases t.rotated.mapM (readText fmt) with
  | none => simp
  | some ess =>
      cases readText fmt t.live with
      | none => simp
      | some xs => simp [eq_comm]

/-- A record that cannot be read back makes the trail unreadable. -/
theorem readAll_deep {text : List Char} (hends : text = [] ∨ ∃ front, text = front ++ ['\n'])
    {x : Entry F} (hlive : t.live = text ++ (x.texts fmt).line) {v : Value F}
    (hv : x.before = some v ∨ x.after = some v) (h : nesting ≤ v.json.depth) :
    t.readAll fmt = none := by
  refine Option.eq_none_iff_forall_ne_some.mpr fun es hes => ?_
  obtain ⟨ess, xs, _, hxs, _⟩ := readAll_eq_some.mp hes
  rw [hlive, readText_concat fmt hends, readRecord_deep fmt x hv h] at hxs
  obtain ⟨_, _, hnone⟩ := Option.bind_eq_some_iff.mp hxs
  cases hnone

/-- A line is written behind the live segment. -/
theorem Holds.line (h : t.Holds fmt digest es) {node ts : String} {event : Event F}
    (hkept : event.Kept fmt) (hsmall : t.nextSeq + 1 < 2 ^ 64) {r : AuditRecord}
    (hr : r = newRecord (sha256 digest) (t.nextSeq, t.head) node ts (event.texts fmt)) :
    ∃ y, ({ t with nextSeq := r.seq + 1, head := r.hash, live := t.live ++ r.line } : Trail).Holds
      fmt digest (es ++ [y]) := by
  let x : Entry F := { event with seq := t.nextSeq, ts, node, prevHash := t.head, hash := r.hash }
  have hx : x.texts fmt = r := by
    subst hr
    rfl
  obtain ⟨y, hy, hseq, hhash, hprev, htext, hbytes⟩ := readRecord_text fmt x h.small hkept
  have hcompute : computeHash (sha256 digest) (y.texts fmt) = (y.texts fmt).hash := by
    have hrhash : sha256 digest (x.texts fmt).toHashInput = x.hash := by
      rw [hx]
      change _ = r.hash
      rw [hr]
      rfl
    change "sha256:" ++ digest (hashedBytes _) = y.hash
    rw [hbytes, hhash, ← hrhash]
    rfl
  have hlines : (y.texts fmt).line = r.line := by
    rw [AuditRecord.line, AuditRecord.line, htext, hx]
  refine ⟨y, ⟨?_, ?_, ?_, ?_, ?_, ?_⟩⟩
  · obtain ⟨ess, xs, hess, hxs, hes⟩ := readAll_eq_some.mp h.read
    have hline := readText_concat fmt h.ended x
    rw [hxs, hy, hx] at hline
    exact readAll_eq_some.mpr ⟨ess, xs ++ [y], hess, hline, by rw [hes, List.append_assoc]⟩
  · rw [List.map_append, List.map_singleton]
    refine h.chained.snoc ?_ hcompute
    rw [h.next]
    exact Prod.ext hseq.symm hprev.symm
  · rw [List.map_append, List.map_singleton, recover_concat]
    refine Prod.ext ?_ hhash
    change y.seq + 1 = r.seq + 1
    rw [hseq, ← hx]
    rfl
  · change r.seq + 1 < 2 ^ 64
    rw [hr]
    exact hsmall
  · rw [List.map_append, List.flatten_append, h.content, List.map_singleton, hlines]
    simp [segments]
  · exact .inr ⟨t.live ++ r.text, (List.append_assoc _ _ _).symm⟩

/-- Reopening finds what the sink held. -/
theorem Holds.reopen {u : Trail} (h : t.Holds fmt digest es) (hu : t.reopen fmt = some u) :
    u = t := by
  rw [Trail.reopen, h.read, Option.map_some] at hu
  obtain rfl := Option.some.inj hu
  rw [h.next]

/-- One step of a run whose records are kept. -/
theorem Holds.step {u : Trail} {a : Action F} (h : t.Holds fmt digest es)
    (hkept : a.Kept fmt) (hstep : t.step fmt digest a = some u) :
    ∃ es' : List (Entry F), u.Holds fmt digest es' ∧ es'.length = es.length + appends [a] := by
  cases a with
  | reopen =>
      obtain rfl := h.reopen hstep
      exact ⟨es, h, rfl⟩
  | append a =>
      change t.append fmt digest a = some u at hstep
      obtain ⟨hevent, hundeleted⟩ := hkept
      rw [append] at hstep
      generalize hp : (if a.due && !t.live.isEmpty then t.rotate a.expired else t) = p at hstep
      have hprepared : p.Holds fmt digest es ∧ p.nextSeq = t.nextSeq ∧ p.head = t.head := by
        rw [← hp]
        split
        · next hdue =>
            rw [hundeleted (Bool.and_eq_true_iff.mp hdue).1]
            exact ⟨h.rotate, rfl, rfl⟩
        · exact ⟨h, rfl, rfl⟩
      obtain ⟨hholds, hnext, hhead⟩ := hprepared
      split at hstep
      · next hsmall =>
          obtain rfl := Option.some.inj hstep
          obtain ⟨y, hy⟩ := hholds.line hevent (by rw [hnext]; exact hsmall)
            (by rw [hnext, hhead])
          exact ⟨es ++ [y], hy, List.length_append⟩
      · cases hstep

theorem Holds.fresh : Trail.fresh.Holds fmt digest [] :=
  ⟨rfl, trivial, rfl, by decide, rfl, .inl rfl⟩

end Trail

/-- Two lists that end in one hash are the same records as they are written, or one of them
does not verify; and a run of appends, with rotations and reopenings between them, is read
back as the records it wrote, and they verify, where every value is nested at most 126
deep, every number of it is read again with its text, and no segment was deleted. -/
theorem tamper_evident (fmt : FloatFormat F) (digest : Bytes → String) :
    (∀ (xs ys : List (Entry F)) (x y : Entry F), xs.getLast? = some x → ys.getLast? = some y →
      x.hash = y.hash → Collisionless digest ((xs ++ ys).map (Entry.texts fmt)) →
      verifyRecords (sha256 digest) (xs.map (Entry.texts fmt)) = .ok () →
        xs.map (fun e => (e.texts fmt).text) = ys.map (fun e => (e.texts fmt).text) ∨
          ∃ brk, verifyRecords (sha256 digest) (ys.map (Entry.texts fmt)) = .error brk) ∧
    ∀ (actions : List (Trail.Action F)) (t : Trail),
      Run (Trail.step fmt digest) (fun _ a => a.Kept fmt) .fresh actions t →
        ∃ es : List (Entry F), t.readAll fmt = some es ∧ es.length = Trail.appends actions ∧
          (es.map fun e => (e.texts fmt).line).flatten = t.segments.flatten ∧
          verifyRecords (sha256 digest) (es.map (Entry.texts fmt)) = .ok () := by
  constructor
  · intro xs ys x y hx hy hhash hfree hxs
    cases hys : verifyRecords (sha256 digest) (ys.map (Entry.texts fmt)) with
    | error brk => exact .inr ⟨brk, rfl⟩
    | ok _ =>
        refine .inl (texts_eq_of_head xs ys hfree hxs hys ?_)
        obtain ⟨fx, rfl⟩ := List.getLast?_eq_some_iff.mp hx
        obtain ⟨fy, rfl⟩ := List.getLast?_eq_some_iff.mp hy
        rw [List.map_append, List.map_append, List.map_singleton, List.map_singleton,
          recover_concat, recover_concat]
        exact hhash
  · intro actions t hrun
    have hinv : ∃ es : List (Entry F), t.Holds fmt digest es ∧
        es.length = Trail.appends actions := by
      refine hrun.invariant_trace (P := fun t done => ∃ es : List (Entry F),
        t.Holds fmt digest es ∧ es.length = Trail.appends done) ?_ ⟨[], .fresh, rfl⟩
      rintro s done a u ⟨es, h, hlength⟩ hkept hstep
      obtain ⟨es', h', hlength'⟩ := h.step hkept hstep
      refine ⟨es', h', ?_⟩
      rw [hlength', hlength, Trail.appends, Trail.appends, Trail.appends, List.countP_append]
    obtain ⟨es, h, hlength⟩ := hinv
    exact ⟨es, h.read, hlength, h.content, h.chained.verify⟩

end Runs

section Samples

theorem isToken_half : Json.IsToken ['0', '.', '5'] := by
  refine ⟨?_, '0', ['.', '5'], rfl, .inl rfl⟩
  intro c hc
  simp only [List.mem_cons, List.not_mem_nil, or_false] at hc
  rcases hc with rfl | rfl | rfl <;> rfl

theorem fractional_half : ∃ c ∈ ['0', '.', '5'], c = '.' ∨ c = 'e' := ⟨'.', by simp, .inl rfl⟩

/-- One number that is no integer. -/
def halves : FloatFormat Unit where
  text _ := ['0', '.', '5']
  parse token := if token = ['0', '.', '5'] then some () else none
  token _ := isToken_half
  fractional _ := fractional_half

/-- SHA-256 of the records below, which differ in length. -/
def digests (bytes : Bytes) : String :=
  match bytes.length with
  | 280 => "e9952d93d8b8e85bd53f8292f25d5d18fc8637723107d5ef86965fd912f9f0fc"
  | 283 => "b07e82947d24c9a0a886ed9af6145f78a2386acb9453d47ddf01f173e68e545a"
  | 385 => "b2ff2295c21a8b396b78e352b525526606c2eb33aa8c8a3229bd20918acfeff1"
  | _ => "afddbdf9e461ed11d6e5c000e863fee9b201f28a50989c3fad3f49376db6dbb0"

def eventOf (action : String) (before after : Option (Value Unit)) : Event Unit :=
  { principal := "rcowell"
    role := "admin"
    session := none
    source := none
    requestId := none
    action := action
    target := none
    before := before
    after := after
    outcome := "ok" }

def stamp : String := "2025-01-01T00:00:00.000000Z"

def appendOf (e : Event Unit) (due : Bool) : Trail.Action Unit := .append ⟨"n1", stamp, e, due, []⟩

/-- The entry that is written for an event. -/
def entryOf (e : Event Unit) (next : Nat × String) : Entry Unit :=
  { e with
    seq := next.1
    ts := stamp
    node := "n1"
    prevHash := next.2
    hash := (newRecord (sha256 digests) next "n1" stamp (e.texts halves)).hash }

def valueOnly (v : Json (Number Unit)) (h : v.Proper fun _ => True) : Value Unit :=
  ⟨.obj [("value", v)], List.nodup_singleton _, h, trivial⟩

theorem thirty_inRange : (-2 ^ 63 : Int) ≤ 30 ∧ (30 : Int) < 2 ^ 64 := by decide

def retentionSet : Event Unit :=
  eventOf "retention.set" (some (valueOnly (.str "90d") trivial))
    (some (valueOnly (.num (.int ⟨30, thirty_inRange⟩)) trivial))

def tokenIssue : Event Unit :=
  eventOf "token.issue" none (some (valueOnly (.num (.float ())) trivial))

def firstEntry : Entry Unit := entryOf retentionSet (1, genesis)

def secondEntry : Entry Unit := entryOf tokenIssue (2, firstEntry.hash)

def editedEntry : Entry Unit := { firstEntry with principal := "root" }

theorem samples_collisionless : Collisionless digests
    ([firstEntry, secondEntry, editedEntry, secondEntry].map (Entry.texts halves)) := by
  have hfirst : digests (hashedBytes (firstEntry.texts halves).toHashInput) =
      "b07e82947d24c9a0a886ed9af6145f78a2386acb9453d47ddf01f173e68e545a" := by
    decide +kernel
  have hsecond : digests (hashedBytes (secondEntry.texts halves).toHashInput) =
      "b2ff2295c21a8b396b78e352b525526606c2eb33aa8c8a3229bd20918acfeff1" := by
    decide +kernel
  have hedited : digests (hashedBytes (editedEntry.texts halves).toHashInput) =
      "e9952d93d8b8e85bd53f8292f25d5d18fc8637723107d5ef86965fd912f9f0fc" := by
    decide +kernel
  constructor
  · intro r hr q hq heq
    simp only [List.map_cons, List.map_nil, List.mem_cons, List.not_mem_nil, or_false] at hr hq
    rcases hr with rfl | rfl | rfl | rfl <;> rcases hq with rfl | rfl | rfl | rfl <;>
      simp only [hfirst, hsecond, hedited] at heq ⊢ <;> simp at heq
  · intro r hr
    simp only [List.map_cons, List.map_nil, List.mem_cons, List.not_mem_nil, or_false] at hr
    rcases hr with rfl | rfl | rfl | rfl
    · rw [hfirst]
      decide
    · rw [hsecond]
      decide
    · rw [hedited]
      decide
    · rw [hsecond]
      decide

theorem sampleRun_verifies : ∃ t es,
    Run (Trail.step halves digests) (fun _ a => a.Kept halves) .fresh
      [appendOf retentionSet false, appendOf tokenIssue true] t ∧
    t.readAll halves = some es ∧ es.length = 2 ∧
    verifyRecords (sha256 digests) (es.map (Entry.texts halves)) = .ok () ∧
    ∃ brk, verifyRecords (sha256 digests)
      ([editedEntry, secondEntry].map (Entry.texts halves)) = .error brk := by
  have hkept : ∀ e, e ∈ [retentionSet, tokenIssue] → e.Kept halves := by
    have hvalue : ∀ {v : Json (Number Unit)} {h}, v.depth = 0 → v.Proper (Number.Rereads halves) →
        (valueOnly v h).Kept halves := by
      intro v h hdepth hproper
      refine ⟨?_, List.nodup_singleton _, hproper, trivial⟩
      simp only [valueOnly, Json.depth, Json.depthMembers, hdepth]
      decide
    intro e he
    rcases List.mem_pair.mp he with rfl | rfl
    · refine ⟨?_, ?_⟩ <;> rintro v ⟨⟩ <;> exact hvalue rfl trivial
    · refine ⟨?_, ?_⟩ <;> rintro v ⟨⟩
      exact hvalue rfl ⟨(), rfl, rfl⟩
  have hrun : Run (Trail.step halves digests) (fun _ a => a.Kept halves) .fresh
      [appendOf retentionSet false, appendOf tokenIssue true] _ :=
    .cons ⟨hkept _ (by simp), fun _ => rfl⟩ rfl
      (.cons ⟨hkept _ (by simp), fun _ => rfl⟩ rfl (.nil _))
  obtain ⟨hlists, hruns⟩ := tamper_evident halves digests
  obtain ⟨es, hread, hlength, _, hverify⟩ := hruns _ _ hrun
  refine ⟨_, es, hrun, hread, hlength, hverify, ?_⟩
  have hchain : Chained (sha256 digests) (1, genesis)
      ([firstEntry, secondEntry].map (Entry.texts halves)) :=
    ⟨rfl, rfl, rfl, rfl, rfl, rfl, trivial⟩
  refine (hlists [firstEntry, secondEntry] [editedEntry, secondEntry] secondEntry secondEntry rfl
    rfl rfl samples_collisionless hchain.verify).resolve_left ?_
  intro htexts
  have hdiffer : (firstEntry.texts halves).text ≠ (editedEntry.texts halves).text := by
    decide +kernel
  exact hdiffer (List.cons.inj htexts).1

def nest : Nat → Json (Number Unit)
  | 0 => .null
  | n + 1 => .arr [nest n]

theorem proper_nest (n : Nat) : (nest n).Proper fun _ => True := by
  induction n with
  | zero => trivial
  | succ n ih => exact ⟨ih, trivial⟩

theorem depth_nest (n : Nat) : (nest n).depth = n := by
  induction n with
  | zero => rfl
  | succ n ih =>
      simp only [nest, Json.depth, Json.depthItems, ih]
      omega

def deepEvent : Event Unit := eventOf "retention.set" (some ⟨nest 127, proper_nest 127⟩) none

/-- An acknowledged record whose value is nested 127 deep cannot be read back. -/
theorem deep_value_unreadable : ∃ t,
    Trail.step halves digests .fresh (appendOf deepEvent false) = some t ∧
      t.readAll halves = none :=
  ⟨_, rfl, Trail.readAll_deep (x := entryOf deepEvent (1, genesis)) (.inl rfl) rfl
    (.inl rfl) (by rw [depth_nest]; exact le_refl _)⟩

end Samples

end TimeLake.Audit
