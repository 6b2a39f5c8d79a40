import TimeLake.Audit.Sink
import TimeLake.Library.Run

/-!
What the trail survives. After an error the sink keeps its head and its sequence
number, whatever of the line has arrived: a retry then writes a second record
into the slot, or the rest of a torn line. `Careful` excludes both: no line is
left in part, none is written behind one that lacks its line feed, and none while
the trail ends with a record the sink does not know of. A rotation that fails
after the rename does no harm: the writer still has the last file of the trail.
-/

namespace TimeLake.Audit

open TimeLake.Library

section Files

variable {len : AuditRecord → Nat} {records : List AuditRecord}

theorem readSegments_append (xs ys : List Segment) :
    readSegments len (xs ++ ys) = (readSegments len xs).bind fun records =>
      (readSegments len ys).map (records ++ ·) := by
  induction xs with
  | nil => simp [readSegments]
  | cons seg rest ih =>
      rw [List.cons_append, readSegments, readSegments, ih]
      cases readSegment len seg.content <;> cases readSegments len rest <;>
        cases readSegments len ys <;> simp

/-- A line behind one that ends with a line feed. -/
theorem readSegment_concat {content : List Fragment} {f : Fragment}
    (h : readSegment len content = some records)
    (hlast : content.getLast?.all (Fragment.whole len)) (hlen : len f.record ≤ f.bytes)
    (hle : f.bytes ≤ len f.record + 1) :
    readSegment len (content ++ [f]) = some (records ++ [f.record]) := by
  induction content generalizing records with
  | nil =>
      obtain rfl := Option.some.inj h
      have hbytes : f.bytes = len f.record + 1 ∨ f.bytes = len f.record := by omega
      simp [readSegment, Fragment.whole, hbytes]
  | cons g rest ih =>
      rw [readSegment] at h
      split at h
      · next hg =>
          obtain ⟨tail, htail, rfl⟩ := Option.map_eq_some_iff.mp h
          have hrest : rest.getLast?.all (Fragment.whole len) := by
            cases rest with
            | nil => rfl
            | cons q rest => simpa [List.getLast?_cons_cons] using hlast
          have hwhole : g.whole len = true := by
            cases rest with
            | nil => simpa using hlast
            | cons q rest => simpa using hg
          rw [List.cons_append, readSegment, ih htail hrest]
          simp [hwhole]
      · cases h

theorem readSegments_concat {front : List Segment} {seg : Segment} {f : Fragment} {now : Int}
    (h : readSegments len (front ++ [seg]) = some records)
    (hlast : seg.content.getLast?.all (Fragment.whole len)) (hlen : len f.record ≤ f.bytes)
    (hle : f.bytes ≤ len f.record + 1) :
    readSegments len (front ++ [⟨seg.content ++ [f], now⟩]) = some (records ++ [f.record]) := by
  rw [readSegments_append] at h ⊢
  obtain ⟨before, hbefore, h⟩ := Option.bind_eq_some_iff.mp h
  simp only [readSegments, Option.map_some, List.append_nil, Option.bind_fun_some] at h
  obtain ⟨last, hl, rfl⟩ := Option.map_eq_some_iff.mp h
  rw [hbefore]
  simp [readSegments, readSegment_concat hl hlast hlen hle]

end Files

section Directory

/-- The writer has the last file of the trail open. -/
def AtEnd (d : Disk) : Target → Prop
  | .live => d.live.isSome
  | .rotated name => d.live = none ∧ ∃ front seg, d.rotated = front ++ [(name, seg)]

/-- Every rotated segment is named after a sequence number below the bound. -/
def Named (d : Disk) (bound : Nat) : Prop :=
  ∀ p ∈ d.rotated, ∃ m, p.1 = segmentName m ∧ m < bound ∧ m < 10 ^ 12

variable {d : Disk} {target : Target} {len : AuditRecord → Nat} {records : List AuditRecord}

theorem Named.mono {a b : Nat} (h : Named d a) (hab : a ≤ b) : Named d b := by
  intro p hp
  obtain ⟨m, hname, hm, hlt⟩ := h p hp
  exact ⟨m, hname, by omega, hlt⟩

theorem segmentName_lt {a b : Nat} (hab : a < b) (hb : b < 10 ^ 12) :
    segmentName a < segmentName b :=
  string_padNat_lt "audit." ".jsonl" (by decide) hab hb

/-- A line arrives at the end of the trail. -/
theorem AtEnd.extend (h : AtEnd d target) (hsorted : Increasing d.rotated) :
    ∃ front seg, d.segments = front ++ [seg] ∧ d.lastOf target = seg.content.getLast? ∧
      ∀ f now, (d.extend f now target).segments = front ++ [⟨seg.content ++ [f], now⟩] := by
  cases target with
  | live =>
      obtain ⟨seg, hlive⟩ := Option.isSome_iff_exists.mp h
      refine ⟨d.rotated.map Prod.snd, seg, ?_, ?_, ?_⟩
      · simp [Disk.segments, hlive]
      · simp [Disk.lastOf, hlive]
      · simp [Disk.segments, Disk.extend, hlive]
  | rotated name =>
      obtain ⟨hnone, front, seg, hrotated⟩ := h
      have hother : ∀ p ∈ front, p.1 ≠ name := by
        intro p hp
        rw [hrotated] at hsorted
        exact ne_of_lt ((List.pairwise_append.mp hsorted).2.2 p hp _ List.mem_cons_self)
      refine ⟨front.map Prod.snd, seg, ?_, ?_, fun f now => ?_⟩
      · simp [Disk.segments, hnone, hrotated]
      · have hlookup : d.rotated.lookup name = some seg :=
          hsorted.lookup_eq_some.mpr (by simp [hrotated])
        simp [Disk.lastOf, hlookup]
      · have hfront : front.map (fun p => if p.1 = name then (⟨p.2.content ++ [f], now⟩ : Segment)
            else p.2) = front.map Prod.snd :=
          List.map_congr_left fun p hp => if_neg (hother p hp)
        simp [Disk.segments, Disk.extend, hnone, hrotated, Function.comp_def, hfront]

theorem rotated_extend (d : Disk) (f : Fragment) (now : Int) (target : Target) :
    (d.extend f now target).rotated.map Prod.fst = d.rotated.map Prod.fst := by
  cases target <;> simp [Disk.extend, Function.comp_def]

theorem Named.extend {bound : Nat} (h : Named d bound) (f : Fragment) (now : Int) :
    Named (d.extend f now target) bound := by
  intro p hp
  have hkey : p.1 ∈ d.rotated.map Prod.fst := rotated_extend d f now target ▸ List.mem_map_of_mem hp
  obtain ⟨q, hq, heq⟩ := List.mem_map.mp hkey
  rw [← heq]
  exact h q hq

theorem increasing_extend (h : Increasing d.rotated) (f : Fragment) (now : Int) :
    Increasing (d.extend f now target).rotated := by
  have hkeys : (d.rotated.map Prod.fst).Pairwise (· < ·) := List.pairwise_map.mpr h
  rw [← rotated_extend d f now target] at hkeys
  exact List.pairwise_map.mp hkeys

theorem AtEnd.of_extend (h : AtEnd d target) (f : Fragment) (now : Int) :
    AtEnd (d.extend f now target) target := by
  cases target with
  | live => simpa [AtEnd, Disk.extend] using h
  | rotated name =>
      obtain ⟨hnone, front, seg, hrotated⟩ := h
      exact ⟨hnone, front.map fun p => (p.1, if p.1 = name then ⟨p.2.content ++ [f], now⟩ else p.2),
        ⟨seg.content ++ [f], now⟩, by simp [Disk.extend, hrotated]⟩

end Directory

section Rotation

variable {d : Disk} {len : AuditRecord → Nat} {records : List AuditRecord} {sink : Sink}
  {now : Int} {stop : Stop} {unremovable : List String}

/-- What holds of a sink that is open. -/
structure SinkOk (d : Disk) (records : List AuditRecord) (sink : Sink) : Prop where
  pos : 0 < sink.nextSeq
  seq : sink.nextSeq ≤ (recover records).1
  named : Named d sink.nextSeq
  target : AtEnd d sink.target

/-- The directory still has the trail, and no content that it had not. -/
structure SameTrail (len : AuditRecord → Nat) (d d' : Disk) (records : List AuditRecord) :
    Prop where
  read : readAll len d' = some records
  sorted : Increasing d'.rotated
  content : ∀ seg ∈ d'.segments, seg.content = [] ∨ seg ∈ d.segments

/-- A rotation keeps the trail and what the sink knows of it. -/
def KeepsTrail (len : AuditRecord → Nat) (d : Disk) (records : List AuditRecord) (sink : Sink) :
    Rotation → Prop
  | .done sink' d' | .failed sink' d' =>
      SameTrail len d d' records ∧ SinkOk d' records sink' ∧ sink'.nextSeq = sink.nextSeq ∧
        sink'.head = sink.head ∧ sink'.policy = sink.policy
  | .crashed d' => SameTrail len d d' records ∧ Named d' sink.nextSeq

theorem prune_of_expired {policy : Policy} {limit : Option Nat} (h : expired policy now d = []) :
    prune policy now limit unremovable d = d := by
  cases limit <;> simp [prune, h]

/-- The directory between the rename and the new live segment, and after. -/
theorem renamed_ok (now : Int) (hread : readAll len d = some records)
    (hsorted : Increasing d.rotated)
    (hsink : SinkOk d records sink) (hbound : sink.nextSeq ≤ 10 ^ 12) {seg : Segment}
    (hlive : d.live = some seg)
    (hnew : d.rotated.lookup (segmentName (sink.nextSeq - 1)) = none) :
    insertPair (segmentName (sink.nextSeq - 1)) seg d.rotated =
        d.rotated ++ [(segmentName (sink.nextSeq - 1), seg)] ∧
      (∀ live : Option Segment, live = none ∨ live = some ⟨[], now⟩ →
        SameTrail len d ⟨d.rotated ++ [(segmentName (sink.nextSeq - 1), seg)], live⟩ records ∧
        Named ⟨d.rotated ++ [(segmentName (sink.nextSeq - 1), seg)], live⟩ sink.nextSeq) := by
  have hpos := hsink.pos
  have hbelow : ∀ p ∈ d.rotated, p.1 < segmentName (sink.nextSeq - 1) := by
    intro p hp
    obtain ⟨m, hname, hm, _⟩ := hsink.named p hp
    rw [hname]
    refine segmentName_lt ?_ (by omega)
    have hne : m ≠ sink.nextSeq - 1 := by
      rintro rfl
      rw [← hname, hsorted.lookup_eq_some.mpr hp] at hnew
      cases hnew
    omega
  refine ⟨insertPair_of_last hbelow, fun live hempty => ⟨⟨?_, ?_, ?_⟩, ?_⟩⟩
  · have hsegments : d.segments = d.rotated.map Prod.snd ++ [seg] := by
      simp [Disk.segments, hlive]
    have hafter : readSegments len live.toList = some [] := by
      rcases hempty with rfl | rfl <;> rfl
    rw [readAll, Disk.segments, List.map_append, readSegments_append, hafter]
    rw [readAll, hsegments] at hread
    simp [hread]
  · refine List.pairwise_append.mpr ⟨hsorted, List.pairwise_singleton _ _, fun p hp q hq => ?_⟩
    obtain rfl := List.mem_singleton.mp hq
    exact hbelow p hp
  · intro q hq
    simp only [Disk.segments, List.map_append, List.mem_append, List.map_cons, List.map_nil,
      List.mem_singleton] at hq
    rcases hq with (hq | rfl) | hq
    · exact .inr (List.mem_append_left _ hq)
    · exact .inr (by simp [Disk.segments, hlive])
    · rcases hempty with rfl | rfl
      · cases hq
      · obtain rfl := List.mem_singleton.mp hq
        exact .inl rfl
  · intro p hp
    rcases List.mem_append.mp hp with hp | hp
    · exact hsink.named p hp
    · obtain rfl := List.mem_singleton.mp hp
      exact ⟨sink.nextSeq - 1, rfl, by omega, by omega⟩

theorem rotate_keeps (hread : readAll len d = some records) (hsorted : Increasing d.rotated)
    (hsink : SinkOk d records sink) (hbound : sink.nextSeq ≤ 10 ^ 12)
    (hkept : ∀ seg, d.live = some seg → expired sink.policy now
      ⟨insertPair (segmentName (sink.nextSeq - 1)) seg d.rotated, some ⟨[], now⟩⟩ = []) :
    KeepsTrail len d records sink (rotate sink d now stop unremovable) := by
  have hsame : SameTrail len d d records := ⟨hread, hsorted, fun seg hseg => .inr hseg⟩
  simp only [rotate]
  split
  · exact ⟨hsame, hsink, rfl, rfl, rfl⟩
  · next hnew =>
      have hnew := Option.not_isSome_iff_eq_none.mp hnew
      split
      · exact ⟨hsame, hsink, rfl, rfl, rfl⟩
      · next seg hlive =>
          obtain ⟨hinsert, hafter⟩ :=
            renamed_ok now hread hsorted hsink hbound hlive hnew
          have hkept := hkept seg hlive
          have hcreated := hafter _ (.inr rfl)
          rw [hinsert] at hkept ⊢
          cases stop with
          | rename => exact ⟨hsame, hsink, rfl, rfl, rfl⟩
          | create =>
              obtain ⟨htrail, hnamed⟩ := hafter none (.inl rfl)
              exact ⟨htrail, ⟨hsink.pos, hsink.seq, hnamed, rfl, d.rotated, seg, rfl⟩,
                rfl, rfl, rfl⟩
          | prune n =>
              simp only [prune_of_expired hkept]
              exact hcreated
          | never | write n =>
              simp only [prune_of_expired hkept]
              exact ⟨hcreated.1, ⟨hsink.pos, hsink.seq, hcreated.2, rfl⟩, rfl, rfl, rfl⟩

end Rotation

section Steps

variable {sha : HashInput → String} {len : AuditRecord → Nat} {s t : State}
  {records : List AuditRecord} {sink : Sink} {req : Request} {now : Int} {stop : Stop}
  {unremovable : List String}

/-- A rotation that this `append` may begin with deletes nothing. -/
def NothingExpired (sink : Sink) (d : Disk) (now : Int) : Prop :=
  ∀ seg ∈ d.live, expired sink.policy now
    ⟨insertPair (segmentName (sink.nextSeq - 1)) seg d.rotated, some ⟨[], now⟩⟩ = []

instance (sink : Sink) (d : Disk) (now : Int) : Decidable (NothingExpired sink d now) :=
  inferInstanceAs (Decidable (∀ seg ∈ d.live, _))

theorem prepare_keeps {d : Disk} (hread : readAll len d = some records)
    (hsorted : Increasing d.rotated) (hsink : SinkOk d records sink)
    (hrotates : shouldRotate sink (len (req.recordFor sha sink) + 1) now = true →
      sink.nextSeq ≤ 10 ^ 12 ∧ NothingExpired sink d now) :
    KeepsTrail len d records sink (prepare sha len sink d req now stop unremovable) := by
  unfold prepare
  split
  · next hdue =>
      exact rotate_keeps hread hsorted hsink (hrotates hdue).1 fun seg hseg =>
        (hrotates hdue).2 seg hseg
  · exact ⟨⟨hread, hsorted, fun seg hseg => .inr hseg⟩, hsink, rfl, rfl, rfl⟩

/-- The line of a record arrives, but perhaps for its line feed. -/
theorem extend_read {d : Disk} (hread : readAll len d = some records)
    (hsorted : Increasing d.rotated) (htarget : AtEnd d sink.target)
    (hlast : (d.lastOf sink.target).all (Fragment.whole len)) {f : Fragment}
    (hlen : len f.record ≤ f.bytes) (hle : f.bytes ≤ len f.record + 1) :
    readAll len (d.extend f now sink.target) = some (records ++ [f.record]) := by
  obtain ⟨front, seg, hsegments, hof, hextend⟩ := htarget.extend hsorted
  rw [readAll, hsegments] at hread
  rw [readAll, hextend]
  exact readSegments_concat hread (hof ▸ hlast) hlen hle

theorem arriving_le (len : AuditRecord → Nat) (stop : Stop) (rec : AuditRecord) :
    arriving len stop rec ≤ len rec + 1 := by
  unfold arriving
  split
  · exact Nat.min_le_right _ _
  · exact Nat.le_refl _

structure Inv (sha : HashInput → String) (len : AuditRecord → Nat) (s : State)
    (records : List AuditRecord) : Prop where
  read : readAll len s.disk = some records
  chained : Chained sha (1, genesis) records
  acked : s.acked.Sublist records
  sorted : Increasing s.disk.rotated
  named : Named s.disk (recover records).1
  sink : ∀ sink, s.sink = some sink → SinkOk s.disk records sink

theorem Inv.crash (h : Inv sha len s records) : Inv sha len { s with sink := none } records :=
  ⟨h.read, h.chained, h.acked, h.sorted, h.named, by simp⟩

theorem recover_pos (h : Chained sha (1, genesis) records) : 0 < (recover records).1 := by
  rw [h.recover_seq]
  omega

/-- A trail that reads opens. -/
theorem Inv.openWith (h : Inv sha len s records) (policy : Policy) (now : Int) :
    ∃ sink d, openWith len s.disk policy now = some (sink, d) ∧ sink.policy = policy ∧
      (sink.nextSeq, sink.head) = recover records ∧
      (∀ seg ∈ d.segments, seg.content = [] ∨ seg ∈ s.disk.segments) ∧
      Inv sha len { s with sink := some sink, disk := d } records := by
  have hlive : ({ s.disk with live := some (s.disk.live.getD ⟨[], now⟩) } : Disk).segments =
      s.disk.segments ++ (if s.disk.live.isSome then [] else [⟨[], now⟩]) := by
    cases hl : s.disk.live <;> simp [Disk.segments, hl]
  have hread : readAll len { s.disk with live := some (s.disk.live.getD ⟨[], now⟩) } =
      some records := by
    have hold := h.read
    rw [readAll] at hold ⊢
    rw [hlive, readSegments_append, hold]
    split <;> simp [readSegments, readSegment]
  refine ⟨_, _, by rw [Audit.openWith, h.read]; rfl, rfl, rfl, ?_, hread, h.chained, h.acked,
    h.sorted, h.named, ?_⟩
  · intro seg hseg
    rw [hlive] at hseg
    rcases List.mem_append.mp hseg with hold | hnew
    · exact .inr hold
    · split at hnew
      · cases hnew
      · obtain rfl := List.mem_singleton.mp hnew
        exact .inl rfl
  · intro sink hsink
    obtain rfl := Option.some.inj hsink
    exact ⟨recover_pos h.chained, Nat.le_refl _, h.named, rfl⟩

/-- What arrives is nothing, or the JSON of the record behind a line feed, where
the trail ends with the record the sink knows. -/
def Clean (len : AuditRecord → Nat) (d : Disk) (sink : Sink) (rec : AuditRecord) (stop : Stop) :
    Rotation → Prop
  | .done sink' d' =>
      arriving len stop rec = 0 ∨ (len rec ≤ arriving len stop rec ∧
        (readAll len d).map recover = some (sink.nextSeq, sink.head) ∧
        (d'.lastOf sink'.target).all (Fragment.whole len) = true)
  | _ => True

instance (len : AuditRecord → Nat) (d : Disk) (sink : Sink) (rec : AuditRecord) (stop : Stop) :
    DecidablePred (Clean len d sink rec stop)
  | .done _ _ => inferInstanceAs (Decidable (_ ∨ _))
  | .failed _ _ => .isTrue trivial
  | .crashed _ => .isTrue trivial

/-- The record of a clean write continues the trail. -/
theorem Inv.writeLine (now : Int) (h : Inv sha len s records) {sink' : Sink} {d : Disk}
    (htrail : SameTrail len s.disk d records) (hsink' : SinkOk d records sink')
    (hseq : sink'.nextSeq = sink.nextSeq)
    (hclean : Clean len s.disk sink (req.recordFor sha sink) stop (.done sink' d)) :
    Inv sha len (writeLine len s sink' d (req.recordFor sha sink) now stop)
      (if arriving len stop (req.recordFor sha sink) = 0 then records
        else records ++ [req.recordFor sha sink]) := by
  have hkept : Inv sha len { s with disk := d, sink := some sink' } records := by
    refine ⟨htrail.read, h.chained, h.acked, htrail.sorted,
      hsink'.named.mono hsink'.seq, fun q hq => ?_⟩
    obtain rfl := Option.some.inj hq
    exact hsink'
  by_cases hzero : arriving len stop (req.recordFor sha sink) = 0
  · -- Only a stop keeps a line from arriving.
    cases stop with
    | write n =>
        simp only [Audit.writeLine, hzero, if_true]
        exact hkept
    | _ => simp [arriving] at hzero
  · obtain ⟨hlen, hrecover, hlast⟩ := hclean.resolve_left hzero
    rw [h.read] at hrecover
    have hrecover : recover records = (sink.nextSeq, sink.head) := Option.some.inj hrecover
    have hchained : Chained sha (1, genesis) (records ++ [req.recordFor sha sink]) := by
      rw [Request.recordFor, ← hrecover]
      exact h.chained.concat
    let f : Fragment := ⟨req.recordFor sha sink, arriving len stop (req.recordFor sha sink)⟩
    have hread : readAll len (d.extend f now sink'.target) = some (records ++ [f.record]) :=
      extend_read htrail.read htrail.sorted hsink'.target hlast hlen (arriving_le len stop _)
    have hnext : (recover (records ++ [req.recordFor sha sink])).1 = sink.nextSeq + 1 := by
      rw [recover_concat]
      rfl
    have hnamed : Named (d.extend f now sink'.target) sink.nextSeq :=
      hseq ▸ hsink'.named.extend f now
    have hsinkOk : ∀ q : Sink, q.target = sink'.target → 0 < q.nextSeq →
        sink.nextSeq ≤ q.nextSeq → q.nextSeq ≤ sink.nextSeq + 1 →
        SinkOk (d.extend f now sink'.target) (records ++ [req.recordFor sha sink]) q :=
      fun q htarget hpos hle hge => ⟨hpos, hnext ▸ hge, hnamed.mono hle,
        htarget ▸ hsink'.target.of_extend f now⟩
    have hsorted : Increasing (d.extend f now sink'.target).rotated :=
      increasing_extend htrail.sorted f now
    have hbound : Named (d.extend f now sink'.target)
        (recover (records ++ [req.recordFor sha sink])).1 := hnamed.mono (by omega)
    rw [if_neg hzero]
    cases stop with
    | write n =>
        simp only [Audit.writeLine, hzero, if_false]
        refine ⟨hread, hchained, h.acked.trans (List.sublist_append_left _ _), hsorted, hbound, ?_⟩
        intro q hq
        obtain rfl := Option.some.inj hq
        exact hsinkOk _ rfl hsink'.pos (by omega) (by omega)
    | _ =>
        simp only [Audit.writeLine, hzero, if_false]
        refine ⟨hread, hchained, h.acked.append (List.Sublist.refl _), hsorted, hbound, ?_⟩
        intro q hq
        obtain rfl := Option.some.inj hq
        exact hsinkOk _ rfl (Nat.succ_pos _) (Nat.le_succ _) (Nat.le_refl _)

/-- Nothing is ever deleted while this sink is open. -/
def Retains (s : State) : Prop := ∀ sink, s.sink = some sink → sink.policy.retainDays = none

theorem nothingExpired_of_retains {d : Disk} (h : sink.policy.retainDays = none) :
    NothingExpired sink d now := by
  intro seg _
  simp [expired, cutoff, Policy.effectiveRetainDays, h]

theorem Inv.append (h : Inv sha len s records) (hretains : Retains s)
    (hbound : ∀ sink ∈ s.sink, shouldRotate sink (len (req.recordFor sha sink) + 1) now = true →
      sink.nextSeq ≤ 10 ^ 12)
    (hclean : ∀ sink ∈ s.sink, Clean len s.disk sink (req.recordFor sha sink) stop
      (prepare sha len sink s.disk req now stop unremovable))
    (hstep : append sha len s req now stop unremovable = some t) :
    (∃ records', Inv sha len t records') ∧ Retains t := by
  obtain ⟨sink, hsink, rfl⟩ := Option.map_eq_some_iff.mp hstep
  have hretain := hretains sink hsink
  have hkeeps : KeepsTrail len s.disk records sink
      (prepare sha len sink s.disk req now stop unremovable) :=
    prepare_keeps h.read h.sorted (h.sink sink hsink) fun hdue =>
      ⟨hbound sink hsink hdue, nothingExpired_of_retains hretain⟩
  have hclean := hclean sink hsink
  cases hprepare : prepare sha len sink s.disk req now stop unremovable with
  | done sink' d =>
      rw [hprepare] at hkeeps hclean
      obtain ⟨htrail, hsink', hseq, _, hpolicy⟩ := hkeeps
      refine ⟨⟨_, h.writeLine now htrail hsink' hseq hclean⟩, fun q hq => ?_⟩
      have hq : q.policy = sink'.policy := by
        cases stop <;> obtain rfl := Option.some.inj hq <;> rfl
      rw [hq, hpolicy]
      exact hretain
  | failed sink' d =>
      rw [hprepare] at hkeeps
      obtain ⟨htrail, hsink', _, _, hpolicy⟩ := hkeeps
      refine ⟨⟨records, htrail.read, h.chained, h.acked, htrail.sorted,
        hsink'.named.mono hsink'.seq, fun q hq => ?_⟩, fun q hq => ?_⟩
      · obtain rfl := Option.some.inj hq
        exact hsink'
      · obtain rfl := Option.some.inj hq
        rw [hpolicy]
        exact hretain
  | crashed d =>
      rw [hprepare] at hkeeps
      obtain ⟨htrail, hnamed⟩ := hkeeps
      exact ⟨⟨records, htrail.read, h.chained, h.acked, htrail.sorted,
        hnamed.mono (h.sink sink hsink).seq, by simp⟩, by simp [Retains]⟩

end Steps

section Main

variable (sha : HashInput → String) (len : AuditRecord → Nat)

/-- No retention is configured, and every write is clean. Names of segments sort
as their numbers up to twelve digits. -/
def Careful (s : State) : Action → Prop
  | .open policy _ => policy.retainDays = none
  | .append req now stop unremovable => ∀ sink ∈ s.sink,
      (shouldRotate sink (len (req.recordFor sha sink) + 1) now = true →
        sink.nextSeq ≤ 10 ^ 12) ∧
      Clean len s.disk sink (req.recordFor sha sink) stop
        (prepare sha len sink s.disk req now stop unremovable)
  | .crash => True

instance (s : State) : DecidablePred (Careful sha len s)
  | .open _ _ => inferInstanceAs (Decidable (_ = _))
  | .append _ _ _ _ => inferInstanceAs (Decidable (∀ sink ∈ s.sink, _))
  | .crash => .isTrue trivial

variable {sha len}

theorem Inv.step {s t : State} {a : Action} (h : (∃ records, Inv sha len s records) ∧ Retains s)
    (hok : Careful sha len s a) (hstep : step sha len s a = some t) :
    (∃ records, Inv sha len t records) ∧ Retains t := by
  obtain ⟨⟨records, hinv⟩, hretains⟩ := h
  cases a with
  | «open» policy now =>
      simp only [Audit.step] at hstep
      split at hstep
      · obtain ⟨sink, d, hopen, hpolicy, _, _, hinv'⟩ := hinv.openWith policy now
        rw [hopen] at hstep
        obtain rfl := Option.some.inj hstep
        refine ⟨⟨records, hinv'⟩, fun q hq => ?_⟩
        obtain rfl := Option.some.inj hq
        exact hpolicy ▸ hok
      · cases hstep
  | append req now stop unremovable =>
      exact hinv.append hretains (fun sink hsink => (hok sink hsink).1)
        (fun sink hsink => (hok sink hsink).2) hstep
  | crash =>
      obtain rfl := Option.some.inj hstep
      exact ⟨⟨records, hinv.crash⟩, by simp [Retains]⟩

section Runs

/-- A digest that tells records of one slot apart. -/
def labelHash (input : HashInput) : String := "sha256:" ++ input.prevHash ++ "/" ++ input.ts

def lineLength (_ : AuditRecord) : Nat := 300

def setRetention (ts : String) : Request :=
  ⟨"tldb-1", ts, ⟨"admin", "admin", none, none, none, "retention.set", some "d.cpu", none, none,
    "ok"⟩⟩

/-- A rotation that cannot open its new segment, an append into the renamed one,
a crash after a whole line, and a reopening. -/
def survivedRun : List Action :=
  [.open ⟨some 500, none, none⟩ 0, .append (setRetention "t1") 1 .never [],
    .append (setRetention "t2") 2 .create [], .append (setRetention "t2") 3 .never [],
    .crash, .open ⟨some 500, none, none⟩ 4, .append (setRetention "t3") 5 (.write 301) [],
    .crash, .open ⟨some 500, none, none⟩ 6, .append (setRetention "t4") 7 .never []]

/-- The line of an append arrives and its sync fails; the retry succeeds. -/
def retriedAfterSync : List Action :=
  [.open .default 0, .append (setRetention "t1") 1 (.write 301) [],
    .append (setRetention "t2") 2 .never []]

/-- A crash in the middle of a line. -/
def tornLine : List Action :=
  [.open .default 0, .append (setRetention "t1") 1 .never [],
    .append (setRetention "t2") 2 (.write 100) [], .crash]

end Runs

end Main

end TimeLake.Audit
