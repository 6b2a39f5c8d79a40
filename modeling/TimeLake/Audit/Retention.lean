import TimeLake.Audit.Survives

/-!
Retention and the chain. `verify` starts at the genesis hash, and `open_with`
takes the head from the segments that are left, so a trail that has lost its
first segments does not verify, and one that has lost all of them starts over.
As long as no rotation finds a segment to delete, the directory holds exactly
the acknowledged records, and their sequence numbers count up from one through
every rotation, crash and reopening.
-/

namespace TimeLake.Audit

open TimeLake.Library

section Floor

variable {policy : Policy} {now : Int} {limit : Option Nat} {unremovable : List String}
  {d : Disk}

/-- Where the retention in seconds fits 64 bits, a segment that is deleted was
last modified before the floor. -/
theorem prune_respects_floor (hfits : ∀ days ∈ policy.retainDays, days * 86400 < 2 ^ 64)
    {p : String × Segment} (hp : p ∈ d.rotated)
    (hgone : p ∉ (prune policy now limit unremovable d).rotated)
    (hnodup : (d.rotated.map Prod.fst).Nodup) :
    p.2.modified < now - ((minRetentionDays * 86400 : Nat) : Int) * 10 ^ 9 := by
  have hremoved : p.1 ∈ expired policy now d := by
    by_contra hkept
    refine hgone (List.mem_filter.mpr ⟨hp, ?_⟩)
    have hout : ∀ n : Option Nat, p.1 ∉ n.elim
        ((expired policy now d).filter fun name => !unremovable.contains name)
        (((expired policy now d).filter fun name => !unremovable.contains name).take) := by
      intro n hin
      cases n with
      | none => exact hkept (List.mem_of_mem_filter hin)
      | some n => exact hkept (List.mem_of_mem_filter (List.mem_of_mem_take hin))
    simpa [List.contains_eq_mem] using hout limit
  unfold expired at hremoved
  split at hremoved
  · next t ht =>
      obtain ⟨q, hq, hname⟩ := List.mem_map.mp hremoved
      obtain ⟨hq, hold⟩ := List.mem_filter.mp hq
      obtain rfl : q = p := List.inj_on_of_nodup_map hnodup hq hp hname
      have hold : q.2.modified < t := of_decide_eq_true hold
      obtain ⟨days, hdays, hcut⟩ := Option.bind_eq_some_iff.mp ht
      obtain ⟨set, hset, rfl⟩ := Option.map_eq_some_iff.mp hdays
      have hfloor : minRetentionDays * 86400 ≤ max set minRetentionDays * 86400 :=
        Nat.mul_le_mul_right _ (le_max_right _ _)
      have hwide : max set minRetentionDays * 86400 < 2 ^ 64 := by
        rcases max_choice set minRetentionDays with heq | heq
        · rw [heq]
          exact hfits set hset
        · rw [heq]
          decide
      simp only [Nat.mod_eq_of_lt hwide] at hcut
      split at hcut
      · obtain rfl := Option.some.inj hcut
        have hmul := Int.mul_le_mul_of_nonneg_right (Int.ofNat_le.mpr hfloor)
          (by decide : (0 : Int) ≤ 10 ^ 9)
        exact Int.lt_of_lt_of_le hold (Int.sub_le_sub_left hmul now)
      · cases hcut
  · cases hremoved

end Floor

section Exact

variable {sha : HashInput → String} {len : AuditRecord → Nat} {s t : State} {req : Request}
  {now : Int} {stop : Stop} {unremovable : List String}

/-- The directory has the acknowledged records, and the sink knows their end. -/
structure Exact (sha : HashInput → String) (len : AuditRecord → Nat) (s : State) : Prop where
  inv : Inv sha len s s.acked
  sink : ∀ sink, s.sink = some sink → (sink.nextSeq, sink.head) = recover s.acked
  whole : ∀ seg ∈ s.disk.segments, ∀ f ∈ seg.content, f.whole len = true

theorem Exact.lastOf {d : Disk} (hwhole : ∀ seg ∈ d.segments, ∀ f ∈ seg.content, f.whole len = true)
    (target : Target) : (d.lastOf target).all (Fragment.whole len) = true := by
  have hseg : ∀ seg ∈ d.segments, seg.content.getLast?.all (Fragment.whole len) = true := by
    intro seg hseg
    cases hlast : seg.content.getLast? with
    | none => rfl
    | some f => exact hwhole seg hseg f (List.mem_of_getLast? hlast)
  cases target with
  | live =>
      simp only [Disk.lastOf]
      cases hlive : d.live with
      | none => rfl
      | some seg => exact hseg seg (by simp [Disk.segments, hlive])
  | rotated name =>
      simp only [Disk.lastOf]
      cases hlookup : d.rotated.lookup name with
      | none => rfl
      | some seg =>
          have hmem : seg ∈ d.rotated.map Prod.snd :=
            List.mem_map.mpr ⟨_, mem_of_lookup hlookup, rfl⟩
          exact hseg seg (List.mem_append_left _ hmem)

theorem SameTrail.whole {d d' : Disk} {records : List AuditRecord}
    (h : SameTrail len d d' records)
    (hwhole : ∀ seg ∈ d.segments, ∀ f ∈ seg.content, f.whole len = true) :
    ∀ seg ∈ d'.segments, ∀ f ∈ seg.content, f.whole len = true := by
  intro seg hseg f hf
  rcases h.content seg hseg with hempty | hold
  · rw [hempty] at hf
    cases hf
  · exact hwhole seg hold f hf

theorem extend_whole {d : Disk} {sink : Sink} (hsorted : Increasing d.rotated)
    (htarget : AtEnd d sink.target)
    (hwhole : ∀ seg ∈ d.segments, ∀ f ∈ seg.content, f.whole len = true) {f : Fragment}
    (hf : f.whole len = true) :
    ∀ seg ∈ (d.extend f now sink.target).segments, ∀ g ∈ seg.content, g.whole len = true := by
  obtain ⟨front, last, hsegments, _, hextend⟩ := htarget.extend hsorted
  rw [hextend]
  intro seg hseg g hg
  rcases List.mem_append.mp hseg with hseg | hseg
  · exact hwhole seg (hsegments ▸ List.mem_append_left _ hseg) g hg
  · obtain rfl := List.mem_singleton.mp hseg
    rcases List.mem_append.mp hg with hg | hg
    · exact hwhole last (hsegments ▸ List.mem_append_right _ (List.mem_singleton_self last)) g hg
    · obtain rfl := List.mem_singleton.mp hg
      exact hf

/-- The process may crash between the parts of an `append`, not within its
write. -/
def Stop.between : Stop → Bool
  | .write n => n = 0
  | _ => true

theorem arriving_between (len : AuditRecord → Nat) (h : stop.between = true)
    (rec : AuditRecord) :
    (∃ n, stop = .write n ∧ arriving len stop rec = 0) ∨
      ((∀ n, stop ≠ .write n) ∧ arriving len stop rec = len rec + 1) := by
  cases stop with
  | write n =>
      obtain rfl : n = 0 := of_decide_eq_true h
      exact .inl ⟨0, rfl, by simp [arriving]⟩
  | _ => exact .inr ⟨by simp, rfl⟩

theorem Exact.writeLine (h : Exact sha len s) {sink sink' : Sink} (hsink : s.sink = some sink)
    {d : Disk} (htrail : SameTrail len s.disk d s.acked) (hsink' : SinkOk d s.acked sink')
    (hseq : sink'.nextSeq = sink.nextSeq) (hhead : sink'.head = sink.head)
    (hbetween : stop.between = true) :
    Exact sha len (writeLine len s sink' d (req.recordFor sha sink) now stop) := by
  have hwhole := htrail.whole h.whole
  have hknown := h.sink sink hsink
  have hclean : Clean len s.disk sink (req.recordFor sha sink) stop (.done sink' d) := by
    rcases arriving_between len hbetween (req.recordFor sha sink) with
      ⟨_, _, hzero⟩ | ⟨_, hfull⟩
    · exact .inl hzero
    · refine .inr ⟨by omega, ?_, Exact.lastOf hwhole _⟩
      rw [h.inv.read, hknown]
      rfl
  have hinv := h.inv.writeLine now htrail hsink' hseq hclean
  rcases arriving_between len hbetween (req.recordFor sha sink) with
    ⟨n, rfl, hzero⟩ | ⟨hnot, hfull⟩
  · rw [if_pos hzero] at hinv
    simp only [Audit.writeLine, hzero, if_true] at hinv ⊢
    refine ⟨hinv, fun q hq => ?_, hwhole⟩
    obtain rfl := Option.some.inj hq
    rw [hseq, hhead]
    exact hknown
  · have hne : arriving len stop (req.recordFor sha sink) ≠ 0 := by omega
    rw [if_neg hne] at hinv
    have hdone : Audit.writeLine len s sink' d (req.recordFor sha sink) now stop = State.mk
        (d.extend ⟨req.recordFor sha sink, len (req.recordFor sha sink) + 1⟩ now sink'.target)
        (some { sink' with
          written := sink'.written + (len (req.recordFor sha sink) + 1)
          nextSeq := (req.recordFor sha sink).seq + 1
          head := (req.recordFor sha sink).hash })
        (s.acked ++ [req.recordFor sha sink]) := by
      cases stop with
      | write n => exact absurd rfl (hnot n)
      | _ => simp [Audit.writeLine, hfull]
    rw [hdone] at hinv ⊢
    refine ⟨hinv, fun q hq => ?_, ?_⟩
    · obtain rfl := Option.some.inj hq
      exact (recover_concat _ _).symm
    · exact extend_whole htrail.sorted hsink'.target hwhole (by simp [Fragment.whole])

/-- Crashes fall between the parts of an `append`, and no rotation finds a
segment to delete. -/
def Undeleted (sha : HashInput → String) (len : AuditRecord → Nat) (s : State) : Action → Prop
  | .append req now stop _ => stop.between = true ∧ ∀ sink ∈ s.sink,
      shouldRotate sink (len (req.recordFor sha sink) + 1) now = true →
        sink.nextSeq ≤ 10 ^ 12 ∧ NothingExpired sink s.disk now
  | _ => True

instance (sha : HashInput → String) (len : AuditRecord → Nat) (s : State) :
    DecidablePred (Undeleted sha len s)
  | .append _ _ _ _ => inferInstanceAs (Decidable (_ ∧ ∀ sink ∈ s.sink, _))
  | .open _ _ => .isTrue trivial
  | .crash => .isTrue trivial

theorem Exact.append (h : Exact sha len s) (hbetween : stop.between = true)
    (hrotates : ∀ sink ∈ s.sink, shouldRotate sink (len (req.recordFor sha sink) + 1) now = true →
      sink.nextSeq ≤ 10 ^ 12 ∧ NothingExpired sink s.disk now)
    (hstep : append sha len s req now stop unremovable = some t) : Exact sha len t := by
  obtain ⟨sink, hsink, rfl⟩ := Option.map_eq_some_iff.mp hstep
  have hkeeps : KeepsTrail len s.disk s.acked sink
      (prepare sha len sink s.disk req now stop unremovable) :=
    prepare_keeps h.inv.read h.inv.sorted (h.inv.sink sink hsink) (hrotates sink hsink)
  cases hprepare : prepare sha len sink s.disk req now stop unremovable with
  | done sink' d =>
      rw [hprepare] at hkeeps
      obtain ⟨htrail, hsink', hseq, hhead, _⟩ := hkeeps
      exact h.writeLine hsink htrail hsink' hseq hhead hbetween
  | failed sink' d =>
      rw [hprepare] at hkeeps
      obtain ⟨htrail, hsink', hseq, hhead, _⟩ := hkeeps
      refine ⟨⟨htrail.read, h.inv.chained, h.inv.acked, htrail.sorted,
        hsink'.named.mono hsink'.seq, fun q hq => ?_⟩, fun q hq => ?_, htrail.whole h.whole⟩
      · obtain rfl := Option.some.inj hq
        exact hsink'
      · obtain rfl := Option.some.inj hq
        rw [hseq, hhead]
        exact h.sink sink hsink
  | crashed d =>
      rw [hprepare] at hkeeps
      obtain ⟨htrail, hnamed⟩ := hkeeps
      exact ⟨⟨htrail.read, h.inv.chained, h.inv.acked, htrail.sorted,
        hnamed.mono (h.inv.sink sink hsink).seq, by simp⟩, by simp, htrail.whole h.whole⟩

theorem Exact.step {a : Action} (h : Exact sha len s) (hok : Undeleted sha len s a)
    (hstep : step sha len s a = some t) : Exact sha len t := by
  cases a with
  | «open» policy now =>
      simp only [Audit.step] at hstep
      split at hstep
      · obtain ⟨sink, d, hopen, _, hnext, hcontent, hinv⟩ := h.inv.openWith policy now
        rw [hopen] at hstep
        obtain rfl := Option.some.inj hstep
        refine ⟨hinv, fun q hq => ?_, ?_⟩
        · obtain rfl := Option.some.inj hq
          exact hnext
        · exact SameTrail.whole (d := s.disk) ⟨hinv.read, hinv.sorted, hcontent⟩ h.whole
      · cases hstep
  | append req now stop unremovable => exact h.append hok.1 hok.2 hstep
  | crash =>
      obtain rfl := Option.some.inj hstep
      exact ⟨h.inv.crash, by simp, h.whole⟩

end Exact

section Runs

def day : Int := 86400 * 10 ^ 9

/-- One line to a segment, kept for ninety days. -/
def ninetyDays : Policy := ⟨some 500, none, some 90⟩

/-- Segments are rotated within the retention, and the process crashes between
the rotation and the line that follows it. -/
def rotatedInTime : List Action :=
  [.open ninetyDays 0, .append (setRetention "t1") 0 .never [],
    .append (setRetention "t2") (50 * day) .never [],
    .append (setRetention "t3") (80 * day) (.prune 0) [],
    .open ninetyDays (80 * day), .append (setRetention "t3") (80 * day) .never []]

/-- The first segment is past the retention when the second line rotates it. -/
def prunedFirst : List Action :=
  [.open ninetyDays 0, .append (setRetention "t1") 0 .never [],
    .append (setRetention "t2") (100 * day) .never []]

/-- The same with a crash between the deletion and the line. -/
def prunedAll : List Action :=
  [.open ninetyDays 0, .append (setRetention "t1") 0 .never [],
    .append (setRetention "t2") (100 * day) (.prune 1) [],
    .open ninetyDays (100 * day), .append (setRetention "t3") (100 * day) .never []]

end Runs

end TimeLake.Audit
