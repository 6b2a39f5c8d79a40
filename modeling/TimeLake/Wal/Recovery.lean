import TimeLake.Wal.Segment

/-!
What a later `Wal::open` returns. `Inv` describes the directory as a list of
sound segments whose acknowledged frames are the acknowledged frames of the
run, and `Tidy` is the condition on a step under which it is kept: a call
writes to the active file only when nothing unread is left in it, the frame
fits the limits of the reader, and a header that did not get written whole has
less than its magic.
-/

namespace TimeLake.Wal

open TimeLake.Library

variable {Key : Type}

section Conditions

variable (aead : Aead Key) (cipher : Option (WalCipher Key))

/-- A replay of the active file would read all of it and, in an encrypted
file, would expect the frame number the handle is going to use next. -/
def clean (w : Handle Key) (bytes : Bytes) : Bool :=
  match cipher, w.enc with
  | some c, some (dek, seq) =>
      match readEncHeader c bytes with
      | .ok (_, rest) =>
          (scanEncrypted aead dek rest).left.isEmpty &&
            (scanEncrypted aead dek rest).records.length == seq
      | .error _ => false
  | _, _ => (scanPlaintext bytes).left.isEmpty

def FrameFits (f : Frame) : Prop :=
  match cipher with
  | none => f.Fits
  | some _ => f.FitsSealed

def KeyFits (i : Nat) : Prop :=
  match cipher with
  | none => True
  | some c => (c.generate i).1.length ≤ 4096

/-- Less than the file magic was written, or all of the header. -/
def HeaderWhole (i written : Nat) : Prop :=
  written < 4 ∨ (header cipher i).length ≤ written

def Writable (s : State Key) (f : Frame) : Prop :=
  FrameFits cipher f ∧
    ∀ w ∈ s.wal, ∀ p ∈ s.disk.gens, p.1 = w.file → clean aead cipher w p.2 = true

def Tidy (s : State Key) : Action → Prop
  | .append f => Writable aead cipher s f
  | .appendFails f written | .crashAppend f written =>
      0 < written → Writable aead cipher s f
  | .openOk i | .rotate i => KeyFits cipher i
  | .crashOpenHeader i written | .crashRotate i written
  | .rotateFails i (.header written) => KeyFits cipher i ∧ HeaderWhole cipher i written
  | _ => True

instance (f : Frame) : Decidable (FrameFits cipher f) :=
  match cipher with
  | none => inferInstanceAs (Decidable f.Fits)
  | some _ => inferInstanceAs (Decidable f.FitsSealed)

instance (i : Nat) : Decidable (KeyFits cipher i) :=
  match cipher with
  | none => inferInstanceAs (Decidable True)
  | some c => inferInstanceAs (Decidable ((c.generate i).1.length ≤ 4096))

instance (i written : Nat) : Decidable (HeaderWhole cipher i written) :=
  inferInstanceAs (Decidable (_ ∨ _))

instance (s : State Key) (f : Frame) : Decidable (Writable aead cipher s f) :=
  inferInstanceAs (Decidable (_ ∧ ∀ w ∈ s.wal, ∀ p ∈ s.disk.gens, _))

instance (s : State Key) (a : Action) : Decidable (Tidy aead cipher s a) :=
  match a with
  | .append f => inferInstanceAs (Decidable (Writable aead cipher s f))
  | .appendFails f written | .crashAppend f written =>
      inferInstanceAs (Decidable (0 < written → Writable aead cipher s f))
  | .openOk i | .rotate i => inferInstanceAs (Decidable (KeyFits cipher i))
  | .crashOpenHeader i written | .crashRotate i written | .rotateFails i (.header written) =>
      inferInstanceAs (Decidable (KeyFits cipher i ∧ HeaderWhole cipher i written))
  | .crashOpen _ | .rotateFails _ .sync | .rotateFails _ .create | .reclaim _ _ | .crash =>
      inferInstanceAs (Decidable True)

end Conditions

def Segment.acked (seg : Segment) : List (Nat × Frame) :=
  (seg.frames.filter Prod.snd).map fun p => (seg.num, p.1)

/-- What an open `Wal` keeps: no file is past its counter, and only the file it
writes to, or an older one, has frames. -/
structure HandleInv (cipher : Option (WalCipher Key)) (segs : List Segment) (w : Handle Key) :
    Prop where
  le : ∀ seg ∈ segs, seg.num ≤ w.generation
  file_le : w.file ≤ w.generation
  later : ∀ seg ∈ segs, w.file < seg.num → seg.frames = []
  plain : cipher = none → w.enc = none
  sealed : ∀ c, cipher = some c → ∃ i seq, w.enc = some ((c.generate i).2, seq) ∧
    ∀ seg ∈ segs, seg.num = w.file → seg.key = some i

structure Inv (aead : Aead Key) (cipher : Option (WalCipher Key)) (s : State Key)
    (segs : List Segment) : Prop where
  legacy : s.disk.legacy = none
  gens : s.disk.gens = render aead cipher segs
  sound : ∀ seg ∈ segs, seg.Sound aead cipher
  sorted : segs.Pairwise fun a b => a.num < b.num
  acked : s.acked = segs.flatMap Segment.acked
  unacked : ∀ seg ∈ segs, ∀ p ∈ seg.frames, p.2 = false → p.1 ∈ s.unacked
  handle : ∀ w, s.wal = some w → HandleInv cipher segs w

variable {aead : Aead Key} {cipher : Option (WalCipher Key)} {s : State Key}
  {segs : List Segment}

theorem inv_initial : Inv aead cipher (State.initial : State Key) [] := by
  constructor <;> simp [State.initial, render]

section Directory

theorem appendTo_split {g : Nat} {bytes more : Bytes} {l r : Gens} (hl : ∀ p ∈ l, p.1 ≠ g)
    (hr : ∀ p ∈ r, p.1 ≠ g) :
    Gens.appendTo (l ++ (g, bytes) :: r) g more = l ++ (g, bytes ++ more) :: r := by
  have hsame : ∀ q : Gens, (∀ p ∈ q, p.1 ≠ g) →
      (q.map fun p => if p.1 = g then (p.1, p.2 ++ more) else p) = q := by
    intro q hq
    conv_rhs => rw [← List.map_id q]
    exact List.map_congr_left fun p hp => if_neg (hq p hp)
  simp [Gens.appendTo, hsame l hl, hsame r hr]

theorem appendTo_absent {g : Nat} {more : Bytes} {gens : Gens} (h : ∀ p ∈ gens, p.1 ≠ g) :
    gens.appendTo g more = gens := by
  conv_rhs => rw [← List.map_id gens]
  exact List.map_congr_left fun p hp => if_neg (h p hp)

theorem create_last {g : Nat} {gens : Gens} (h : ∀ p ∈ gens, p.1 < g) :
    gens.create g = gens ++ [(g, [])] := by
  have hany : gens.any (fun p => p.1 = g) = false := by
    rw [List.any_eq_false]
    intro p hp
    have := h p hp
    simp only [decide_eq_true_eq]
    omega
  rw [Gens.create, hany]
  simp only [Bool.false_eq_true, if_false]
  clear hany
  induction gens with
  | nil => rfl
  | cons p rest ih =>
      have hp := h p (by simp)
      rw [List.orderedInsert_cons, if_neg (by simpa using hp),
        ih fun q hq => h q (by simp [hq])]
      rfl

theorem start_last {g : Nat} {gens : Gens} (bytes : Bytes) (h : ∀ p ∈ gens, p.1 < g) :
    gens.start g bytes = gens ++ [(g, bytes)] := by
  rw [Gens.start, create_last h, appendTo_split (fun p hp => (h p hp).ne) (by simp)]
  simp

theorem lastGeneration_cases (aead : Aead Key) (cipher : Option (WalCipher Key))
    (hsorted : segs.Pairwise fun a b => a.num < b.num) :
    (segs = [] ∧ lastGeneration (render aead cipher segs) = none) ∨
      ∃ g, lastGeneration (render aead cipher segs) = some g ∧ (∃ seg ∈ segs, seg.num = g) ∧
        ∀ seg ∈ segs, seg.num ≤ g := by
  rcases List.eq_nil_or_concat segs with rfl | ⟨init, last, rfl⟩
  · exact .inl ⟨rfl, rfl⟩
  · refine .inr ⟨last.num, by simp [lastGeneration, render], ⟨last, by simp, rfl⟩, ?_⟩
    intro seg hseg
    rw [List.concat_eq_append] at hsorted hseg
    rcases List.mem_append.mp hseg with hinit | hlast
    · exact ((List.pairwise_append.mp hsorted).2.2 seg hinit last (by simp)).le
    · rw [List.mem_singleton.mp hlast]

theorem mem_render {p : Nat × Bytes} (h : p ∈ render aead cipher segs) :
    ∃ seg ∈ segs, p = (seg.num, seg.bytes aead cipher) := by
  obtain ⟨seg, hseg, rfl⟩ := List.mem_map.mp h
  exact ⟨seg, hseg, rfl⟩

theorem render_append (l r : List Segment) :
    render aead cipher (l ++ r) = render aead cipher l ++ render aead cipher r :=
  List.map_append

/-- A new file after all the others. -/
theorem start_render {g : Nat} {seg : Segment} {bytes : Bytes}
    (hlt : ∀ old ∈ segs, old.num < g) (hnum : seg.num = g)
    (hbytes : seg.bytes aead cipher = bytes) :
    (render aead cipher segs).start g bytes = render aead cipher (segs ++ [seg]) := by
  rw [start_last, render_append]
  · simp [render, hnum, hbytes]
  · intro p hp
    obtain ⟨old, hold, rfl⟩ := mem_render hp
    exact hlt old hold

theorem pairwise_snoc {g : Nat} {seg : Segment}
    (hsorted : segs.Pairwise fun a b => a.num < b.num) (hlt : ∀ old ∈ segs, old.num < g)
    (hnum : seg.num = g) : (segs ++ [seg]).Pairwise fun a b => a.num < b.num := by
  rw [List.pairwise_append]
  refine ⟨hsorted, List.pairwise_singleton _ _, ?_⟩
  intro a ha b hb
  rw [List.mem_singleton.mp hb, hnum]
  exact hlt a ha

end Directory

section Headers

/-- The segment a file is once some bytes of its header are written. -/
def freshSegment (cipher : Option (WalCipher Key)) (num i written : Nat) : Segment :=
  match cipher with
  | none => ⟨num, none, [], []⟩
  | some c =>
      if written < 4 then ⟨num, none, [], (encHeader (c.generate i).1).take written⟩
      else ⟨num, some i, [], []⟩

@[simp] theorem freshSegment_num (num i written : Nat) :
    (freshSegment cipher num i written).num = num := by
  unfold freshSegment
  split
  · rfl
  · split <;> rfl

@[simp] theorem freshSegment_frames (num i written : Nat) :
    (freshSegment cipher num i written).frames = [] := by
  unfold freshSegment
  split
  · rfl
  · split <;> rfl

private theorem four_lt_length_encHeader (wrapped : Bytes) : 4 < (encHeader wrapped).length := by
  simp [encHeader]

theorem freshSegment_bytes {num i written : Nat} (hwhole : HeaderWhole cipher i written) :
    (freshSegment cipher num i written).bytes aead cipher =
      (header cipher i).take written := by
  cases cipher with
  | none => simp [freshSegment, Segment.bytes, Segment.head, Segment.records, encodeFrom, header]
  | some c =>
      simp only [freshSegment]
      split
      · simp [Segment.bytes, Segment.head, Segment.records, encodeFrom, header]
      · next hge =>
          have hle : (encHeader (c.generate i).1).length ≤ written := by
            rcases hwhole with hlt | hle
            · exact absurd hlt hge
            · exact hle
          simp [Segment.bytes, Segment.head, Segment.records, encodeFrom, header,
            List.take_of_length_le hle]

theorem freshSegment_sound {num i written : Nat} (hkey : KeyFits cipher i) :
    (freshSegment cipher num i written).Sound aead cipher := by
  cases cipher with
  | none => exact ⟨by simp [Segment.records], .nil⟩
  | some c =>
      simp only [freshSegment]
      split
      · next hlt =>
          refine ⟨rfl, ?_⟩
          rw [List.length_take]
          omega
      · exact ⟨hkey, by simp [Segment.records], .nil⟩

theorem freshSegment_key {c : WalCipher Key} {num i written : Nat}
    (hwhole : (header (some c) i).length ≤ written) :
    (freshSegment (some c) num i written).key = some i := by
  have hlong := four_lt_length_encHeader (c.generate i).1
  have hge : ¬ written < 4 := by
    simp only [header] at hwhole
    omega
  simp [freshSegment, hge]

end Headers

/-- A new file after all the others, with nothing but header bytes in it. -/
theorem Inv.start (h : Inv aead cipher s segs) (g i written : Nat) (wal : Option (Handle Key))
    (hkey : KeyFits cipher i) (hwhole : HeaderWhole cipher i written)
    (hlt : ∀ seg ∈ segs, seg.num < g)
    (hhandle : ∀ w, wal = some w →
      HandleInv cipher (segs ++ [freshSegment cipher g i written]) w) :
    Inv aead cipher
      { s with
        disk := { s.disk with gens := s.disk.gens.start g ((header cipher i).take written) }
        wal := wal }
      (segs ++ [freshSegment cipher g i written]) where
  legacy := h.legacy
  gens := by
    show s.disk.gens.start g _ = _
    rw [h.gens]
    exact start_render hlt (freshSegment_num _ _ _) (freshSegment_bytes hwhole)
  sound := by
    intro seg hseg
    rcases List.mem_append.mp hseg with hold | hnew
    · exact h.sound seg hold
    · rw [List.mem_singleton.mp hnew]
      exact freshSegment_sound hkey
  sorted := pairwise_snoc h.sorted hlt (freshSegment_num _ _ _)
  acked := by simp [h.acked, Segment.acked]
  unacked := by
    intro seg hseg p hp
    rcases List.mem_append.mp hseg with hold | hnew
    · exact h.unacked seg hold p hp
    · rw [List.mem_singleton.mp hnew, freshSegment_frames] at hp
      cases hp
  handle := hhandle

/-- The handle on a file that was just created, with its header whole. -/
theorem HandleInv.fresh {g : Nat} (i : Nat) (hlt : ∀ seg ∈ segs, seg.num < g) :
    HandleInv cipher (segs ++ [freshSegment cipher g i (header cipher i).length])
      ⟨g, g, cipher.map fun c => ((c.generate i).2, 0)⟩ where
  le := by
    intro seg hseg
    rcases List.mem_append.mp hseg with hold | hnew
    · exact (hlt seg hold).le
    · simp [List.mem_singleton.mp hnew]
  file_le := Nat.le_refl _
  later := by
    intro seg hseg hlater
    rcases List.mem_append.mp hseg with hold | hnew
    · exact absurd (hlt seg hold) (Nat.not_lt.mpr hlater.le)
    · simp [List.mem_singleton.mp hnew]
  plain := by
    rintro rfl
    rfl
  sealed := by
    rintro c rfl
    refine ⟨i, 0, rfl, ?_⟩
    intro seg hseg hnum
    rcases List.mem_append.mp hseg with hold | hnew
    · exact absurd hnum (hlt seg hold).ne
    · rw [List.mem_singleton.mp hnew]
      exact freshSegment_key (Nat.le_refl _)

section Open

/-- The directory after the first `n` files were replayed. -/
def trimFirst (cipher : Option (WalCipher Key)) (n : Nat) (segs : List Segment) :
    List Segment :=
  (segs.take n).map (Segment.trim cipher) ++ segs.drop n

theorem map_trimFirst {β : Type} {φ : Segment → β} (hφ : ∀ seg, φ (seg.trim cipher) = φ seg)
    (n : Nat) (segs : List Segment) : (trimFirst cipher n segs).map φ = segs.map φ := by
  have htrim : (segs.take n).map (φ ∘ Segment.trim cipher) = (segs.take n).map φ :=
    List.map_congr_left fun seg _ => hφ seg
  rw [trimFirst, List.map_append, List.map_map, htrim, ← List.map_append,
    List.take_append_drop]

theorem mem_trimFirst {n : Nat} {seg : Segment} (h : seg ∈ trimFirst cipher n segs) :
    ∃ old ∈ segs, seg = old.trim cipher ∨ seg = old := by
  rcases List.mem_append.mp h with hfirst | hrest
  · obtain ⟨old, hold, rfl⟩ := List.mem_map.mp hfirst
    exact ⟨old, List.mem_of_mem_take hold, .inl rfl⟩
  · exact ⟨seg, List.mem_of_mem_drop hrest, .inr rfl⟩

theorem Inv.trimFirst (h : Inv aead cipher s segs) (n : Nat) :
    Inv aead cipher
      { s with
        disk := { s.disk with gens := render aead cipher (trimFirst cipher n segs) }
        wal := none }
      (Wal.trimFirst cipher n segs) where
  legacy := h.legacy
  gens := rfl
  sound := by
    intro seg hseg
    obtain ⟨old, hold, rfl | rfl⟩ := mem_trimFirst hseg
    · exact (h.sound old hold).trim
    · exact h.sound _ hold
  sorted := by
    have hnums := h.sorted
    rw [← List.pairwise_map (f := Segment.num)] at hnums ⊢
    rwa [map_trimFirst (Segment.trim_num cipher)]
  acked := by
    have htrim : ∀ seg : Segment, (seg.trim cipher).acked = seg.acked := by
      intro seg
      simp [Segment.acked]
    rw [List.flatMap_def, map_trimFirst htrim, ← List.flatMap_def]
    exact h.acked
  unacked := by
    intro seg hseg p hp
    obtain ⟨old, hold, rfl | rfl⟩ := mem_trimFirst hseg
    · rw [Segment.trim_frames] at hp
      exact h.unacked old hold p hp
    · exact h.unacked _ hold p hp
  handle := by
    intro w hw
    cases hw

theorem replayAll_render (h : ∀ seg ∈ segs, seg.Sound aead cipher) (n : Nat) :
    (replayAll aead cipher ((render aead cipher segs).take n)).1 ++
        (render aead cipher segs).drop n =
      render aead cipher (trimFirst cipher n segs) := by
  have htake : (render aead cipher segs).take n = render aead cipher (segs.take n) := by
    simp [render, List.map_take]
  have hdrop : (render aead cipher segs).drop n = render aead cipher (segs.drop n) := by
    simp [render, List.map_drop]
  rw [htake, hdrop, replayAll_bytes fun seg hseg => h seg (List.mem_of_mem_take hseg),
    trimFirst, render_append]

theorem start_nil (gens : Gens) (g : Nat) : gens.start g [] = gens.create g := by
  have hsame : ∀ p : Nat × Bytes, (if p.1 = g then (p.1, p.2 ++ []) else p) = p := by
    intro p
    split <;> simp
  rw [Gens.start, Gens.appendTo]
  conv_rhs => rw [← List.map_id (gens.create g)]
  exact List.map_congr_left fun p _ => hsame p

private theorem Inv.migrate (h : Inv aead cipher s segs) : s.disk.migrate = s.disk := by
  simp [Disk.migrate, h.legacy]

/-- The replay of the whole directory. -/
private theorem Inv.replay (h : Inv aead cipher s segs) :
    ∃ cut, replayAll aead cipher s.disk.gens =
        (render aead cipher cut, .ok (segs.flatMap Segment.records)) ∧
      Inv aead cipher
        { s with disk := { s.disk with gens := render aead cipher cut }, wal := none } cut := by
  refine ⟨Wal.trimFirst cipher segs.length segs, ?_, h.trimFirst segs.length⟩
  rw [h.gens, replayAll_bytes h.sound]
  simp [Wal.trimFirst]

theorem lt_nextGeneration (aead : Aead Key) (cipher : Option (WalCipher Key))
    (hsorted : segs.Pairwise fun a b => a.num < b.num) :
    ∀ seg ∈ segs, seg.num <
      ((lastGeneration (render aead cipher segs)).map (· + 1)).getD 0 := by
  rcases lastGeneration_cases aead cipher hsorted with
    ⟨rfl, _⟩ | ⟨g, hlast, _, hle⟩
  · simp
  · intro seg hseg
    have := hle seg hseg
    simp only [hlast, Option.map_some, Option.getD_some]
    omega

/-- `Wal::open` on a directory of sound files succeeds and returns their
frames, oldest file first; the handle it returns starts from the invariant. -/
theorem openDir_spec (h : Inv aead cipher s segs) (i : Nat) :
    ∃ disk w, openDir aead cipher s.disk i = (disk, .ok (w, segs.flatMap Segment.records)) ∧
      (KeyFits cipher i →
        ∃ segs', Inv aead cipher { s with disk := disk, wal := some w } segs') := by
  obtain ⟨cut, hreplay, hcut⟩ := h.replay
  simp only [openDir, h.migrate, hreplay]
  cases cipher with
  | none =>
      refine ⟨_, _, rfl, fun _ => ?_⟩
      rcases lastGeneration_cases aead none hcut.sorted with
        ⟨rfl, hlast⟩ | ⟨g, hlast, ⟨seg, hseg, rfl⟩, hle⟩
      · have hstart := hcut.start 0 0 0 (some ⟨0, 0, none⟩) trivial (.inl (by decide)) (by simp) ?_
        · simp only [header, List.take_nil, start_nil] at hstart
          exact ⟨_, by simpa [hlast] using hstart⟩
        · intro w hw
          obtain rfl := Option.some.inj hw
          constructor <;> simp [freshSegment]
      · have hany : (render aead none cut).any (fun p => p.1 = seg.num) = true := by
          rw [List.any_eq_true]
          exact ⟨_, List.mem_map.mpr ⟨seg, hseg, rfl⟩, by simp⟩
        refine ⟨cut, ⟨hcut.legacy, ?_, hcut.sound, hcut.sorted, hcut.acked, hcut.unacked,
          ?_⟩⟩
        · simp [hlast, Gens.create, hany]
        · intro w hw
          obtain rfl := Option.some.inj hw
          simp only [hlast, Option.getD_some]
          refine ⟨hle, Nat.le_refl _, ?_, fun _ => rfl, by simp⟩
          intro later hlater hlt
          exact absurd (hle later hlater) (Nat.not_le.mpr hlt)
  | some c =>
      refine ⟨_, _, rfl, fun hkey => ?_⟩
      have hlt := lt_nextGeneration aead (some c) hcut.sorted
      generalize ((lastGeneration (render aead (some c) cut)).map (· + 1)).getD 0 = g at hlt
      have hstart := hcut.start g i (header (some c) i).length
        (some ⟨g, g, some ((c.generate i).2, 0)⟩) hkey (.inr (Nat.le_refl _)) hlt ?_
      · rw [List.take_length] at hstart
        exact ⟨_, hstart⟩
      · intro w hw
        obtain rfl := Option.some.inj hw
        exact .fresh i hlt

end Open

section Write

variable {w : Handle Key}

/-- The file a handle writes to is one of the segments, or it was unlinked. -/
theorem active_cases (hsorted : segs.Pairwise fun a b => a.num < b.num) (file : Nat) :
    (∀ seg ∈ segs, seg.num ≠ file) ∨
      ∃ l seg r, segs = l ++ seg :: r ∧ seg.num = file ∧ (∀ a ∈ l, a.num < file) ∧
        ∀ b ∈ r, file < b.num := by
  by_cases hex : ∃ seg ∈ segs, seg.num = file
  · obtain ⟨seg, hseg, rfl⟩ := hex
    obtain ⟨l, r, rfl⟩ := List.append_of_mem hseg
    rw [List.pairwise_append, List.pairwise_cons] at hsorted
    exact .inr ⟨l, seg, r, rfl, rfl, fun a ha => hsorted.2.2 a ha seg (by simp),
      hsorted.2.1.1⟩
  · exact .inl fun seg hseg hnum => hex ⟨seg, hseg, hnum⟩

/-- Replace the active segment by what a write has made of it. -/
theorem Inv.replace {l r : List Segment} {seg : Segment}
    (h : Inv aead cipher s (l ++ seg :: r)) (seg' : Segment) {more : Bytes}
    {acked : List (Nat × Frame)}
    {unacked : List Frame} {wal : Option (Handle Key)} (hnum : seg'.num = seg.num)
    (hbytes : seg'.bytes aead cipher = seg.bytes aead cipher ++ more)
    (hsound : seg'.Sound aead cipher)
    (hacked : acked = l.flatMap Segment.acked ++ (seg'.acked ++ r.flatMap Segment.acked))
    (hnew : ∀ p ∈ seg'.frames, p.2 = false → p.1 ∈ unacked)
    (hold : ∀ f ∈ s.unacked, f ∈ unacked)
    (hhandle : ∀ w, wal = some w → HandleInv cipher (l ++ seg' :: r) w) :
    Inv aead cipher
      ⟨{ s.disk with gens := s.disk.gens.appendTo seg.num more }, wal, acked, unacked⟩
      (l ++ seg' :: r) := by
  have hsorted := h.sorted
  rw [List.pairwise_append, List.pairwise_cons] at hsorted
  obtain ⟨hl, ⟨hseg, hr⟩, hlr⟩ := hsorted
  have hmem : ∀ {a}, a ∈ l ∨ a ∈ r → a ∈ l ++ seg :: r := by
    intro a ha
    rcases ha with ha | ha <;> simp [ha]
  refine ⟨h.legacy, ?_, ?_, ?_, ?_, ?_, hhandle⟩
  · show s.disk.gens.appendTo seg.num more = _
    rw [h.gens]
    simp only [render, List.map_append, List.map_cons]
    rw [appendTo_split, hnum, hbytes]
    · intro p hp
      obtain ⟨a, ha, rfl⟩ := List.mem_map.mp hp
      exact (hlr a ha seg (by simp)).ne
    · intro p hp
      obtain ⟨b, hb, rfl⟩ := List.mem_map.mp hp
      exact (hseg b hb).ne'
  · intro a ha
    rcases List.mem_append.mp ha with ha | ha
    · exact h.sound a (hmem (.inl ha))
    · rcases List.mem_cons.mp ha with rfl | ha
      · exact hsound
      · exact h.sound a (hmem (.inr ha))
  · rw [List.pairwise_append, List.pairwise_cons]
    refine ⟨hl, ⟨fun b hb => by rw [hnum]; exact hseg b hb, hr⟩, ?_⟩
    intro a ha b hb
    rcases List.mem_cons.mp hb with rfl | hb
    · rw [hnum]
      exact hlr a ha seg (by simp)
    · exact hlr a ha b (by simp [hb])
  · simpa using hacked
  · intro a ha p hp hfalse
    rcases List.mem_append.mp ha with ha | ha
    · exact hold _ (h.unacked a (hmem (.inl ha)) p hp hfalse)
    · rcases List.mem_cons.mp ha with rfl | ha
      · exact hnew p hp hfalse
      · exact hold _ (h.unacked a (hmem (.inr ha)) p hp hfalse)

/-- A write to an unlinked file changes nothing on the disk. -/
theorem Inv.unlinked (h : Inv aead cipher s segs) {file : Nat} {more : Bytes}
    {unacked : List Frame} {wal : Option (Handle Key)} (hgone : ∀ seg ∈ segs, seg.num ≠ file)
    (hold : ∀ f ∈ s.unacked, f ∈ unacked)
    (hhandle : ∀ w, wal = some w → HandleInv cipher segs w) :
    Inv aead cipher
      ⟨{ s.disk with gens := s.disk.gens.appendTo file more }, wal, s.acked, unacked⟩ segs := by
  refine ⟨h.legacy, ?_, h.sound, h.sorted, h.acked,
    fun seg hseg p hp hfalse => hold _ (h.unacked seg hseg p hp hfalse), hhandle⟩
  show s.disk.gens.appendTo file more = _
  rw [h.gens]
  refine appendTo_absent ?_
  intro p hp
  obtain ⟨seg, hseg, rfl⟩ := mem_render hp
  exact hgone seg hseg

/-- The frame a handle would write is the next record of a segment. -/
structure Ready (aead : Aead Key) (cipher : Option (WalCipher Key)) (seg : Segment)
    (w : Handle Key) : Prop where
  tail : seg.tail = []
  key : ∀ c, cipher = some c → seg.key ≠ none
  encode : ∀ f, seg.encode aead cipher seg.records.length f = w.frameBytes aead f

theorem ready_of_clean {seg : Segment} (hw : HandleInv cipher segs w) (hseg : seg ∈ segs)
    (hnum : seg.num = w.file) (hsound : seg.Sound aead cipher)
    (hclean : clean aead cipher w (seg.bytes aead cipher) = true) : Ready aead cipher seg w := by
  obtain ⟨num, key, frames, tail⟩ := seg
  cases cipher with
  | none =>
      cases key with
      | some i => exact hsound.elim
      | none =>
          have hleft : (scanPlaintext (Segment.bytes aead (none : Option (WalCipher Key))
              ⟨num, none, frames, tail⟩)).left = tail := by
            rw [Segment.bytes]
            exact congrArg Scan.left (Segment.scanPlaintext_bytes hsound.1 hsound.2)
          refine ⟨hleft.symm.trans (List.isEmpty_iff.mp hclean), by simp, ?_⟩
          intro f
          simp [Segment.encode, Handle.frameBytes, hw.plain rfl]
  | some c =>
      obtain ⟨i, seq, henc, hkeys⟩ := hw.sealed c rfl
      obtain rfl : key = some i := hkeys _ hseg hnum
      have hscan := Segment.scanEncrypted_bytes hsound.2.1 hsound.2.2
      have hread : readEncHeader c (Segment.bytes aead (some c) ⟨num, some i, frames, tail⟩) =
          .ok ((c.generate i).2, _) := readEncHeader_encHeader c i hsound.1 _
      simp only [clean, henc, hread] at hclean
      rw [show Segment.encode aead (some c) ⟨num, some i, frames, tail⟩ =
        sealedFrame aead (c.generate i).2 from rfl, hscan, Bool.and_eq_true,
        List.isEmpty_iff, beq_iff_eq] at hclean
      refine ⟨hclean.1, by simp, ?_⟩
      intro f
      simp only [Segment.encode, Handle.frameBytes, henc, ← hclean.2]

/-- One more whole frame. -/
def Segment.push (seg : Segment) (f : Frame) (ok : Bool) : Segment :=
  { seg with frames := seg.frames ++ [(f, ok)] }

theorem Ready.push_bytes {seg : Segment} (h : Ready aead cipher seg w) (f : Frame) (ok : Bool) :
    (seg.push f ok).bytes aead cipher = seg.bytes aead cipher ++ w.frameBytes aead f := by
  have hencode : (seg.push f ok).encode aead cipher = seg.encode aead cipher := rfl
  have hrecords : (seg.push f ok).records = seg.records ++ [f] := by
    simp [Segment.records, Segment.push]
  have htail : (seg.push f ok).tail = [] := h.tail
  have hhead : (seg.push f ok).head cipher = seg.head cipher := rfl
  rw [Segment.bytes, Segment.bytes, hencode, hrecords, htail, hhead, encodeFrom_append,
    Nat.zero_add, h.tail]
  simp [encodeFrom, h.encode f]

theorem Ready.push_sound {seg : Segment} (h : Ready aead cipher seg w)
    (hsound : seg.Sound aead cipher) {f : Frame} (hfits : FrameFits cipher f) (ok : Bool) :
    (seg.push f ok).Sound aead cipher := by
  obtain ⟨num, key, frames, tail⟩ := seg
  obtain rfl : tail = [] := h.tail
  have hmem : ∀ {P : Frame → Prop}, (∀ g ∈ frames.map Prod.fst, P g) → P f →
      ∀ g ∈ (frames ++ [(f, ok)]).map Prod.fst, P g := by
    intro P hold hnew g hg
    rw [List.map_append, List.mem_append] at hg
    rcases hg with hg | hg
    · exact hold g hg
    · rw [List.mem_singleton.mp hg]
      exact hnew
  cases cipher with
  | none =>
      cases key with
      | some i => exact hsound
      | none => exact ⟨hmem hsound.1 hfits, .nil⟩
  | some c =>
      cases key with
      | none =>
          exact absurd rfl (h.key c rfl)
      | some i => exact ⟨hsound.1, hmem hsound.2.1 hfits, .nil⟩

/-- The first bytes of a frame. -/
def Segment.tear (seg : Segment) (bytes : Bytes) : Segment :=
  { seg with tail := bytes }

theorem Ready.tear_bytes {seg : Segment} (h : Ready aead cipher seg w) (bytes : Bytes) :
    (seg.tear bytes).bytes aead cipher = seg.bytes aead cipher ++ bytes := by
  have hencode : (seg.tear bytes).encode aead cipher = seg.encode aead cipher := rfl
  have hrecords : (seg.tear bytes).records = seg.records := rfl
  have hhead : (seg.tear bytes).head cipher = seg.head cipher := rfl
  have htail : (seg.tear bytes).tail = bytes := rfl
  rw [Segment.bytes, Segment.bytes, hencode, hrecords, hhead, htail, h.tail]
  simp

theorem Ready.tear_sound {seg : Segment} (h : Ready aead cipher seg w)
    (hsound : seg.Sound aead cipher) {f : Frame} (hfits : FrameFits cipher f) {bytes : Bytes}
    (hpre : bytes <+: w.frameBytes aead f) (hne : bytes ≠ w.frameBytes aead f) :
    (seg.tear bytes).Sound aead cipher := by
  have hencode := h.encode f
  obtain ⟨num, key, frames, tail⟩ := seg
  rw [← hencode] at hpre hne
  cases cipher with
  | none =>
      cases key with
      | some i => exact hsound
      | none => exact ⟨hsound.1, .inr ⟨f, hfits, hpre, hne⟩⟩
  | some c =>
      cases key with
      | none => exact absurd rfl (h.key c rfl)
      | some i => exact ⟨hsound.1, hsound.2.1, .inr ⟨f, hfits, hpre, hne⟩⟩

theorem HandleInv.replace {l r : List Segment} {seg : Segment}
    (h : HandleInv cipher (l ++ seg :: r) w) (seg' : Segment) (hnum : seg'.num = seg.num)
    (hkey : seg'.key = seg.key) (hfile : seg.num = w.file) :
    HandleInv cipher (l ++ seg' :: r) w := by
  have hmem : ∀ a ∈ l ++ seg' :: r, a = seg' ∨ a ∈ l ++ seg :: r := by
    intro a ha
    rcases List.mem_append.mp ha with ha | ha
    · exact .inr (by simp [ha])
    · rcases List.mem_cons.mp ha with ha | ha
      · exact .inl ha
      · exact .inr (by simp [ha])
  refine ⟨?_, h.file_le, ?_, h.plain, ?_⟩
  · intro a ha
    rcases hmem a ha with rfl | ha
    · rw [hnum]
      exact h.le seg (by simp)
    · exact h.le a ha
  · intro a ha hlt
    rcases hmem a ha with rfl | ha
    · rw [hnum, hfile] at hlt
      exact absurd hlt (Nat.lt_irrefl _)
    · exact h.later a ha hlt
  · intro c hc
    obtain ⟨i, seq, henc, hkeys⟩ := h.sealed c hc
    refine ⟨i, seq, henc, ?_⟩
    intro a ha hnum'
    rcases hmem a ha with rfl | ha
    · rw [hkey]
      exact hkeys seg (by simp) hfile
    · exact hkeys a ha hnum'

theorem HandleInv.advance (h : HandleInv cipher segs w) : HandleInv cipher segs w.advance where
  le := h.le
  file_le := h.file_le
  later := h.later
  plain := by
    intro hc
    simp [Handle.advance, h.plain hc]
  sealed := by
    intro c hc
    obtain ⟨i, seq, henc, hkeys⟩ := h.sealed c hc
    exact ⟨i, seq + 1, by simp [Handle.advance, henc], hkeys⟩

/-- The frames of the files behind the active one: there are none. -/
private theorem acked_later {l r : List Segment} {seg : Segment}
    (h : HandleInv cipher (l ++ seg :: r) w) (hlt : ∀ b ∈ r, w.file < b.num) :
    r.flatMap Segment.acked = [] := by
  rw [List.flatMap_eq_nil_iff]
  intro b hb
  simp [Segment.acked, h.later b (by simp [hb]) (hlt b hb)]

private theorem onDisk_iff (h : Inv aead cipher s segs) (file : Nat) :
    s.onDisk file = true ↔ ∃ seg ∈ segs, seg.num = file := by
  rw [State.onDisk, h.gens, List.any_eq_true]
  constructor
  · rintro ⟨p, hp, heq⟩
    obtain ⟨seg, hseg, rfl⟩ := mem_render hp
    exact ⟨seg, hseg, by simpa using heq⟩
  · rintro ⟨seg, hseg, rfl⟩
    exact ⟨_, List.mem_map.mpr ⟨seg, hseg, rfl⟩, by simp⟩

theorem Writable.ready {f : Frame} (h : Inv aead cipher s segs) (hw : s.wal = some w)
    (hok : Writable aead cipher s f) {seg : Segment} (hseg : seg ∈ segs)
    (hnum : seg.num = w.file) : Ready aead cipher seg w := by
  refine ready_of_clean (h.handle w hw) hseg hnum (h.sound seg hseg) ?_
  refine hok.2 w hw (seg.num, seg.bytes aead cipher) ?_ hnum
  rw [h.gens]
  exact List.mem_map.mpr ⟨seg, hseg, rfl⟩

theorem Inv.append (h : Inv aead cipher s segs) (hw : s.wal = some w) {f : Frame}
    (hok : Writable aead cipher s f) :
    ∃ segs', Inv aead cipher
      { s with
        disk := { s.disk with gens := s.disk.gens.appendTo w.file (w.frameBytes aead f) }
        wal := some w.advance
        acked := if s.onDisk w.file then s.acked ++ [(w.file, f)] else s.acked } segs' := by
  have hhandle := h.handle w hw
  rcases active_cases h.sorted w.file with hgone | ⟨l, seg, r, rfl, hfile, _, hr⟩
  · have hdisk : s.onDisk w.file = false := by
      rw [Bool.eq_false_iff, ne_eq, onDisk_iff h]
      rintro ⟨seg, hseg, hnum⟩
      exact hgone seg hseg hnum
    refine ⟨segs, ?_⟩
    simp only [hdisk, Bool.false_eq_true, if_false]
    refine h.unlinked hgone (fun _ hf => hf) ?_
    intro w' hw'
    obtain rfl := Option.some.inj hw'
    exact hhandle.advance
  · have hmem : seg ∈ l ++ seg :: r := by simp
    have hdisk : s.onDisk w.file = true := (onDisk_iff h _).mpr ⟨seg, hmem, hfile⟩
    have hready := hok.ready h hw hmem hfile
    refine ⟨l ++ seg.push f true :: r, ?_⟩
    simp only [hdisk, if_true]
    rw [← hfile]
    refine h.replace _ rfl (hready.push_bytes f true)
      (hready.push_sound (h.sound seg hmem) hok.1 true) ?_ ?_ (fun _ hf => hf) ?_
    · rw [h.acked, List.flatMap_append, List.flatMap_cons, acked_later hhandle hr]
      simp [Segment.acked, Segment.push]
    · intro p hp hfalse
      rcases List.mem_append.mp hp with hp | hp
      · exact h.unacked seg hmem p hp hfalse
      · rw [List.mem_singleton.mp hp] at hfalse
        cases hfalse
    · intro w' hw'
      obtain rfl := Option.some.inj hw'
      exact (hhandle.replace (seg.push f true) rfl rfl hfile).advance

/-- An `append` that did not return `Ok`, whatever became of the process. -/
theorem Inv.appendPartly (h : Inv aead cipher s segs) (hw : s.wal = some w) {f : Frame}
    {written : Nat} (hok : 0 < written → Writable aead cipher s f) (wal : Option (Handle Key))
    (hwal : wal = some w ∨ wal = none) :
    ∃ segs', Inv aead cipher { s.appendPartly aead w f written with wal := wal } segs' := by
  have hhandle := h.handle w hw
  have hkeep : ∀ segs', HandleInv cipher segs' w →
      ∀ w', wal = some w' → HandleInv cipher segs' w' := by
    rintro segs' hinv w' hw'
    rcases hwal with hwal | hwal
    · obtain rfl := Option.some.inj (hwal.symm.trans hw')
      exact hinv
    · cases hwal.symm.trans hw'
  have hold : ∀ g ∈ s.unacked, g ∈ f :: s.unacked := fun g hg => by simp [hg]
  rcases active_cases h.sorted w.file with hgone | ⟨l, seg, r, rfl, hfile, _, hr⟩
  · exact ⟨segs, h.unlinked hgone hold (hkeep _ hhandle)⟩
  have hmem : seg ∈ l ++ seg :: r := by simp
  have hsound := h.sound seg hmem
  have hflat : s.acked =
      l.flatMap Segment.acked ++ (seg.acked ++ r.flatMap Segment.acked) := by
    rw [h.acked, List.flatMap_append, List.flatMap_cons]
  have hunacked : ∀ p ∈ seg.frames, p.2 = false → p.1 ∈ f :: s.unacked :=
    fun p hp hfalse => hold _ (h.unacked seg hmem p hp hfalse)
  unfold State.appendPartly
  rw [← hfile]
  rcases Nat.eq_zero_or_pos written with rfl | hpos
  · refine ⟨l ++ seg :: r, h.replace _ rfl ?_ hsound hflat hunacked hold (hkeep _ hhandle)⟩
    simp
  · have hready := (hok hpos).ready h hw hmem hfile
    have hfits := (hok hpos).1
    by_cases hle : (w.frameBytes aead f).length ≤ written
    · rw [List.take_of_length_le hle]
      refine ⟨l ++ seg.push f false :: r, h.replace _ rfl (hready.push_bytes f false)
        (hready.push_sound hsound hfits false) ?_ ?_ hold
        (hkeep _ (hhandle.replace (seg.push f false) rfl rfl hfile))⟩
      · rw [hflat]
        simp [Segment.acked, Segment.push]
      · intro p hp hfalse
        rcases List.mem_append.mp hp with hp | hp
        · exact hunacked p hp hfalse
        · simp [List.mem_singleton.mp hp]
    · have hne : (w.frameBytes aead f).take written ≠ w.frameBytes aead f := by
        intro heq
        have := congrArg List.length heq
        rw [List.length_take] at this
        omega
      let seg' := seg.tear ((w.frameBytes aead f).take written)
      exact ⟨l ++ seg' :: r, h.replace seg' rfl (hready.tear_bytes _)
        (hready.tear_sound hsound hfits (List.take_prefix _ _) hne) hflat hunacked hold
        (hkeep _ (hhandle.replace seg' rfl rfl hfile))⟩

end Write

section Steps

variable {w : Handle Key}

/-- `rotate`, as far as the new file got. -/
theorem Inv.startFile (h : Inv aead cipher s segs) (hw : s.wal = some w) {i written : Nat}
    (hkey : KeyFits cipher i) (hwhole : HeaderWhole cipher i written)
    {wal : Option (Handle Key)}
    (hhandle : ∀ w', wal = some w' → HandleInv cipher
      (segs ++ [freshSegment cipher (w.generation + 1) i written]) w') :
    ∃ segs', Inv aead cipher { s.startFile cipher w i written with wal := wal } segs' := by
  refine ⟨_, h.start _ _ _ _ hkey hwhole ?_ hhandle⟩
  intro seg hseg
  have := (h.handle w hw).le seg hseg
  omega

/-- A `rotate` that failed leaves the old file open under a higher counter. -/
theorem HandleInv.skip (h : HandleInv cipher segs w) (extra : List Segment)
    (hextra : ∀ seg ∈ extra, seg.num = w.generation + 1 ∧ seg.frames = []) :
    HandleInv cipher (segs ++ extra) { w with generation := w.generation + 1 } where
  le := by
    intro seg hseg
    rcases List.mem_append.mp hseg with hold | hnew
    · exact Nat.le_succ_of_le (h.le seg hold)
    · exact (hextra seg hnew).1.le
  file_le := Nat.le_succ_of_le h.file_le
  later := by
    intro seg hseg hlt
    rcases List.mem_append.mp hseg with hold | hnew
    · exact h.later seg hold hlt
    · exact (hextra seg hnew).2
  plain := h.plain
  sealed := by
    intro c hc
    obtain ⟨i, seq, henc, hkeys⟩ := h.sealed c hc
    refine ⟨i, seq, henc, ?_⟩
    intro seg hseg hnum
    rcases List.mem_append.mp hseg with hold | hnew
    · exact hkeys seg hold hnum
    · have := (hextra seg hnew).1
      have := h.file_le
      dsimp only at hnum
      omega

private theorem filter_acked (segs : List Segment) (gone : List Nat) :
    (segs.flatMap Segment.acked).filter (fun p => p.1 ∉ gone) =
      (segs.filter fun seg => seg.num ∉ gone).flatMap Segment.acked := by
  induction segs with
  | nil => rfl
  | cons seg rest ih =>
      rw [List.flatMap_cons, List.filter_append, ih]
      by_cases hgone : seg.num ∈ gone
      · have hnone : seg.acked.filter (fun p => p.1 ∉ gone) = [] := by
          simp [Segment.acked, List.filter_eq_nil_iff, hgone]
        rw [hnone, List.filter_cons_of_neg (by simpa using hgone), List.nil_append]
      · have hall : seg.acked.filter (fun p => p.1 ∉ gone) = seg.acked := by
          simp [Segment.acked, List.filter_eq_self, hgone]
        rw [hall, List.filter_cons_of_pos (by simpa using hgone), List.flatMap_cons]

theorem Inv.remove (h : Inv aead cipher s segs) (gone : List Nat) :
    Inv aead cipher (s.remove gone) (segs.filter fun seg => seg.num ∉ gone) := by
  have hsub : ∀ seg ∈ segs.filter (fun seg => seg.num ∉ gone), seg ∈ segs :=
    fun seg hseg => List.mem_of_mem_filter hseg
  refine ⟨h.legacy, ?_, fun seg hseg => h.sound seg (hsub seg hseg), h.sorted.filter _, ?_,
    fun seg hseg => h.unacked seg (hsub seg hseg), ?_⟩
  · show s.disk.gens.filter _ = _
    rw [h.gens, render, List.filter_map]
    rfl
  · show s.acked.filter _ = _
    rw [h.acked]
    exact filter_acked segs gone
  · intro w hw
    have hinv := h.handle w hw
    refine ⟨fun seg hseg => hinv.le seg (hsub seg hseg), hinv.file_le,
      fun seg hseg => hinv.later seg (hsub seg hseg), hinv.plain, ?_⟩
    intro c hc
    obtain ⟨i, seq, henc, hkeys⟩ := hinv.sealed c hc
    exact ⟨i, seq, henc, fun seg hseg => hkeys seg (hsub seg hseg)⟩

theorem Inv.close (h : Inv aead cipher s segs) :
    Inv aead cipher { s with wal := none } segs :=
  ⟨h.legacy, h.gens, h.sound, h.sorted, h.acked, h.unacked, fun _ hw => by cases hw⟩

theorem inv_step {t : State Key} {a : Action} (h : Inv aead cipher s segs)
    (hok : Tidy aead cipher s a) (hs : step aead cipher s a = some t) :
    ∃ segs', Inv aead cipher t segs' := by
  cases a with
  | openOk i =>
      simp only [step] at hs
      split at hs
      · cases hs
      · next hclosed =>
          obtain ⟨disk, w, hopen, hinv⟩ := openDir_spec h i
          rw [hopen] at hs
          obtain rfl := Option.some.inj hs
          exact hinv hok
  | crashOpen replayed =>
      simp only [step] at hs
      split at hs
      · cases hs
      · next hclosed =>
          obtain rfl := Option.some.inj hs
          have htrim := h.trimFirst replayed
          rw [← replayAll_render h.sound replayed, ← h.gens] at htrim
          rw [h.migrate]
          obtain ⟨disk, wal, acked, unacked⟩ := s
          obtain rfl : wal = none := hclosed
          exact ⟨_, htrim⟩
  | crashOpenHeader i written =>
      simp only [step] at hs
      split at hs
      · next c hclosed =>
          obtain ⟨cut, hreplay, hcut⟩ := h.replay
          simp only [h.migrate, hreplay, Except.toOption, Option.map_some] at hs
          obtain rfl := Option.some.inj hs
          obtain ⟨disk, wal, acked, unacked⟩ := s
          obtain rfl : wal = none := hclosed
          exact ⟨_, hcut.start _ _ _ _ hok.1 hok.2 (lt_nextGeneration _ _ hcut.sorted)
            fun _ hw => by cases hw⟩
      · cases hs
  | append f =>
      simp only [step, Option.map_eq_some_iff] at hs
      obtain ⟨w, hw, rfl⟩ := hs
      exact h.append hw hok
  | appendFails f written =>
      simp only [step, Option.map_eq_some_iff] at hs
      obtain ⟨w, hw, rfl⟩ := hs
      exact h.appendPartly hw hok s.wal (.inl hw)
  | crashAppend f written =>
      simp only [step, Option.map_eq_some_iff] at hs
      obtain ⟨w, hw, rfl⟩ := hs
      exact h.appendPartly hw hok none (.inr rfl)
  | rotate i =>
      simp only [step, Option.map_eq_some_iff] at hs
      obtain ⟨w, hw, rfl⟩ := hs
      refine h.startFile hw hok (.inr (Nat.le_refl _)) ?_
      intro w' hw'
      obtain rfl := Option.some.inj hw'
      refine .fresh i ?_
      intro seg hseg
      have := (h.handle w hw).le seg hseg
      omega
  | rotateFails i fault =>
      simp only [step, Option.bind_eq_some_iff] at hs
      obtain ⟨w, hw, hs⟩ := hs
      have hhandle := h.handle w hw
      split at hs
      · obtain rfl := Option.some.inj hs
        exact ⟨segs, h⟩
      · obtain rfl := Option.some.inj hs
        refine ⟨segs, h.legacy, h.gens, h.sound, h.sorted, h.acked, h.unacked, ?_⟩
        intro w' hw'
        obtain rfl := Option.some.inj hw'
        simpa using hhandle.skip [] (by simp)
      · next written c =>
          obtain rfl := Option.some.inj hs
          refine h.startFile hw hok.1 hok.2 ?_
          intro w' hw'
          obtain rfl := Option.some.inj hw'
          exact hhandle.skip _ (by simp)
      · cases hs
  | crashRotate i written =>
      simp only [step, Option.map_eq_some_iff] at hs
      obtain ⟨w, hw, rfl⟩ := hs
      exact h.startFile hw hok.1 hok.2 (fun _ hw' => by cases hw')
  | reclaim upto count =>
      simp only [step, Option.map_eq_some_iff] at hs
      obtain ⟨w, hw, rfl⟩ := hs
      exact ⟨_, h.remove _⟩
  | crash =>
      simp only [step, Option.map_eq_some_iff] at hs
      obtain ⟨w, hw, rfl⟩ := hs
      exact ⟨segs, h.close⟩

end Steps

/-- A `Wal::open` of the directory as it stands succeeds and returns every
acknowledged frame of the generations that were not reclaimed, in append order
and once each; anything else it returns is a whole frame of an `append` that
did not return `Ok`. -/
def Recovers (aead : Aead Key) (cipher : Option (WalCipher Key)) (s : State Key) : Prop :=
  ∀ i, ∃ disk w, ∃ entries : List (Frame × Bool),
    openDir aead cipher s.disk i = (disk, .ok (w, entries.map Prod.fst)) ∧
      (entries.filter Prod.snd).map Prod.fst = s.acked.map Prod.snd ∧
      ∀ p ∈ entries, p.2 = false → p.1 ∈ s.unacked

theorem Inv.recovers (h : Inv aead cipher s segs) : Recovers aead cipher s := by
  intro i
  obtain ⟨disk, w, hopen, _⟩ := openDir_spec h i
  refine ⟨disk, w, segs.flatMap Segment.frames, ?_, ?_, ?_⟩
  · rw [hopen, List.map_flatMap]
    rfl
  · rw [h.acked, List.filter_flatMap, List.map_flatMap, List.map_flatMap]
    apply List.flatMap_congr
    intro seg _
    simp [Segment.acked]
  · intro p hp hfalse
    obtain ⟨seg, hseg, hp⟩ := List.mem_flatMap.mp hp
    exact h.unacked seg hseg p hp hfalse

theorem recovers_of_run {ok : State Key → Action → Prop}
    (hok : ∀ s a, ok s a → Tidy aead cipher s a) {acts : List Action}
    (run : Run (step aead cipher) ok State.initial acts s) : Recovers aead cipher s := by
  have hinv : ∃ segs, Inv aead cipher s segs := by
    refine run.invariant (P := fun s => ∃ segs, Inv aead cipher s segs) ?_ ⟨[], inv_initial⟩
    rintro s a t ⟨segs, h⟩ ha hs
    exact inv_step h (hok s a ha) hs
  obtain ⟨segs, h⟩ := hinv
  exact h.recovers

/-- The calls of a process that only ever stops by crashing. -/
def Action.crashing : Action → Bool
  | .appendFails _ _ | .rotateFails _ _ => false
  | _ => true

/-- The calls of a process whose `append` may fail and that never stops in the
middle of a write. -/
def Action.failing : Action → Bool
  | .crashOpenHeader _ _ | .crashAppend _ _ | .crashRotate _ _ | .rotateFails _ _ => false
  | _ => true

section Samples

/-- A cipher that appends the key and the frame number as its tag. -/
def tagAead : Aead Nat where
  sealBytes key seq plain := plain ++ (leBytes 8 key ++ leBytes 8 seq)
  openSealed key seq ct :=
    if ct.drop (ct.length - 16) = leBytes 8 key ++ leBytes 8 seq then
      some (ct.take (ct.length - 16))
    else none
  open_sealBytes := by simp
  length_sealBytes := by simp

def oneKey : WalCipher Nat where
  generate _ := ([1, 2, 3], 7)
  unwrap wrapped := if wrapped = [1, 2, 3] then some 7 else none
  unwrap_generate := by simp

private def point : Frame := ⟨"db", 1, utf8 "cpu v=1"⟩

private def framesOf (aead : Aead Nat) (cipher : Option (WalCipher Nat)) (s : State Nat) :
    Option (List Frame) :=
  (openDir aead cipher s.disk 0).2.toOption.map Prod.snd

private theorem framesOf_eq {aead : Aead Nat} {cipher : Option (WalCipher Nat)} {s : State Nat}
    (h : Recovers aead cipher s) : ∃ entries : List (Frame × Bool),
      framesOf aead cipher s = some (entries.map Prod.fst) ∧
        (entries.filter Prod.snd).map Prod.fst = s.acked.map Prod.snd := by
  obtain ⟨disk, w, entries, hopen, hacked, _⟩ := h 0
  exact ⟨entries, by rw [framesOf, hopen]; rfl, hacked⟩

end Samples

/-- Crashes at any byte, any number of reopenings: as long as every step is
tidy, every open succeeds and no acknowledged frame is lost. -/
theorem crashes_recover {acts : List Action}
    (run : Run (step aead cipher) (fun s a => a.crashing ∧ Tidy aead cipher s a)
      State.initial acts s) : Recovers aead cipher s :=
  recovers_of_run (fun _ _ h => h.2) run

/-- A frame torn behind its magic, a reopening that cuts it off, two more
frames and a header torn before its magic is complete. -/
private def tornRun : List Action :=
  [.openOk 0, .append point, .crashAppend point 9, .openOk 0, .append point, .rotate 0,
    .append point, .crashRotate 0 3, .openOk 0]

theorem tornRun_recovers :
    (∃ s, Run (step tagAead none) (fun s a => a.crashing ∧ Tidy tagAead none s a)
      State.initial tornRun s ∧ s.acked = [(0, point), (0, point), (1, point)] ∧
        Recovers tagAead none s) ∧
    ∃ s, Run (step tagAead (some oneKey))
      (fun s a => a.crashing ∧ Tidy tagAead (some oneKey) s a) State.initial tornRun s ∧
        s.acked = [(0, point), (1, point), (2, point)] ∧
          Recovers tagAead (some oneKey) s := by
  constructor
  · obtain ⟨s, run, hseen⟩ := exists_run_of_checkedRun (step tagAead none)
      (fun s a => a.crashing ∧ Tidy tagAead none s a) State.initial
      tornRun State.acked [(0, point), (0, point), (1, point)]
      (by decide +kernel)
    exact ⟨s, run, hseen, crashes_recover run⟩
  · obtain ⟨s, run, hseen⟩ := exists_run_of_checkedRun (step tagAead (some oneKey))
      (fun s a => a.crashing ∧ Tidy tagAead (some oneKey) s a) State.initial
      tornRun State.acked [(0, point), (1, point), (2, point)]
      (by decide +kernel)
    exact ⟨s, run, hseen, crashes_recover run⟩

/-- Two bytes of the first frame are on the disk when the process crashes. The
reopening leaves them in place, the next frame is appended behind them and
acknowledged, and after the next crash the file has no recognisable magic. -/
theorem torn_magic_refuses_open :
    ¬ ∀ (acts : List Action) (s : State Nat),
      Run (step tagAead none) (fun _ a => a.crashing) State.initial acts s →
        Recovers tagAead none s := by
  intro hall
  obtain ⟨s, run, hseen⟩ := exists_run_of_checkedRun (step tagAead none)
    (fun _ a => a.crashing) State.initial
    [.openOk 0, .crashAppend point 2, .openOk 0, .append point, .crash]
    (framesOf tagAead none) none (by decide +kernel)
  obtain ⟨entries, hframes, _⟩ := framesOf_eq (hall _ s run)
  cases hseen.symm.trans hframes

/-- Appends that fail at any byte, with the process going on: as long as every
step is tidy, a later open succeeds and no acknowledged frame is lost. -/
theorem failed_appends_recover {acts : List Action}
    (run : Run (step aead cipher) (fun s a => a.failing ∧ Tidy aead cipher s a)
      State.initial acts s) : Recovers aead cipher s :=
  recovers_of_run (fun _ _ h => h.2) run

/-- An append fails after nine bytes; the process rotates and goes on. -/
private def failedRun : List Action :=
  [.openOk 0, .append point, .appendFails point 9, .rotate 0, .append point, .crash]

theorem failedRun_recovers :
    (∃ s, Run (step tagAead none) (fun s a => a.failing ∧ Tidy tagAead none s a)
      State.initial failedRun s ∧ s.acked = [(0, point), (1, point)] ∧
        Recovers tagAead none s) ∧
    ∃ s, Run (step tagAead (some oneKey))
      (fun s a => a.failing ∧ Tidy tagAead (some oneKey) s a) State.initial failedRun s ∧
        s.acked = [(0, point), (1, point)] ∧ Recovers tagAead (some oneKey) s := by
  constructor
  · obtain ⟨s, run, hseen⟩ := exists_run_of_checkedRun (step tagAead none)
      (fun s a => a.failing ∧ Tidy tagAead none s a) State.initial
      failedRun State.acked [(0, point), (1, point)]
      (by decide +kernel)
    exact ⟨s, run, hseen, failed_appends_recover run⟩
  · obtain ⟨s, run, hseen⟩ := exists_run_of_checkedRun (step tagAead (some oneKey))
      (fun s a => a.failing ∧ Tidy tagAead (some oneKey) s a) State.initial
      failedRun State.acked [(0, point), (1, point)]
      (by decide +kernel)
    exact ⟨s, run, hseen, failed_appends_recover run⟩

/-- The process appends on behind nine bytes of a failed append: the frame it
acknowledges is read as part of the torn one and cut off. -/
theorem append_after_failure_is_lost :
    ¬ ∀ (acts : List Action) (s : State Nat),
      Run (step tagAead none) (fun _ a => a.failing) State.initial acts s →
        Recovers tagAead none s := by
  intro hall
  obtain ⟨s, run, hseen⟩ := exists_run_of_checkedRun (step tagAead none)
    (fun _ a => a.failing) State.initial
    [.openOk 0, .append point, .appendFails point 9, .append point, .crash]
    (fun s => (framesOf tagAead none s, s.acked.map Prod.snd)) (some [point], [point, point])
    (by decide +kernel)
  obtain ⟨entries, hframes, hacked⟩ := framesOf_eq (hall _ s run)
  obtain ⟨hseen, hacks⟩ := Prod.mk.injEq .. ▸ hseen
  have hlen : entries.length = 1 := by
    have := Option.some.inj (hframes.symm.trans hseen)
    simpa using congrArg List.length this
  have hle := List.length_filter_le Prod.snd entries
  have htwo : (entries.filter Prod.snd).length = 2 := by
    simpa [hacks] using congrArg List.length hacked
  omega

end TimeLake.Wal
