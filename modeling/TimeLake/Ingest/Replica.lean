import TimeLake.Ingest.Node
import TimeLake.Wal.Recovery

/-!
The replica log of an ingester (`enable_replica_wal`, `replicate_receive` and
`recover_from_replica` of `crates/server`): the peer's frames, kept in a `Wal`
of their own until a recovery applies them. A recovery seals the live file,
reads the directory through a second `Wal::open`, applies and flushes what it
read, and deletes the sealed files.

With a cipher that second open leaves a file of its own behind, one number past
the live one, and the next `rotate` of the same handle writes its header into
it. `replica_recovers` is about the calls that stay clear of that.
-/

namespace TimeLake.Ingest

open TimeLake.Library TimeLake.Wal

variable {Key : Type}

/-- The frames of a recovery through `apply`, each with whether it was
accepted; a refusal is logged and skipped. -/
def applyFrames (fl : FloatOps) : Node → List Frame → Node × List (Frame × Bool)
  | s, [] => (s, [])
  | s, f :: rest =>
      let (s, result) := s.apply fl f.db (fromUtf8Lossy f.body) f.mult 0
      let (s, outcomes) := applyFrames fl s rest
      (s, (f, result.toBool) :: outcomes)

theorem applyFrames_recover (fl : FloatOps) (s : Node) (frames : List Frame) :
    (applyFrames fl s frames).1 = s.recover fl frames := by
  induction frames generalizing s with
  | nil => rfl
  | cons f rest ih => exact ih _

theorem applyFrames_fst (fl : FloatOps) (s : Node) (frames : List Frame) :
    (applyFrames fl s frames).2.map Prod.fst = frames := by
  induction frames generalizing s with
  | nil => rfl
  | cons f rest ih =>
      simp only [applyFrames, List.map_cons]
      rw [ih]

/-- The replica log and the node that keeps it. `received` and `handed` are not
data of the program: the frames whose `replicate_receive` returned `Ok`, and
the frames recoveries have given to `apply`, both in order. `answer` is what
the last recovery returned. -/
structure Replica (Key : Type) where
  wal : Wal.State Key
  node : Node
  received : List Frame
  handed : List (Frame × Bool)
  answer : Option (Io Nat)

/-- `key` and `reader` are the answers of the key service to the live file and
to the second open; `flushed` is what the flush leaves of the node, and `other`
whatever else happens to the node between the calls. -/
inductive ReplicaAct where
  | enable (key : Nat)
  | receive (f : Frame)
  | recover (key reader : Nat) (flushed : Node)
  | other (n : Node)

section Step

variable (fl : FloatOps) (aead : Aead Key) (cipher : Option (WalCipher Key))

/-- `Wal::open` beside the live handle, for its frames. -/
def readBeside (s : Wal.State Key) (i : Nat) : Wal.State Key × Io (List Frame) :=
  let (disk, result) := openDir aead cipher s.disk i
  ({ s with disk := disk }, result.map Prod.snd)

/-- `recover_from_replica` once the live file is sealed. -/
def Replica.recoverSealed (s : Replica Key) (live : Handle Key) (sealedGen reader : Nat)
    (flushed : Node) : Replica Key :=
  match readBeside aead cipher s.wal reader with
  | (wal, .error e) => { s with wal := wal, answer := some (.error e) }
  | (wal, .ok frames) =>
      { s with
        wal := wal.remove (reclaimable wal.disk.gens live sealedGen)
        node := flushed
        handed := s.handed ++ (applyFrames fl s.node frames).2
        answer := some (.ok frames.length) }

def replicaStep (s : Replica Key) : ReplicaAct → Option (Replica Key)
  | .enable i =>
      (Wal.step aead cipher { s.wal with wal := none } (.openOk i)).map fun wal =>
        { s with wal := wal }
  | .receive f =>
      (Wal.step aead cipher s.wal (.append f)).map fun wal =>
        { s with wal := wal, received := s.received ++ [f] }
  | .recover i j flushed =>
      s.wal.wal.bind fun old =>
        (Wal.step aead cipher s.wal (.rotate i)).bind fun wal =>
          wal.wal.map fun live =>
            Replica.recoverSealed fl aead cipher { s with wal := wal } live old.generation j flushed
  | .other n => some { s with node := n }

/-- The frames on disk that no recovery has consumed. -/
def Replica.outstanding (s : Replica Key) : List Frame := s.wal.acked.map Prod.snd

/-- A received frame is one the log can read back; a recovery finds no file
under the number the live handle rotates to, and a node that accepts every
frame it will be given. -/
def replicaOk (s : Replica Key) : ReplicaAct → Prop
  | .receive f => FrameFits cipher f
  | .recover _ _ _ =>
      (∀ w ∈ s.wal.wal, s.wal.onDisk (w.generation + 1) = false) ∧
        ∀ p ∈ (applyFrames fl s.node s.outstanding).2, p.2 = true
  | _ => True

instance (s : Replica Key) : (a : ReplicaAct) → Decidable (replicaOk fl cipher s a)
  | .receive f => inferInstanceAs (Decidable (FrameFits cipher f))
  | .recover _ _ _ => inferInstanceAs (Decidable ((∀ w ∈ s.wal.wal, _) ∧ ∀ p ∈ _, _))
  | .enable _ | .other _ => inferInstanceAs (Decidable True)

end Step

def Replica.start (n : Node) : Replica Key := ⟨.initial, n, [], [], none⟩

section Directory

variable {aead : Aead Key} {cipher : Option (WalCipher Key)} {s : Wal.State Key}
  {segs : List Segment} {w : Handle Key}

/-- The handle writes the next frame of a segment. -/
structure Aligned (cipher : Option (WalCipher Key)) (seg : Segment) (w : Handle Key) : Prop where
  enc : w.enc = cipher.bind fun c => seg.key.map fun i => ((c.generate i).2, seg.frames.length)
  key : seg.key.isSome = cipher.isSome

theorem Aligned.ready {seg : Segment} (h : Aligned cipher seg w) (htail : seg.tail = []) :
    Ready aead cipher seg w := by
  have henc := h.enc
  have hkey := h.key
  obtain ⟨num, key, frames, tail⟩ := seg
  cases cipher with
  | none =>
      refine ⟨htail, by simp, fun f => ?_⟩
      simp only [Option.bind_none] at henc
      simp [Segment.encode, Handle.frameBytes, henc]
  | some c =>
      cases key with
      | none => simp at hkey
      | some i =>
          refine ⟨htail, by simp, fun f => ?_⟩
          simp only [Option.bind_some, Option.map_some] at henc
          simp [Segment.encode, Handle.frameBytes, henc, Segment.records]

theorem Aligned.push {seg : Segment} (h : Aligned cipher seg w) (f : Frame) :
    Aligned cipher (seg.push f true) w.advance := by
  refine ⟨?_, h.key⟩
  rw [Handle.advance, h.enc]
  cases cipher with
  | none => rfl
  | some c => cases hkey : seg.key <;> simp [Segment.push, hkey]

theorem Aligned.fresh (g i : Nat) :
    Aligned cipher (freshSegment cipher g i (header cipher i).length)
      ⟨g, g, cipher.map fun c => ((c.generate i).2, 0)⟩ := by
  cases cipher with
  | none => exact ⟨rfl, rfl⟩
  | some c =>
      have hkey := @freshSegment_key _ c g i _ (Nat.le_refl (header (some c) i).length)
      refine ⟨?_, by rw [hkey]; rfl⟩
      simp [hkey]

/-- The handle of a replica log: it writes to the file of its counter, and the
only file that may stand behind it is one an earlier recovery has opened. -/
structure Live (cipher : Option (WalCipher Key)) (segs : List Segment) (w : Handle Key) : Prop where
  file : w.file = w.generation
  near : ∀ seg ∈ segs, seg.num ≤ w.generation + 1
  plain : cipher = none → ∀ seg ∈ segs, seg.num ≤ w.generation
  later : ∀ seg ∈ segs, w.file < seg.num → seg.frames = []
  active : ∃ seg ∈ segs, seg.num = w.file ∧ Aligned cipher seg w

structure LogInv (aead : Aead Key) (cipher : Option (WalCipher Key)) (s : Wal.State Key)
    (segs : List Segment) : Prop where
  dir : Inv aead cipher { s with wal := none } segs
  whole : ∀ seg ∈ segs, seg.tail = []
  unacked : s.unacked = []
  live : ∀ w, s.wal = some w → Live cipher segs w

theorem LogInv.acked (h : LogInv aead cipher s segs) :
    s.acked.map Prod.snd = segs.flatMap Segment.records := by
  have hacked : s.acked = segs.flatMap Segment.acked := h.dir.acked
  rw [hacked, List.map_flatMap]
  apply List.flatMap_congr
  intro seg hseg
  have hall : seg.frames.filter Prod.snd = seg.frames := by
    rw [List.filter_eq_self]
    intro p hp
    cases hflag : p.2 with
    | true => rfl
    | false =>
        have hmem := h.dir.unacked seg hseg p hp hflag
        rw [show ({ s with wal := none } : Wal.State Key).unacked = [] from h.unacked] at hmem
        cases hmem
  simp [Segment.acked, Segment.records, hall, Function.comp_def]

theorem fresh_tail (g i : Nat) : (freshSegment cipher g i (header cipher i).length).tail = [] := by
  cases cipher with
  | none => rfl
  | some c =>
      have hlong : ¬ (encHeader (c.generate i).1).length < 4 := by simp [encHeader]
      simp [freshSegment, header, hlong]

theorem trim_of_whole {seg : Segment} (h : seg.tail = []) : seg.trim cipher = seg := by
  obtain ⟨num, key, frames, tail⟩ := seg
  obtain rfl : tail = [] := h
  cases cipher <;> cases key <;> simp [Segment.trim]

/-- A directory of whole files is read as it is. -/
theorem replayAll_whole (hdir : Inv aead cipher s segs) (hwhole : ∀ seg ∈ segs, seg.tail = []) :
    replayAll aead cipher s.disk.gens = (s.disk.gens, .ok (segs.flatMap Segment.records)) := by
  have htrim : segs.map (Segment.trim cipher) = segs := by
    conv_rhs => rw [← List.map_id segs]
    exact List.map_congr_left fun seg hseg => trim_of_whole (hwhole seg hseg)
  rw [hdir.gens, replayAll_bytes hdir.sound, htrim]

theorem openDir_plain (hdir : Inv aead none s segs) (hwhole : ∀ seg ∈ segs, seg.tail = [])
    (i : Nat) :
    openDir aead none s.disk i =
      ({ s.disk with gens := s.disk.gens.create ((lastGeneration s.disk.gens).getD 0) },
        .ok (⟨(lastGeneration s.disk.gens).getD 0, (lastGeneration s.disk.gens).getD 0, none⟩,
          segs.flatMap Segment.records)) := by
  have hmigrate : s.disk.migrate = s.disk := by simp [Disk.migrate, hdir.legacy]
  simp only [openDir, hmigrate, replayAll_whole hdir hwhole]

theorem openDir_sealed {c : WalCipher Key} (hdir : Inv aead (some c) s segs)
    (hwhole : ∀ seg ∈ segs, seg.tail = []) (i : Nat) :
    openDir aead (some c) s.disk i =
      ({ s.disk with
          gens := s.disk.gens.start (((lastGeneration s.disk.gens).map (· + 1)).getD 0)
            (header (some c) i) },
        .ok (⟨((lastGeneration s.disk.gens).map (· + 1)).getD 0,
          ((lastGeneration s.disk.gens).map (· + 1)).getD 0, some ((c.generate i).2, 0)⟩,
          segs.flatMap Segment.records)) := by
  have hmigrate : s.disk.migrate = s.disk := by simp [Disk.migrate, hdir.legacy]
  simp only [openDir, hmigrate, replayAll_whole hdir hwhole, header]

/-- A new file behind all others, and a handle on it. -/
theorem LogInv.start (h : LogInv aead cipher s segs) {g i : Nat} (hkey : KeyFits cipher i)
    (hlt : ∀ seg ∈ segs, seg.num < g) :
    LogInv aead cipher
      { s with
        disk := { s.disk with gens := s.disk.gens.start g (header cipher i) }
        wal := some ⟨g, g, cipher.map fun c => ((c.generate i).2, 0)⟩ }
      (segs ++ [freshSegment cipher g i (header cipher i).length]) := by
  have hle : ∀ seg ∈ segs ++ [freshSegment cipher g i (header cipher i).length], seg.num ≤ g := by
    intro seg hseg
    rcases List.mem_append.mp hseg with hold | hnew
    · exact (hlt seg hold).le
    · rw [List.mem_singleton.mp hnew, freshSegment_num]
  have hdir := h.dir.start g i (header cipher i).length none hkey (.inr (Nat.le_refl _)) hlt
    (fun _ hw => by cases hw)
  rw [List.take_length] at hdir
  refine ⟨hdir, ?_, h.unacked, ?_⟩
  · intro seg hseg
    rcases List.mem_append.mp hseg with hold | hnew
    · exact h.whole seg hold
    · rw [List.mem_singleton.mp hnew]
      exact fresh_tail g i
  · intro w hw
    obtain rfl := Option.some.inj hw
    refine ⟨rfl, fun seg hseg => Nat.le_succ_of_le (hle seg hseg), fun _ => hle, ?_, ?_⟩
    · intro seg hseg hlater
      exact absurd (hle seg hseg) (Nat.not_le.mpr hlater)
    · exact ⟨_, List.mem_append_right _ (List.mem_singleton_self _), freshSegment_num _ _ _,
        .fresh g i⟩

/-- `Wal::open`: the frames on disk, and a handle on the last file or on a new
one behind it. -/
theorem LogInv.openDir (h : LogInv aead cipher s segs) {i : Nat} (hkey : KeyFits cipher i) :
    ∃ disk w extra, openDir aead cipher s.disk i = (disk, .ok (w, segs.flatMap Segment.records)) ∧
      LogInv aead cipher { s with disk := disk, wal := some w } (segs ++ extra) ∧
      (∀ seg ∈ extra, seg.num = w.generation ∧ seg.frames = []) ∧
      (cipher = none → segs ≠ [] → extra = []) ∧
      ∀ g, (∃ seg ∈ segs, seg.num = g) → (∀ seg ∈ segs, seg.num ≤ g) → w.generation ≤ g + 1 := by
  have hgens : s.disk.gens = render aead cipher segs := h.dir.gens
  cases cipher with
  | none =>
      have hopen := openDir_plain h.dir h.whole i
      rcases lastGeneration_cases aead none h.dir.sorted with
        ⟨rfl, hlast⟩ | ⟨g, hlast, ⟨seg, hseg, rfl⟩, hle⟩
      · have hfresh := h.start (g := 0) hkey (by simp)
        simp only [hgens, hlast, Option.getD_none] at hopen
        simp only [header, start_nil, hgens] at hfresh
        exact ⟨_, _, _, hopen, hfresh, by simp, by simp, by simp⟩
      · have hany : (render aead none segs).any (fun p => p.1 = seg.num) = true := by
          rw [List.any_eq_true]
          exact ⟨_, List.mem_map.mpr ⟨seg, hseg, rfl⟩, by simp⟩
        have hkept : (render aead none segs).create seg.num = render aead none segs := by
          simp [Gens.create, hany]
        simp only [hgens, hlast, Option.getD_some, hkept] at hopen
        refine ⟨_, _, [], hopen, ?_, by simp, by simp, ?_⟩
        · rw [List.append_nil]
          refine ⟨?_, h.whole, h.unacked, ?_⟩
          · exact ⟨h.dir.legacy, rfl, h.dir.sound, h.dir.sorted, h.dir.acked, h.dir.unacked,
              fun _ hw => by cases hw⟩
          · intro w hw
            obtain rfl := Option.some.inj hw
            refine ⟨rfl, fun old hold => Nat.le_succ_of_le (hle old hold), fun _ => hle, ?_, ?_⟩
            · intro old hold hlater
              exact absurd (hle old hold) (Nat.not_le.mpr hlater)
            · refine ⟨seg, hseg, rfl, rfl, ?_⟩
              have hsound := h.dir.sound seg hseg
              cases hk : seg.key with
              | none => rfl
              | some k => simp [Segment.Sound, hk] at hsound
        · intro g _ hg
          exact Nat.le_succ_of_le (hg seg hseg)
  | some c =>
      have hopen := openDir_sealed h.dir h.whole i
      refine ⟨_, _, _, hopen, h.start hkey ?_, ?_, by simp, ?_⟩
      · rw [hgens]
        exact lt_nextGeneration aead (some c) h.dir.sorted
      · intro seg hseg
        rw [List.mem_singleton.mp hseg]
        exact ⟨freshSegment_num _ _ _, freshSegment_frames _ _ _⟩
      · rintro g ⟨seg, hseg, rfl⟩ hg
        rcases lastGeneration_cases aead (some c) h.dir.sorted with ⟨rfl, _⟩ |
          ⟨g, hlast, ⟨top, htop, rfl⟩, _⟩
        · cases hseg
        · simp only [hgens, hlast, Option.map_some, Option.getD_some]
          exact Nat.succ_le_succ (hg top htop)

/-- One more frame in the live file. -/
theorem LogInv.append (h : LogInv aead cipher s segs) (hw : s.wal = some w) {f : Frame}
    (hfits : FrameFits cipher f) :
    ∃ t segs', Wal.step aead cipher s (.append f) = some t ∧ LogInv aead cipher t segs' ∧
      t.wal.isSome ∧ t.acked.map Prod.snd = s.acked.map Prod.snd ++ [f] := by
  have hlive := h.live w hw
  obtain ⟨seg, hseg, hfile, halign⟩ := hlive.active
  obtain ⟨l, r, rfl⟩ := List.append_of_mem hseg
  have hready : Ready aead cipher seg w := halign.ready (h.whole seg hseg)
  have hdisk : s.onDisk w.file = true := by
    have hgens : s.disk.gens = render aead cipher (l ++ seg :: r) := h.dir.gens
    rw [State.onDisk, hgens, List.any_eq_true]
    exact ⟨_, List.mem_map.mpr ⟨seg, hseg, rfl⟩, by simp [hfile]⟩
  have hsorted := h.dir.sorted
  rw [List.pairwise_append, List.pairwise_cons] at hsorted
  have hbehind : r.flatMap Segment.acked = [] := by
    rw [List.flatMap_eq_nil_iff]
    intro b hb
    simp [Segment.acked, hlive.later b (by simp [hb]) (hfile ▸ hsorted.2.1.1 b hb)]
  have hacked : s.acked ++ [(w.file, f)] =
      l.flatMap Segment.acked ++ ((seg.push f true).acked ++ r.flatMap Segment.acked) := by
    rw [show s.acked = _ from h.dir.acked, List.flatMap_append, List.flatMap_cons, hbehind]
    simp [Segment.acked, Segment.push, hfile]
  have hmem : ∀ a ∈ l ++ seg.push f true :: r, a = seg.push f true ∨ a ∈ l ++ seg :: r := by
    intro a ha
    rcases List.mem_append.mp ha with ha | ha
    · exact .inr (by simp [ha])
    · rcases List.mem_cons.mp ha with ha | ha
      · exact .inl ha
      · exact .inr (by simp [ha])
  have hstep : Wal.step aead cipher s (.append f) =
      some { s with
        disk := { s.disk with gens := s.disk.gens.appendTo w.file (w.frameBytes aead f) }
        wal := some w.advance
        acked := s.acked ++ [(w.file, f)] } := by
    simp only [Wal.step, hw, Option.map_some, hdisk, if_true]
  have hdir : Inv aead cipher
      ⟨{ s.disk with gens := s.disk.gens.appendTo w.file (w.frameBytes aead f) }, none,
        s.acked ++ [(w.file, f)], s.unacked⟩ (l ++ seg.push f true :: r) := by
    rw [← hfile] at hacked ⊢
    refine h.dir.replace (seg.push f true) rfl (hready.push_bytes f true)
      (hready.push_sound (h.dir.sound seg hseg) hfits true) hacked ?_ (fun _ hf => hf)
      (fun _ hw => by cases hw)
    intro p hp hfalse
    rcases List.mem_append.mp hp with hp | hp
    · exact h.dir.unacked seg hseg p hp hfalse
    · rw [List.mem_singleton.mp hp] at hfalse
      cases hfalse
  refine ⟨_, l ++ seg.push f true :: r, hstep, ⟨hdir, ?_, h.unacked, ?_⟩, rfl, by simp⟩
  · intro a ha
    rcases hmem a ha with rfl | ha
    · exact h.whole seg hseg
    · exact h.whole a ha
  · intro w' hw'
    obtain rfl := Option.some.inj hw'
    refine ⟨hlive.file, ?_, ?_, ?_, ?_⟩
    · intro a ha
      rcases hmem a ha with rfl | ha
      · exact hlive.near seg hseg
      · exact hlive.near a ha
    · intro hplain a ha
      rcases hmem a ha with rfl | ha
      · exact hlive.plain hplain seg hseg
      · exact hlive.plain hplain a ha
    · intro a ha hlt
      rcases hmem a ha with rfl | ha
      · exact absurd hfile (Nat.ne_of_gt hlt)
      · exact hlive.later a ha hlt
    · exact ⟨seg.push f true, by simp, hfile, halign.push f⟩

/-- Files behind the live one, as a second open leaves them. -/
theorem Live.extend {extra : List Segment} (h : Live cipher segs w)
    (hextra : ∀ seg ∈ extra, seg.num ≤ w.generation + 1 ∧ seg.frames = [])
    (hplain : cipher = none → extra = []) : Live cipher (segs ++ extra) w := by
  refine ⟨h.file, ?_, ?_, ?_, ?_⟩
  · intro seg hseg
    rcases List.mem_append.mp hseg with hseg | hseg
    · exact h.near seg hseg
    · exact (hextra seg hseg).1
  · intro hnone
    rw [hplain hnone, List.append_nil]
    exact h.plain hnone
  · intro seg hseg hlater
    rcases List.mem_append.mp hseg with hseg | hseg
    · exact h.later seg hseg hlater
    · exact (hextra seg hseg).2
  · obtain ⟨seg, hseg, hactive⟩ := h.active
    exact ⟨seg, List.mem_append_left _ hseg, hactive⟩

/-- The sealed files go, and with them every frame there was. -/
theorem LogInv.consume {rest : List Segment} {old : Nat} (h : LogInv aead cipher s (segs ++ rest))
    (hw : s.wal = some w) (hgen : w.generation = old + 1) (hold : ∀ seg ∈ segs, seg.num ≤ old)
    (hrest : ∀ seg ∈ rest, old < seg.num ∧ seg.frames = []) :
    LogInv aead cipher (s.remove (reclaimable s.disk.gens w old)) rest ∧
      (s.remove (reclaimable s.disk.gens w old)).acked = [] := by
  have hgone : ∀ g, g ∈ reclaimable s.disk.gens w old ↔
      (∃ seg ∈ segs ++ rest, seg.num = g) ∧ g ≤ old := by
    intro g
    have hgens : s.disk.gens = render aead cipher (segs ++ rest) := h.dir.gens
    simp only [reclaimable, hgens, render, List.map_map, List.mem_filter, List.mem_map,
      Function.comp_apply, decide_eq_true_eq, hgen]
    constructor
    · rintro ⟨hseg, hle, _⟩
      exact ⟨hseg, hle⟩
    · rintro ⟨hseg, hle⟩
      exact ⟨hseg, hle, by omega⟩
  have hkept :
      (segs ++ rest).filter (fun seg => seg.num ∉ reclaimable s.disk.gens w old) = rest := by
    rw [List.filter_append, List.filter_eq_nil_iff.mpr, List.filter_eq_self.mpr, List.nil_append]
    · intro seg hseg
      have := (hrest seg hseg).1
      simp only [hgone, decide_eq_true_eq]
      omega
    · intro seg hseg
      simp only [hgone, decide_eq_true_eq, not_not]
      exact ⟨⟨seg, by simp [hseg], rfl⟩, hold seg hseg⟩
  have hdir := h.dir.remove (reclaimable s.disk.gens w old)
  rw [hkept] at hdir
  have hlive := h.live w hw
  have hsub : ∀ seg ∈ rest, seg ∈ segs ++ rest := fun seg hseg => by simp [hseg]
  refine ⟨⟨hdir, fun seg hseg => h.whole seg (hsub seg hseg), h.unacked, ?_⟩, ?_⟩
  · intro w' hw'
    obtain rfl : w = w' := Option.some.inj (hw.symm.trans hw')
    refine ⟨hlive.file, fun seg hseg => hlive.near seg (hsub seg hseg),
      fun hplain seg hseg => hlive.plain hplain seg (hsub seg hseg),
      fun seg hseg _ => (hrest seg hseg).2, ?_⟩
    obtain ⟨seg, hseg, hfile, halign⟩ := hlive.active
    rcases List.mem_append.mp hseg with hseg | hseg
    · have hle := hold seg hseg
      have hgenFile := hlive.file
      omega
    · exact ⟨seg, hseg, hfile, halign⟩
  · have hacked := hdir.acked
    rw [List.flatMap_eq_nil_iff.mpr] at hacked
    · exact hacked
    · intro seg hseg
      simp [Segment.acked, (hrest seg hseg).2]

/-- Seal, read through a second open, delete what was sealed. -/
theorem LogInv.recover (h : LogInv aead cipher s segs) (hw : s.wal = some w)
    (hkeys : ∀ i, KeyFits cipher i) (i j : Nat) (hfree : s.onDisk (w.generation + 1) = false) :
    ∃ rotated live beside segs', Wal.step aead cipher s (.rotate i) = some rotated ∧
      rotated.wal = some live ∧
      readBeside aead cipher rotated j = (beside, .ok (s.acked.map Prod.snd)) ∧
      LogInv aead cipher (beside.remove (reclaimable beside.disk.gens live w.generation)) segs' ∧
      (beside.remove (reclaimable beside.disk.gens live w.generation)).acked = [] := by
  have hlive := h.live w hw
  have hle : ∀ seg ∈ segs, seg.num ≤ w.generation := by
    intro seg hseg
    have hnear := hlive.near seg hseg
    have hne : seg.num ≠ w.generation + 1 := by
      intro heq
      have hgens : s.disk.gens = render aead cipher segs := h.dir.gens
      rw [State.onDisk, hgens, List.any_eq_false] at hfree
      exact hfree _ (List.mem_map.mpr ⟨seg, hseg, rfl⟩) (by simp [heq])
    omega
  have hrotated := h.start (hkeys i) (fun seg hseg => Nat.lt_succ_of_le (hle seg hseg))
  obtain ⟨disk, reader, extra, hopen, hreader, hextra, hplain, hnext⟩ := hrotated.openDir (hkeys j)
  generalize hfresh : freshSegment cipher (w.generation + 1) i (header cipher i).length = fresh
    at hrotated hreader hplain hnext hopen
  have hnum : fresh.num = w.generation + 1 := by rw [← hfresh, freshSegment_num]
  have hempty : fresh.frames = [] := by rw [← hfresh, freshSegment_frames]
  have hreaderLe : reader.generation ≤ w.generation + 1 + 1 := by
    refine hnext _ ⟨fresh, by simp, hnum⟩ ?_
    intro seg hseg
    rcases List.mem_append.mp hseg with hseg | hseg
    · exact Nat.le_succ_of_le (hle seg hseg)
    · rw [List.mem_singleton.mp hseg, hnum]
  have hbehind : ∀ seg ∈ extra, w.generation + 1 < seg.num := by
    intro seg hseg
    rw [← hnum]
    exact (List.pairwise_append.mp hreader.dir.sorted).2.2 fresh (by simp) seg hseg
  have hbeside : LogInv aead cipher
      { s with
        disk := disk
        wal := some ⟨w.generation + 1, w.generation + 1,
          cipher.map fun c => ((c.generate i).2, 0)⟩ }
      (segs ++ ([fresh] ++ extra)) := by
    rw [← List.append_assoc]
    refine ⟨hreader.dir, hreader.whole, h.unacked, ?_⟩
    intro live hlive'
    obtain rfl := Option.some.inj hlive'
    refine (hrotated.live _ rfl).extend ?_ fun hnone => hplain hnone (by simp)
    intro seg hseg
    rw [(hextra seg hseg).1]
    exact ⟨hreaderLe, (hextra seg hseg).2⟩
  obtain ⟨hlog, hacked⟩ := hbeside.consume rfl rfl hle (by
    intro seg hseg
    rcases List.mem_append.mp hseg with hseg | hseg
    · rw [List.mem_singleton.mp hseg, hnum]
      exact ⟨Nat.lt_succ_self _, hempty⟩
    · exact ⟨Nat.lt_of_succ_lt (hbehind seg hseg), (hextra seg hseg).2⟩)
  have hstep : Wal.step aead cipher s (.rotate i) =
      some { s with
        disk := { s.disk with gens := s.disk.gens.start (w.generation + 1) (header cipher i) }
        wal := some ⟨w.generation + 1, w.generation + 1,
          cipher.map fun c => ((c.generate i).2, 0)⟩ } := by
    simp only [Wal.step, hw, Option.map_some, State.startFile, List.take_length]
  refine ⟨_, _, _, _, hstep, rfl, ?_, hlog, hacked⟩
  simp only [readBeside, hopen]
  rw [← hrotated.acked]
  rfl

end Directory

section Recovery

variable {fl : FloatOps} {aead : Aead Key} {cipher : Option (WalCipher Key)} {s : Replica Key}

structure Replica.Inv (aead : Aead Key) (cipher : Option (WalCipher Key))
    (s : Replica Key) : Prop where
  log : ∃ segs, LogInv aead cipher s.wal segs
  received : s.received = s.handed.map Prod.fst ++ s.outstanding
  accepted : ∀ p ∈ s.handed, p.2 = true

theorem Replica.Inv.start (n : Node) : (Replica.start n : Replica Key).Inv aead cipher where
  log := ⟨[], inv_initial, by simp, rfl, fun _ hw => by cases hw⟩
  received := rfl
  accepted := by simp [Replica.start]

/-- What a recovery does that is allowed to be made. -/
theorem Replica.Inv.recover (h : s.Inv aead cipher) (hkeys : ∀ i, KeyFits cipher i) {i j : Nat}
    {flushed : Node} (hok : replicaOk fl cipher s (.recover i j flushed))
    (henabled : s.wal.wal.isSome) :
    ∃ t, replicaStep fl aead cipher s (.recover i j flushed) = some t ∧ t.Inv aead cipher ∧
      t.answer = some (.ok s.outstanding.length) ∧
      t.handed = s.handed ++ (applyFrames fl s.node s.outstanding).2 ∧
      t.received = s.received ∧ t.outstanding = [] := by
  obtain ⟨w, hw⟩ := Option.isSome_iff_exists.mp henabled
  obtain ⟨segs, hlog⟩ := h.log
  obtain ⟨hfree, haccepts⟩ := hok
  obtain ⟨rotated, live, beside, segs', hrotate, hlive, hread, hlog', hacked⟩ :=
    hlog.recover hw hkeys i j (hfree w hw)
  have hstep : replicaStep fl aead cipher s (.recover i j flushed) =
      some { s with
        wal := beside.remove (reclaimable beside.disk.gens live w.generation)
        node := flushed
        handed := s.handed ++ (applyFrames fl s.node s.outstanding).2
        answer := some (.ok s.outstanding.length) } := by
    simp only [replicaStep, hw, Option.bind_some, hrotate, hlive, Option.map_some,
      Replica.recoverSealed, hread]
    rfl
  have hgone : (beside.remove (reclaimable beside.disk.gens live w.generation)).acked.map Prod.snd =
      [] := by
    rw [hacked]
    rfl
  refine ⟨_, hstep, ⟨⟨segs', hlog'⟩, ?_, ?_⟩, rfl, rfl, rfl, hgone⟩
  · have hhanded : (s.handed ++ (applyFrames fl s.node s.outstanding).2).map Prod.fst =
        s.received := by
      rw [List.map_append, applyFrames_fst, h.received]
    change s.received = (s.handed ++ (applyFrames fl s.node s.outstanding).2).map Prod.fst ++
      (beside.remove (reclaimable beside.disk.gens live w.generation)).acked.map Prod.snd
    rw [hhanded, hgone, List.append_nil]
  · intro p hp
    rcases List.mem_append.mp hp with hp | hp
    · exact h.accepted p hp
    · exact haccepts p hp

theorem Replica.Inv.step {t : Replica Key} {a : ReplicaAct} (h : s.Inv aead cipher)
    (hkeys : ∀ i, KeyFits cipher i) (hok : replicaOk fl cipher s a)
    (hstep : replicaStep fl aead cipher s a = some t) : t.Inv aead cipher := by
  obtain ⟨segs, hlog⟩ := h.log
  cases a with
  | enable i =>
      obtain ⟨disk, w, extra, hopen, hopened, _⟩ := hlog.openDir (hkeys i)
      simp only [replicaStep, Wal.step, hopen, Except.toOption, Option.map_some] at hstep
      obtain rfl := Option.some.inj hstep
      exact ⟨⟨_, hopened⟩, h.received, h.accepted⟩
  | receive f =>
      cases hw : s.wal.wal with
      | none => simp [replicaStep, Wal.step, hw] at hstep
      | some w =>
          obtain ⟨wal, segs', happend, hlog', _, hacked⟩ := hlog.append hw hok
          simp only [replicaStep, happend, Option.map_some] at hstep
          obtain rfl := Option.some.inj hstep
          refine ⟨⟨segs', hlog'⟩, ?_, h.accepted⟩
          simp only [Replica.outstanding, hacked]
          rw [← List.append_assoc, h.received]
          rfl
  | recover i j flushed =>
      cases hw : s.wal.wal with
      | none => simp [replicaStep, hw] at hstep
      | some w =>
          obtain ⟨t', hstep', hinv, _⟩ := h.recover hkeys hok (by rw [hw]; rfl)
          obtain rfl := Option.some.inj (hstep.symm.trans hstep')
          exact hinv
  | other n =>
      obtain rfl := Option.some.inj hstep
      exact ⟨h.log, h.received, h.accepted⟩

def sampleNode : Node := openNode noFloats emptyBoot []

def sampleFrame (body : String) : Frame := ⟨"db", 1, utf8 body⟩

/-- Two recoveries, with a restart in between when `restart` says so. -/
def recoveries (restart : List ReplicaAct) : List ReplicaAct :=
  [.enable 0, .receive (sampleFrame "m v=1i 5"), .recover 0 0 sampleNode] ++ restart ++
    [.receive (sampleFrame "m v=2i 6")]

end Recovery

end TimeLake.Ingest
