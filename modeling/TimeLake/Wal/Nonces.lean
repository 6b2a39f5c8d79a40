import TimeLake.Wal.Recovery

/-!
Which (data key, frame number) pairs the log seals under. The machine of `Log`
runs below a key service as the server builds it: a source of data keys, with
`CachingKms` in front of it or not, that the object store of the same process
calls too. The cache lives in the process and is gone after a crash.

`seals` lists every call of `seal`. `given` and `failed` are not data of the
program: the source's answers under which a generation was started, and the
frame whose `append` failed last, until an `append` succeeds or a new file is
opened.
-/

namespace TimeLake.Wal

open TimeLake.Library

section Kms

/-- With or without `CachingKms`, and its `max_age` and `max_uses` as
configured. -/
structure KeyStack where
  cache : Option (Nat × Nat)

/-- `EncryptSlot`; keys are named by the source's answer they came in. -/
structure KeySlot where
  answer : Nat
  born : Nat
  uses : Nat

structure KeyState where
  slot : Option KeySlot
  answered : Nat

/-- `max_uses.clamp(1, MAX_USES_CEILING)` -/
def clampUses (maxUses : Nat) : Nat := max 1 (min maxUses (2 ^ 16))

/-- The slot a call at this time is served from. -/
def KeyState.hit (stack : KeyStack) (k : KeyState) (now : Nat) : Option KeySlot :=
  match stack.cache, k.slot with
  | some (maxAge, maxUses), some slot =>
      if slot.uses < clampUses maxUses ∧ now - slot.born < maxAge then some slot else none
  | _, _ => none

/-- `Kms::generate`. -/
def KeyState.generate (stack : KeyStack) (k : KeyState) (now : Nat) : KeyState × Nat :=
  match k.hit stack now with
  | some slot => (⟨some { slot with uses := slot.uses + 1 }, k.answered⟩, slot.answer)
  | none => (⟨stack.cache.map fun _ => ⟨k.answered, now, 1⟩, k.answered + 1⟩, k.answered)

theorem KeyState.slot_of_hit {stack : KeyStack} {k : KeyState} {now : Nat} {slot : KeySlot}
    (h : k.hit stack now = some slot) : k.slot = some slot := by
  unfold KeyState.hit at h
  split at h
  · next hslot =>
      split at h
      · obtain rfl := Option.some.inj h
        exact hslot
      · cases h
  · cases h

/-- The answers a key service has given or will give again are old. -/
def KeyState.Inv (k : KeyState) : Prop := ∀ slot ∈ k.slot, slot.answer < k.answered

theorem KeyState.Inv.generate {k : KeyState} (h : k.Inv) (stack : KeyStack) (now : Nat) :
    (k.generate stack now).1.Inv ∧ k.answered ≤ (k.generate stack now).1.answered ∧
      (k.generate stack now).2 < (k.generate stack now).1.answered := by
  unfold KeyState.generate
  split
  · next slot hhit =>
      have hlt := h slot (KeyState.slot_of_hit hhit)
      refine ⟨?_, le_rfl, hlt⟩
      intro slot' hslot'
      obtain rfl := Option.some.inj hslot'
      exact hlt
  · refine ⟨?_, Nat.le_succ _, Nat.lt_succ_self _⟩
    intro slot hslot
    obtain ⟨_, _, rfl⟩ := Option.map_eq_some_iff.mp hslot
    exact Nat.lt_succ_self _

/-- An answer is new when the cache does not serve the call. -/
theorem KeyState.generate_notMem {stack : KeyStack} {k : KeyState} {now : Nat} {given : List Nat}
    (hgiven : ∀ i ∈ given, i < k.answered)
    (hhit : ∀ slot ∈ k.hit stack now, slot.answer ∉ given) :
    (k.generate stack now).2 ∉ given := by
  unfold KeyState.generate
  split
  · next slot hslot => exact hhit slot hslot
  · intro hmem
    exact absurd (hgiven _ hmem) (lt_irrefl _)

end Kms

variable {Key : Type}

structure Sealing (Key : Type) where
  log : State Key
  kms : KeyState
  seals : List (Key × Nat × Bytes)
  given : List Nat
  failed : Option Frame

def Sealing.initial : Sealing Key := ⟨.initial, ⟨none, 0⟩, [], [], none⟩

/-- `generate` is a call of somebody else in the process; `rotateRefused` a
rotation the key service does not answer. -/
inductive SealAct where
  | openWal (now : Nat)
  | append (f : Frame)
  | appendFails (f : Frame) (written : Nat)
  | rotate (now : Nat)
  | rotateFails (now : Nat) (fault : RotateFault)
  | rotateRefused
  | reclaim (upto count : Nat)
  | close
  | generate (now : Nat)
  | crash
  | crashOpen (replayed : Nat)
  | crashOpenHeader (now written : Nat)
  | crashAppend (f : Frame) (written : Nat)
  | crashRotate (now written : Nat)

/-- What `append` seals. -/
def State.sealing (s : State Key) (f : Frame) : List (Key × Nat × Bytes) :=
  match s.wal.bind Handle.enc with
  | some (dek, seq) => [(dek, seq, encodeFrameBody f)]
  | none => []

/-- The process is gone, and its cache with it. -/
def KeyState.restarted (k : KeyState) : KeyState := { k with slot := none }

section Step

variable (aead : Aead Key) (c : WalCipher Key) (stack : KeyStack)

def sealStep (s : Sealing Key) : SealAct → Option (Sealing Key)
  | .openWal now =>
      let (kms, i) := s.kms.generate stack now
      (step aead (some c) s.log (.openOk i)).map fun log =>
        if log.wal.isSome then
          { s with log := log, kms := kms, given := s.given ++ [i], failed := none }
        else { s with log := log }
  | .append f =>
      (step aead (some c) s.log (.append f)).map fun log =>
        { s with log := log, seals := s.seals ++ s.log.sealing f, failed := none }
  | .appendFails f written =>
      (step aead (some c) s.log (.appendFails f written)).map fun log =>
        { s with log := log, seals := s.seals ++ s.log.sealing f, failed := some f }
  | .rotate now =>
      let (kms, i) := s.kms.generate stack now
      (step aead (some c) s.log (.rotate i)).map fun log =>
        { s with log := log, kms := kms, given := s.given ++ [i], failed := none }
  | .rotateFails now fault =>
      let (kms, i) := s.kms.generate stack now
      (step aead (some c) s.log (.rotateFails i fault)).map fun log =>
        { s with log := log, kms := if fault = .sync then s.kms else kms }
  | .rotateRefused =>
      (step aead (some c) s.log (.rotateFails 0 .create)).map fun log => { s with log := log }
  | .reclaim upto count =>
      (step aead (some c) s.log (.reclaim upto count)).map fun log => { s with log := log }
  | .close => (step aead (some c) s.log .crash).map fun log => { s with log := log }
  | .generate now => some { s with kms := (s.kms.generate stack now).1 }
  | .crash =>
      (step aead (some c) s.log .crash).map fun log =>
        { s with log := log, kms := s.kms.restarted }
  | .crashOpen replayed =>
      (step aead (some c) s.log (.crashOpen replayed)).map fun log =>
        { s with log := log, kms := s.kms.restarted }
  | .crashOpenHeader now written =>
      let (kms, i) := s.kms.generate stack now
      (step aead (some c) s.log (.crashOpenHeader i written)).map fun log =>
        { s with log := log, kms := kms.restarted }
  | .crashAppend f written =>
      (step aead (some c) s.log (.crashAppend f written)).map fun log =>
        { s with
          log := log
          kms := s.kms.restarted
          seals := s.seals ++ s.log.sealing f }
  | .crashRotate now written =>
      let (kms, i) := s.kms.generate stack now
      (step aead (some c) s.log (.crashRotate i written)).map fun log =>
        { s with log := log, kms := kms.restarted }

/-- A generation is not started under a cached key that an earlier one has, and
after a failed `append` the same file takes nothing but the same frame. -/
def sealOk (s : Sealing Key) : SealAct → Prop
  | .openWal now | .rotate now => ∀ slot ∈ s.kms.hit stack now, slot.answer ∉ s.given
  | .append f | .appendFails f _ | .crashAppend f _ =>
      ∀ g ∈ s.failed, encodeFrameBody f = encodeFrameBody g
  | _ => True

instance (s : Sealing Key) : (a : SealAct) → Decidable (sealOk stack s a)
  | .openWal now | .rotate now =>
      inferInstanceAs (Decidable (∀ slot ∈ s.kms.hit stack now, slot.answer ∉ s.given))
  | .append f | .appendFails f _ | .crashAppend f _ =>
      inferInstanceAs (Decidable (∀ g ∈ s.failed, encodeFrameBody f = encodeFrameBody g))
  | .rotateFails .. | .rotateRefused | .reclaim .. | .close | .generate _ | .crash | .crashOpen _
  | .crashOpenHeader .. | .crashRotate .. => inferInstanceAs (Decidable True)

end Step

section Invariant

variable {aead : Aead Key} {c : WalCipher Key} {stack : KeyStack}

/-- A handle's key belongs to a generation; under it only smaller numbers were
used, and its next number for the frame that failed. -/
def HandleSeals (c : WalCipher Key) (s : Sealing Key) (dek : Key) (seq : Nat) : Prop :=
  (∃ i ∈ s.given, dek = (c.generate i).2) ∧
    ∀ n p, (dek, n, p) ∈ s.seals → n < seq ∨ (n = seq ∧ ∃ f ∈ s.failed, p = encodeFrameBody f)

structure Sealing.Inv (c : WalCipher Key) (s : Sealing Key) : Prop where
  kms : s.kms.Inv
  given : ∀ i ∈ s.given, i < s.kms.answered
  keys : ∀ x ∈ s.seals, ∃ i ∈ s.given, x.1 = (c.generate i).2
  unique : ∀ k n p q, (k, n, p) ∈ s.seals → (k, n, q) ∈ s.seals → p = q
  handle : ∀ dek seq, s.log.wal.bind Handle.enc = some (dek, seq) → HandleSeals c s dek seq

variable {s t : Sealing Key}

theorem mem_sealing {st : State Key} {f : Frame} {x : Key × Nat × Bytes}
    (h : x ∈ st.sealing f) :
    st.wal.bind Handle.enc = some (x.1, x.2.1) ∧ x.2.2 = encodeFrameBody f := by
  unfold State.sealing at h
  split at h
  · next dek seq henc =>
      rw [List.mem_singleton.mp h]
      exact ⟨henc, rfl⟩
  · cases h

/-- One more call of `seal`. -/
theorem Sealing.Inv.seal (h : s.Inv c) {f : Frame}
    (hok : ∀ g ∈ s.failed, encodeFrameBody f = encodeFrameBody g) :
    (∀ x ∈ s.seals ++ s.log.sealing f, ∃ i ∈ s.given, x.1 = (c.generate i).2) ∧
      ∀ k n p q, (k, n, p) ∈ s.seals ++ s.log.sealing f →
        (k, n, q) ∈ s.seals ++ s.log.sealing f → p = q := by
  have hagree : ∀ k n p q, (k, n, p) ∈ s.seals → (k, n, q) ∈ s.log.sealing f → p = q := by
    intro k n p q hp hq
    obtain ⟨henc, hbody⟩ := mem_sealing hq
    rcases (h.handle _ _ henc).2 n p hp with hlt | ⟨_, g, hg, hbody'⟩
    · exact absurd hlt (lt_irrefl _)
    · exact hbody'.trans ((hok g hg).symm.trans hbody.symm)
  refine ⟨?_, ?_⟩
  · intro x hx
    rcases List.mem_append.mp hx with hx | hx
    · exact h.keys x hx
    · exact (h.handle _ _ (mem_sealing hx).1).1
  · intro k n p q hp hq
    rcases List.mem_append.mp hp with hp | hp <;> rcases List.mem_append.mp hq with hq | hq
    · exact h.unique k n p q hp hq
    · exact hagree k n p q hp hq
    · exact (hagree k n q p hq hp).symm
    · exact (mem_sealing hp).2.trans (mem_sealing hq).2.symm

/-- A step that seals nothing and starts no generation. -/
theorem Sealing.Inv.idle (h : s.Inv c) {log : State Key} {kms : KeyState} (hkms : kms.Inv)
    (hle : s.kms.answered ≤ kms.answered)
    (henc : ∀ e, log.wal.bind Handle.enc = some e → s.log.wal.bind Handle.enc = some e) :
    Sealing.Inv c { s with log := log, kms := kms } :=
  ⟨hkms, fun i hi => (h.given i hi).trans_le hle, h.keys, h.unique,
    fun dek seq hw => h.handle dek seq (henc _ hw)⟩

/-- A generation under a key no other one has. -/
theorem Sealing.Inv.generation (h : s.Inv c)
    (hfresh : Function.Injective fun i => (c.generate i).2) {now : Nat}
    (hhit : ∀ slot ∈ s.kms.hit stack now, slot.answer ∉ s.given) {log : State Key}
    (henc : log.wal.bind Handle.enc = some ((c.generate (s.kms.generate stack now).2).2, 0)) :
    Sealing.Inv c { s with
      log := log
      kms := (s.kms.generate stack now).1
      given := s.given ++ [(s.kms.generate stack now).2]
      failed := none } := by
  obtain ⟨hkms, hle, hlt⟩ := h.kms.generate stack now
  have hnew := KeyState.generate_notMem h.given hhit
  refine ⟨hkms, ?_, ?_, h.unique, ?_⟩
  · intro i hi
    rcases List.mem_append.mp hi with hi | hi
    · exact (h.given i hi).trans_le hle
    · rw [List.mem_singleton.mp hi]
      exact hlt
  · intro x hx
    obtain ⟨i, hi, hkey⟩ := h.keys x hx
    exact ⟨i, List.mem_append_left _ hi, hkey⟩
  · intro dek seq hw
    obtain ⟨rfl, rfl⟩ := Prod.mk.inj (Option.some.inj (henc.symm.trans hw))
    refine ⟨⟨_, by simp, rfl⟩, ?_⟩
    intro n p hp
    obtain ⟨i, hi, hkey⟩ := h.keys _ hp
    exact absurd (hfresh hkey ▸ hi) hnew

theorem openDir_enc {d : Disk} {i : Nat} {w : Handle Key} {frames : List Frame}
    (h : (openDir aead (some c) d i).2 = .ok (w, frames)) :
    w.enc = some ((c.generate i).2, 0) := by
  unfold openDir at h
  simp only at h
  split at h
  · cases h
  · obtain ⟨rfl, _⟩ := Prod.mk.inj (Except.ok.inj h)
    rfl

/-- A failed rotation leaves the old file open. -/
theorem rotateFails_enc {st log : State Key} {i : Nat} {fault : RotateFault}
    (h : step aead (some c) st (.rotateFails i fault) = some log) :
    log.wal.bind Handle.enc = st.wal.bind Handle.enc := by
  simp only [Wal.step, Option.bind_eq_some_iff] at h
  obtain ⟨w, hw, hlog⟩ := h
  cases fault <;> obtain rfl := Option.some.inj hlog
  · rfl
  · rw [hw]
    rfl
  · rw [hw]
    rfl

/-- After a crash no file is open. -/
theorem crashed_enc {st log : State Key} {a : Action}
    (ha : a = .crash ∨ (∃ n, a = .crashOpen n) ∨ (∃ i n, a = .crashOpenHeader i n) ∨
      (∃ f n, a = .crashAppend f n) ∨ ∃ i n, a = .crashRotate i n)
    (h : step aead (some c) st a = some log) : log.wal = none := by
  rcases ha with rfl | ⟨n, rfl⟩ | ⟨i, n, rfl⟩ | ⟨f, n, rfl⟩ | ⟨i, n, rfl⟩
  · obtain ⟨w, _, rfl⟩ := Option.map_eq_some_iff.mp h
    rfl
  · simp only [Wal.step] at h
    split at h
    · cases h
    · next hnone =>
        obtain rfl := Option.some.inj h
        exact hnone
  · simp only [Wal.step] at h
    split at h
    · next hnone _ =>
        obtain ⟨_, _, rfl⟩ := Option.map_eq_some_iff.mp h
        exact hnone
    · cases h
  · obtain ⟨w, _, rfl⟩ := Option.map_eq_some_iff.mp h
    rfl
  · obtain ⟨w, _, rfl⟩ := Option.map_eq_some_iff.mp h
    rfl

/-- A successful `append` moves to the next number. -/
theorem Sealing.Inv.advance (h : s.Inv c) {w : Handle Key} (hw : s.log.wal = some w) {f : Frame}
    {dek : Key} {seq : Nat} (henc : w.advance.enc = some (dek, seq)) {log : State Key} :
    HandleSeals c { s with log := log, seals := s.seals ++ s.log.sealing f, failed := none }
      dek seq := by
  obtain ⟨⟨key, n⟩, hold, heq⟩ := Option.map_eq_some_iff.mp henc
  obtain ⟨rfl, rfl⟩ := Prod.mk.inj heq
  have hopen : s.log.wal.bind Handle.enc = some (key, n) := by rw [hw]; exact hold
  obtain ⟨hkey, hbelow⟩ := h.handle key n hopen
  refine ⟨hkey, ?_⟩
  intro m p hp
  left
  rcases List.mem_append.mp hp with hp | hp
  · rcases hbelow m p hp with hlt | ⟨rfl, _⟩
    · exact Nat.lt_succ_of_lt hlt
    · exact Nat.lt_succ_self _
  · obtain ⟨_, heq⟩ := Prod.mk.inj (Option.some.inj ((mem_sealing hp).1.symm.trans hopen))
    exact Nat.lt_succ_of_le (le_of_eq heq)

/-- After a failed one only its own frame has been sealed under the number. -/
theorem Sealing.Inv.retain (h : s.Inv c) {f : Frame}
    (hok : ∀ g ∈ s.failed, encodeFrameBody f = encodeFrameBody g) {dek : Key} {seq : Nat}
    (henc : s.log.wal.bind Handle.enc = some (dek, seq)) {log : State Key} :
    HandleSeals c { s with log := log, seals := s.seals ++ s.log.sealing f, failed := some f }
      dek seq := by
  obtain ⟨hkey, hbelow⟩ := h.handle dek seq henc
  refine ⟨hkey, ?_⟩
  intro m p hp
  rcases List.mem_append.mp hp with hp | hp
  · rcases hbelow m p hp with hlt | ⟨rfl, g, hg, hbody⟩
    · exact .inl hlt
    · exact .inr ⟨rfl, f, rfl, hbody.trans (hok g hg).symm⟩
  · obtain ⟨hopen, hbody⟩ := mem_sealing hp
    obtain ⟨_, heq⟩ := Prod.mk.inj (Option.some.inj (hopen.symm.trans henc))
    exact .inr ⟨heq, f, rfl, hbody⟩

theorem Sealing.Inv.step {a : SealAct} (h : s.Inv c)
    (hfresh : Function.Injective fun i => (c.generate i).2) (hok : sealOk stack s a)
    (hstep : sealStep aead c stack s a = some t) : t.Inv c := by
  have hsame : s.kms.Inv ∧ s.kms.answered ≤ s.kms.answered := ⟨h.kms, le_rfl⟩
  have hgone : ∀ k : KeyState, k.restarted.Inv := fun k slot hslot => by cases hslot
  have hclosed : ∀ {log : State Key}, log.wal = none → ∀ e, log.wal.bind Handle.enc = some e →
      s.log.wal.bind Handle.enc = some e := by
    intro log hnone e he
    rw [hnone] at he
    cases he
  cases a with
  | openWal now =>
      simp only [sealStep, Option.map_eq_some_iff] at hstep
      obtain ⟨log, hlog, rfl⟩ := hstep
      simp only [Wal.step] at hlog
      split at hlog
      · cases hlog
      · obtain rfl := Option.some.inj hlog
        cases hopen : (openDir aead (some c) s.log.disk (s.kms.generate stack now).2).2 with
        | error e =>
            simp only [Except.toOption, Option.map_none]
            exact h.idle hsame.1 hsame.2 fun e he => by cases he
        | ok r =>
            obtain ⟨w, frames⟩ := r
            simp only [Except.toOption, Option.map_some, Option.isSome_some, if_true]
            exact h.generation hfresh hok (openDir_enc hopen)
  | append f =>
      simp only [sealStep, Wal.step, Option.map_eq_some_iff] at hstep
      obtain ⟨log, ⟨w, hw, rfl⟩, rfl⟩ := hstep
      obtain ⟨hkeys, hunique⟩ := h.seal hok
      exact ⟨h.kms, h.given, hkeys, hunique, fun dek seq henc => h.advance hw henc⟩
  | appendFails f written =>
      simp only [sealStep, Wal.step, Option.map_eq_some_iff] at hstep
      obtain ⟨log, ⟨w, hw, rfl⟩, rfl⟩ := hstep
      obtain ⟨hkeys, hunique⟩ := h.seal hok
      exact ⟨h.kms, h.given, hkeys, hunique, fun dek seq henc => h.retain hok henc⟩
  | rotate now =>
      simp only [sealStep, Wal.step, Option.map_eq_some_iff] at hstep
      obtain ⟨log, ⟨w, hw, rfl⟩, rfl⟩ := hstep
      exact h.generation hfresh hok rfl
  | rotateFails now fault =>
      simp only [sealStep, Option.map_eq_some_iff] at hstep
      obtain ⟨log, hlog, rfl⟩ := hstep
      have henc := rotateFails_enc hlog
      obtain ⟨hkms, hle, _⟩ := h.kms.generate stack now
      split
      · exact h.idle hsame.1 hsame.2 fun e he => henc ▸ he
      · exact h.idle hkms hle fun e he => henc ▸ he
  | rotateRefused =>
      simp only [sealStep, Option.map_eq_some_iff] at hstep
      obtain ⟨log, hlog, rfl⟩ := hstep
      have henc := rotateFails_enc hlog
      exact h.idle hsame.1 hsame.2 fun e he => henc ▸ he
  | reclaim upto count =>
      simp only [sealStep, Wal.step, Option.map_eq_some_iff] at hstep
      obtain ⟨log, ⟨w, hw, rfl⟩, rfl⟩ := hstep
      exact h.idle hsame.1 hsame.2 fun e he => he
  | close =>
      simp only [sealStep, Option.map_eq_some_iff] at hstep
      obtain ⟨log, hlog, rfl⟩ := hstep
      exact h.idle hsame.1 hsame.2 (hclosed (crashed_enc (.inl rfl) hlog))
  | generate now =>
      obtain rfl := Option.some.inj hstep
      obtain ⟨hkms, hle, _⟩ := h.kms.generate stack now
      exact h.idle hkms hle fun e he => he
  | crash =>
      simp only [sealStep, Option.map_eq_some_iff] at hstep
      obtain ⟨log, hlog, rfl⟩ := hstep
      exact h.idle (hgone _) le_rfl (hclosed (crashed_enc (.inl rfl) hlog))
  | crashOpen replayed =>
      simp only [sealStep, Option.map_eq_some_iff] at hstep
      obtain ⟨log, hlog, rfl⟩ := hstep
      exact h.idle (hgone _) le_rfl (hclosed (crashed_enc (.inr (.inl ⟨_, rfl⟩)) hlog))
  | crashOpenHeader now written =>
      simp only [sealStep, Option.map_eq_some_iff] at hstep
      obtain ⟨log, hlog, rfl⟩ := hstep
      obtain ⟨_, hle, _⟩ := h.kms.generate stack now
      exact h.idle (hgone _) hle
        (hclosed (crashed_enc (.inr (.inr (.inl ⟨_, _, rfl⟩))) hlog))
  | crashAppend f written =>
      simp only [sealStep, Option.map_eq_some_iff] at hstep
      obtain ⟨log, hlog, rfl⟩ := hstep
      obtain ⟨hkeys, hunique⟩ := h.seal hok
      refine ⟨hgone _, h.given, hkeys, hunique, ?_⟩
      intro dek seq henc
      rw [crashed_enc (.inr (.inr (.inr (.inl ⟨_, _, rfl⟩)))) hlog] at henc
      cases henc
  | crashRotate now written =>
      simp only [sealStep, Option.map_eq_some_iff] at hstep
      obtain ⟨log, hlog, rfl⟩ := hstep
      obtain ⟨_, hle, _⟩ := h.kms.generate stack now
      exact h.idle (hgone _) hle
        (hclosed (crashed_enc (.inr (.inr (.inr (.inr ⟨_, _, rfl⟩)))) hlog))

theorem Sealing.inv_initial (c : WalCipher Key) : (Sealing.initial : Sealing Key).Inv c := by
  refine ⟨?_, ?_, ?_, ?_, ?_⟩
  · intro slot hslot
    cases hslot
  · intro i hi
    cases hi
  · intro x hx
    cases hx
  · intro k n p q hp
    cases hp
  · intro dek seq henc
    cases henc

end Invariant

section Unique

variable {aead : Aead Key} {c : WalCipher Key} {stack : KeyStack}

/-- No data key seals two plaintexts under one frame number, as long as no
generation gets a cached key that an earlier one has and no failed `append` is
followed by another frame in the same file. The source of the keys never gives
the same key twice. -/
theorem nonces_unique (hfresh : Function.Injective fun i => (c.generate i).2)
    {acts : List SealAct} {s : Sealing Key}
    (run : Run (sealStep aead c stack) (sealOk stack) Sealing.initial acts s) :
    ∀ k n p q, (k, n, p) ∈ s.seals → (k, n, q) ∈ s.seals → p = q := by
  have hinv : s.Inv c := run.invariant (fun _ _ _ h hok hstep => h.step hfresh hok hstep)
    (Sealing.inv_initial c)
  exact hinv.unique

/-- Every answer is a new key. -/
def countingKeys : WalCipher Nat where
  generate i := (List.replicate i 0, i)
  unwrap wrapped := some wrapped.length
  unwrap_generate i := by simp

private def firstFrame : Frame := ⟨"db", 1, utf8 "cpu v=1"⟩

private def otherFrame : Frame := ⟨"db", 1, utf8 "cpu v=2"⟩

/-- The rotation comes when the cached key is too old, and the frame that failed
is tried again. -/
private def spacedActs : List SealAct :=
  [.openWal 0, .append firstFrame, .appendFails otherFrame 3, .append otherFrame, .rotate 400,
    .append firstFrame]

theorem spaced_rotations_unique :
    ∃ s, Run (sealStep tagAead countingKeys ⟨some (300, 1000)⟩) (sealOk ⟨some (300, 1000)⟩)
        Sealing.initial spacedActs s ∧
      s.seals.length = 4 ∧
      ∀ k n p q, (k, n, p) ∈ s.seals → (k, n, q) ∈ s.seals → p = q := by
  have hfresh : Function.Injective fun i => (countingKeys.generate i).2 := fun _ _ h => h
  obtain ⟨s, run, hlen⟩ := exists_run_with (sealStep tagAead countingKeys ⟨some (300, 1000)⟩)
    (sealOk ⟨some (300, 1000)⟩) Sealing.initial spacedActs
    (fun s => s.seals.length = 4) (by decide +kernel)
  exact ⟨s, run, hlen, nonces_unique hfresh run⟩

/-- A rotation within the cache's window seals its first frame under the pair of
the first frame before it. Without a cache, the frame after a failed one gets
the pair of the failed one. -/
theorem nonce_reused :
    (∃ s, Run (sealStep tagAead countingKeys ⟨some (300, 1000)⟩) (fun _ _ => True)
        Sealing.initial [.openWal 0, .append firstFrame, .rotate 1, .append otherFrame] s ∧
      (0, 0, encodeFrameBody firstFrame) ∈ s.seals ∧
      (0, 0, encodeFrameBody otherFrame) ∈ s.seals) ∧
    (∃ s, Run (sealStep tagAead countingKeys ⟨none⟩) (fun _ _ => True) Sealing.initial
        [.openWal 0, .appendFails firstFrame 0, .append otherFrame] s ∧
      (0, 0, encodeFrameBody firstFrame) ∈ s.seals ∧
      (0, 0, encodeFrameBody otherFrame) ∈ s.seals) ∧
    encodeFrameBody firstFrame ≠ encodeFrameBody otherFrame := by
  refine ⟨?_, ?_, by decide +kernel⟩
  · exact exists_run_with (sealStep tagAead countingKeys ⟨some (300, 1000)⟩)
      (fun _ _ => True) _ _ _ (by decide +kernel)
  · exact exists_run_with (sealStep tagAead countingKeys ⟨none⟩)
      (fun _ _ => True) _ _ _ (by decide +kernel)

end Unique

end TimeLake.Wal
