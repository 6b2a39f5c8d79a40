import TimeLake.Engine.Durability

/-!
Acknowledged rows stay readable. A query takes a table's buffer and its batch in
`flushing` at one moment and the list of files later, so a row has to be in one
of the three at every moment. `flushing` has one batch for a table: a second
handover of a table whose batch is still held puts its own in that place, and
the first flush to commit takes it away.
-/

namespace TimeLake.Engine

open TimeLake.Library TimeLake.Catalog TimeLake.Rows TimeLake.Store TimeLake.Cluster

/-- The first pass of `sql_batches` finds the row in memory. -/
def served (s : State) (p : TableKey × Row) : Prop :=
  p ∈ s.dbs ∨ ∃ rows ∈ s.flushing.lookup p.1, p.2 ∈ rows

instance (s : State) (p : TableKey × Row) : Decidable (served s p) :=
  inferInstanceAs (Decidable (_ ∨ _))

/-- The tables a flight will take out of `flushing`. -/
def Flight.tables : Flight → List FlushTable
  | .uploading _ _ todo _ _ done => todo ++ done
  | .committed _ _ done => done
  | .released .. => []

/-- The place of a table is free: no batch is in it, and no flight will clear it. -/
def placeFree (s : State) (key : TableKey) : Prop :=
  s.flushing.lookup key = none ∧
    ∀ F ∈ AssocMap.values s.flights, ∀ b ∈ F.tables, b.key ≠ key

instance (s : State) (key : TableKey) : Decidable (placeFree s key) :=
  inferInstanceAs (Decidable (_ ∧ _))

/-- A handover finds the place of every table free, rotates the log and reads
every buffer. -/
def takesTurn (s : State) : Action → Prop
  | .handover _ _ rotation unreadable =>
      rotation = .ok ∧ ∀ p ∈ s.dbs, unreadable p.1 = false ∧ placeFree s p.1
  | .reopen .. => False
  | _ => True

instance (s : State) : (a : Action) → Decidable (takesTurn s a)
  | .handover _ _ rotation unreadable => inferInstanceAs
      (Decidable (rotation = .ok ∧ ∀ p ∈ s.dbs, unreadable p.1 = false ∧ placeFree s p.1))
  | .reopen .. => inferInstanceAs (Decidable False)
  | .write .. => inferInstanceAs (Decidable True)
  | .recover .. => inferInstanceAs (Decidable True)
  | .upload .. => inferInstanceAs (Decidable True)
  | .uploadFail .. => inferInstanceAs (Decidable True)
  | .commit .. => inferInstanceAs (Decidable True)
  | .release _ => inferInstanceAs (Decidable True)
  | .reclaim .. => inferInstanceAs (Decidable True)
  | .drop .. => inferInstanceAs (Decidable True)

def keepsBatches (s : State) (a : Action) : Prop := replacesWhole s a ∧ takesTurn s a

instance (s : State) (a : Action) : Decidable (keepsBatches s a) :=
  inferInstanceAs (Decidable (_ ∧ _))

/-- An engine just opened: what it acknowledges is counted from here. -/
def opened (s : State) (encrypted : Bool) (applied : Frame → Nat) : State :=
  { reopen s encrypted applied with acked := [] }

/-- What a flight's place in `flushing` may hold: its own batch until the commit,
and from then on nothing that only it has. -/
def Flight.accounts (s : State) : Flight → Prop
  | .uploading _ _ todo _ _ done =>
      ∀ b ∈ todo ++ done, ∀ rows ∈ s.flushing.lookup b.key, rows = b.rows
  | .committed _ _ done =>
      ∀ b ∈ done, ∀ rows ∈ s.flushing.lookup b.key, ∀ r ∈ rows, (b.key, r) ∈ s.acked →
        filed s (b.key, r)
  | .released .. => True

structure Visible (s : State) : Prop where
  base : Base s
  bounded : ∀ key, ∀ rows ∈ s.flushing.lookup key, ∀ r ∈ rows, r.arrival < s.arrivals
  accounts : ∀ k F, s.flights.lookup k = some F → F.accounts s
  present : ∀ p ∈ s.acked, served s p ∨ filed s p

section Visible

variable {s t : State}

/-- Fewer batches and fewer rows to account for, and the same files. -/
theorem Flight.accounts.shrink {F : Flight} (h : F.accounts s)
    (hheld : ∀ b ∈ F.tables, ∀ rows ∈ t.flushing.lookup b.key, rows ∈ s.flushing.lookup b.key)
    (hacked : ∀ p ∈ t.acked, (∃ rows ∈ s.flushing.lookup p.1, p.2 ∈ rows) → p ∈ s.acked)
    (hfiled : ∀ p ∈ t.acked, filed s p → filed t p) : F.accounts t := by
  cases F with
  | uploading gen failed todo current metas done =>
      exact fun b hb rows hrows => h b hb rows (hheld b hb rows hrows)
  | committed gen failed done =>
      intro b hb rows hrows r hr hin
      have hold := hheld b hb rows hrows
      exact hfiled _ hin (h b hb rows hold r hr (hacked _ hin ⟨rows, hold, hr⟩))
  | released => trivial

/-- A step that acknowledges nothing and moves at most the flight `k`. -/
theorem Visible.frame (h : Visible s) {a : Action} (hwhole : replacesWhole s a)
    (hs : step s a = some t) (hdrop : ∀ p ∈ t.acked, a ≠ .drop p.1 .catalog)
    (harrivals : t.arrivals = s.arrivals) (hacked : t.acked ⊆ s.acked)
    (hheld : ∀ key, ∀ rows ∈ t.flushing.lookup key, rows ∈ s.flushing.lookup key)
    (hflights : ∀ k F, t.flights.lookup k = some F →
      s.flights.lookup k = some F ∨ F.accounts t)
    (hserved : ∀ p ∈ t.acked, served s p → served t p ∨ filed t p) : Visible t := by
  have hfiled : ∀ p ∈ t.acked, filed s p → filed t p :=
    fun p hp hin => filed_step hin hwhole (hdrop p hp) hs
  refine ⟨h.base.step hs, ?_, ?_, ?_⟩
  · intro key rows hrows
    rw [harrivals]
    exact h.bounded key rows (hheld key rows hrows)
  · intro k F hF
    rcases hflights k F hF with hold | hnew
    · exact (h.accounts k F hold).shrink (fun b _ => hheld b.key) (fun p hp _ => hacked hp) hfiled
    · exact hnew
  · intro p hp
    rcases h.present p (hacked hp) with hin | hin
    · exact hserved p hp hin
    · exact .inr (hfiled p hp hin)

/-- New rows come into the buffers. -/
theorem Visible.buffer (h : Visible s) {a : Action} (hwhole : replacesWhole s a)
    (hs : step s a = some t) {rows : List (TableKey × Row)} (hdbs : t.dbs = s.dbs ++ rows)
    (hflushing : t.flushing = s.flushing) (hflights : t.flights = s.flights)
    (hdrop : ∀ key, a ≠ .drop key .catalog) (harrivals : s.arrivals ≤ t.arrivals)
    (hnew : ∀ p ∈ t.acked, p ∈ s.acked ∨ (p ∈ rows ∧ s.arrivals ≤ p.2.arrival)) : Visible t := by
  have hfiled : ∀ p, filed s p → filed t p :=
    fun p hp => filed_step hp hwhole (hdrop _) hs
  refine ⟨h.base.step hs, ?_, ?_, ?_⟩
  · rw [hflushing]
    exact fun key rows hrows r hr => Nat.lt_of_lt_of_le (h.bounded key rows hrows r hr) harrivals
  · intro k F hF
    rw [hflights] at hF
    refine (h.accounts k F hF).shrink (by rw [hflushing]; exact fun _ _ _ => id) ?_
      fun p _ => hfiled p
    rintro p hp ⟨batch, hbatch, hr⟩
    rcases hnew p hp with hold | ⟨_, hlate⟩
    · exact hold
    · exact absurd (h.bounded p.1 batch hbatch p.2 hr) (Nat.not_lt.mpr hlate)
  · intro p hp
    rcases hnew p hp with hold | ⟨hin, _⟩
    · refine (h.present p hold).imp ?_ (hfiled p)
      rw [served, served, hdbs, hflushing]
      exact Or.imp_left (List.mem_append_left _)
    · refine .inl (.inl ?_)
      rw [hdbs]
      exact List.mem_append_right _ hin

theorem Visible.write (h : Visible s) {db : String} {lines : List Line} {now : Int}
    {applied : Nat} (hs : step s (.write db lines now applied) = some t) : Visible t := by
  have hwhole : replacesWhole s (.write db lines now applied) := fun _ hput => by cases hput
  have hstep := hs
  obtain rfl := Option.some.inj hstep
  refine h.buffer hwhole hs rfl rfl rfl (fun _ h => by cases h) (Nat.le_add_right _ _) ?_
  intro p hp
  by_cases hacked : lines.length ≤ applied
  · simp only [Engine.write, if_pos hacked] at hp
    have hlength : (applyLines db lines now s.arrivals).length ≤ applied := by
      simpa [applyLines] using hacked
    rw [List.take_of_length_le hlength]
    rcases List.mem_append.mp hp with hold | hnew
    · exact .inl hold
    · exact .inr ⟨hnew, (applyLines_bounds hnew).1⟩
  · simp only [Engine.write, if_neg hacked] at hp
    exact .inl hp

theorem Visible.recover (h : Visible s) {db : String} {lines : List Line} {applied : Nat}
    (hs : step s (.recover db lines applied) = some t) : Visible t := by
  have hwhole : replacesWhole s (.recover db lines applied) := fun _ hput => by cases hput
  have hstep := hs
  obtain rfl := Option.some.inj hstep
  refine h.buffer hwhole hs rfl rfl rfl (fun _ h => by cases h) (Nat.le_add_right _ _) ?_
  intro p hp
  rcases List.mem_append.mp hp with hold | hnew
  · exact .inl hold
  · exact .inr ⟨hnew, (applyLines_bounds (List.mem_of_mem_take hnew)).1⟩

theorem Uploads.accounts {seq size : Nat} {F F' : Flight} {f : FileMeta} {rows : List Row}
    (h : Uploads seq size F f rows F') (hF : F.accounts s) (hflushing : t.flushing = s.flushing) :
    F'.accounts t := by
  cases h with
  | piece gen failed key columns batch partition piece next pieces todo current metas done =>
      have hhead := hF _ List.mem_cons_self
      intro b hb
      rw [hflushing]
      rcases List.mem_cons.mp hb with rfl | hb
      · exact hhead
      · exact hF b (List.mem_cons_of_mem _ hb)
  | lastPiece gen failed key columns batch partition piece todo current metas done =>
      have hhead := hF _ List.mem_cons_self
      intro b hb
      rw [hflushing]
      rcases List.mem_append.mp hb with hb | hb
      · exact hF b (List.mem_cons_of_mem _ (List.mem_append_left _ hb))
      · rcases List.mem_append.mp hb with hb | hb
        · exact hF b (List.mem_cons_of_mem _ (List.mem_append_right _ hb))
        · rw [List.mem_singleton.mp hb]
          exact hhead

/-- One flight moves on. -/
theorem moved {k : Nat} {F' : Flight} (h : F'.accounts t)
    (hflights : t.flights = s.flights.insert k F') :
    ∀ j G, t.flights.lookup j = some G → s.flights.lookup j = some G ∨ G.accounts t := by
  intro j G hG
  rw [hflights] at hG
  rcases AssocMap.of_lookup_insert hG with ⟨_, rfl⟩ | ⟨_, hold⟩
  · exact .inr h
  · exact .inl hold

theorem Visible.upload (h : Visible s) {k size : Nat} (hwhole : replacesWhole s (.upload k size))
    (hs : step s (.upload k size) = some t) : Visible t := by
  obtain ⟨F, f, rows, F', hF, hup, _, rfl⟩ := upload_cases hs
  refine h.frame hwhole hs (fun _ _ h => by cases h) rfl (List.Subset.refl _) (fun _ _ => id) ?_
    fun _ _ => .inl
  exact moved (hup.accounts (h.accounts k F hF) rfl) rfl

theorem Visible.uploadFail (h : Visible s) {k : Nat} {bumped : Bool}
    (hs : step s (.uploadFail k bumped) = some t) : Visible t := by
  have hwhole : replacesWhole s (.uploadFail k bumped) := fun _ hput => by cases hput
  have hstep := hs
  simp only [step, Engine.uploadFail] at hstep
  split at hstep
  · next gen failed table todo current metas done hF =>
      obtain rfl := Option.some.inj hstep
      refine h.frame hwhole hs (fun _ _ h => by cases h) rfl (List.Subset.refl _) (fun _ _ => id) ?_
        fun _ _ => .inl
      refine moved ?_ rfl
      exact fun b hb => h.accounts k _ hF b (List.mem_cons_of_mem _ hb)
  · cases hstep

theorem Visible.commit (h : Visible s) {k : Nat} {result : CommitResult}
    (hs : step s (.commit k result) = some t) : Visible t := by
  have hwhole : replacesWhole s (.commit k result) := fun _ hput => by cases hput
  have hstep := hs
  simp only [step, Engine.commit] at hstep
  split at hstep
  · next gen failed current metas done hF =>
      have hok := h.base.flight k _ hF
      cases result with
      | ok =>
          obtain rfl := Option.some.inj hstep
          refine h.frame hwhole hs (fun _ _ h => by cases h) rfl (List.Subset.refl _)
              (fun _ _ => id) ?_
            fun _ _ => .inl
          refine moved ?_ rfl
          intro b hb rows hrows r hr _
          obtain rfl := h.accounts k _ hF b hb rows hrows
          exact hok.commits rfl rfl ⟨b, hb, rfl, hr⟩
      | failed landed =>
          obtain rfl := Option.some.inj hstep
          exact h.frame hwhole hs (fun _ _ h => by cases h) rfl (List.Subset.refl _) (fun _ _ => id)
            (fun j G hG => .inl (AssocMap.of_lookup_erase hG).2) fun _ _ => .inl
  · cases hstep

/-- The batches a flight takes out of `flushing` are in files. -/
theorem Visible.release (h : Visible s) {k : Nat} (hs : step s (.release k) = some t) :
    Visible t := by
  have hwhole : replacesWhole s (.release k) := fun _ hput => by cases hput
  have hstep := hs
  simp only [step, Engine.release] at hstep
  split at hstep
  · next gen failed done hF =>
      obtain rfl := Option.some.inj hstep
      have hlookup := AssocMap.lookup_foldl_erase FlushTable.key done s.flushing
      refine h.frame hwhole hs (fun _ _ h => by cases h) rfl (List.Subset.refl _) ?_ ?_ ?_
      · intro key rows hrows
        simp only [hlookup] at hrows
        split at hrows
        · cases hrows
        · exact hrows
      · refine moved ?_ rfl
        trivial
      · rintro p hp (hbuffer | ⟨rows, hrows, hr⟩)
        · exact .inl (.inl hbuffer)
        · by_cases hkey : p.1 ∈ done.map FlushTable.key
          · obtain ⟨b, hb, hbkey⟩ := List.mem_map.mp hkey
            rw [← hbkey] at hrows
            have hfiled := h.accounts k _ hF b hb rows hrows p.2 hr (by rw [hbkey]; exact hp)
            rw [hbkey] at hfiled
            exact .inr hfiled
          · refine .inl (.inr ⟨rows, ?_, hr⟩)
            rw [hlookup, if_neg hkey]
            exact hrows
  · cases hstep

theorem Visible.reclaim (h : Visible s) {k deleted : Nat}
    (hs : step s (.reclaim k deleted) = some t) : Visible t := by
  have hwhole : replacesWhole s (.reclaim k deleted) := fun _ hput => by cases hput
  obtain ⟨_, _, _, _, _, rfl⟩ := reclaim_cases hs
  exact h.frame hwhole hs (fun _ _ h => by cases h) rfl (List.Subset.refl _) (fun _ _ => id)
    (fun j G hG => .inl (AssocMap.of_lookup_erase hG).2) fun _ _ => .inl

theorem Visible.drop (h : Visible s) {key : TableKey} {stage : DropStage}
    (hs : step s (.drop key stage) = some t) : Visible t := by
  have hwhole : replacesWhole s (.drop key stage) := fun _ hput => by cases hput
  have hother : ∀ p ∈ s.acked.filter fun p => p.1 ≠ key, p.1 ≠ key := by
    intro p hp
    simpa using (List.mem_filter.mp hp).2
  have hdrop : ∀ p ∈ s.acked.filter fun p => p.1 ≠ key,
      Action.drop key stage ≠ .drop p.1 .catalog := by
    intro p hp heq
    exact hother p hp (Action.drop.inj heq).1.symm
  have hstep := hs
  obtain rfl := Option.some.inj hstep
  cases stage with
  | catalog =>
      exact h.frame hwhole hs hdrop rfl List.filter_sublist.subset (fun _ _ => id)
        (fun _ _ => .inl) fun _ _ => .inl
  | held =>
      refine h.frame hwhole hs hdrop rfl List.filter_sublist.subset ?_ (fun _ _ => .inl) ?_
      · exact fun _ _ hrows => (AssocMap.of_lookup_erase hrows).2
      · rintro p hp (hbuffer | ⟨rows, hrows, hr⟩)
        · exact .inl (.inl hbuffer)
        · refine .inl (.inr ⟨rows, ?_, hr⟩)
          exact (AList.lookup_erase_ne (hother p hp)).trans hrows
  | buffers =>
      refine h.frame hwhole hs hdrop rfl List.filter_sublist.subset (fun _ _ => id)
        (fun _ _ => .inl) ?_
      rintro p hp (hbuffer | hheld)
      · refine .inl (.inl (List.mem_filter.mpr ⟨hbuffer, ?_⟩))
        simpa using hother p hp
      · exact .inl (.inr hheld)

theorem snapshots_keys (dbs : List (TableKey × Row)) (columns : TableKey → List String) :
    (snapshots dbs columns).map FlushTable.key = bufferedTables dbs := by
  simp [snapshots, Function.comp_def]

theorem mem_bufferedTables {dbs : List (TableKey × Row)} {key : TableKey} :
    key ∈ bufferedTables dbs ↔ ∃ p ∈ dbs, p.1 = key := by
  simp [bufferedTables]

/-- After a handover the place of a buffered table has the table's rows, and the
places of the others are as they were. -/
theorem lookup_heldBatches (dbs : List (TableKey × Row)) (columns : TableKey → List String)
    (m : AssocMap TableKey (List Row)) (key : TableKey) :
    (heldBatches (snapshots dbs columns) m).lookup key =
      if key ∈ bufferedTables dbs then some (tableRows dbs key) else m.lookup key := by
  have hnodup : ((snapshots dbs columns).map FlushTable.key).Nodup := by
    rw [snapshots_keys]
    exact List.nodup_dedup _
  by_cases hkey : key ∈ bufferedTables dbs
  · have hb : (⟨key, columns key, tableRows dbs key, prepare (columns key) (tableRows dbs key)⟩ :
        FlushTable) ∈ snapshots dbs columns := List.mem_map.mpr ⟨key, hkey, rfl⟩
    rw [if_pos hkey]
    exact AssocMap.lookup_foldl_insert_of_mem FlushTable.key FlushTable.rows m hnodup hb
  · rw [if_neg hkey]
    refine AssocMap.lookup_foldl_insert_of_notMem FlushTable.key FlushTable.rows _ m ?_
    rw [snapshots_keys]
    exact hkey

theorem mem_tableRows {dbs : List (TableKey × Row)} {key : TableKey} {r : Row} :
    r ∈ tableRows dbs key ↔ (key, r) ∈ dbs := by
  simp [tableRows]

theorem Visible.handover (h : Visible s) {k : Nat} {columns : TableKey → List String}
    {rotation : Rotation} {unreadable : TableKey → Bool}
    (hturn : takesTurn s (.handover k columns rotation unreadable))
    (hs : step s (.handover k columns rotation unreadable) = some t) : Visible t := by
  have hbase := h.base.step hs
  obtain ⟨rfl, hfree⟩ := hturn
  have hfreeKey : ∀ key ∈ bufferedTables s.dbs, unreadable key = false ∧ placeFree s key := by
    intro key hkey
    obtain ⟨p, hp, rfl⟩ := mem_bufferedTables.mp hkey
    exact hfree p hp
  have hall : (snapshots s.dbs columns).filter (fun b => !unreadable b.key) =
      snapshots s.dbs columns := by
    refine List.filter_eq_self.mpr fun b hb => ?_
    have hkey : b.key ∈ bufferedTables s.dbs := by
      rw [← snapshots_keys s.dbs columns]
      exact List.mem_map.mpr ⟨b, hb, rfl⟩
    simp [(hfreeKey b.key hkey).1]
  simp only [step, Engine.handover] at hs
  split at hs
  · rw [hall] at hs
    obtain rfl := Option.some.inj hs
    refine ⟨hbase, ?_, ?_, ?_⟩
    · intro key rows hrows r hr
      simp only [lookup_heldBatches] at hrows
      split at hrows
      · obtain rfl := Option.some.inj hrows
        exact h.base.bounded _ (mem_tableRows.mp hr)
      · exact h.bounded key rows hrows r hr
    · intro j G hG
      rcases AssocMap.of_lookup_insert hG with ⟨_, rfl⟩ | ⟨_, hold⟩
      · intro b hb rows hrows
        rw [List.append_nil] at hb
        obtain ⟨key, hkey, rfl⟩ := List.mem_map.mp hb
        simp only [lookup_heldBatches, if_pos hkey] at hrows
        exact (Option.some.inj hrows).symm
      · refine (h.accounts j G hold).shrink ?_ (fun p hp _ => hp) fun p _ => id
        intro b hb rows hrows
        have hkey : b.key ∉ bufferedTables s.dbs := by
          intro hin
          have hvalue := AssocMap.mem_values.mpr ⟨j, hold⟩
          exact (hfreeKey b.key hin).2.2 G hvalue b hb rfl
        simp only [lookup_heldBatches, if_neg hkey] at hrows
        exact hrows
    · intro p hp
      rcases h.present p hp with (hbuffer | ⟨rows, hrows, hr⟩) | hfiled
      · refine .inl (.inr ⟨tableRows s.dbs p.1, ?_, mem_tableRows.mpr hbuffer⟩)
        simp only [lookup_heldBatches]
        rw [if_pos (mem_bufferedTables.mpr ⟨p, hbuffer, rfl⟩)]
        rfl
      · refine .inl (.inr ⟨rows, ?_, hr⟩)
        have hkey : p.1 ∉ bufferedTables s.dbs := by
          intro hin
          have hnone := (hfreeKey p.1 hin).2.1
          rw [hnone] at hrows
          cases hrows
        simp only [lookup_heldBatches, if_neg hkey]
        exact hrows
      · exact .inr hfiled
  · cases hs

theorem Visible.opened (h : Base s) (encrypted : Bool) (applied : Frame → Nat) :
    Visible (opened s encrypted applied) := by
  have hbase := h.reopen encrypted applied
  refine ⟨?_, ?_, ?_, fun _ hp => by cases hp⟩
  · exact hbase.frame rfl rfl (Nat.le_refl _) rfl (List.Sublist.refl _)
      fun j G hG => (hbase.flight j G hG).later rfl (Nat.le_refl _) (Nat.le_refl _)
  · exact fun key rows hrows => by simp [Engine.opened, Engine.reopen] at hrows
  · exact fun k F hF => by simp [Engine.opened, Engine.reopen] at hF

/-- The store and the log change under the engine: the files of its flushes keep
their rows, and what is filed stays filed. -/
theorem Visible.elsewhere (h : Visible s) {objects : AbsPath → Option (List Row)}
    {log : List ManifestEntry} {arrivals : Nat} (harrivals : s.arrivals ≤ arrivals)
    (hcontent : ∀ k F, s.flights.lookup k = some F → ∀ g ∈ F.outputs,
      objects (objectOf g) = s.objects (objectOf g))
    (hfiled : ∀ p, filed s p → filed { s with objects, log, arrivals } p) :
    Visible { s with objects, log, arrivals } := by
  refine ⟨⟨h.base.shape, h.base.counted, h.base.frames, ?_, h.base.sorted, ?_, ?_⟩, ?_, ?_, ?_⟩
  · exact fun f hf => Nat.le_trans (h.base.known f hf) harrivals
  · exact fun p hp => Nat.lt_of_lt_of_le (h.base.bounded p hp) harrivals
  · intro k F hF
    have hok := h.base.flight k F hF
    refine ⟨hok.inv.transfer fun g hg => ?_, hok.earlier, hok.numbered⟩
    exact congrArg (·.getD []) (hcontent k F hF g hg)
  · exact fun key rows hrows r hr => Nat.lt_of_lt_of_le (h.bounded key rows hrows r hr) harrivals
  · intro k F hF
    exact (h.accounts k F hF).shrink (fun _ _ _ => id) (fun _ hp _ => hp) fun p _ => hfiled p
  · exact fun p hp => (h.present p hp).imp id (hfiled p)

theorem Visible.step (h : Visible s) {a : Action} (hkeeps : keepsBatches s a)
    (hs : step s a = some t) : Visible t := by
  obtain ⟨hwhole, hturn⟩ := hkeeps
  cases a with
  | write db lines now applied => exact h.write hs
  | recover db lines applied => exact h.recover hs
  | handover k columns rotation unreadable => exact h.handover hturn hs
  | upload k size => exact h.upload hwhole hs
  | uploadFail k bumped => exact h.uploadFail hs
  | commit k result => exact h.commit hs
  | release k => exact h.release hs
  | reclaim k deleted => exact h.reclaim hs
  | drop key stage => exact h.drop hs
  | reopen encrypted applied => exact absurd hturn id

/-- A filed row stays filed while its table is not dropped. -/
theorem filed_run {acts : List Action} {p : TableKey × Row}
    (run : Run step keepsBatches s acts t) (h : filed s p)
    (hdrop : Action.drop p.1 .catalog ∉ acts) : filed t p := by
  induction run with
  | nil s => exact h
  | cons hok hs _ ih =>
      rw [List.mem_cons, not_or] at hdrop
      exact ih (filed_step h hok.1 (Ne.symm hdrop.1) hs) hdrop.2

end Visible

/-- In every run of writers, recoveries, drops and any number of flushes of an
opened engine, with any upload or commit failing, an acknowledged row that is not
dropped is in the buffers, in its table's batch in `flushing` or in a listed file,
and a query that looks at the first two in one state and at the files in a later
one finds it. The handovers of the run find the places of their tables free, and
an object is replaced only by one with all its rows. -/
theorem acknowledged_rows_visible {history acts : List Action} {s t : State} {encrypted : Bool}
    {applied : Frame → Nat} (before : Run step (fun _ _ => True) initial history s)
    (run : Run step keepsBatches (opened s encrypted applied) acts t) :
    (∀ p ∈ t.acked, served t p ∨ filed t p) ∧
      ∀ later u, Run step keepsBatches t later u →
        ∀ p ∈ t.acked, Action.drop p.1 .catalog ∉ later → served t p ∨ filed u p := by
  have hbase : Base s := before.invariant (fun _ _ _ h _ hs => h.step hs) Base.initial
  have hinv : Visible t :=
    run.invariant (fun _ _ _ h hok hs => h.step hok hs) (Visible.opened hbase encrypted applied)
  refine ⟨hinv.present, ?_⟩
  intro later u hlater p hp hdrop
  exact (hinv.present p hp).imp id fun hfiled => filed_run hlater hfiled hdrop

/-- A second flush starts and commits while the first one, of another table, is
under way; then the upload of the first one fails. -/
def twoFlushes : List Action :=
  [.write "d" [point "t" 100] 0 1, .handover 0 (fun _ => []) .ok fun _ => false,
    .write "d" [point "u" 100] 0 1, .handover 1 (fun _ => []) .ok fun _ => false,
    .upload 1 0, .commit 1 .ok, .release 1, .uploadFail 0 false, .commit 0 .ok, .release 0]

theorem twoFlushes_visible : ∃ t,
    Run step keepsBatches (opened initial false fun _ => 0) twoFlushes t ∧ t.dbs = [] ∧
      t.acked.length = 2 ∧ ∀ p ∈ t.acked, served t p ∨ filed t p := by
  obtain ⟨t, run, ht⟩ := exists_run_of_checkedRun step keepsBatches
    (opened initial false fun _ => 0) twoFlushes (fun t => (t.dbs, t.acked.length)) ([], 2)
    (by decide +kernel)
  obtain ⟨hdbs, hacked⟩ := Prod.mk.inj ht
  exact ⟨t, run, hdbs, hacked, (acknowledged_rows_visible (.nil initial) run).1⟩

/-- The upload of a table fails, and the table is written and flushed again. -/
def failedThenFlushed : List Action :=
  [.write "d" [point "t" 100] 0 1, .handover 0 (fun _ => []) .ok fun _ => false,
    .uploadFail 0 false, .commit 0 .ok, .release 0, .reclaim 0 9,
    .write "d" [point "t" 200] 0 1, .handover 0 (fun _ => []) .ok fun _ => false]

/-- The batch that was kept for the queries is replaced. -/
theorem failedThenFlushed_hides_row : ∃ t,
    Run step (fun _ _ => True) (opened initial false fun _ => 0) failedThenFlushed t ∧
      (("d", "t"), ⟨100, untagged, [], 0⟩) ∈ t.acked ∧
      ¬ served t (("d", "t"), ⟨100, untagged, [], 0⟩) ∧
      ¬ filed t (("d", "t"), ⟨100, untagged, [], 0⟩) := by
  obtain ⟨t, run, ht⟩ := exists_run_of_checkedRun step (fun _ _ => True)
    (opened initial false fun _ => 0) failedThenFlushed
    (fun t => decide ((("d", "t"), ⟨100, untagged, [], 0⟩) ∈ t.acked ∧
      ¬ served t (("d", "t"), ⟨100, untagged, [], 0⟩) ∧
      ¬ filed t (("d", "t"), ⟨100, untagged, [], 0⟩))) true (by decide +kernel)
  exact ⟨t, run, of_decide_eq_true ht⟩

end TimeLake.Engine
