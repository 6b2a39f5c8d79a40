import TimeLake.Ingest.Refusal

/-!
Replay of acknowledged bodies. The log holds bodies as they came; a restart and
a peer's recovery parse them again and stamp a line without a timestamp with
zero, where the write had stamped it with the clock. The types a field meets
on the way back are those of the registry and the buffers at hand: the same
ones at a restart, a peer's own at a recovery.

`Tables.appended` is the list of rows a body adds, in order and with their
tables. Two nodes agree on the rows of every table exactly when these lists
are equal.
-/

namespace TimeLake.Ingest

open TimeLake.Library TimeLake.Rows TimeLake.Catalog TimeLake.Wal

namespace Tables

variable (fl : FloatOps) (db : String)

/-- The rows the lines of a body add, up to the first one refused. -/
def appended (est : String → Established) : (String → Types) → List ParsedLine →
    List (TableKey × Row)
  | _, [] => []
  | types, line :: rest =>
      match admitFields (est line.table) (types line.table) line.fields with
      | none => []
      | some ty =>
          ((db, line.table), line.row fl ty) ::
            appended est (Function.update types line.table ty) rest

variable {fl db}

theorem appendLines_appended (fl : FloatOps) (db : String) (est : String → Established)
    (lines : List ParsedLine) (t : Tables) :
    (∀ key, (t.appendLines fl db est lines).1.rows key = t.rows key ++
        valuesAt (appended fl db est (fun table => t.types (db, table)) lines) key) ∧
      ((t.appendLines fl db est lines).2 = true ↔
        (appended fl db est (fun table => t.types (db, table)) lines).length = lines.length) := by
  induction lines generalizing t with
  | nil => simp [appendLines, appended, valuesAt]
  | cons line rest ih =>
      simp only [appendLines, appended]
      cases hfits : admitFields (est line.table) (t.types (db, line.table)) line.fields with
      | none => simp [valuesAt]
      | some ty =>
          have htypes : (fun table => (t.append fl (db, line.table) ty line).types (db, table)) =
              Function.update (fun table => t.types (db, table)) line.table ty := by
            funext table
            by_cases htable : table = line.table <;> simp [append, htable]
          obtain ⟨hrows, hok⟩ := ih (t.append fl (db, line.table) ty line)
          rw [htypes] at hrows hok
          refine ⟨fun key => ?_, ?_⟩
          · simp only [hrows key, valuesAt_cons]
            by_cases hkey : (db, line.table) = key
            · subst hkey
              simp [append]
            · simp [append, hkey, Function.update_of_ne (Ne.symm hkey)]
          · simp only [hok, List.length_cons, Nat.add_right_cancel_iff]

theorem noteAll_rows (keys : List TableKey) (t : Tables) : (t.noteAll keys).1.rows = t.rows := by
  induction keys generalizing t with
  | nil => rfl
  | cons key rest ih =>
      have hnote : (t.noteColumns key).1.rows = t.rows := by
        unfold noteColumns
        split
        · split <;> rfl
        · rfl
      simp only [noteAll]
      split
      · next t' heq =>
          rw [heq] at hnote
          exact hnote
      · next t' heq =>
          rw [heq] at hnote
          exact (ih t').trans hnote

end Tables

/-- A body as the parser read it, and the clock when it was written. -/
structure Body where
  db : String
  lines : List Line
  nowNs : Int

namespace Tables

/-- The rows a body adds to these tables when its lines get this default. -/
def addedBy (fl : FloatOps) (t : Tables) (b : Body) (ts : Int) : List (TableKey × Row) :=
  appended fl b.db (fun table => t.established (b.db, table)) (fun table => t.types (b.db, table))
    (b.lines.map (Line.stamp ts))

def applyBody (fl : FloatOps) (t : Tables) (b : Body) (ts : Int) : Tables :=
  (t.applyLines fl b.db (b.lines.map (Line.stamp ts))).1

theorem applyBody_rows (fl : FloatOps) (t : Tables) (b : Body) (ts : Int) (key : TableKey) :
    (t.applyBody fl b ts).rows key = t.rows key ++ valuesAt (t.addedBy fl b ts) key := by
  have happend := (appendLines_appended fl b.db
    (fun table => t.established (b.db, table)) (b.lines.map (Line.stamp ts)) t).1 key
  unfold applyBody applyLines addedBy
  rw [← happend]
  split
  · next heq => rw [heq]
  · next heq =>
      rw [heq]
      exact congrFun (noteAll_rows _ _) key

/-- Bodies applied as they were written. -/
def live (fl : FloatOps) (t : Tables) (bodies : List Body) : Tables :=
  bodies.foldl (fun t b => t.applyBody fl b b.nowNs) t

/-- Bodies applied as they are read back. -/
def replayed (fl : FloatOps) (t : Tables) (bodies : List Body) : Tables :=
  bodies.foldl (fun t b => t.applyBody fl b 0) t

/-- Every body is accepted when it is written. -/
def Accepts (fl : FloatOps) : Tables → List Body → Prop
  | _, [] => True
  | t, b :: rest => t.Fits b.db b.lines ∧ Accepts fl (t.applyBody fl b b.nowNs) rest

/-- The type rules of a follower admit the lines as the writer's do and give
each of their fields the type the writer's give it. -/
def SameTypes (est est' : String → Established) : (String → Types) → (String → Types) →
    List Line → Prop
  | _, _, [] => True
  | types, types', l :: rest =>
      ∃ ty ty', admitFields (est l.table) (types l.table) l.fields = some ty ∧
        admitFields (est' l.table) (types' l.table) l.fields = some ty' ∧
        (∀ p ∈ l.fields, ty.lookup p.1 = ty'.lookup p.1) ∧
        SameTypes est est' (Function.update types l.table ty) (Function.update types' l.table ty')
          rest

/-- The same for a follower that reads whole bodies back. -/
def Follows (fl : FloatOps) : Tables → Tables → List Body → Prop
  | _, _, [] => True
  | t, p, b :: rest =>
      SameTypes (fun table => t.established (b.db, table))
          (fun table => p.established (b.db, table))
          (fun table => t.types (b.db, table)) (fun table => p.types (b.db, table)) b.lines ∧
        Follows fl (t.applyBody fl b b.nowNs) (p.applyBody fl b 0) rest

section Rows

variable {fl : FloatOps} {est est' : String → Established} {types types' : String → Types}

/-- Two tables store a line's fields alike exactly when they give each of them
one type. -/
theorem fields_eq_iff (fl : FloatOps) {e e' : Established} {start start' ty ty' : Types}
    {fields : List (String × FieldValue)} (h : admitFields e start fields = some ty)
    (h' : admitFields e' start' fields = some ty') :
    collect (fields.map fun p => (p.1, ((ty.lookup p.1).getD (valueType p.2)).store fl p.2)) =
        collect (fields.map fun p => (p.1, ((ty'.lookup p.1).getD (valueType p.2)).store fl p.2)) ↔
      ∀ p ∈ fields, ty.lookup p.1 = ty'.lookup p.1 := by
  constructor
  · intro heq p hp
    obtain ⟨v, hv⟩ : ∃ v, fields.reverse.lookup p.1 = some v := by
      cases hl : fields.reverse.lookup p.1 with
      | some v => exact ⟨v, rfl⟩
      | none =>
          rw [List.lookup_eq_none_iff] at hl
          exact absurd (hl p (List.mem_reverse.mpr hp)) (by simp)
    have hmem : (p.1, v) ∈ fields := List.mem_reverse.mp (mem_of_lookup hv)
    obtain ⟨a, ha, haccepts⟩ := admitFields_accepts h hmem
    obtain ⟨b, hb, hbccepts⟩ := admitFields_accepts h' hmem
    have hcell : ∀ types : Types, (collect (fields.map fun p =>
        (p.1, ((types.lookup p.1).getD (valueType p.2)).store fl p.2))).lookup p.1 =
          some (((types.lookup p.1).getD (valueType v)).store fl v) := by
      intro types
      rw [lookup_collect, ← List.map_reverse,
        lookup_map_snd fun k v => ((types.lookup k).getD (valueType v)).store fl v, hv,
        Option.map_some]
    have hstored := congrArg (List.lookup p.1) heq
    rw [hcell, hcell] at hstored
    simp only at ha hb
    rw [ha, hb, Option.getD_some, Option.getD_some, Option.some.injEq] at hstored
    rw [ha, hb, eq_of_store_eq haccepts hbccepts hstored]
  · intro hall
    congr 1
    apply List.map_congr_left
    intro p hp
    rw [hall p hp]

theorem stamp_row_eq_iff (fl : FloatOps) {l : Line} (ts ts' : Int) {e e' : Established}
    {start start' ty ty' : Types} (h : admitFields e start l.fields = some ty)
    (h' : admitFields e' start' l.fields = some ty') :
    (l.stamp ts).row fl ty = (l.stamp ts').row fl ty' ↔
      (l.timestamp = none → ts = ts') ∧ ∀ p ∈ l.fields, ty.lookup p.1 = ty'.lookup p.1 := by
  rw [← fields_eq_iff fl h h']
  simp only [ParsedLine.row, Line.stamp, Row.mk.injEq, true_and, and_true]
  apply and_congr_left'
  cases l.timestamp <;> simp

theorem appended_eq_iff {db : String} {ts ts' : Int} (est' : String → Established)
    (types' : String → Types) (lines : List Line)
    (hall : (typesAfter est types lines).isSome) :
    appended fl db est types (lines.map (Line.stamp ts)) =
        appended fl db est' types' (lines.map (Line.stamp ts')) ↔
      (∀ l ∈ lines, l.timestamp = none → ts = ts') ∧ SameTypes est est' types types' lines := by
  induction lines generalizing types types' with
  | nil => simp [appended, SameTypes]
  | cons l rest ih =>
      simp only [typesAfter] at hall
      simp only [List.map_cons, appended, SameTypes, List.forall_mem_cons, Line.stamp]
      cases hfits : admitFields (est l.table) (types l.table) l.fields with
      | none =>
          rw [hfits] at hall
          cases hall
      | some ty =>
          rw [hfits] at hall
          cases hfits' : admitFields (est' l.table) (types' l.table) l.fields with
          | none => simp
          | some ty' =>
              have hrow := stamp_row_eq_iff fl ts ts' hfits hfits'
              have hrest := @ih _ (Function.update types' l.table ty') hall
              simp only [Line.stamp] at hrow
              simp only [List.cons.injEq, Prod.mk.injEq, true_and, hrow, hrest, Option.some.injEq]
              constructor
              · rintro ⟨⟨hstamp, htypes⟩, hstamps, hsame⟩
                exact ⟨⟨hstamp, hstamps⟩, ty, ty', rfl, rfl, htypes, hsame⟩
              · rintro ⟨⟨hstamp, hstamps⟩, _, _, rfl, rfl, htypes, hsame⟩
                exact ⟨⟨hstamp, htypes⟩, hstamps, hsame⟩

theorem sameTypes_refl (lines : List Line) (h : (typesAfter est types lines).isSome) :
    SameTypes est est types types lines := by
  induction lines generalizing types with
  | nil => trivial
  | cons l rest ih =>
      simp only [typesAfter] at h
      cases hfits : admitFields (est l.table) (types l.table) l.fields with
      | none =>
          rw [hfits] at h
          cases h
      | some ty =>
          rw [hfits] at h
          exact ⟨ty, ty, hfits, hfits, fun _ _ => rfl, ih h⟩

theorem length_appended_le (fl : FloatOps) (db : String) (est : String → Established)
    (types : String → Types) (lines : List ParsedLine) :
    (appended fl db est types lines).length ≤ lines.length := by
  induction lines generalizing types with
  | nil => exact Nat.le_refl _
  | cons l rest ih =>
      simp only [appended]
      split
      · simp
      · simpa using ih _

/-- The tables of the rows that were added are the tables of the first lines. -/
theorem keys_appended {db : String} (lines : List ParsedLine) :
    (appended fl db est types lines).map Prod.fst =
      (lines.map fun l => (db, l.table)).take (appended fl db est types lines).length := by
  induction lines generalizing types with
  | nil => rfl
  | cons l rest ih =>
      simp only [appended]
      split
      · rfl
      · rw [List.map_cons, ih, List.length_cons, List.map_cons, List.take_succ_cons]

end Rows

section Runs

variable {fl : FloatOps}

/-- The rows bodies add as they are written, in order. -/
def liveRows (fl : FloatOps) : Tables → List Body → List (TableKey × Row)
  | _, [] => []
  | t, b :: rest => t.addedBy fl b b.nowNs ++ liveRows fl (t.applyBody fl b b.nowNs) rest

/-- The rows they add as they are read back. -/
def replayRows (fl : FloatOps) : Tables → List Body → List (TableKey × Row)
  | _, [] => []
  | p, b :: rest => p.addedBy fl b 0 ++ replayRows fl (p.applyBody fl b 0) rest

theorem live_rows (t : Tables) (bodies : List Body) (key : TableKey) :
    (t.live fl bodies).rows key = t.rows key ++ valuesAt (liveRows fl t bodies) key := by
  induction bodies generalizing t with
  | nil => simp [live, liveRows, valuesAt]
  | cons b rest ih =>
      rw [liveRows, valuesAt_append, ← List.append_assoc, ← applyBody_rows, ← ih]
      rfl

theorem replayed_rows (p : Tables) (bodies : List Body) (key : TableKey) :
    (p.replayed fl bodies).rows key = p.rows key ++ valuesAt (replayRows fl p bodies) key := by
  induction bodies generalizing p with
  | nil => simp [replayed, replayRows, valuesAt]
  | cons b rest ih =>
      rw [replayRows, valuesAt_append, ← List.append_assoc, ← applyBody_rows, ← ih]
      rfl

theorem length_addedBy_le (fl : FloatOps) (t : Tables) (b : Body) (ts : Int) :
    (t.addedBy fl b ts).length ≤ b.lines.length := by
  have hle := length_appended_le fl b.db
    (fun table => t.established (b.db, table)) (fun table => t.types (b.db, table))
    (b.lines.map (Line.stamp ts))
  rwa [List.length_map] at hle

theorem Fits.typesAfter_isSome {t : Tables} {db : String} {lines : List Line}
    (h : t.Fits db lines) :
    (typesAfter (fun table => t.established (db, table)) (fun table => t.types (db, table))
      lines).isSome := by
  obtain ⟨types, htypes, _⟩ := h
  rw [htypes]
  rfl

theorem length_addedBy (fl : FloatOps) {t : Tables} {b : Body} (h : t.Fits b.db b.lines)
    (ts : Int) :
    (t.addedBy fl b ts).length = b.lines.length := by
  have hok := (appendLines_appended fl b.db
    (fun table => t.established (b.db, table)) (b.lines.map (Line.stamp ts)) t).2
  rw [List.length_map] at hok
  refine hok.mp ?_
  have hfits := appendLines_fits fl b.db
    (fun table => t.established (b.db, table)) ts b.lines t
  obtain ⟨types, htypes, _⟩ := h
  rw [htypes] at hfits
  obtain ⟨t', happend, _⟩ := hfits
  rw [happend]

/-- A body adds at most one row for each of its lines, and a body that is
accepted adds one for each. -/
theorem length_replayRows_le {t p : Tables} {bodies : List Body} (h : t.Accepts fl bodies) :
    (replayRows fl p bodies).length ≤ (liveRows fl t bodies).length := by
  induction bodies generalizing t p with
  | nil => exact Nat.le_refl _
  | cons b rest ih =>
      rw [replayRows, liveRows, List.length_append, List.length_append, length_addedBy fl h.1]
      exact Nat.add_le_add (length_addedBy_le fl p b 0) (ih h.2)

/-- Where no line is missing on the way back, the two lists go split body by
body. -/
theorem length_addedBy_eq {t p : Tables} {b : Body} {rest : List Body}
    (h : t.Accepts fl (b :: rest))
    (hlen : (replayRows fl p (b :: rest)).length = (liveRows fl t (b :: rest)).length) :
    (p.addedBy fl b 0).length = (t.addedBy fl b b.nowNs).length ∧
      (replayRows fl (p.applyBody fl b 0) rest).length =
        (liveRows fl (t.applyBody fl b b.nowNs) rest).length := by
  rw [replayRows, liveRows, List.length_append, List.length_append] at hlen
  have hhead := length_addedBy_le fl p b 0
  have hlive := length_addedBy fl h.1 b.nowNs
  have htail := length_replayRows_le (p := p.applyBody fl b 0) h.2
  omega

theorem keys_replayRows {t p : Tables} {bodies : List Body} (h : t.Accepts fl bodies)
    (hlen : (replayRows fl p bodies).length = (liveRows fl t bodies).length) :
    (replayRows fl p bodies).map Prod.fst = (liveRows fl t bodies).map Prod.fst := by
  induction bodies generalizing t p with
  | nil => rfl
  | cons b rest ih =>
      obtain ⟨hhead, htail⟩ := length_addedBy_eq h hlen
      rw [replayRows, liveRows, List.map_append, List.map_append, ih h.2 htail]
      congr 1
      unfold addedBy at hhead ⊢
      rw [keys_appended, keys_appended, hhead]
      simp [Line.stamp, Function.comp_def]

theorem replayRows_eq_iff {t p : Tables} {bodies : List Body} (h : t.Accepts fl bodies) :
    replayRows fl p bodies = liveRows fl t bodies ↔
      (∀ b ∈ bodies, ∀ l ∈ b.lines, l.timestamp = none → b.nowNs = 0) ∧ Follows fl t p bodies := by
  induction bodies generalizing t p with
  | nil => simp [replayRows, liveRows, Follows]
  | cons b rest ih =>
      have hbody : t.addedBy fl b b.nowNs = p.addedBy fl b 0 ↔ _ :=
        appended_eq_iff (fun table => p.established (b.db, table))
          (fun table => p.types (b.db, table)) b.lines (Fits.typesAfter_isSome h.1)
      have hsplit : replayRows fl p (b :: rest) = liveRows fl t (b :: rest) ↔
          t.addedBy fl b b.nowNs = p.addedBy fl b 0 ∧
            replayRows fl (p.applyBody fl b 0) rest =
              liveRows fl (t.applyBody fl b b.nowNs) rest := by
        constructor
        · intro heq
          obtain ⟨hlen, _⟩ := length_addedBy_eq h (congrArg List.length heq)
          rw [replayRows, liveRows] at heq
          obtain ⟨hhead, htail⟩ := List.append_inj heq hlen
          exact ⟨hhead.symm, htail⟩
        · rintro ⟨hhead, htail⟩
          rw [replayRows, liveRows, hhead, htail]
      rw [hsplit, hbody, ih h.2, List.forall_mem_cons, Follows]
      tauto

/-- What comes back is what was there, in every table, exactly when every line
without a timestamp was written at clock zero and the types are the same. -/
theorem rows_replayed_iff {t p : Tables} {bodies : List Body} (h : t.Accepts fl bodies) :
    (∀ key, (p.replayed fl bodies).rows key =
        p.rows key ++ ((t.live fl bodies).rows key).drop (t.rows key).length) ↔
      (∀ b ∈ bodies, ∀ l ∈ b.lines, l.timestamp = none → b.nowNs = 0) ∧ Follows fl t p bodies := by
  rw [← replayRows_eq_iff h]
  simp only [replayed_rows, live_rows, List.drop_left, List.append_cancel_left_eq]
  constructor
  · intro hvalues
    have hlen := length_eq_of_valuesAt hvalues
    exact eq_of_valuesAt (keys_replayRows h hlen) hvalues
  · rintro heq key
    rw [heq]

end Runs

section Shape

variable {fl : FloatOps}

/-- The same columns and registry entries; the rows may differ. -/
structure SameShape (t p : Tables) : Prop where
  types : t.types = p.types
  tagNames : t.tagNames = p.tagNames
  schemas : t.schemas = p.schemas

theorem SameShape.appendLines {t p : Tables} (h : SameShape t p) (fl : FloatOps) (db : String)
    (est : String → Established) (ts ts' : Int) (lines : List Line) :
    SameShape (t.appendLines fl db est (lines.map (Line.stamp ts))).1
        (p.appendLines fl db est (lines.map (Line.stamp ts'))).1 ∧
      (t.appendLines fl db est (lines.map (Line.stamp ts))).2 =
        (p.appendLines fl db est (lines.map (Line.stamp ts'))).2 := by
  induction lines generalizing t p with
  | nil => exact ⟨h, rfl⟩
  | cons l rest ih =>
      simp only [List.map_cons, Tables.appendLines, Line.stamp, h.types]
      split
      · exact ⟨h, rfl⟩
      · exact ih ⟨by simp [Tables.append, h.types], by simp [Tables.append, h.tagNames], h.schemas⟩

theorem SameShape.noteColumns {t p : Tables} (h : SameShape t p) (key : TableKey) :
    SameShape (t.noteColumns key).1 (p.noteColumns key).1 ∧
      (t.noteColumns key).2 = (p.noteColumns key).2 := by
  unfold Tables.noteColumns Tables.known Tables.columns
  rw [h.types, h.tagNames, h.schemas]
  split
  · split
    · exact ⟨⟨rfl, rfl, rfl⟩, rfl⟩
    · exact ⟨h, rfl⟩
  · exact ⟨h, rfl⟩

theorem SameShape.noteAll {t p : Tables} (h : SameShape t p) (keys : List TableKey) :
    SameShape (t.noteAll keys).1 (p.noteAll keys).1 := by
  induction keys generalizing t p with
  | nil => exact h
  | cons key rest ih =>
      obtain ⟨hshape, hok⟩ := h.noteColumns key
      simp only [Tables.noteAll]
      cases hn : t.noteColumns key with
      | mk t' ok =>
          cases hn' : p.noteColumns key with
          | mk p' ok' =>
              rw [hn, hn'] at hshape hok
              obtain rfl : ok = ok' := hok
              cases ok
              · exact hshape
              · exact ih hshape

theorem SameShape.established {t p : Tables} (h : SameShape t p) :
    t.established = p.established := by
  unfold Tables.established
  rw [h.schemas]

theorem touched_stamp (db : String) (lines : List Line) (ts ts' : Int) :
    Node.touched db (lines.map (Line.stamp ts)) = Node.touched db (lines.map (Line.stamp ts')) := by
  simp [Node.touched, Line.stamp, Function.comp_def]

theorem SameShape.applyBody {t p : Tables} (h : SameShape t p) (b : Body) (ts ts' : Int) :
    SameShape (t.applyBody fl b ts) (p.applyBody fl b ts') := by
  obtain ⟨hshape, hok⟩ := h.appendLines fl b.db
    (fun table => t.established (b.db, table)) ts ts' b.lines
  unfold Tables.applyBody Tables.applyLines
  rw [← h.established, touched_stamp b.db b.lines ts ts']
  cases ha : t.appendLines fl b.db (fun table => t.established (b.db, table))
      (b.lines.map (Line.stamp ts)) with
  | mk t' ok =>
      cases ha' : p.appendLines fl b.db (fun table => t.established (b.db, table))
          (b.lines.map (Line.stamp ts')) with
      | mk p' ok' =>
          rw [ha, ha'] at hshape hok
          obtain rfl : ok = ok' := hok
          cases ok
          · exact hshape
          · exact hshape.noteAll _

/-- A node reading its own bodies back meets the types it had. -/
theorem SameShape.follows {t p : Tables} (h : SameShape t p) {bodies : List Body}
    (haccepts : t.Accepts fl bodies) : Follows fl t p bodies := by
  induction bodies generalizing t p with
  | nil => trivial
  | cons b rest ih =>
      refine ⟨?_, ih (h.applyBody b _ _) haccepts.2⟩
      rw [← h.established, ← h.types]
      exact sameTypes_refl b.lines (Fits.typesAfter_isSome haccepts.1)

end Shape

end Tables

section Calls

variable {fl : FloatOps}

/-- The lines the parser reads from a call's body. -/
def Call.lines (fl : FloatOps) (c : Call) : List Line :=
  match c.mult, fromUtf8 c.body with
  | .ok mult, some text => (readLines fl text mult.toInt).toOption.getD []
  | _, _ => []

/-- Calls that were all answered with `Ok`, one after another. -/
def Node.acknowledged (fl : FloatOps) : Node → List (Call × Weather) → Option Node
  | s, [] => some s
  | s, (c, w) :: rest =>
      match s.write fl c w with
      | (s, .ok _) => acknowledged fl s rest
      | (_, .error _) => none

def bodyOf (fl : FloatOps) (c : Call × Weather) : Body := ⟨c.1.db, c.1.lines fl, c.2.nowNs⟩

/-- The frame a call leaves in the log. -/
def Call.frame (c : Call) : Frame := ⟨c.db, c.mult.toOption.getD 1, c.body⟩

theorem recover_tables_congr {s s' : Node} (h : s.tables = s'.tables) (frames : List Frame) :
    (s.recover fl frames).tables = (s'.recover fl frames).tables := by
  induction frames generalizing s s' with
  | nil => exact h
  | cons f rest ih =>
      refine @ih (s.replayFrame fl f) (s'.replayFrame fl f) ?_
      unfold Node.replayFrame Node.apply
      split
      · exact h
      · rw [(applyLines_tables fl s f.db _).1, (applyLines_tables fl s' f.db _).1, h]

theorem check_mult {s : Node} {c : Call} {mult : Int64} {text : String} {lines : List Line}
    (h : s.check fl c = .ok (mult, text, lines)) : c.mult = .ok mult := by
  unfold Node.check at h
  cases hmult : c.mult with
  | error e =>
      rw [hmult] at h
      cases h
  | ok m =>
      simp only [hmult, bind, Except.bind] at h
      split at h
      · cases h
      · split at h
        · cases h
        · split at h
          · cases h
          · rw [(Prod.mk.inj (Except.ok.inj h)).1]

/-- A frame whose body passed the check brings that body back. -/
theorem replayFrame_tables {db : String} {body : Bytes} {mult : Int64} {text : String}
    {lines : List Line} (htext : fromUtf8 body = some text)
    (hread : readLines fl text mult.toInt = .ok lines) (nowNs : Int) (p : Node) :
    (p.replayFrame fl ⟨db, mult, body⟩).tables = p.tables.applyBody fl ⟨db, lines, nowNs⟩ 0 := by
  have hlossy : fromUtf8Lossy body = text := by simp [fromUtf8Lossy, htext]
  rw [Node.replayFrame, hlossy, apply_of_readLines hread, (applyLines_tables fl p db _).1,
    Tables.applyBody]

/-- What one acknowledged call leaves behind. -/
theorem write_ok_spec {s s' : Node} {c : Call} {w : Weather} {n : Nat}
    (h : s.write fl c w = (s', .ok n)) :
    s'.wal = s.wal ++ [c.frame] ∧
      s'.tables = s.tables.applyBody fl (bodyOf fl (c, w)) w.nowNs ∧
      s.tables.Fits c.db (c.lines fl) ∧
      ∀ p : Node, (p.replayFrame fl c.frame).tables =
          p.tables.applyBody fl (bodyOf fl (c, w)) 0 := by
  unfold Node.write at h
  cases hcheck : s.check fl c with
  | error e =>
      rw [hcheck] at h
      cases h
  | ok r =>
      obtain ⟨mult, text, lines⟩ := r
      obtain ⟨htext, hread⟩ := check_readLines hcheck
      have hmult := check_mult hcheck
      have hlines : c.lines fl = lines := by
        simp [Call.lines, hmult, htext, hread, Except.toOption]
      have hframe : c.frame = ⟨c.db, mult, c.body⟩ := by
        simp [Call.frame, hmult, Except.toOption]
      simp only [hcheck] at h
      split at h
      · cases h
      · split at h
        · cases h
        · simp only [apply_of_readLines hread] at h
          obtain ⟨htables, hok⟩ := applyLines_tables fl
            { s with wal := s.wal ++ [⟨c.db, mult, c.body⟩] } c.db (lines.map (Line.stamp w.nowNs))
          have hwal := applyLines_wal fl
            { s with wal := s.wal ++ [⟨c.db, mult, c.body⟩] } c.db (lines.map (Line.stamp w.nowNs))
          split at h
          · cases h
          · next s'' n' happly =>
              obtain ⟨rfl, rfl⟩ : s'' = s' ∧ n' = n := by simpa using h
              rw [happly] at htables hok hwal
              refine ⟨by rw [hframe]; exact hwal, ?_, ?_, ?_⟩
              · rw [htables, Tables.applyBody, bodyOf, hlines]
                rfl
              · rw [hlines]
                exact (applyLines_ok_iff w.nowNs lines s.tables).mp (hok.mpr ⟨n', rfl⟩)
              · intro p
                rw [hframe, bodyOf, hlines]
                exact replayFrame_tables htext hread w.nowNs p

/-- What a run of acknowledged calls leaves behind: the log has their frames,
the tables are those of the bodies as written, and the frames bring the bodies
back. -/
theorem acknowledged_spec {s s' : Node} {calls : List (Call × Weather)}
    (h : s.acknowledged fl calls = some s') :
    s'.wal = s.wal ++ calls.map (fun c => c.1.frame) ∧
      s'.tables = s.tables.live fl (calls.map (bodyOf fl)) ∧
      s.tables.Accepts fl (calls.map (bodyOf fl)) ∧
      ∀ p : Node, (p.recover fl (calls.map fun c => c.1.frame)).tables =
        p.tables.replayed fl (calls.map (bodyOf fl)) := by
  induction calls generalizing s with
  | nil =>
      obtain rfl := Option.some.inj h
      exact ⟨(List.append_nil _).symm, rfl, trivial, fun _ => rfl⟩
  | cons call rest ih =>
      obtain ⟨c, w⟩ := call
      simp only [Node.acknowledged] at h
      split at h
      · next s₁ n hwrite =>
          obtain ⟨hwal, htables, hfits, hframe⟩ := write_ok_spec hwrite
          obtain ⟨hwals, hlive, haccepts, hback⟩ := ih h
          refine ⟨by simp [hwals, hwal], ?_, ⟨hfits, ?_⟩, ?_⟩
          · rw [hlive, htables]
            rfl
          · rw [htables] at haccepts
            exact haccepts
          · intro p
            rw [List.map_cons, Node.recover, List.foldl_cons]
            refine (hback (p.replayFrame fl c.frame)).trans ?_
            rw [hframe p]
            rfl
      · cases h

theorem recover_wal (s : Node) (frames : List Frame) : (s.recover fl frames).wal = s.wal := by
  induction frames generalizing s with
  | nil => rfl
  | cons f rest ih =>
      refine (ih (s.replayFrame fl f)).trans ?_
      unfold Node.replayFrame Node.apply
      split
      · rfl
      · exact applyLines_wal fl s f.db _

theorem openNode_append (boot : Boot) (earlier frames : List Frame) :
    (openNode fl boot (earlier ++ frames)).tables =
      ((openNode fl boot earlier).recover fl frames).tables := by
  have hsplit : ∀ s : Node, s.recover fl (earlier ++ frames) =
      (s.recover fl earlier).recover fl frames := fun s => List.foldl_append
  simp only [openNode, hsplit]
  apply recover_tables_congr
  apply recover_tables_congr
  rfl

end Calls

end TimeLake.Ingest
