import TimeLake.Ingest.Tables

/-!
Refused writes. The checks of a body come before the log, the type rules after
it: a value its column cannot hold is found when the frame is durable and the
lines before it are in the buffers. `Fits` states the type rules of a whole
body on the types alone, and `refused_write_unchanged_iff` says that a refused
write leaves the node as it was exactly when these rules have nothing to
refuse.
-/

namespace TimeLake.Ingest

open TimeLake.Library TimeLake.Rows TimeLake.Catalog TimeLake.Wal

section Rules

/-- No name has two types. -/
def Consistent (s : Schema) : Prop := ∀ p ∈ s, ∀ q ∈ s, p.1 = q.1 → p.2 = q.2

/-- The registry has as many columns already, or no entry, or an entry that
agrees with the columns. -/
def Takes (entry : Option Schema) (columns : Schema) : Prop :=
  columns.length ≤ (entry.map List.length).getD 0 ∨
    ∀ a, entry = some a → Consistent (a.settle ++ columns)

/-- The types of each table after the lines of a body, if all are admitted. -/
def typesAfter (est : String → Established) : (String → Types) → List Line →
    Option (String → Types)
  | types, [] => some types
  | types, l :: rest =>
      match admitFields (est l.table) (types l.table) l.fields with
      | none => none
      | some ty => typesAfter est (Function.update types l.table ty) rest

def tagsAfter (names : String → List String) (lines : List Line) : String → List String :=
  lines.foldl (fun names l => Function.update names l.table (addTags (names l.table) l.tags)) names

/-- The type rules of a body: every field fits the column it meets, the
buffer's, an earlier line's or the registry's, and the registry takes the
columns of every table of the body. -/
def Tables.Fits (t : Tables) (db : String) (lines : List Line) : Prop :=
  ∃ types, typesAfter (fun table => t.established (db, table)) (fun table => t.types (db, table))
      lines = some types ∧
    ∀ l ∈ lines, Takes (t.schemas (db, l.table))
      (columnsOf (tagsAfter (fun table => t.tagNames (db, table)) lines l.table) (types l.table))

end Rules

section Union

theorem types_isSome_of_mem {s : Schema} {p : String × DataType} (h : p ∈ s) :
    ∃ dt, Schema.types s p.1 = some dt := by
  cases hl : Schema.types s p.1 with
  | some dt => exact ⟨dt, rfl⟩
  | none =>
      rw [Schema.types, List.lookup_eq_none_iff] at hl
      exact absurd (hl p (List.mem_reverse.mpr h)) (by simp)

theorem mem_of_types {s : Schema} {name : String} {dt : DataType}
    (h : Schema.types s name = some dt) : (name, dt) ∈ s :=
  List.mem_reverse.mp (mem_of_lookup h)

theorem consistent_settle (s : Schema) : Consistent s.settle := by
  intro p hp q hq hname
  obtain ⟨p', hp', rfl⟩ := List.mem_map.mp hp
  obtain ⟨q', hq', rfl⟩ := List.mem_map.mp hq
  obtain ⟨dt, hdt⟩ := types_isSome_of_mem hp'
  simp only at hname ⊢
  rw [← hname, hdt, Option.getD_some, Option.getD_some]

theorem unionInto_ok_iff (a b : Schema) (h : Consistent a) :
    (∃ merged, unionInto a b = .ok merged) ↔ Consistent (a ++ b) := by
  induction b generalizing a with
  | nil => simpa [unionInto] using h
  | cons p rest ih =>
      obtain ⟨name, dt⟩ := p
      simp only [unionInto]
      cases hl : Schema.types a name with
      | none =>
          have hout : ∀ q ∈ a, q.1 ≠ name := by
            rintro q hq rfl
            obtain ⟨dt', hdt'⟩ := types_isSome_of_mem hq
            rw [hl] at hdt'
            cases hdt'
          have hsnoc : Consistent (a ++ [(name, dt)]) := by
            intro q hq r hr heq
            rcases List.mem_append.mp hq with hq | hq <;> rcases List.mem_append.mp hr with hr | hr
            · exact h q hq r hr heq
            · rw [List.mem_singleton.mp hr] at heq
              exact absurd heq (hout q hq)
            · rw [List.mem_singleton.mp hq] at heq
              exact absurd heq.symm (hout r hr)
            · rw [List.mem_singleton.mp hq, List.mem_singleton.mp hr]
          rw [ih _ hsnoc, List.append_assoc, List.singleton_append]
      | some known =>
          have hmem := mem_of_types hl
          simp only
          split
          · next heq =>
              subst heq
              have hsame : ∀ q, q ∈ a ++ (name, known) :: rest ↔ q ∈ a ++ rest := by
                intro q
                simp only [List.mem_append, List.mem_cons]
                constructor
                · rintro (hq | rfl | hq)
                  · exact .inl hq
                  · exact .inl hmem
                  · exact .inr hq
                · rintro (hq | hq)
                  · exact .inl hq
                  · exact .inr (.inr hq)
              rw [ih a h]
              simp only [Consistent, hsame]
          · next hne =>
              constructor
              · rintro ⟨_, hok⟩
                cases hok
              · intro hcons
                exact absurd (hcons (name, known) (by simp [hmem]) (name, dt) (by simp) rfl) hne

theorem noteColumns_ok_iff (t : Tables) (key : TableKey) :
    (t.noteColumns key).2 = true ↔ Takes (t.schemas key) (t.columns key) := by
  unfold Tables.noteColumns Takes Tables.known
  split
  · next hlt =>
      have hmore : ¬ (t.columns key).length ≤ ((t.schemas key).map List.length).getD 0 := by omega
      simp only [hmore, false_or]
      cases hentry : t.schemas key with
      | none => simp [schemaUnion]
      | some a =>
          have hiff := unionInto_ok_iff a.settle (t.columns key) (consistent_settle a)
          simp only [schemaUnion, Option.some.injEq, forall_eq', ← hiff]
          cases unionInto a.settle (t.columns key) <;> simp
  · next hge => simp [Nat.le_of_not_lt hge]

theorem noteColumns_other (t : Tables) {key j : TableKey} (h : j ≠ key) :
    (t.noteColumns key).1.schemas j = t.schemas j ∧
      (t.noteColumns key).1.columns j = t.columns j := by
  unfold Tables.noteColumns
  split
  · cases schemaUnion (t.schemas key) (t.columns key) with
    | error e => exact ⟨rfl, rfl⟩
    | ok merged => exact ⟨Function.update_of_ne h _ _, rfl⟩
  · exact ⟨rfl, rfl⟩

theorem noteAll_ok_iff (keys : List TableKey) (hnodup : keys.Nodup) (t : Tables) :
    (t.noteAll keys).2 = true ↔ ∀ key ∈ keys, Takes (t.schemas key) (t.columns key) := by
  induction keys generalizing t with
  | nil => simp [Tables.noteAll]
  | cons key rest ih =>
      obtain ⟨hout, hrest⟩ := List.nodup_cons.mp hnodup
      have hhead := noteColumns_ok_iff t key
      have hother : ∀ j ∈ rest, (t.noteColumns key).1.schemas j = t.schemas j ∧
          (t.noteColumns key).1.columns j = t.columns j := by
        intro j hj
        exact noteColumns_other t fun heq => hout (heq ▸ hj)
      simp only [Tables.noteAll]
      cases hn : t.noteColumns key with
      | mk t' ok =>
          rw [hn] at hhead hother
          cases ok with
          | false =>
              simp only [Bool.false_eq_true, false_iff] at hhead ⊢
              exact fun hall => hhead (hall key List.mem_cons_self)
          | true =>
              simp only
              rw [ih hrest t', List.forall_mem_cons]
              constructor
              · intro hall
                refine ⟨hhead.mp rfl, fun j hj => ?_⟩
                have := hall j hj
                rwa [(hother j hj).1, (hother j hj).2] at this
              · rintro ⟨_, hall⟩ j hj
                rw [(hother j hj).1, (hother j hj).2]
                exact hall j hj

end Union

section Body

variable {fl : FloatOps} {db : String}

/-- The lines of a body change the types and the tags as the rules say, and
nothing else the rules look at. -/
theorem appendLines_fits (fl : FloatOps) (db : String) (est : String → Established)
    (ts : Int) (lines : List Line) (t : Tables) :
    match typesAfter est (fun table => t.types (db, table)) lines with
    | none => (t.appendLines fl db est (lines.map (Line.stamp ts))).2 = false
    | some types => ∃ t', t.appendLines fl db est (lines.map (Line.stamp ts)) = (t', true) ∧
        t'.schemas = t.schemas ∧ (∀ table, t'.types (db, table) = types table) ∧
        ∀ table, t'.tagNames (db, table) =
          tagsAfter (fun table => t.tagNames (db, table)) lines table := by
  induction lines generalizing t with
  | nil => exact ⟨t, rfl, rfl, fun _ => rfl, fun _ => rfl⟩
  | cons l rest ih =>
      simp only [typesAfter, List.map_cons, Tables.appendLines, tagsAfter, List.foldl_cons]
      cases hfits : admitFields (est l.table) (t.types (db, l.table)) l.fields with
      | none => simp [Line.stamp, hfits]
      | some ty =>
          have hupdate : ∀ {α : Type} (f : TableKey → α) (x : α),
              (fun table => Function.update f (db, l.table) x (db, table)) =
                Function.update (fun table => f (db, table)) l.table x := by
            intro α f x
            funext table
            by_cases htable : table = l.table <;> simp [htable]
          have hih := ih (t.append fl (db, l.table) ty (l.stamp ts))
          simp only [Tables.append, hupdate] at hih
          simp only [Line.stamp, hfits]
          exact hih

theorem mem_touched {lines : List ParsedLine} {key : TableKey} :
    key ∈ Node.touched db lines ↔ ∃ line ∈ lines, key = (db, line.table) := by
  simp only [Node.touched, List.mem_map, List.mem_insertionSort, List.mem_dedup]
  constructor
  · rintro ⟨table, ⟨line, hline, rfl⟩, rfl⟩
    exact ⟨line, hline, rfl⟩
  · rintro ⟨line, hline, rfl⟩
    exact ⟨line.table, ⟨line, hline, rfl⟩, rfl⟩

theorem nodup_touched (lines : List ParsedLine) : (Node.touched db lines).Nodup := by
  refine List.Nodup.map (fun a b h => congrArg Prod.snd h) ?_
  exact (List.perm_insertionSort _ _).nodup_iff.mpr (List.nodup_dedup _)

theorem applyLines_ok_iff (ts : Int) (lines : List Line) (t : Tables) :
    (t.applyLines fl db (lines.map (Line.stamp ts))).2 = true ↔ t.Fits db lines := by
  have hfits := appendLines_fits fl db
    (fun table => t.established (db, table)) ts lines t
  unfold Tables.applyLines Tables.Fits
  split at hfits
  · next hnone =>
      rw [hnone]
      cases happend : t.appendLines fl db (fun table => t.established (db, table))
          (lines.map (Line.stamp ts)) with
      | mk t' ok =>
          rw [happend] at hfits
          obtain rfl : ok = false := hfits
          simp
  · next types hsome =>
      obtain ⟨t', happend, hschemas, htypes, htags⟩ := hfits
      simp only [happend, hsome, Option.some.injEq, exists_eq_left']
      rw [noteAll_ok_iff _ (nodup_touched _)]
      simp only [mem_touched, List.mem_map, hschemas, Tables.columns]
      constructor
      · intro hall l hl
        have := hall (db, l.table) ⟨l.stamp ts, ⟨l, hl, rfl⟩, rfl⟩
        rwa [htypes, htags] at this
      · rintro hall key ⟨line, ⟨l, hl, rfl⟩, rfl⟩
        have := hall l hl
        simp only [Line.stamp, htypes, htags]
        exact this

theorem appendLines_wal (fl : FloatOps) (db : String) (est : String → Established)
    (lines : List ParsedLine) (s : Node) :
    (s.appendLines fl db est lines).1.wal = s.wal := by
  induction lines generalizing s with
  | nil => rfl
  | cons line rest ih =>
      simp only [Node.appendLines]
      split
      · rfl
      · exact ih _

theorem noteAll_wal (keys : List TableKey) (s : Node) : (s.noteAll keys).1.wal = s.wal := by
  induction keys generalizing s with
  | nil => rfl
  | cons key rest ih =>
      have hnote : (s.noteColumns key).1.wal = s.wal := by
        unfold Node.noteColumns
        dsimp only
        split
        · split <;> rfl
        · rfl
      simp only [Node.noteAll]
      split
      · next s' e heq =>
          rw [heq] at hnote
          exact hnote
      · next s' heq =>
          rw [heq] at hnote
          exact (ih s').trans hnote

/-- Applying lines does not touch the log. -/
theorem applyLines_wal (fl : FloatOps) (s : Node) (db : String) (lines : List ParsedLine) :
    (s.applyLines fl db lines).1.wal = s.wal := by
  have happend := appendLines_wal fl db
    (fun table => s.established (db, table)) lines s
  unfold Node.applyLines
  split
  · next s' e heq =>
      rw [heq] at happend
      exact happend
  · next s' heq =>
      rw [heq] at happend
      have hobserve : (s'.observeAll db lines).wal = s'.wal := by
        unfold Node.observeAll
        split <;> rfl
      have hnote := noteAll_wal (Node.touched db lines) (s'.observeAll db lines)
      split
      · next s'' e heq =>
          rw [heq] at hnote
          exact hnote.trans (hobserve.trans happend)
      · next s'' heq =>
          rw [heq] at hnote
          exact hnote.trans (hobserve.trans happend)

theorem apply_of_readLines {s : Node} {text : String} {mult : Int64} {lines : List Line}
    (h : readLines fl text mult.toInt = .ok lines) (ts : Int) :
    s.apply fl db text mult ts = s.applyLines fl db (lines.map (Line.stamp ts)) := by
  simp only [Node.apply, parseLines, h, Except.map]

/-- A body that passed the checks is applied as the lines the checks read. -/
theorem check_readLines {s : Node} {c : Call} {mult : Int64} {text : String} {lines : List Line}
    (h : s.check fl c = .ok (mult, text, lines)) :
    fromUtf8 c.body = some text ∧ readLines fl text mult.toInt = .ok lines := by
  unfold Node.check at h
  cases hmult : c.mult with
  | error e =>
      rw [hmult] at h
      cases h
  | ok m =>
      simp only [hmult, bind, Except.bind] at h
      cases htext : fromUtf8 c.body with
      | none =>
          rw [htext] at h
          cases h
      | some t =>
          simp only [htext] at h
          cases hread : readLines fl t m.toInt with
          | error e =>
              rw [hread] at h
              cases h
          | ok ls =>
              simp only [hread] at h
              split at h
              · cases h
              · obtain ⟨rfl, rfl, rfl⟩ := Prod.mk.inj (Except.ok.inj h) |>.imp id Prod.mk.inj
                exact ⟨rfl, hread⟩

end Body

/-- A write answered with `BadRequest` has changed neither the buffers, the
registry, the last-value cache nor the log, exactly when its body did not get
past the checks and the log to be stopped by the type rules. -/
theorem refused_write_unchanged_iff (fl : FloatOps) (s : Node) (c : Call) (w : Weather) :
    (∀ e, (s.write fl c w).2 = .error (.badRequest e) → (s.write fl c w).1 = s) ↔
      ∀ mult text lines, s.check fl c = .ok (mult, text, lines) → w.walFull = false →
        w.fault = none → s.tables.Fits c.db lines := by
  unfold Node.write
  cases hcheck : s.check fl c with
  | error e => simp
  | ok r =>
      obtain ⟨mult, text, lines⟩ := r
      simp only [Except.ok.injEq, Prod.mk.injEq]
      cases hfull : w.walFull with
      | true => simp
      | false =>
          cases hfault : w.fault with
          | some fault => simp
          | none =>
              have hread := (check_readLines hcheck).2
              simp only [Bool.false_eq_true, if_false, apply_of_readLines hread w.nowNs]
              generalize hlogged : ({ s with wal := s.wal ++ [⟨c.db, mult, c.body⟩] } : Node)
                = logged
              have htables : logged.tables = s.tables := by
                rw [← hlogged]
                rfl
              have hwal : (logged.applyLines fl c.db (lines.map (Line.stamp w.nowNs))).1.wal ≠
                  s.wal := by
                rw [applyLines_wal, ← hlogged]
                simp
              have hagree := (applyLines_tables fl logged c.db
                (lines.map (Line.stamp w.nowNs))).2
              rw [htables, applyLines_ok_iff] at hagree
              have hfits : (∀ mult' text' lines', (mult = mult' ∧ text = text' ∧ lines = lines') →
                  True → True → s.tables.Fits c.db lines') ↔ s.tables.Fits c.db lines := by
                constructor
                · exact fun h => h mult text lines ⟨rfl, rfl, rfl⟩ trivial trivial
                · rintro h _ _ _ ⟨_, _, rfl⟩ _ _
                  exact h
              rw [hfits, hagree]
              cases hr : logged.applyLines fl c.db (lines.map (Line.stamp w.nowNs)) with
              | mk s' r =>
                  rw [hr] at hwal
                  cases r with
                  | ok n => simp
                  | error e =>
                      have hne : s' ≠ s := fun heq => hwal (by rw [heq])
                      simp [hne]

/-- The first line of this body is an integer, the second a string into the same
column: the write is answered with `BadRequest`, the first line is in the
buffer, the body is in the log, and a restart brings the line back. -/
theorem refused_body_stays :
    let s := openNode noFloats emptyBoot []
    let r := s.write noFloats (sampleCall "m v=1i 5\nm v=\"x\" 6") (clear 7)
    r.2 = .error (.badRequest (.apply (.conflict ⟨"v", .str "x"⟩))) ∧
      r.1.wal ≠ s.wal ∧
      (r.1.buffer ("db", "m")).1.rows = [⟨5, tagSet [], [("v", .int 1)], 0⟩] ∧
      ((openNode noFloats emptyBoot r.1.wal).buffer ("db", "m")).1.rows =
        [⟨5, tagSet [], [("v", .int 1)], 0⟩] := by
  decide +kernel

end TimeLake.Ingest
