import TimeLake.Ingest.Replay
import TimeLake.Library.Run

/-!
Concurrent writes. A call appends its frame to the log under one lock and
applies its body to the buffers under another, so the buffers can take bodies
in another order than the log has them. The reader of a key and the next flush
see the last row in the order of the buffer, a restart the last row in the
order of the log.

A body that overtakes an earlier one of the log does no harm when the two are
`Apart`: in a table they share they have no primary key in common and neither
brings a column the table does not have. Such bodies commute, and a run in
which only such bodies overtake each other leaves the buffers a replay of the
log would build, up to the order of rows with different keys.
-/

namespace TimeLake.Ingest

open TimeLake.Library TimeLake.Rows TimeLake.Catalog TimeLake.Wal

namespace Tables

variable {fl : FloatOps}

/-- What the type rules and the registry see of one table. -/
def shapeAt (t : Tables) (key : TableKey) : Types × List String × Option Schema :=
  (t.types key, t.tagNames key, t.schemas key)

/-- The same shape in a set of tables. -/
def SameOn (S : TableKey → Prop) (t p : Tables) : Prop :=
  ∀ key, S key → t.shapeAt key = p.shapeAt key

theorem SameOn.types {S : TableKey → Prop} {t p : Tables} (h : SameOn S t p) {key : TableKey}
    (hkey : S key) : t.types key = p.types key := congrArg Prod.fst (h key hkey)

theorem SameOn.tagNames {S : TableKey → Prop} {t p : Tables} (h : SameOn S t p) {key : TableKey}
    (hkey : S key) : t.tagNames key = p.tagNames key := congrArg (fun x => x.2.1) (h key hkey)

theorem SameOn.schemas {S : TableKey → Prop} {t p : Tables} (h : SameOn S t p) {key : TableKey}
    (hkey : S key) : t.schemas key = p.schemas key := congrArg (fun x => x.2.2) (h key hkey)

theorem SameOn.append {S : TableKey → Prop} {t p : Tables} (h : SameOn S t p) {key : TableKey}
    (hkey : S key) (ty : Types) (line : ParsedLine) :
    SameOn S (t.append fl key ty line) (p.append fl key ty line) := by
  intro j hj
  by_cases heq : j = key
  · subst heq
    simp [shapeAt, Tables.append, h.tagNames hj, h.schemas hj]
  · simp [shapeAt, Tables.append, heq, h.types hj, h.tagNames hj, h.schemas hj]

/-- Lines on tables of the same shape are admitted alike. -/
theorem SameOn.appendLines (fl : FloatOps) {S : TableKey → Prop} {db : String}
    (est est' : String → Established) {lines : List ParsedLine}
    (hS : ∀ line ∈ lines, S (db, line.table))
    (hest : ∀ line ∈ lines, est line.table = est' line.table) {t p : Tables} (h : SameOn S t p) :
    SameOn S (t.appendLines fl db est lines).1 (p.appendLines fl db est' lines).1 ∧
      (t.appendLines fl db est lines).2 = (p.appendLines fl db est' lines).2 := by
  induction lines generalizing t p with
  | nil => exact ⟨h, rfl⟩
  | cons line rest ih =>
      obtain ⟨hline, hrest⟩ := List.forall_mem_cons.mp hS
      obtain ⟨hestLine, hestRest⟩ := List.forall_mem_cons.mp hest
      simp only [Tables.appendLines, hestLine, h.types hline]
      split
      · exact ⟨h, rfl⟩
      · exact ih hrest hestRest (h.append hline _ line)

theorem appended_congr {db : String} {est est' : String → Established} {lines : List ParsedLine}
    (hest : ∀ line ∈ lines, est line.table = est' line.table) {types types' : String → Types}
    (h : ∀ line ∈ lines, types line.table = types' line.table) :
    appended fl db est types lines = appended fl db est' types' lines := by
  induction lines generalizing types types' with
  | nil => rfl
  | cons line rest ih =>
      obtain ⟨hline, hrest⟩ := List.forall_mem_cons.mp h
      obtain ⟨hestLine, hestRest⟩ := List.forall_mem_cons.mp hest
      simp only [appended, hestLine, hline]
      split
      · rfl
      · next ty _ =>
          rw [ih hestRest]
          intro m hm
          by_cases heq : m.table = line.table
          · simp [heq]
          · simp [heq, hrest m hm]

theorem SameOn.noteColumns {S : TableKey → Prop} {t p : Tables} (h : SameOn S t p) {key : TableKey}
    (hkey : S key) :
    SameOn S (t.noteColumns key).1 (p.noteColumns key).1 ∧
      (t.noteColumns key).2 = (p.noteColumns key).2 := by
  unfold Tables.noteColumns Tables.known Tables.columns
  rw [h.types hkey, h.tagNames hkey, h.schemas hkey]
  split
  · split
    · refine ⟨fun j hj => ?_, rfl⟩
      by_cases heq : j = key
      · subst heq
        simp [shapeAt, h.types hj, h.tagNames hj]
      · simp [shapeAt, heq, h.types hj, h.tagNames hj, h.schemas hj]
    · exact ⟨h, rfl⟩
  · exact ⟨h, rfl⟩

theorem SameOn.noteAll {S : TableKey → Prop} {keys : List TableKey} (hS : ∀ key ∈ keys, S key)
    {t p : Tables} (h : SameOn S t p) : SameOn S (t.noteAll keys).1 (p.noteAll keys).1 := by
  induction keys generalizing t p with
  | nil => exact h
  | cons key rest ih =>
      obtain ⟨hkey, hrest⟩ := List.forall_mem_cons.mp hS
      obtain ⟨hshape, hok⟩ := h.noteColumns hkey
      simp only [Tables.noteAll]
      cases hn : t.noteColumns key with
      | mk t' ok =>
          cases hn' : p.noteColumns key with
          | mk p' ok' =>
              rw [hn, hn'] at hshape hok
              obtain rfl : ok = ok' := hok
              cases ok
              · exact hshape
              · exact ih hrest hshape

end Tables

/-- The tables a body has lines for. -/
def Body.touches (b : Body) (key : TableKey) : Prop := ∃ l ∈ b.lines, key = (b.db, l.table)

namespace Tables

variable {fl : FloatOps}

/-- A body does the same in tables that have the same shape where it writes. -/
theorem SameOn.applyBody {t p : Tables} {b : Body} (h : SameOn b.touches t p) (fl : FloatOps)
    (ts : Int) :
    SameOn b.touches (t.applyBody fl b ts) (p.applyBody fl b ts) ∧
      t.addedBy fl b ts = p.addedBy fl b ts := by
  have hS : ∀ line ∈ b.lines.map (Line.stamp ts), b.touches (b.db, line.table) := by
    intro line hline
    obtain ⟨l, hl, rfl⟩ := List.mem_map.mp hline
    exact ⟨l, hl, rfl⟩
  have hest : ∀ line ∈ b.lines.map (Line.stamp ts),
      t.established (b.db, line.table) = p.established (b.db, line.table) := by
    intro line hline
    unfold Tables.established
    rw [h.schemas (hS line hline)]
  refine ⟨?_, appended_congr hest fun line hline => h.types (hS line hline)⟩
  obtain ⟨hshape, hok⟩ := SameOn.appendLines fl (fun table => t.established (b.db, table))
    (fun table => p.established (b.db, table)) hS hest h
  unfold Tables.applyBody Tables.applyLines
  cases ha : t.appendLines fl b.db (fun table => t.established (b.db, table))
      (b.lines.map (Line.stamp ts)) with
  | mk t' ok =>
      cases ha' : p.appendLines fl b.db (fun table => p.established (b.db, table))
          (b.lines.map (Line.stamp ts)) with
      | mk p' ok' =>
          rw [ha, ha'] at hshape hok
          obtain rfl : ok = ok' := hok
          cases ok
          · exact hshape
          · refine SameOn.noteAll ?_ hshape
            intro key hkey
            obtain ⟨line, hline, rfl⟩ := mem_touched.mp hkey
            exact hS line hline

/-- A line brings nothing new to its table: its tags and fields are columns of
the buffer, and the registry has as many columns as the buffer. -/
def AtHome (t : Tables) (key : TableKey) (l : Line) : Prop :=
  (∀ p ∈ l.tags, p.1 ∈ t.tagNames key) ∧ (∀ p ∈ l.fields, p.1 ∈ (t.types key).map Prod.fst) ∧
    (t.columns key).length ≤ t.known key

instance (t : Tables) (key : TableKey) (l : Line) : Decidable (t.AtHome key l) :=
  inferInstanceAs (Decidable (_ ∧ _ ∧ _))

theorem atHome_congr {t p : Tables} {key : TableKey} (h : t.shapeAt key = p.shapeAt key)
    (l : Line) :
    t.AtHome key l ↔ p.AtHome key l := by
  obtain ⟨htypes, hrest⟩ := Prod.mk.inj h
  obtain ⟨htags, hschemas⟩ := Prod.mk.inj hrest
  simp only [AtHome, Tables.columns, Tables.known, htypes, htags, hschemas]

theorem admitFields_of_known {est : Established} {types ty : Types}
    {fields : List (String × FieldValue)}
    (hknown : ∀ p ∈ fields, p.1 ∈ types.map Prod.fst) (h : admitFields est types fields = some ty) :
    ty = types := by
  induction fields with
  | nil => exact (Option.some.inj h).symm
  | cons p rest ih =>
      obtain ⟨k, v⟩ := p
      obtain ⟨hk, hrest⟩ := List.forall_mem_cons.mp hknown
      obtain ⟨known, hlookup⟩ : ∃ known, types.lookup k = some known := by
        cases hl : types.lookup k with
        | some known => exact ⟨known, rfl⟩
        | none =>
            rw [List.lookup_eq_none_iff] at hl
            obtain ⟨q, hq, heq⟩ := List.mem_map.mp hk
            exact absurd (hl q hq) (by simp [heq])
      simp only [admitFields, resolve, hlookup, Option.getD_some, upsert_self hlookup] at h
      split at h
      · exact ih hrest h
      · cases h

theorem addTags_of_known {names : List String} {tags : List (String × String)}
    (h : ∀ p ∈ tags, p.1 ∈ names) : addTags names tags = names := by
  induction tags with
  | nil => rfl
  | cons p rest ih =>
      obtain ⟨hp, hrest⟩ := List.forall_mem_cons.mp h
      rw [addTags, List.foldl_cons, addName, if_pos hp]
      exact ih hrest

theorem shapeAt_appendLines (fl : FloatOps) {db : String} (est : String → Established)
    {key : TableKey} (lines : List Line) {t : Tables} (ts : Int)
    (h : ∀ l ∈ lines, key = (db, l.table) → t.AtHome key l) :
    (t.appendLines fl db est (lines.map (Line.stamp ts))).1.shapeAt key = t.shapeAt key := by
  induction lines generalizing t with
  | nil => rfl
  | cons l rest ih =>
      obtain ⟨hl, hrest⟩ := List.forall_mem_cons.mp h
      simp only [List.map_cons, Tables.appendLines]
      split
      · rfl
      · next ty hfits =>
          have hstep : (t.append fl (db, (l.stamp ts).table) ty (l.stamp ts)).shapeAt key =
              t.shapeAt key := by
            by_cases hkey : key = (db, l.table)
            · obtain ⟨htags, hfields, _⟩ := hl hkey
              subst hkey
              have hty : ty = t.types (db, l.table) := admitFields_of_known hfields hfits
              simp [shapeAt, Tables.append, Line.stamp, hty, addTags_of_known htags]
            · simp [shapeAt, Tables.append, Line.stamp, hkey]
          refine (ih ?_).trans hstep
          intro m hm heq
          exact (atHome_congr hstep m).mpr (hrest m hm heq)

theorem shapeAt_noteAll {key : TableKey} (keys : List TableKey) {t : Tables}
    (h : key ∈ keys → (t.columns key).length ≤ t.known key) :
    (t.noteAll keys).1.shapeAt key = t.shapeAt key := by
  induction keys generalizing t with
  | nil => rfl
  | cons j rest ih =>
      have hstep : (t.noteColumns j).1.shapeAt key = t.shapeAt key := by
        unfold Tables.noteColumns
        split
        · next hlt =>
            have hne : key ≠ j := by
              rintro rfl
              have := h List.mem_cons_self
              omega
            split
            · simp [shapeAt, hne]
            · rfl
        · rfl
      simp only [Tables.noteAll]
      split
      · next t' heq =>
          rw [heq] at hstep
          exact hstep
      · next t' heq =>
          rw [heq] at hstep
          refine (ih ?_).trans hstep
          intro hmem
          have hle := h (List.mem_cons_of_mem _ hmem)
          simp only [shapeAt, Prod.mk.injEq] at hstep
          simpa only [Tables.columns, Tables.known, hstep] using hle

/-- A table keeps its shape under a body whose lines there bring nothing new;
in particular under a body without lines there. -/
theorem shapeAt_applyBody {t : Tables} {b : Body} {key : TableKey} (ts : Int)
    (h : ∀ l ∈ b.lines, key = (b.db, l.table) → t.AtHome key l) :
    (t.applyBody fl b ts).shapeAt key = t.shapeAt key := by
  have happend := shapeAt_appendLines fl (fun table => t.established (b.db, table)) b.lines ts h
  unfold Tables.applyBody Tables.applyLines
  split
  · next t' heq =>
      rw [heq] at happend
      exact happend
  · next t' heq =>
      rw [heq] at happend
      refine (shapeAt_noteAll _ ?_).trans happend
      intro hmem
      obtain ⟨line, hline, hkey⟩ := mem_touched.mp hmem
      obtain ⟨l, hl, rfl⟩ := List.mem_map.mp hline
      have hle := (h l hl hkey).2.2
      simp only [shapeAt, Prod.mk.injEq] at happend
      simpa only [Tables.columns, Tables.known, happend] using hle

end Tables

/-- The primary key of a line that has a timestamp. -/
def Line.key (l : Line) : RowKey := (l.timestamp.getD 0, tagSet l.tags)

/-- Two bodies that may be applied in either order: where both have lines, no
line of one has the primary key of a line of the other, and all bring nothing
new to the table. -/
def Tables.Apart (t : Tables) (b c : Body) : Prop :=
  ∀ l ∈ b.lines, ∀ m ∈ c.lines, b.db = c.db → l.table = m.table →
    l.key ≠ m.key ∧ t.AtHome (b.db, l.table) l ∧ t.AtHome (b.db, l.table) m

instance (t : Tables) (b c : Body) : Decidable (t.Apart b c) :=
  inferInstanceAs (Decidable (∀ l ∈ b.lines, ∀ m ∈ c.lines, _))

namespace Tables

variable {fl : FloatOps}

/-- The same shapes, and the same rows for each primary key in the same order. -/
structure Alike (t p : Tables) : Prop where
  shape : ∀ key, t.shapeAt key = p.shapeAt key
  rows : ∀ key (k : RowKey), (t.rows key).filter (fun r => r.key = k) =
    (p.rows key).filter fun r => r.key = k

theorem Alike.trans {t p q : Tables} (h : Alike t p) (h' : Alike p q) : Alike t q :=
  ⟨fun key => (h.shape key).trans (h'.shape key), fun key k => (h.rows key k).trans (h'.rows key k)⟩

theorem Alike.applyBody {t p : Tables} (h : Alike t p) (fl : FloatOps) (b : Body) :
    Alike (t.applyBody fl b 0) (p.applyBody fl b 0) := by
  obtain ⟨hshape, hadded⟩ := SameOn.applyBody (b := b) (fun key _ => h.shape key) fl 0
  refine ⟨fun key => ?_, fun key k => ?_⟩
  · by_cases htouch : b.touches key
    · exact hshape key htouch
    · have hout : ∀ q : Tables, (q.applyBody fl b 0).shapeAt key = q.shapeAt key := fun q =>
        shapeAt_applyBody 0 fun l hl heq => absurd ⟨l, hl, heq⟩ htouch
      rw [hout, hout, h.shape]
  · rw [applyBody_rows, applyBody_rows, List.filter_append, List.filter_append, h.rows, hadded]

theorem Alike.replayed {t p : Tables} (h : Alike t p) (bodies : List Body) :
    Alike (t.replayed fl bodies) (p.replayed fl bodies) := by
  induction bodies generalizing t p with
  | nil => exact h
  | cons b rest ih => exact ih (h.applyBody fl b)

theorem mem_appended {db : String} {est : String → Established} {types : String → Types}
    {lines : List Line} {key : TableKey} {r : Row}
    (h : (key, r) ∈ appended fl db est types (lines.map (Line.stamp 0))) :
    ∃ l ∈ lines, key = (db, l.table) ∧ r.key = l.key := by
  induction lines generalizing types with
  | nil => cases h
  | cons l rest ih =>
      simp only [List.map_cons, appended] at h
      split at h
      · cases h
      · rcases List.mem_cons.mp h with heq | h
        · obtain ⟨rfl, rfl⟩ := Prod.mk.inj heq
          exact ⟨l, List.mem_cons_self, rfl, rfl⟩
        · obtain ⟨m, hm, hkey⟩ := ih h
          exact ⟨m, List.mem_cons_of_mem _ hm, hkey⟩

theorem filter_valuesAt_eq_nil {t : Tables} {b : Body} {key : TableKey} {k : RowKey}
    (h : ∀ l ∈ b.lines, key = (b.db, l.table) → l.key ≠ k) :
    (valuesAt (t.addedBy fl b 0) key).filter (fun r => r.key = k) = [] := by
  rw [List.filter_eq_nil_iff]
  intro r hr hk
  obtain ⟨⟨j, r'⟩, hmem, rfl⟩ := List.mem_map.mp hr
  obtain ⟨hadded, hj⟩ := List.mem_filter.mp hmem
  obtain rfl : j = key := by simpa using hj
  obtain ⟨l, hl, hkey, hrow⟩ := mem_appended hadded
  exact h l hl hkey (hrow.symm.trans (by simpa using hk))

section Apart

variable {t : Tables} {b c : Body}

theorem Apart.symm (h : t.Apart b c) : t.Apart c b := by
  intro m hm l hl hdb htable
  obtain ⟨hkey, hhl, hhm⟩ := h l hl m hm hdb.symm htable.symm
  rw [← htable, hdb.symm] at hhl hhm
  exact ⟨hkey.symm, hhm, hhl⟩

/-- Each of the two leaves the tables of the other in shape. -/
theorem Apart.keeps (h : t.Apart b c) {key : TableKey} (htouch : b.touches key) :
    (t.applyBody fl c 0).shapeAt key = t.shapeAt key := by
  obtain ⟨l, hl, rfl⟩ := htouch
  refine shapeAt_applyBody 0 ?_
  intro m hm heq
  obtain ⟨hdb, htable⟩ := Prod.mk.inj heq
  exact (h l hl m hm hdb htable).2.2

theorem Apart.congr {p : Tables}
    (hshape : ∀ key, b.touches key → c.touches key → t.shapeAt key = p.shapeAt key)
    (h : t.Apart b c) : p.Apart b c := by
  intro l hl m hm hdb htable
  obtain ⟨hkey, hhl, hhm⟩ := h l hl m hm hdb htable
  have hsame := hshape (b.db, l.table) ⟨l, hl, rfl⟩ ⟨m, hm, by rw [hdb, htable]⟩
  exact ⟨hkey, (atHome_congr hsame l).mp hhl, (atHome_congr hsame m).mp hhm⟩

/-- Bodies that are apart commute. -/
theorem Apart.commute (h : t.Apart b c) :
    Alike ((t.applyBody fl b 0).applyBody fl c 0) ((t.applyBody fl c 0).applyBody fl b 0) := by
  have hb : SameOn b.touches (t.applyBody fl c 0) t := fun key htouch => h.keeps htouch
  have hc : SameOn c.touches (t.applyBody fl b 0) t := fun key htouch => h.symm.keeps htouch
  obtain ⟨hbShape, hbAdded⟩ := hb.applyBody fl 0
  obtain ⟨hcShape, hcAdded⟩ := hc.applyBody fl 0
  have hout : ∀ (q : Tables) (d : Body) (key : TableKey), ¬ d.touches key →
      (q.applyBody fl d 0).shapeAt key = q.shapeAt key := fun q d key htouch =>
    shapeAt_applyBody 0 fun l hl heq => absurd ⟨l, hl, heq⟩ htouch
  refine ⟨fun key => ?_, fun key k => ?_⟩
  · by_cases htb : b.touches key <;> by_cases htc : c.touches key
    · rw [hcShape key htc, hbShape key htb, h.keeps htb, h.symm.keeps htc]
    · rw [hout _ c key htc, hbShape key htb]
    · rw [hcShape key htc, hout _ b key htb]
    · rw [hout _ c key htc, hout _ b key htb, hout _ b key htb, hout _ c key htc]
  · rw [applyBody_rows, applyBody_rows, applyBody_rows, applyBody_rows, hcAdded, hbAdded]
    simp only [List.filter_append, List.append_assoc]
    congr 1
    by_cases hk : ∃ l ∈ b.lines, key = (b.db, l.table) ∧ l.key = k
    · obtain ⟨l, hl, rfl, rfl⟩ := hk
      have hnone : ∀ m ∈ c.lines, (b.db, l.table) = (c.db, m.table) → m.key ≠ l.key := by
        intro m hm heq
        obtain ⟨hdb, htable⟩ := Prod.mk.inj heq
        exact (h l hl m hm hdb htable).1.symm
      rw [filter_valuesAt_eq_nil hnone, List.append_nil, List.nil_append]
    · have hnone : ∀ l ∈ b.lines, key = (b.db, l.table) → l.key ≠ k :=
        fun l hl hkey heq => hk ⟨l, hl, hkey, heq⟩
      rw [filter_valuesAt_eq_nil hnone, List.append_nil, List.nil_append]

end Apart

section Overtaken

variable {p : Tables} {b : Body} {cs : List Body}

/-- The tables of a body keep their shape under bodies it is apart from. -/
theorem shapeAt_replayed (h : ∀ c ∈ cs, p.Apart b c) {key : TableKey} (htouch : b.touches key) :
    (p.replayed fl cs).shapeAt key = p.shapeAt key := by
  induction cs generalizing p with
  | nil => rfl
  | cons c rest ih =>
      obtain ⟨hc, hrest⟩ := List.forall_mem_cons.mp h
      refine (ih (p := p.applyBody fl c 0) fun d hd => ?_).trans (hc.keeps htouch)
      exact (hrest d hd).congr fun j hj _ => (hc.keeps hj).symm

/-- A body may be moved behind bodies it is apart from. -/
theorem alike_overtaken (fl : FloatOps) (h : ∀ c ∈ cs, p.Apart b c) :
    Alike ((p.applyBody fl b 0).replayed fl cs) ((p.replayed fl cs).applyBody fl b 0) := by
  induction cs generalizing p with
  | nil => exact ⟨fun _ => rfl, fun _ _ => rfl⟩
  | cons c rest ih =>
      obtain ⟨hc, hrest⟩ := List.forall_mem_cons.mp h
      refine (hc.commute.replayed rest).trans (ih (p := p.applyBody fl c 0) fun d hd => ?_)
      exact (hrest d hd).congr fun j hj _ => (hc.keeps hj).symm

/-- Bodies that are apart behind others stay so when a body is put in front:
where it meets the second one it brings nothing new. -/
theorem Apart.behind {a c : Body} (hbc : p.Apart b c) (hcs : ∀ d ∈ cs, p.Apart b d)
    (h : (p.replayed fl cs).Apart a c) : ((p.applyBody fl b 0).replayed fl cs).Apart a c := by
  refine h.congr fun key _ htouch => ?_
  refine Eq.trans ?_ ((alike_overtaken fl hcs).shape key).symm
  symm
  refine shapeAt_applyBody 0 ?_
  rintro l hl rfl
  obtain ⟨m, hm, hkey⟩ := htouch
  obtain ⟨hdb, htable⟩ := Prod.mk.inj hkey
  have hhome := (hbc l hl m hm hdb htable).2.1
  exact (atHome_congr (shapeAt_replayed hcs ⟨l, hl, rfl⟩) l).mpr hhome

end Overtaken

end Tables

section Order

variable {fl : FloatOps}

/-- The bodies that have been applied, in the order of the log. -/
def appliedOf (bodies : List (Body × Bool)) : List Body := (bodies.filter Prod.snd).map Prod.fst

theorem mem_appliedOf {bodies : List (Body × Bool)} {b : Body} :
    b ∈ appliedOf bodies ↔ (b, true) ∈ bodies := by
  simp [appliedOf]

/-- The buffers against the log: replaying the applied bodies in log order
gives the same, and a body still to be applied is apart from every applied one
behind it. -/
structure InStep (fl : FloatOps) (start t : Tables) (bodies : List (Body × Bool)) : Prop where
  alike : Tables.Alike t (start.replayed fl (appliedOf bodies))
  apart : ∀ before b after, bodies = before ++ (b, false) :: after → ∀ c, (c, true) ∈ after →
    (start.replayed fl (appliedOf before)).Apart b c

theorem replayed_append (t : Tables) (xs ys : List Body) :
    t.replayed fl (xs ++ ys) = (t.replayed fl xs).replayed fl ys := List.foldl_append

theorem InStep.push {start t : Tables} {bodies : List (Body × Bool)}
    (h : InStep fl start t bodies) (b : Body) : InStep fl start t (bodies ++ [(b, false)]) where
  alike := by simpa [appliedOf] using h.alike
  apart := by
    intro before d after heq c hc
    rcases List.eq_nil_or_concat after with rfl | ⟨after', last, rfl⟩
    · cases hc
    · rw [List.concat_eq_append, ← List.cons_append, ← List.append_assoc] at heq
      obtain ⟨hbodies, hlast⟩ := List.append_inj' heq rfl
      obtain rfl : (b, false) = last := by simpa using hlast
      have hmem : (c, true) ∈ after' := by simpa using hc
      exact h.apart before d after' hbodies c hmem

variable {start t : Tables} {before after : List (Body × Bool)} {b : Body}

theorem InStep.behind (h : InStep fl start t (before ++ (b, false) :: after)) :
    ∀ c ∈ appliedOf after, (start.replayed fl (appliedOf before)).Apart b c := by
  intro c hc
  exact h.apart before b after rfl c (mem_appliedOf.mp hc)

/-- A body that is applied late, among the bodies of the log: the applied ones
behind it stay where they are. -/
theorem InStep.alike_apply (h : InStep fl start t (before ++ (b, false) :: after)) :
    Tables.Alike (t.applyBody fl b 0)
      (start.replayed fl (appliedOf (before ++ (b, true) :: after))) := by
  have hrest : appliedOf (before ++ (b, false) :: after) = appliedOf before ++ appliedOf after := by
    simp [appliedOf]
  have hall : appliedOf (before ++ (b, true) :: after) =
      appliedOf before ++ b :: appliedOf after := by
    simp [appliedOf]
  have hmoved := h.alike.applyBody fl b
  rw [hrest, replayed_append] at hmoved
  rw [hall, replayed_append]
  have hback := Tables.alike_overtaken fl h.behind
  exact hmoved.trans ⟨fun key => (hback.shape key).symm, fun key k => (hback.rows key k).symm⟩

/-- The shape a waiting body finds in its tables is the one the log before it
gives. -/
theorem InStep.shape_waiting (h : InStep fl start t (before ++ (b, false) :: after))
    {key : TableKey} (htouch : b.touches key) :
    t.shapeAt key = (start.replayed fl (appliedOf before)).shapeAt key := by
  have hrest : appliedOf (before ++ (b, false) :: after) = appliedOf before ++ appliedOf after := by
    simp [appliedOf]
  rw [h.alike.shape key, hrest, replayed_append]
  exact Tables.shapeAt_replayed h.behind htouch

theorem InStep.apply (h : InStep fl start t (before ++ (b, false) :: after))
    (hok : ∀ a, (a, false) ∈ before → t.Apart a b) :
    InStep fl start (t.applyBody fl b 0) (before ++ (b, true) :: after) where
  alike := h.alike_apply
  apart := by
    intro pre a post heq c hc
    rcases List.append_eq_append_iff.mp heq.symm with ⟨mid, hbefore, hpost⟩ | ⟨mid, hpre, hafter⟩
    · cases mid with
      | nil => simp at hpost
      | cons q mid =>
          obtain ⟨rfl, rfl⟩ : (a, false) = q ∧ post = mid ++ (b, true) :: after := by
            simpa using hpost
          subst hbefore
          have hsplit : pre ++ (a, false) :: mid ++ (b, false) :: after =
              pre ++ (a, false) :: (mid ++ (b, false) :: after) := by simp
          rcases List.mem_append.mp hc with hc | hc
          · exact h.apart pre a _ hsplit c (by simp [hc])
          · rcases List.mem_cons.mp hc with hc | hc
            · obtain rfl : c = b := by simpa using hc
              rw [hsplit] at h
              exact (hok a (by simp)).congr fun key htouch _ => h.shape_waiting htouch
            · exact h.apart pre a _ hsplit c (by simp [hc])
    · cases mid with
      | nil => simp at hafter
      | cons q mid =>
          obtain ⟨rfl, rfl⟩ : (b, true) = q ∧ after = mid ++ (a, false) :: post := by
            simpa using hafter
          subst hpre
          have hold := h.apart (before ++ (b, false) :: mid) a post (by simp) c hc
          have hwithout : appliedOf (before ++ (b, false) :: mid) =
              appliedOf before ++ appliedOf mid := by simp [appliedOf]
          have hwith : appliedOf (before ++ (b, true) :: mid) =
              appliedOf before ++ b :: appliedOf mid := by simp [appliedOf]
          rw [hwithout, replayed_append] at hold
          rw [hwith, replayed_append]
          refine Tables.Apart.behind (h.apart before b _ rfl c (by simp [hc])) ?_ hold
          intro d hd
          exact h.apart before b _ rfl d (by simp [mem_appliedOf.mp hd])

/-- The bodies whose calls have not come to the buffers yet. -/
def waitingOf (bodies : List (Body × Bool)) : List Body :=
  (bodies.filter fun p => !p.2).map Prod.fst

/-- A replay of the whole log, against one of the applied bodies followed by
the waiting ones. -/
theorem alike_replayed_all (bodies : List (Body × Bool)) {start : Tables}
    (h : ∀ before b after, bodies = before ++ (b, false) :: after → ∀ c, (c, true) ∈ after →
      (start.replayed fl (appliedOf before)).Apart b c) :
    Tables.Alike (start.replayed fl (bodies.map Prod.fst))
      ((start.replayed fl (appliedOf bodies)).replayed fl (waitingOf bodies)) := by
  induction bodies generalizing start with
  | nil => exact ⟨fun _ => rfl, fun _ _ => rfl⟩
  | cons p rest ih =>
      obtain ⟨b, applied⟩ := p
      cases applied with
      | true =>
          refine @ih (start.applyBody fl b 0) ?_
          intro before d after hrest c hc
          exact h ((b, true) :: before) d after (by rw [hrest]; rfl) c hc
      | false =>
          have hhead : ∀ c ∈ appliedOf rest, start.Apart b c := fun c hc =>
            h [] b rest rfl c (mem_appliedOf.mp hc)
          have htail := @ih (start.applyBody fl b 0) (by
            intro before d after hrest c hc
            subst hrest
            refine Tables.Apart.behind (hhead c (mem_appliedOf.mpr (by simp [hc]))) ?_
              (h ((b, false) :: before) d after rfl c hc)
            intro e he
            exact hhead e (mem_appliedOf.mpr (by simp [mem_appliedOf.mp he])))
          refine htail.trans ?_
          exact (Tables.alike_overtaken fl hhead).replayed (waitingOf rest)

end Order

section Machine

/-- A call between its check and its answer: what the thread holds, and whether
it has come to the buffers. -/
structure InFlight where
  call : Call
  mult : Int64
  text : String
  applied : Bool

/-- The node, and the calls in the order of their frames in the log. -/
structure Racing where
  node : Node
  calls : List InFlight

inductive RaceAct where
  | append (c : Call)
  | apply (i : Nat) (nowNs : Int)
  deriving DecidableEq

def Node.logged (s : Node) (f : Frame) : Node := { s with wal := s.wal ++ [f] }

/-- The two critical sections of `write_lp_internal`. A call that fails its
check never reaches the first. -/
def raceStep (fl : FloatOps) (s : Racing) : RaceAct → Option Racing
  | .append c =>
      match s.node.check fl c with
      | .error _ => none
      | .ok (mult, text, _) =>
          some ⟨s.node.logged ⟨c.db, mult, c.body⟩, s.calls ++ [⟨c, mult, text, false⟩]⟩
  | .apply i nowNs =>
      match s.calls[i]? with
      | none => none
      | some p =>
          if p.applied then none
          else some ⟨(s.node.apply fl p.call.db p.text p.mult nowNs).1,
            s.calls.set i { p with applied := true }⟩

/-- A call that nothing comes between takes the two steps one after the other. -/
theorem write_raceSteps (fl : FloatOps) (s : Node) (c : Call) (nowNs : Int)
    (h : (s.check fl c).isOk) :
    ∃ r, raceStep fl ⟨s, []⟩ (.append c) = some r ∧
      (raceStep fl r (.apply 0 nowNs)).map Racing.node = some (s.write fl c (clear nowNs)).1 := by
  cases hcheck : s.check fl c with
  | error e =>
      rw [hcheck] at h
      cases h
  | ok checked =>
      obtain ⟨mult, text, lines⟩ := checked
      refine ⟨_, by simp only [raceStep, hcheck]; rfl, ?_⟩
      simp only [raceStep, List.nil_append, List.getElem?_cons_zero, Bool.false_eq_true, if_false,
        Option.map_some, Node.write, hcheck, clear, Node.logged]
      split <;> next heq => simp [heq]

/-- A call as a body; the clock is not used, since its lines have timestamps. -/
def Call.timedBody (fl : FloatOps) (c : Call) : Body := ⟨c.db, c.lines fl, 0⟩

/-- Every line of a call carries a timestamp; a call that reaches the buffers
is apart from every call before it in the log that has not. -/
def raceOk (fl : FloatOps) (s : Racing) : RaceAct → Prop
  | .append c => ∀ l ∈ c.lines fl, l.timestamp.isSome
  | .apply i _ =>
      ∀ b ∈ s.calls[i]?, ∀ a ∈ s.calls.take i, a.applied = false →
        s.node.tables.Apart (a.call.timedBody fl) (b.call.timedBody fl)

instance (fl : FloatOps) (s : Racing) : (a : RaceAct) → Decidable (raceOk fl s a)
  | .append c => inferInstanceAs (Decidable (∀ l ∈ c.lines fl, _))
  | .apply i _ => inferInstanceAs (Decidable (∀ b ∈ s.calls[i]?, ∀ a ∈ s.calls.take i, _))

end Machine

section Agreement

variable {fl : FloatOps} {boot : Boot} {earlier : List Frame}

/-- What a thread holds of its call after the check. -/
structure InFlight.Held (fl : FloatOps) (p : InFlight) : Prop where
  frame : p.call.frame = ⟨p.call.db, p.mult, p.call.body⟩
  text : fromUtf8 p.call.body = some p.text
  lines : readLines fl p.text p.mult.toInt = .ok (p.call.lines fl)
  timed : ∀ l ∈ p.call.lines fl, l.timestamp.isSome

theorem held_of_check {s : Node} {c : Call} {mult : Int64} {text : String} {lines : List Line}
    (h : s.check fl c = .ok (mult, text, lines)) (htimed : ∀ l ∈ c.lines fl, l.timestamp.isSome)
    (applied : Bool) : InFlight.Held fl ⟨c, mult, text, applied⟩ := by
  obtain ⟨htext, hread⟩ := check_readLines h
  have hmult := check_mult h
  refine ⟨?_, htext, ?_, htimed⟩
  · simp [Call.frame, hmult, Except.toOption]
  · simp [Call.lines, hmult, htext, hread, Except.toOption]

theorem apply_wal (s : Node) (db text : String) (mult : Int64) (ts : Int) :
    (s.apply fl db text mult ts).1.wal = s.wal := by
  unfold Node.apply
  split
  · rfl
  · exact applyLines_wal fl s db _

theorem apply_tables {s : Node} {db text : String} {mult : Int64} {lines : List Line}
    (h : readLines fl text mult.toInt = .ok lines) (ts : Int) :
    (s.apply fl db text mult ts).1.tables = s.tables.applyBody fl ⟨db, lines, 0⟩ ts := by
  rw [apply_of_readLines h, (applyLines_tables fl s db _).1, Tables.applyBody]

/-- Where every line has a timestamp the default is not used. -/
theorem applyBody_timed {t : Tables} {b : Body} (h : ∀ l ∈ b.lines, l.timestamp.isSome)
    (ts : Int) : t.applyBody fl b ts = t.applyBody fl b 0 := by
  have hstamp : b.lines.map (Line.stamp ts) = b.lines.map (Line.stamp 0) := by
    apply List.map_congr_left
    intro l hl
    obtain ⟨time, htime⟩ := Option.isSome_iff_exists.mp (h l hl)
    simp [Line.stamp, htime]
  rw [Tables.applyBody, Tables.applyBody, hstamp]

def Racing.bodies (fl : FloatOps) (s : Racing) : List (Body × Bool) :=
  s.calls.map fun p => (p.call.timedBody fl, p.applied)

structure Racing.Inv (fl : FloatOps) (boot : Boot) (earlier : List Frame) (s : Racing) : Prop where
  log : s.node.wal = earlier ++ s.calls.map fun p => p.call.frame
  held : ∀ p ∈ s.calls, p.Held fl
  inStep : InStep fl (openNode fl boot earlier).tables s.node.tables (s.bodies fl)

theorem Racing.Inv.start : Racing.Inv fl boot earlier ⟨openNode fl boot earlier, []⟩ where
  log := by
    rw [List.map_nil, List.append_nil]
    exact recover_wal _ earlier
  held := by simp
  inStep := ⟨⟨fun _ => rfl, fun _ _ => rfl⟩, by simp [Racing.bodies]⟩

theorem Racing.Inv.step {s t : Racing} {a : RaceAct} (h : s.Inv fl boot earlier)
    (hok : raceOk fl s a) (hstep : raceStep fl s a = some t) : t.Inv fl boot earlier := by
  cases a with
  | append c =>
      simp only [raceStep] at hstep
      split at hstep
      · cases hstep
      · next mult text lines hcheck =>
          obtain rfl := Option.some.inj hstep
          have hheld := held_of_check hcheck hok false
          refine ⟨?_, ?_, ?_⟩
          · simp [Node.logged, h.log, hheld.frame]
          · intro p hp
            rcases List.mem_append.mp hp with hp | hp
            · exact h.held p hp
            · obtain rfl := List.mem_singleton.mp hp
              exact hheld
          · have hpush := h.inStep.push (c.timedBody fl)
            rw [Racing.bodies, List.map_append]
            exact hpush
  | apply i nowNs =>
      simp only [raceStep] at hstep
      split at hstep
      · cases hstep
      · next p hp =>
          split at hstep
          · cases hstep
          · next hwaiting =>
              obtain rfl := Option.some.inj hstep
              obtain ⟨hi, hget⟩ := List.getElem?_eq_some_iff.mp hp
              obtain ⟨before, after, hcalls, hlen, hset⟩ :=
                @List.exists_of_set _ i { p with applied := true } s.calls hi
              rw [hget] at hcalls
              have hheld : p.Held fl := h.held p (by simp [hcalls])
              have hbodies : s.bodies fl = before.map (fun q => (q.call.timedBody fl, q.applied)) ++
                  (p.call.timedBody fl, false) ::
                    after.map fun q => (q.call.timedBody fl, q.applied) := by
                simp [Racing.bodies, hcalls, hwaiting]
              have hinStep := h.inStep
              rw [hbodies] at hinStep
              refine ⟨?_, ?_, ?_⟩
              · rw [apply_wal, h.log, hset, hcalls]
                simp
              · intro q hq
                rw [hset] at hq
                rcases List.mem_append.mp hq with hq | hq
                · exact h.held q (by simp [hcalls, hq])
                · rcases List.mem_cons.mp hq with rfl | hq
                  · exact ⟨hheld.frame, hheld.text, hheld.lines, hheld.timed⟩
                  · exact h.held q (by simp [hcalls, hq])
              · have happlied := hinStep.apply (by
                  intro a ha
                  obtain ⟨q, hq, heq⟩ := List.mem_map.mp ha
                  obtain ⟨rfl, hq'⟩ := Prod.mk.inj heq
                  exact hok p hp q (by rw [hcalls, ← hlen, List.take_left]; exact hq) hq')
                have htimed : ∀ l ∈ (p.call.timedBody fl).lines, l.timestamp.isSome := hheld.timed
                rw [← applyBody_timed htimed nowNs] at happlied
                rw [apply_tables hheld.lines, Racing.bodies, hset, List.map_append, List.map_cons]
                exact happlied

/-- A restart replays the whole log. -/
theorem Racing.Inv.restart {s : Racing} (h : s.Inv fl boot earlier) :
    (openNode fl boot s.node.wal).tables =
      (openNode fl boot earlier).tables.replayed fl ((s.bodies fl).map Prod.fst) := by
  have hframes : ∀ (calls : List InFlight) (n : Node), (∀ p ∈ calls, p.Held fl) →
      (n.recover fl (calls.map fun p => p.call.frame)).tables =
        n.tables.replayed fl (calls.map fun p => p.call.timedBody fl) := by
    intro calls
    induction calls with
    | nil => exact fun _ _ => rfl
    | cons p rest ih =>
        intro n hheld
        obtain ⟨hp, hrest⟩ := List.forall_mem_cons.mp hheld
        rw [List.map_cons, List.map_cons, hp.frame]
        refine (ih _ hrest).trans ?_
        rw [replayFrame_tables hp.text hp.lines 0 n]
        rfl
  rw [h.log, openNode_append, hframes _ _ h.held, Racing.bodies, List.map_map]
  rfl

/-- No call between its append and its apply writes this primary key. -/
def Racing.Settled (fl : FloatOps) (s : Racing) (key : TableKey) (k : RowKey) : Prop :=
  ∀ p ∈ s.calls, p.applied = false → ∀ l ∈ p.call.lines fl, key = (p.call.db, l.table) → l.key ≠ k

theorem filter_replayed {cs : List Body} {t : Tables} {key : TableKey} {k : RowKey}
    (h : ∀ b ∈ cs, ∀ l ∈ b.lines, key = (b.db, l.table) → l.key ≠ k) :
    ((t.replayed fl cs).rows key).filter (fun r => r.key = k) =
      (t.rows key).filter fun r => r.key = k := by
  induction cs generalizing t with
  | nil => rfl
  | cons b rest ih =>
      obtain ⟨hb, hrest⟩ := List.forall_mem_cons.mp h
      refine (@ih (t.applyBody fl b 0) hrest).trans ?_
      rw [Tables.applyBody_rows, List.filter_append, Tables.filter_valuesAt_eq_nil hb,
        List.append_nil]

/-- The rows a restart finds for a primary key nobody is writing are those of
the buffer. -/
theorem Racing.Inv.rows {s : Racing} (h : s.Inv fl boot earlier) {key : TableKey} {k : RowKey}
    (hk : s.Settled fl key k) :
    ((openNode fl boot s.node.wal).tables.rows key).filter (fun r => r.key = k) =
      (s.node.tables.rows key).filter fun r => r.key = k := by
  have hwaiting : ∀ b ∈ waitingOf (s.bodies fl), ∀ l ∈ b.lines,
      key = (b.db, l.table) → l.key ≠ k := by
    intro b hb
    obtain ⟨q, hq, rfl⟩ := List.mem_map.mp hb
    obtain ⟨hmem, hflag⟩ := List.mem_filter.mp hq
    obtain ⟨p, hp, rfl⟩ := List.mem_map.mp hmem
    exact hk p hp (by simpa using hflag)
  rw [h.restart, (alike_replayed_all (s.bodies fl) h.inStep.apart).rows, filter_replayed hwaiting,
    h.inStep.alike.rows]

theorem TableBuffer.covers_rows (b : TableBuffer) :
    ∀ r ∈ b.rows, Clustering.covers ⟨none, b.tagNames⟩ r := by
  intro r hr
  obtain ⟨i, _, rfl⟩ := List.mem_map.mp hr
  refine List.all_eq_true.mpr ?_
  rintro ⟨name, value⟩ hp
  have hget := TagSet.get_eq_some.mpr hp
  rw [rowAt, TagSet.get, tagSet, lookup_collect] at hget
  have hpair := List.mem_reverse.mp (mem_of_lookup hget)
  obtain ⟨col, hcol, hcell⟩ := List.mem_filterMap.mp hpair
  obtain ⟨_, _, heq⟩ := Option.map_eq_some_iff.mp hcell
  have hname : name ∈ b.tagNames := List.mem_map.mpr ⟨col, hcol, (Prod.mk.inj heq).1⟩
  simpa using hname

def sampleKey : RowKey := (5, tagSet [("a", "b")])

/-- Two calls that share a table and come to the buffers in the other order; the
table has their columns already. -/
def crossed (first second : String) : List RaceAct :=
  [.append (sampleCall "m,a=c v=0i 1"), .apply 0 6, .append (sampleCall first),
    .append (sampleCall second), .apply 2 7, .apply 1 8]

end Agreement

end TimeLake.Ingest
