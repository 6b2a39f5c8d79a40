import TimeLake.LastCache.SeriesKeys
import TimeLake.LastCache.Truth

/-!
What the last-value cache is for, with the series themselves for its keys, and
the cache of the code as that cache with every key written out as its text. The
two stay together for as long as the names that come in are plain.
-/

namespace TimeLake.LastCache

open TimeLake.Library TimeLake.Rows TimeLake.Ingest
open TimeLake.Catalog (TableKey)

section Calls

inductive CacheCall where
  | enable (db table : String)
  | disable (db table : String)
  | observe (db table : String) (tags : List (String × String)) (timestampNs : Int)
      (fields : List (String × FieldValue))

def CacheCall.apply (c : LastValueCache) : CacheCall → LastValueCache
  | .enable db table => c.enable db table
  | .disable db table => c.disable db table
  | .observe db table tags timestampNs fields => c.observe db table tags timestampNs fields

/-- `Inner::map_enabled`: the enabled keys split at their first zero character. -/
def mapEnabled (c : LastValueCache) : List (String × String) :=
  c.enabled.filterMap fun k =>
    (cutAt '\x00' k.toList).map fun p => (String.ofList p.1, String.ofList p.2)

/-- `enabled_tables`. -/
def enabledTables (c : LastValueCache) : List (String × String) := sortTags (mapEnabled c)

/-- Plain names for a table, and plain tags for a row that the cache takes. -/
def plainCall (c : LastValueCache) : CacheCall → Prop
  | .enable db table | .disable db table => PlainName db ∧ PlainName table
  | .observe db table tags _ _ =>
      c.enabled.contains (tt db table) = true → ∀ p ∈ tags, PlainTag p

instance (c : LastValueCache) : DecidablePred (plainCall c)
  | .enable _ _ => inferInstanceAs (Decidable (_ ∧ _))
  | .disable _ _ => inferInstanceAs (Decidable (_ ∧ _))
  | .observe _ _ _ _ _ => inferInstanceAs (Decidable (_ → ∀ p ∈ _, _))

/-- A table that was enabled and not disabled since. -/
def EnabledSince (calls : List CacheCall) (key : TableKey) : Prop :=
  ∃ before after, calls = before ++ .enable key.1 key.2 :: after ∧
    .disable key.1 key.2 ∉ after

end Calls

def Series.tableKey (s : Series) : TableKey := (s.db, s.table)

/-- The cache, with the series themselves for its keys. -/
structure KeyedCache where
  cap : Nat
  enabled : List TableKey
  entries : List (Series × LastValue)

namespace KeyedCache

def new (cap : Nat) : KeyedCache := ⟨max cap 1, [], []⟩

def enable (c : KeyedCache) (key : TableKey) : KeyedCache :=
  { c with enabled := if c.enabled.contains key then c.enabled else c.enabled ++ [key] }

def disable (c : KeyedCache) (key : TableKey) : KeyedCache :=
  { c with
    enabled := c.enabled.filter (· ≠ key)
    entries := c.entries.filter fun e => e.1.tableKey ≠ key }

def observe (c : KeyedCache) (s : Series) (timestampNs : Int)
    (fields : List (String × FieldValue)) : KeyedCache :=
  if c.enabled.contains s.tableKey then
    match c.entries.lookup s with
    | some e =>
        let e := if e.timestampNs < timestampNs then
          { e with timestampNs := timestampNs, fields := fields } else e
        { c with entries := (s, e) :: c.entries.filter fun p => p.1 ≠ s }
    | none => { c with entries := ((s, ⟨s.tags, timestampNs, fields⟩) :: c.entries).take c.cap }
  else c

/-- The entries of one table. -/
def snapshot (c : KeyedCache) (key : TableKey) : List LastValue :=
  (c.entries.filter fun e => e.1.tableKey = key).map Prod.snd

def apply (c : KeyedCache) : CacheCall → KeyedCache
  | .enable db table => c.enable (db, table)
  | .disable db table => c.disable (db, table)
  | .observe db table tags timestampNs fields =>
      c.observe ⟨db, table, sortTags tags⟩ timestampNs fields

def run (cap : Nat) (calls : List CacheCall) : KeyedCache := calls.foldl apply (new cap)

/-- Every key written out as its text. -/
def flatten (c : KeyedCache) : LastValueCache where
  cap := c.cap
  enabled := c.enabled.map fun key => tt key.1 key.2
  entries := c.entries.map fun e => (e.1.key, e.2)

structure Plain (c : KeyedCache) : Prop where
  enabled : ∀ key ∈ c.enabled, PlainName key.1 ∧ PlainName key.2
  entries : ∀ e ∈ c.entries, e.1.Plain

end KeyedCache

section Refine

variable {c : KeyedCache}

/-- The text of a plain table is that of no other one, plain or not. -/
theorem tt_inj {key other : TableKey} (h : PlainName key.1 ∧ PlainName key.2)
    (heq : tt other.1 other.2 = tt key.1 key.2) : other = key := by
  have hdb : '\x00' ∉ key.1.toList := h.1
  have htable : '\x00' ∉ key.2.toList := h.2
  exact key_of_tt (by simpa using hdb) (by simpa using htable) heq

theorem KeyedCache.Plain.contains (h : c.Plain) (key : TableKey) :
    c.flatten.enabled.contains (tt key.1 key.2) = c.enabled.contains key := by
  rw [Bool.eq_iff_iff, List.contains_iff_mem, List.contains_iff_mem]
  constructor
  · intro hmem
    obtain ⟨known, hknown, htt⟩ := List.mem_map.mp hmem
    rw [tt_inj (h.enabled known hknown) htt.symm]
    exact hknown
  · exact fun hmem => List.mem_map.mpr ⟨key, hmem, rfl⟩

theorem KeyedCache.Plain.flatten_enable (h : c.Plain) (db table : String) :
    c.flatten.enable db table = (c.enable (db, table)).flatten := by
  have hcontains := h.contains (db, table)
  dsimp only at hcontains
  unfold LastValueCache.enable KeyedCache.enable
  rw [hcontains]
  split
  · rfl
  · simp [KeyedCache.flatten]

theorem KeyedCache.Plain.under (h : c.Plain) {db table : String} (hdb : PlainName db)
    (htable : PlainName table) {e : Series × LastValue} (he : e ∈ c.entries) :
    (keyPrefix db table).toList.isPrefixOf e.1.key.toList =
        decide (e.1.tableKey = (db, table)) := by
  rw [Bool.eq_iff_iff, (h.entries e he).under_iff hdb htable, decide_eq_true_eq, Series.tableKey,
    Prod.mk.injEq, eq_comm, @eq_comm _ table]

theorem KeyedCache.Plain.flatten_disable (h : c.Plain) {db table : String} (hdb : PlainName db)
    (htable : PlainName table) :
    c.flatten.disable db table = (c.disable (db, table)).flatten := by
  have henabled : (c.enabled.map fun key => tt key.1 key.2).filter (· ≠ tt db table) =
      (c.enabled.filter (· ≠ (db, table))).map fun key => tt key.1 key.2 := by
    rw [List.filter_map]
    congr 1
    apply List.filter_congr
    intro key hkey
    have hiff : tt key.1 key.2 = tt db table ↔ key = (db, table) :=
      ⟨fun heq => (tt_inj (h.enabled key hkey) heq.symm).symm, fun heq => by rw [heq]⟩
    simp [hiff]
  have hentries : (c.entries.map fun e => (e.1.key, e.2)).filter
        (fun e => !(keyPrefix db table).toList.isPrefixOf e.1.toList) =
      (c.entries.filter fun e => e.1.tableKey ≠ (db, table)).map fun e => (e.1.key, e.2) := by
    rw [List.filter_map]
    congr 1
    apply List.filter_congr
    intro e he
    rw [Function.comp_apply, h.under hdb htable he, decide_not]
  unfold LastValueCache.disable KeyedCache.disable KeyedCache.flatten
  dsimp only
  rw [henabled, hentries]

theorem KeyedCache.Plain.flatten_snapshot (h : c.Plain) {db table : String} (hdb : PlainName db)
    (htable : PlainName table) :
    c.flatten.snapshot db table = c.snapshot (db, table) := by
  unfold LastValueCache.snapshot KeyedCache.snapshot KeyedCache.flatten
  dsimp only
  rw [List.filter_map, List.map_map]
  congr 1
  apply List.filter_congr
  intro e he
  rw [Function.comp_apply, h.under hdb htable he]

theorem KeyedCache.Plain.key_eq_iff (h : c.Plain) {s : Series} (hs : s.Plain)
    {e : Series × LastValue} (he : e ∈ c.entries) : e.1.key = s.key ↔ e.1 = s :=
  ⟨(h.entries e he).key_inj hs, congrArg Series.key⟩

theorem KeyedCache.Plain.lookup (h : c.Plain) {s : Series} (hs : s.Plain) :
    c.flatten.entries.lookup s.key = c.entries.lookup s := by
  have hmap : ∀ entries : List (Series × LastValue), (∀ e ∈ entries, e.1.Plain) →
      (entries.map fun e => (e.1.key, e.2)).lookup s.key = entries.lookup s := by
    intro entries hplain
    induction entries with
    | nil => rfl
    | cons e rest ih =>
        obtain ⟨known, value⟩ := e
        rw [List.forall_mem_cons] at hplain
        rw [List.map_cons, List.lookup_cons, List.lookup_cons, ih hplain.2]
        have hiff : s.key = known.key ↔ s = known := ⟨hs.key_inj hplain.1, congrArg Series.key⟩
        by_cases heq : s = known
        · simp [heq]
        · have hseries : (s == known) = false := by simpa using heq
          have hkey : (s.key == known.key) = false := by simpa using mt hiff.mp heq
          rw [hseries, hkey]
  exact hmap c.entries h.entries

theorem KeyedCache.Plain.flatten_observe (h : c.Plain) {db table : String}
    {tags : List (String × String)} (timestampNs : Int) (fields : List (String × FieldValue))
    (hs : c.enabled.contains (db, table) = true → Series.Plain ⟨db, table, sortTags tags⟩) :
    c.flatten.observe db table tags timestampNs fields =
      (c.observe ⟨db, table, sortTags tags⟩ timestampNs fields).flatten := by
  have hcontains := h.contains (db, table)
  dsimp only at hcontains
  unfold LastValueCache.observe KeyedCache.observe Series.tableKey
  rw [hcontains]
  dsimp only
  by_cases hin : c.enabled.contains (db, table) = true
  · have hlookup := h.lookup (hs hin)
    rw [if_pos hin, if_pos hin]
    unfold Series.key at hlookup
    dsimp only at hlookup
    rw [hlookup]
    have hfilter : (c.entries.map fun e => (e.1.key, e.2)).filter
          (fun p => p.1 ≠ seriesKey db table (sortTags tags)) =
        (c.entries.filter fun p => p.1 ≠ ⟨db, table, sortTags tags⟩).map
          fun e => (e.1.key, e.2) := by
      rw [List.filter_map]
      congr 1
      apply List.filter_congr
      intro e he
      have hiff := h.key_eq_iff (hs hin) he
      rw [Function.comp_apply]
      exact decide_eq_decide.mpr (not_congr hiff)
    cases c.entries.lookup ⟨db, table, sortTags tags⟩ with
    | none => simp [KeyedCache.flatten, Series.key]
    | some e =>
        unfold KeyedCache.flatten
        dsimp only
        rw [hfilter]
        rfl
  · rw [if_neg hin, if_neg hin]

end Refine

section Runs

variable {c : KeyedCache}

theorem KeyedCache.Plain.enable (h : c.Plain) {db table : String} (hdb : PlainName db)
    (htable : PlainName table) : (c.enable (db, table)).Plain := by
  refine ⟨?_, h.entries⟩
  intro key hkey
  unfold KeyedCache.enable at hkey
  dsimp only at hkey
  split at hkey
  · exact h.enabled key hkey
  · rcases List.mem_append.mp hkey with hold | hnew
    · exact h.enabled key hold
    · rw [List.mem_singleton.mp hnew]
      exact ⟨hdb, htable⟩

theorem KeyedCache.Plain.disable (h : c.Plain) (key : TableKey) : (c.disable key).Plain :=
  ⟨fun k hk => h.enabled k (List.mem_of_mem_filter hk),
    fun e he => h.entries e (List.mem_of_mem_filter he)⟩

theorem KeyedCache.Plain.observe (h : c.Plain) {s : Series} (timestampNs : Int)
    (fields : List (String × FieldValue))
    (hs : c.enabled.contains s.tableKey = true → s.Plain) :
    (c.observe s timestampNs fields).Plain := by
  unfold KeyedCache.observe
  split
  · next hin =>
    have hplain := hs hin
    split
    · refine ⟨h.enabled, List.forall_mem_cons.mpr ⟨hplain, ?_⟩⟩
      exact fun e he => h.entries e (List.mem_of_mem_filter he)
    · refine ⟨h.enabled, fun e he => ?_⟩
      rcases List.mem_cons.mp (List.mem_of_mem_take he) with rfl | hold
      · exact hplain
      · exact h.entries e hold
  · exact h

theorem plain_sortTags {tags : List (String × String)} (h : ∀ p ∈ tags, PlainTag p) :
    ∀ p ∈ sortTags tags, PlainTag p :=
  fun p hp => h p ((List.perm_insertionSort _ tags).mem_iff.mp hp)

/-- A plain call does the same to both caches. -/
theorem KeyedCache.Plain.apply (h : c.Plain) {call : CacheCall} (hcall : plainCall c.flatten call) :
    (c.apply call).Plain ∧ call.apply c.flatten = (c.apply call).flatten := by
  cases call with
  | enable db table =>
      exact ⟨h.enable hcall.1 hcall.2, h.flatten_enable db table⟩
  | disable db table =>
      exact ⟨h.disable (db, table), h.flatten_disable hcall.1 hcall.2⟩
  | observe db table tags timestampNs fields =>
      have hs : c.enabled.contains (db, table) = true →
          Series.Plain ⟨db, table, sortTags tags⟩ := by
        intro hin
        have hnames := h.enabled (db, table) (List.contains_iff_mem.mp hin)
        exact ⟨hnames.1, hnames.2, plain_sortTags (hcall ((h.contains (db, table)).trans hin))⟩
      exact ⟨h.observe timestampNs fields hs, h.flatten_observe timestampNs fields hs⟩

theorem enabled_apply (c : KeyedCache) (call : CacheCall) (key : TableKey) :
    key ∈ (c.apply call).enabled ↔
      call = .enable key.1 key.2 ∨ (key ∈ c.enabled ∧ call ≠ .disable key.1 key.2) := by
  cases call with
  | enable db table =>
      have hmem : key ∈ (c.enable (db, table)).enabled ↔ key = (db, table) ∨ key ∈ c.enabled := by
        unfold KeyedCache.enable
        dsimp only
        split
        · next hin =>
          constructor
          · exact Or.inr
          · rintro (rfl | hold)
            · exact List.contains_iff_mem.mp hin
            · exact hold
        · rw [List.mem_append, List.mem_singleton, or_comm]
      rw [KeyedCache.apply, hmem]
      simp [Prod.ext_iff, eq_comm]
  | disable db table =>
      have hmem : key ∈ (c.disable (db, table)).enabled ↔ key ∈ c.enabled ∧ key ≠ (db, table) := by
        simp [KeyedCache.disable]
      rw [KeyedCache.apply, hmem]
      simp [Prod.ext_iff, eq_comm]
  | observe db table tags timestampNs fields =>
      have hsame : (c.apply (.observe db table tags timestampNs fields)).enabled = c.enabled := by
        unfold KeyedCache.apply KeyedCache.observe
        dsimp only
        split
        · split <;> rfl
        · rfl
      rw [hsame]
      simp

theorem nodup_enabled_apply (h : c.enabled.Nodup) (call : CacheCall) :
    (c.apply call).enabled.Nodup := by
  cases call with
  | enable db table =>
      unfold KeyedCache.apply KeyedCache.enable
      dsimp only
      split
      · exact h
      · next hout =>
        rw [List.contains_iff_mem] at hout
        exact List.nodup_append.mpr ⟨h, List.nodup_singleton _, fun a ha b hb heq =>
          hout (List.mem_singleton.mp hb ▸ heq ▸ ha)⟩
  | disable db table => exact h.filter _
  | observe db table tags timestampNs fields =>
      unfold KeyedCache.apply KeyedCache.observe
      dsimp only
      split
      · split <;> exact h
      · exact h

theorem enabledSince_concat {calls : List CacheCall} {call : CacheCall} {key : TableKey} :
    EnabledSince (calls ++ [call]) key ↔
      call = .enable key.1 key.2 ∨ (EnabledSince calls key ∧ call ≠ .disable key.1 key.2) := by
  constructor
  · rintro ⟨before, after, hcalls, hout⟩
    rcases List.eq_nil_or_concat after with rfl | ⟨init, last, rfl⟩
    · exact Or.inl (List.cons.inj (List.append_inj' hcalls rfl).2).1
    · right
      rw [List.concat_eq_append] at hcalls hout
      rw [← List.cons_append, ← List.append_assoc] at hcalls
      obtain ⟨hinit, hlast⟩ := List.append_inj' hcalls rfl
      obtain rfl := (List.cons.inj hlast).1
      refine ⟨⟨before, init, hinit, fun hmem => hout (by simp [hmem])⟩, ?_⟩
      rintro rfl
      exact hout (by simp)
  · rintro (rfl | ⟨⟨before, after, rfl, hout⟩, hne⟩)
    · exact ⟨calls, [], rfl, by simp⟩
    · refine ⟨before, after ++ [call], by simp, ?_⟩
      simp only [List.mem_append, List.mem_singleton, not_or]
      exact ⟨hout, Ne.symm hne⟩

/-- What a run has come to: the code's cache is the keyed cache written out, over
plain names, and enabled are the tables that were enabled last. -/
structure Tracks (cap : Nat) (c : LastValueCache) (calls : List CacheCall) : Prop where
  flat : c = (KeyedCache.run cap calls).flatten
  plain : (KeyedCache.run cap calls).Plain
  nodup : (KeyedCache.run cap calls).enabled.Nodup
  since : ∀ key, key ∈ (KeyedCache.run cap calls).enabled ↔ EnabledSince calls key

theorem Tracks.start (cap : Nat) : Tracks cap (LastValueCache.new cap) [] where
  flat := rfl
  plain := ⟨by simp [KeyedCache.run, KeyedCache.new], by simp [KeyedCache.run, KeyedCache.new]⟩
  nodup := List.nodup_nil
  since key := by simp [KeyedCache.run, KeyedCache.new, EnabledSince]

theorem Tracks.call {cap : Nat} {c : LastValueCache} {calls : List CacheCall} {call : CacheCall}
    (h : Tracks cap c calls) (hcall : plainCall c call) :
    Tracks cap (call.apply c) (calls ++ [call]) := by
  have hrun : KeyedCache.run cap (calls ++ [call]) = (KeyedCache.run cap calls).apply call := by
    simp [KeyedCache.run]
  obtain ⟨hflat, hplain, hnodup, hsince⟩ := h
  subst hflat
  obtain ⟨hplain', hflat'⟩ := hplain.apply hcall
  refine ⟨?_, ?_, ?_, ?_⟩
  · rw [hrun, hflat']
  · rw [hrun]
    exact hplain'
  · rw [hrun]
    exact nodup_enabled_apply hnodup call
  · intro key
    rw [hrun, enabled_apply, hsince, enabledSince_concat]

theorem KeyedCache.Plain.enabledTables (h : c.Plain) :
    enabledTables c.flatten = sortTags c.enabled := by
  have hsplit : ∀ tables : List TableKey, (∀ key ∈ tables, PlainName key.1 ∧ PlainName key.2) →
      ((tables.map fun key => tt key.1 key.2).filterMap fun k =>
        (cutAt '\x00' k.toList).map fun p => (String.ofList p.1, String.ofList p.2)) = tables := by
    intro tables hplain
    induction tables with
    | nil => rfl
    | cons key rest ih =>
        rw [List.forall_mem_cons] at hplain
        have htext : (tt key.1 key.2).toList = key.1.toList ++ '\x00' :: key.2.toList := by
          simp [tt]
        rw [List.map_cons, List.filterMap_cons, htext, cutAt_append hplain.1.1, ih hplain.2]
        simp
  exact congrArg sortTags (hsplit c.enabled h.enabled)

end Runs

/-- In a run whose calls are plain the cache is the one with the series for its
keys: a series has its own text, a table sees and drops its own entries, and the
enabled tables are those enabled and not disabled since. A series that is not
plain has the text of another one. -/
theorem series_kept_apart (cap : Nat) (calls : List CacheCall) (c : LastValueCache)
    (run : Run (fun c call => some (CacheCall.apply c call)) plainCall (LastValueCache.new cap)
      calls c) :
    c = (KeyedCache.run cap calls).flatten ∧
      (∀ s s' : Series, s.Plain → s'.Plain → (s.key = s'.key ↔ s = s')) ∧
      (∀ db table, PlainName db → PlainName table →
        c.snapshot db table = (KeyedCache.run cap calls).snapshot (db, table) ∧
        c.disable db table = ((KeyedCache.run cap calls).disable (db, table)).flatten) ∧
      (enabledTables c).Nodup ∧ (∀ key, key ∈ enabledTables c ↔ EnabledSince calls key) ∧
      (∀ s : Series, sortTags s.tags = s.tags → ¬ s.Plain →
        ∃ other : Series, other ≠ s ∧ sortTags other.tags = other.tags ∧ other.key = s.key) := by
  have htracks : Tracks cap c calls := by
    refine run.invariant_trace ?_ (Tracks.start cap)
    intro before done call after h hcall hstep
    obtain rfl := Option.some.inj hstep
    exact h.call hcall
  obtain ⟨rfl, hplain, hnodup, hsince⟩ := htracks
  have hperm : (sortTags (KeyedCache.run cap calls).enabled).Perm
      (KeyedCache.run cap calls).enabled := List.perm_insertionSort _ _
  refine ⟨rfl, fun s s' hs hs' => ⟨hs.key_inj hs', congrArg Series.key⟩, ?_, ?_, ?_,
    fun s hsorted h => exists_other hsorted h⟩
  · intro db table hdb htable
    exact ⟨hplain.flatten_snapshot hdb htable, hplain.flatten_disable hdb htable⟩
  · rw [hplain.enabledTables]
    exact hperm.nodup_iff.mpr hnodup
  · intro key
    rw [hplain.enabledTables, hperm.mem_iff, hsince]

/-- A table with a row whose tag value has an equals sign, enabled throughout. -/
def equalsSign : List CacheCall :=
  [.enable "poc" "m", .observe "poc" "m" [("host", "a=b")] 10 [("v", .int 1)],
    .disable "poc" "other"]

theorem equalsSign_seen : ("poc", "m") ∈ enabledTables (equalsSign.foldl CacheCall.apply (.new 4)) ∧
    (equalsSign.foldl CacheCall.apply (.new 4)).snapshot "poc" "m" =
      (KeyedCache.run 4 equalsSign).snapshot ("poc", "m") := by
  have run : Run (fun c call => some (CacheCall.apply c call)) plainCall (.new 4) equalsSign
      (equalsSign.foldl CacheCall.apply (.new 4)) :=
    .cons (by decide) rfl (.cons (by decide) rfl (.cons (by decide) rfl (.nil _)))
  obtain ⟨-, -, htables, -, hsince, -⟩ := series_kept_apart 4 equalsSign _ run
  refine ⟨(hsince ("poc", "m")).mpr ⟨[], _, rfl, by simp⟩, ?_⟩
  exact (htables "poc" "m" (by decide) (by decide)).1

/-- An equals sign in a key and one in a value make two series one; a zero
character makes one table another. -/
theorem separators_confuse :
    ((((LastValueCache.new 4).enable "poc" "m").observe "poc" "m" [("a", "b=c")] 10 []).observe
        "poc" "m" [("a=b", "c")] 20 []).entries.length = 1 ∧
      enabledTables ((LastValueCache.new 4).enable "a\x00b" "c") = [("a", "b\x00c")] ∧
      (((LastValueCache.new 4).enable "d" "t").observe "d" "t" [("a", "1"), ("b", "2")] 10
        []).snapshot "d\x00t" "a=1" ≠ [] := by
  decide

end TimeLake.LastCache
