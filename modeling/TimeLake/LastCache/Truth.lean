import TimeLake.LastCache.Machine
import TimeLake.Library.LastWins
import TimeLake.Library.Run

/-!
When the last-value cache tells the truth. A table identifies a series by its
set of tags, keeps the last of two rows with one timestamp, the last of two
values a line gives for one field, and stores an integer of a float column as a
float. The cache identifies a series by a text made of the tags as written,
keeps the first of two readings with one timestamp, shows the first of two
values, keeps the integer, and has forgotten the timestamp of a series that it
evicted. `Plain` is what a row must be like for the difference not to show.
-/

namespace TimeLake.LastCache

open TimeLake.Library TimeLake.Rows TimeLake.Ingest
open TimeLake.Catalog (TableKey)

section Condition

/-- The first value given for each name is the value of the row. -/
def sameFields (fields : List (String × FieldValue)) (row : Row) : Prop :=
  ∀ name ∈ fields.map Prod.fst ++ row.fields.map Prod.fst,
    fields.lookup name = row.fields.lookup name

instance (fields : List (String × FieldValue)) (row : Row) : Decidable (sameFields fields row) :=
  inferInstanceAs (Decidable (∀ name ∈ _, _))

/-- The series key of a row of this table starts like that of no other table
that has opted in. -/
def Apart (c : LastValueCache) (key : TableKey) (series : String) : Prop :=
  key.1.toList.contains '\x00' = false ∧ key.2.toList.contains '\x00' = false ∧
    ∀ name ∈ c.enabled, (name ++ "\x00").toList.isPrefixOf series.toList = true →
      name = tt key.1 key.2

instance (c : LastValueCache) (key : TableKey) (series : String) :
    Decidable (Apart c key series) :=
  inferInstanceAs (Decidable (_ ∧ _ ∧ ∀ name ∈ c.enabled, _))

/-- A row that meets the cached reading of its series, or none. -/
def Meets (s : State) (p : (TableKey × Row) × ParsedLine) : Option LastValue → Prop
  | some e =>
      e.tags = sortTags p.2.tags ∧
        (e.timestampNs = p.2.timestampNs → sameFields e.fields p.1.2) ∧
        (e.timestampNs < p.2.timestampNs → sameFields p.2.fields p.1.2)
  | none =>
      sameFields p.2.fields p.1.2 ∧
        ∀ r ∈ valuesAt s.seen p.1.1, r.tags = p.1.2.tags → r.time ≤ p.2.timestampNs

instance (s : State) (p : (TableKey × Row) × ParsedLine) : DecidablePred (Meets s p)
  | some _ => inferInstanceAs (Decidable (_ ∧ _ ∧ _))
  | none => inferInstanceAs (Decidable (_ ∧ _))

def seriesOf (p : (TableKey × Row) × ParsedLine) : String :=
  seriesKey p.1.1.1 p.1.1.2 (sortTags p.2.tags)

/-- No tag twice, no confusion with another table or series; the fields are
those the table has stored, if the row becomes the cached one or has its
timestamp; and no newer row of a series that is not cached. -/
def Plain (s : State) (p : (TableKey × Row) × ParsedLine) : Prop :=
  (p.2.tags.map Prod.fst).Nodup ∧ Apart s.node.lastValue p.1.1 (seriesOf p) ∧
    Meets s p (s.node.lastValue.entries.lookup (seriesOf p))

instance (s : State) (p : (TableKey × Row) × ParsedLine) : Decidable (Plain s p) :=
  inferInstanceAs (Decidable (_ ∧ _ ∧ _))

/-- A table opts in with no reading under its name, and every row of a table
that has opted in is plain. -/
def plainStep (s : State) : Action → Prop
  | .enable key =>
      isEnabled s.node.lastValue key = true ∨ s.node.lastValue.snapshot key.1 key.2 = []
  | .observe => ∀ p ∈ s.pending.head?, isEnabled s.node.lastValue p.1.1 = true → Plain s p
  | _ => True

instance (s : State) : DecidablePred (plainStep s)
  | .enable _ => inferInstanceAs (Decidable (_ ∨ _))
  | .observe => inferInstanceAs (Decidable (∀ p ∈ s.pending.head?, _))
  | .disable _ => .isTrue trivial
  | .write _ _ => .isTrue trivial

end Condition

section Names

theorem keyPrefix_eq (db table : String) : keyPrefix db table = tt db table ++ "\x00" := rfl

theorem prefix_seriesKey (db table : String) (tags : List (String × String)) :
    (keyPrefix db table).toList.isPrefixOf (seriesKey db table tags).toList = true := by
  rw [List.isPrefixOf_iff_prefix, seriesKey, String.toList_append]
  exact List.prefix_append _ _

private theorem split_at_zero {a b x y : List Char} (hx : '\x00' ∉ x) (hy : '\x00' ∉ y)
    (h : a ++ '\x00' :: b = x ++ '\x00' :: y) : a = x ∧ b = y := by
  have hcount : (a ++ '\x00' :: b).count '\x00' = 1 := by
    rw [h, List.count_append, List.count_cons_self, List.count_eq_zero.mpr hx,
      List.count_eq_zero.mpr hy]
  rw [List.count_append, List.count_cons_self] at hcount
  have ha : '\x00' ∉ a := List.count_eq_zero.mp (by omega)
  have htake : ∀ {l r : List Char}, '\x00' ∉ l →
      (l ++ '\x00' :: r).takeWhile (· ≠ '\x00') = l := by
    intro l r hl
    rw [List.takeWhile_append_of_pos fun c hc => by
      simpa using fun heq : c = '\x00' => hl (heq ▸ hc)]
    simp
  have hsame : a = x := by rw [← htake (r := b) ha, h, htake hx]
  subst hsame
  exact ⟨rfl, (List.cons.inj (List.append_cancel_left h)).2⟩

/-- A name without a zero character is the name of one table. -/
theorem key_of_tt {key other : TableKey} (hdb : key.1.toList.contains '\x00' = false)
    (htable : key.2.toList.contains '\x00' = false)
    (h : tt other.1 other.2 = tt key.1 key.2) : other = key := by
  have hlist := congrArg String.toList h
  simp only [tt, String.toList_append] at hlist
  simp only [List.contains_eq_mem, decide_eq_false_iff_not] at hdb htable
  obtain ⟨h1, h2⟩ := split_at_zero hdb htable (by simpa using hlist)
  exact Prod.ext (String.toList_injective h1) (String.toList_injective h2)

theorem Apart.alone {c : LastValueCache} {key : TableKey} {series : String}
    (h : Apart c key series) {other : TableKey} (henabled : isEnabled c other = true)
    (hunder : (keyPrefix other.1 other.2).toList.isPrefixOf series.toList = true) :
    other = key :=
  key_of_tt h.1 h.2.1 (h.2.2 _ (List.contains_iff_mem.mp henabled) hunder)

end Names

section Tags

theorem increasing_sortTags {tags : List (String × String)} (h : (tags.map Prod.fst).Nodup) :
    Increasing (sortTags tags) := by
  have hperm : (sortTags tags).Perm tags := List.perm_insertionSort _ tags
  have : Std.Total fun a b : String × String => a.1 < b.1 ∨ (a.1 = b.1 ∧ a.2 ≤ b.2) := by
    refine ⟨fun a b => ?_⟩
    rcases lt_trichotomy a.1 b.1 with hlt | heq | hgt
    · exact .inl (.inl hlt)
    · exact (le_total a.2 b.2).imp (fun hle => .inr ⟨heq, hle⟩) fun hle => .inr ⟨heq.symm, hle⟩
    · exact .inr (.inl hgt)
  have : IsTrans (String × String) fun a b => a.1 < b.1 ∨ (a.1 = b.1 ∧ a.2 ≤ b.2) := by
    refine ⟨?_⟩
    rintro a b c (hab | ⟨hab, hab2⟩) (hbc | ⟨hbc, hbc2⟩)
    · exact .inl (hab.trans hbc)
    · exact .inl (hbc ▸ hab)
    · exact .inl (hab ▸ hbc)
    · exact .inr ⟨hab.trans hbc, hab2.trans hbc2⟩
  have hsorted := List.pairwise_insertionSort
    (fun a b : String × String => a.1 < b.1 ∨ (a.1 = b.1 ∧ a.2 ≤ b.2)) tags
  have hdistinct : (sortTags tags).Pairwise fun a b => a.1 ≠ b.1 :=
    List.pairwise_map.mp ((hperm.map Prod.fst).nodup_iff.mpr h)
  exact (hsorted.and hdistinct).imp fun hab => hab.1.resolve_right fun heq => hab.2 heq.1

/-- Without a repeated name the cache's tags are the table's. -/
theorem tagSet_eq {tags : List (String × String)} (h : (tags.map Prod.fst).Nodup) :
    (tagSet tags).pairs = sortTags tags :=
  collect_of_perm (increasing_sortTags h) h (List.perm_insertionSort _ tags)

theorem tagSet_increasing {tags : List (String × String)} (h : Increasing tags) :
    (tagSet tags).pairs = tags := by
  refine collect_of_perm h ?_ (List.Perm.refl _)
  exact List.pairwise_map.mpr (h.imp fun hlt => ne_of_lt hlt)

theorem tagSet_sortTags {tags : List (String × String)} (h : (tags.map Prod.fst).Nodup) :
    tagSet (sortTags tags) = tagSet tags := by
  have hpairs : (tagSet (sortTags tags)).pairs = (tagSet tags).pairs :=
    (tagSet_increasing (increasing_sortTags h)).trans (tagSet_eq h).symm
  exact TagSet.ext_get fun name => by rw [TagSet.get, TagSet.get, hpairs]

end Tags

section Current

variable {rows : List Row} {e : LastValue} {r : Row}

/-- The reading is the newest of these rows of its series, and the last of those
with its timestamp has its fields. -/
structure Current (rows : List Row) (e : LastValue) : Prop where
  sorted : Increasing e.tags
  newest : ∀ r ∈ rows, r.tags = tagSet e.tags → r.time ≤ e.timestampNs
  stored : ∃ r, lastOf Row.key (e.timestampNs, tagSet e.tags) rows = some r ∧
    sameFields e.fields r

theorem lastOf_concat_of_ne {k : RowKey} (h : r.key ≠ k) :
    lastOf Row.key k (rows ++ [r]) = lastOf Row.key k rows := by
  rw [lastOf_append, lastOf_eq_none.mpr (by simpa using h), Option.none_or]

theorem lastOf_concat_self : lastOf Row.key r.key (rows ++ [r]) = some r := by
  rw [lastOf_append, show lastOf Row.key r.key [r] = some r by simp [lastOf], Option.some_or]

/-- A row of another series. -/
theorem Current.other (h : Current rows e) (hr : r.tags ≠ tagSet e.tags) :
    Current (rows ++ [r]) e := by
  obtain ⟨q, hq, hfields⟩ := h.stored
  refine ⟨h.sorted, ?_, q, ?_, hfields⟩
  · intro x hx htags
    rcases List.mem_append.mp hx with hold | hnew
    · exact h.newest x hold htags
    · exact absurd (List.mem_singleton.mp hnew ▸ htags) hr
  · rw [lastOf_concat_of_ne fun hkey => hr (Prod.mk.inj hkey).2, hq]

/-- An older row of the series. -/
theorem Current.older (h : Current rows e) (htime : r.time < e.timestampNs) :
    Current (rows ++ [r]) e := by
  obtain ⟨q, hq, hfields⟩ := h.stored
  refine ⟨h.sorted, ?_, q, ?_, hfields⟩
  · intro x hx htags
    rcases List.mem_append.mp hx with hold | hnew
    · exact h.newest x hold htags
    · exact le_of_lt (List.mem_singleton.mp hnew ▸ htime)
  · rw [lastOf_concat_of_ne fun hkey => ne_of_lt htime (Prod.mk.inj hkey).1, hq]

/-- The row itself, where no earlier one is newer. -/
theorem current_concat (hsorted : Increasing e.tags) (htime : r.time = e.timestampNs)
    (htags : r.tags = tagSet e.tags) (hfields : sameFields e.fields r)
    (hold : ∀ x ∈ rows, x.tags = r.tags → x.time ≤ r.time) : Current (rows ++ [r]) e := by
  refine ⟨hsorted, ?_, r, ?_, hfields⟩
  · intro x hx hxtags
    rcases List.mem_append.mp hx with hx | hnew
    · exact htime ▸ hold x hx (hxtags.trans htags.symm)
    · exact le_of_eq (List.mem_singleton.mp hnew ▸ htime)
  · rw [← htime, ← htags]
    exact lastOf_concat_self

end Current

section Observe

variable {c : LastValueCache} {p : (TableKey × Row) × ParsedLine}

/-- The reading of its series after a row. -/
def reading (line : ParsedLine) : Option LastValue → LastValue
  | some e =>
      if e.timestampNs < line.timestampNs then
        { e with timestampNs := line.timestampNs, fields := line.fields }
      else e
  | none => ⟨sortTags line.tags, line.timestampNs, line.fields⟩

theorem observe_disabled (db table : String) (tags : List (String × String)) (timestampNs : Int)
    (fields : List (String × FieldValue)) (h : isEnabled c (db, table) = false) :
    c.observe db table tags timestampNs fields = c := by
  unfold LastValueCache.observe
  exact if_neg (by simpa [isEnabled] using h)

theorem observe_settings (c : LastValueCache) (p : (TableKey × Row) × ParsedLine) :
    (observeLine c p).enabled = c.enabled ∧ (observeLine c p).cap = c.cap := by
  unfold observeLine LastValueCache.observe
  split
  · dsimp only
    split <;> exact ⟨rfl, rfl⟩
  · exact ⟨rfl, rfl⟩

theorem observe_entries {db : String} (hp : Became db p) (h : isEnabled c p.1.1 = true) :
    (observeLine c p).entries =
      match c.entries.lookup (seriesOf p) with
      | some e => (seriesOf p, reading p.2 (some e)) :: c.entries.filter fun x => x.1 ≠ seriesOf p
      | none => ((seriesOf p, reading p.2 none) :: c.entries).take c.cap := by
  have hline : observeLine c p =
      c.observe p.1.1.1 p.1.1.2 p.2.tags p.2.timestampNs p.2.fields := by rw [observeLine, hp.1]
  have hcontains : c.enabled.contains (tt p.1.1.1 p.1.1.2) = true := h
  rw [hline, LastValueCache.observe, if_pos hcontains]
  unfold seriesOf
  dsimp only
  cases c.entries.lookup (seriesKey p.1.1.1 p.1.1.2 (sortTags p.2.tags)) <;> rfl

/-- What is in the cache after a row of a table that has opted in. -/
theorem mem_observe {db : String} (hp : Became db p) (henabled : isEnabled c p.1.1 = true)
    {x : String × LastValue} (h : x ∈ (observeLine c p).entries) :
    (x ∈ c.entries ∧ x.1 ≠ seriesOf p) ∨
      x = (seriesOf p, reading p.2 (c.entries.lookup (seriesOf p))) := by
  rw [observe_entries hp henabled] at h
  cases hlookup : c.entries.lookup (seriesOf p) with
  | some e =>
      rw [hlookup] at h
      rcases List.mem_cons.mp h with rfl | hold
      · exact .inr rfl
      · obtain ⟨hmem, hne⟩ := List.mem_filter.mp hold
        exact .inl ⟨hmem, of_decide_eq_true hne⟩
  | none =>
      rw [hlookup] at h
      rcases List.mem_cons.mp (List.mem_of_mem_take h) with rfl | hold
      · exact .inr rfl
      · refine .inl ⟨hold, fun heq => ?_⟩
        rw [List.lookup_eq_none_iff] at hlookup
        simpa [heq] using hlookup x hold

theorem length_observe (db table : String) (tags : List (String × String)) (timestampNs : Int)
    (fields : List (String × FieldValue)) (h : c.entries.length ≤ c.cap) :
    (c.observe db table tags timestampNs fields).entries.length ≤ c.cap := by
  unfold LastValueCache.observe
  split
  · dsimp only
    generalize seriesKey db table (sortTags tags) = series
    cases hlookup : c.entries.lookup series with
    | some e =>
        have hgone : (c.entries.filter fun x => x.1 ≠ series).length < c.entries.length :=
          List.length_filter_lt_length_iff_exists.mpr ⟨_, mem_of_lookup hlookup, by simp⟩
        rw [List.length_cons]
        omega
    | none =>
        rw [List.length_take]
        exact Nat.min_le_left _ _
  · exact h

end Observe

section Invariant

variable {fl : FloatOps} {s t : State}

/-- An entry belongs to one table that has opted in, and tells the truth about
the rows that were observed since. -/
structure Owned (s : State) (key : TableKey) (x : String × LastValue) : Prop where
  enabled : isEnabled s.node.lastValue key = true
  series : x.1 = seriesKey key.1 key.2 x.2.tags
  alone : ∀ other, isEnabled s.node.lastValue other = true →
    (keyPrefix other.1 other.2).toList.isPrefixOf x.1.toList = true → other = key
  current : Current (valuesAt s.seen key) x.2

structure Inv (s : State) : Prop where
  entries : ∀ x ∈ s.node.lastValue.entries, ∃ key, Owned s key x
  became : ∃ db, ∀ p ∈ s.pending, Became db p
  scanned : ∀ key, isEnabled s.node.lastValue key = true → ∃ before,
    s.scan key = before ++ (valuesAt s.seen key ++ valuesAt (s.pending.map Prod.fst) key)

theorem valuesAt_forget (key other : TableKey) (seen : List (TableKey × Row)) :
    valuesAt (forget key seen) other =
      if tt other.1 other.2 = tt key.1 key.2 then [] else valuesAt seen other := by
  unfold valuesAt forget
  rw [List.filter_filter]
  split
  · next heq =>
      rw [List.map_eq_nil_iff, List.filter_eq_nil_iff]
      intro p _ hp
      simp only [Bool.and_eq_true, decide_eq_true_eq] at hp
      exact hp.2 (hp.1 ▸ heq)
  · next hne =>
      congr 1
      apply List.filter_congr
      intro p _
      by_cases hp : p.1 = other
      · simp [hp, hne]
      · simp [hp]

/-- The cached reading of the series after a plain row. -/
theorem Current.reading {p : (TableKey × Row) × ParsedLine} {db : String} (hp : Became db p)
    (hplain : Plain s p) {old : Option LastValue}
    (hold : ∀ e, old = some e → Current (valuesAt s.seen p.1.1) e) (hmeets : Meets s p old) :
    (LastCache.reading p.2 old).tags = sortTags p.2.tags ∧
      Current (valuesAt s.seen p.1.1 ++ [p.1.2]) (LastCache.reading p.2 old) := by
  obtain ⟨hnodup, _, _⟩ := hplain
  have htags : p.1.2.tags = tagSet (sortTags p.2.tags) := hp.2.2.trans (tagSet_sortTags hnodup).symm
  have hsorted := increasing_sortTags hnodup
  cases old with
  | none =>
      obtain ⟨hfields, hnewest⟩ := hmeets
      refine ⟨rfl, current_concat hsorted hp.2.1 htags hfields ?_⟩
      exact fun x hx hxtags => hp.2.1 ▸ hnewest x hx hxtags
  | some e =>
      obtain ⟨hsame, hequal, hlater⟩ := hmeets
      have hcurrent := hold e rfl
      have hbound : ∀ x ∈ valuesAt s.seen p.1.1, x.tags = p.1.2.tags → x.time ≤ e.timestampNs := by
        intro x hx hxtags
        exact hcurrent.newest x hx (hxtags.trans (hsame ▸ htags))
      simp only [LastCache.reading]
      split
      · next hlt =>
          refine ⟨hsame, current_concat hcurrent.sorted hp.2.1 (hsame ▸ htags) (hlater hlt) ?_⟩
          exact fun x hx hxtags => (hbound x hx hxtags).trans (hp.2.1 ▸ le_of_lt hlt)
      · next hnot =>
          refine ⟨hsame, ?_⟩
          rcases lt_or_eq_of_le (not_lt.mp hnot) with hlt | heq
          · exact hcurrent.older (hp.2.1 ▸ hlt)
          · refine current_concat hcurrent.sorted (hp.2.1.trans heq) (hsame ▸ htags)
              (hequal heq.symm) ?_
            exact fun x hx hxtags => (hbound x hx hxtags).trans (le_of_eq (hp.2.1.trans heq).symm)

theorem valuesAt_concat (seen : List (TableKey × Row)) (p : TableKey × Row) (key : TableKey) :
    valuesAt (seen ++ [p]) key =
      if p.1 = key then valuesAt seen key ++ [p.2] else valuesAt seen key := by
  rw [valuesAt_append, valuesAt_cons]
  split
  · rfl
  · exact List.append_nil _

/-- A reading of another series than the row's stays as it is. -/
theorem Owned.beside {p : (TableKey × Row) × ParsedLine} {db : String} (hp : Became db p)
    (hnodup : (p.2.tags.map Prod.fst).Nodup) {key : TableKey} {x : String × LastValue}
    (h : Owned s key x) (hne : x.1 ≠ seriesOf p) :
    Current (valuesAt (s.seen ++ [p.1]) key) x.2 := by
  rw [valuesAt_concat]
  split
  · next hkey =>
      refine h.current.other fun htags => hne ?_
      have hsame : sortTags p.2.tags = x.2.tags := by
        rw [← tagSet_eq hnodup, ← hp.2.2, htags, tagSet_increasing h.current.sorted]
      rw [h.series, seriesOf, hsame, hkey]
  · exact h.current

theorem observed_entries {p : (TableKey × Row) × ParsedLine} {db : String} (h : Inv s)
    (hp : Became db p) (henabled : isEnabled s.node.lastValue p.1.1 = true) (hplain : Plain s p)
    {x : String × LastValue} (hx : x ∈ (observeLine s.node.lastValue p).entries) :
    ∃ key, isEnabled s.node.lastValue key = true ∧ x.1 = seriesKey key.1 key.2 x.2.tags ∧
      (∀ other, isEnabled s.node.lastValue other = true →
        (keyPrefix other.1 other.2).toList.isPrefixOf x.1.toList = true → other = key) ∧
      Current (valuesAt (s.seen ++ [p.1]) key) x.2 := by
  rcases mem_observe hp henabled hx with ⟨hmem, hne⟩ | rfl
  · obtain ⟨key, howned⟩ := h.entries x hmem
    exact ⟨key, howned.enabled, howned.series, howned.alone, howned.beside hp hplain.1 hne⟩
  · have hold : ∀ e, s.node.lastValue.entries.lookup (seriesOf p) = some e →
        Current (valuesAt s.seen p.1.1) e := by
      intro e he
      obtain ⟨key, howned⟩ := h.entries _ (mem_of_lookup he)
      rw [howned.alone p.1.1 henabled (prefix_seriesKey _ _ _)]
      exact howned.current
    obtain ⟨htags, hcurrent⟩ := Current.reading hp hplain hold hplain.2.2
    refine ⟨p.1.1, henabled, ?_, fun other hother hunder => hplain.2.1.alone hother hunder, ?_⟩
    · rw [htags]
      rfl
    · rw [valuesAt_concat, if_pos rfl]
      exact hcurrent

theorem Inv.observe (h : Inv s) (hok : plainStep s .observe) (hs : observe s = some t) : Inv t := by
  obtain ⟨db, hbecame⟩ := h.became
  cases hpending : s.pending with
  | nil => simp [LastCache.observe, hpending] at hs
  | cons p rest =>
      simp only [LastCache.observe, hpending] at hs
      obtain rfl := Option.some.inj hs
      have hp : Became db p := hbecame p (hpending ▸ List.mem_cons_self)
      have hplain := hok p (by simp [hpending])
      obtain ⟨hsame, _⟩ := observe_settings s.node.lastValue p
      have hon : ∀ key, isEnabled (observeLine s.node.lastValue p) key =
          isEnabled s.node.lastValue key := fun key => by rw [isEnabled, hsame, isEnabled]
      refine ⟨?_, ⟨db, fun q hq => hbecame q (hpending ▸ List.mem_cons_of_mem p hq)⟩, ?_⟩
      · intro x hx
        by_cases henabled : isEnabled s.node.lastValue p.1.1 = true
        · obtain ⟨key, hkey, hseries, halone, hcurrent⟩ :=
            observed_entries h hp henabled (hplain henabled) hx
          refine ⟨key, (hon key).trans hkey, hseries, ?_, ?_⟩
          · exact fun other hother => halone other ((hon other).symm.trans hother)
          · dsimp only
            rwa [if_pos henabled]
        · have hcache : observeLine s.node.lastValue p = s.node.lastValue :=
            observe_disabled _ _ _ _ _ (by rw [hp.1] at henabled ⊢; simpa using henabled)
          simp only [State.setCache, hcache, if_neg henabled] at hx ⊢
          obtain ⟨key, howned⟩ := h.entries x hx
          exact ⟨key, howned.enabled, howned.series, howned.alone, howned.current⟩
      · intro key hkey
        have hkey' : isEnabled s.node.lastValue key = true := (hon key).symm.trans hkey
        obtain ⟨before, hscan⟩ := h.scanned key hkey'
        refine ⟨before, hscan.trans ?_⟩
        rw [hpending, List.map_cons, valuesAt_cons]
        dsimp only
        by_cases hp1 : p.1.1 = key
        · rw [if_pos hp1, if_pos (hp1 ▸ hkey'), valuesAt_concat, if_pos hp1, List.append_assoc]
          rfl
        · rw [if_neg hp1]
          split
          · rw [valuesAt_concat, if_neg hp1]
          · rfl

theorem isEnabled_enable (c : LastValueCache) (key other : TableKey) :
    isEnabled (c.enable key.1 key.2) other = true ↔
      tt other.1 other.2 = tt key.1 key.2 ∨ isEnabled c other = true := by
  unfold isEnabled LastValueCache.enable
  simp only [List.contains_iff_mem]
  split
  · next hin =>
      refine ⟨.inr, ?_⟩
      rintro (heq | hold)
      · exact heq ▸ hin
      · exact hold
  · rw [List.mem_append, List.mem_singleton, or_comm]

theorem isEnabled_disable (c : LastValueCache) (key other : TableKey) :
    isEnabled (c.disable key.1 key.2) other = true ↔
      isEnabled c other = true ∧ tt other.1 other.2 ≠ tt key.1 key.2 := by
  unfold isEnabled LastValueCache.disable
  simp only [List.contains_iff_mem, List.mem_filter, decide_eq_true_eq]

theorem isEnabled_of_tt {c : LastValueCache} {key other : TableKey}
    (h : tt other.1 other.2 = tt key.1 key.2) : isEnabled c other = isEnabled c key := by
  rw [isEnabled, h, isEnabled]

theorem Inv.enable {key : TableKey} (h : Inv s) (hok : plainStep s (.enable key))
    (hs : enable s key = some t) : Inv t := by
  unfold LastCache.enable at hs
  split at hs
  · next hpending =>
      obtain rfl := Option.some.inj hs
      by_cases hin : isEnabled s.node.lastValue key = true
      · -- already opted in: nothing changes
        have hcache : s.node.lastValue.enable key.1 key.2 = s.node.lastValue := by
          rw [LastValueCache.enable, if_pos (by exact hin)]
        simp only [State.setCache, hcache, if_pos hin]
        exact ⟨fun x hx => (h.entries x hx).imp fun _ ho => ⟨ho.enabled, ho.series, ho.alone,
          ho.current⟩, h.became, h.scanned⟩
      · have hclean := LastValueCache.snapshot_eq_nil.mp (hok.resolve_left hin)
        rw [if_neg hin]
        refine ⟨?_, h.became, ?_⟩
        · intro x hx
          obtain ⟨owner, howned⟩ := h.entries x hx
          have hother : tt owner.1 owner.2 ≠ tt key.1 key.2 := by
            intro heq
            exact hin ((isEnabled_of_tt heq).symm.trans howned.enabled)
          refine ⟨owner, (isEnabled_enable _ key owner).mpr (.inr howned.enabled),
            howned.series, ?_, ?_⟩
          · intro other hon hunder
            rcases (isEnabled_enable _ key other).mp hon with heq | hold
            · have hfalse := hclean x hx
              rw [keyPrefix_eq, ← heq, ← keyPrefix_eq] at hfalse
              exact absurd hunder (by simp [hfalse])
            · exact howned.alone other hold hunder
          · dsimp only
            rw [valuesAt_forget, if_neg hother]
            exact howned.current
        · intro other hon
          change ∃ before, s.scan other = before ++ (valuesAt (forget key s.seen) other ++
            valuesAt (s.pending.map Prod.fst) other)
          rw [valuesAt_forget, hpending]
          split
          · exact ⟨s.scan other, (List.append_nil _).symm⟩
          · next hne =>
              obtain hold := ((isEnabled_enable _ key other).mp hon).resolve_left hne
              obtain ⟨before, hscan⟩ := h.scanned other hold
              rw [hpending] at hscan
              exact ⟨before, hscan⟩
  · cases hs

theorem Inv.disable {key : TableKey} (h : Inv s) (hs : disable s key = some t) : Inv t := by
  unfold LastCache.disable at hs
  split at hs
  · next hpending =>
      obtain rfl := Option.some.inj hs
      refine ⟨?_, h.became, ?_⟩
      · intro x hx
        obtain ⟨hmem, hunder⟩ := List.mem_filter.mp hx
        obtain ⟨owner, howned⟩ := h.entries x hmem
        have hother : tt owner.1 owner.2 ≠ tt key.1 key.2 := by
          intro heq
          have hown := prefix_seriesKey owner.1 owner.2 x.2.tags
          rw [← howned.series, keyPrefix_eq, heq, ← keyPrefix_eq] at hown
          simp [hown] at hunder
        refine ⟨owner, (isEnabled_disable _ key owner).mpr ⟨howned.enabled, hother⟩,
          howned.series, ?_, ?_⟩
        · exact fun other hon => howned.alone other ((isEnabled_disable _ key other).mp hon).1
        · dsimp only
          rw [valuesAt_forget, if_neg hother]
          exact howned.current
      · intro other hon
        obtain ⟨hold, hne⟩ := (isEnabled_disable _ key other).mp hon
        change ∃ before, s.scan other = before ++ (valuesAt (forget key s.seen) other ++
          valuesAt (s.pending.map Prod.fst) other)
        rw [valuesAt_forget, if_neg hne]
        exact h.scanned other hold
  · cases hs

theorem Inv.write {c : Call} {w : Weather} (h : Inv s) (hs : write fl s c w = some t) : Inv t := by
  obtain ⟨node, n, hpending, hwrite, rfl⟩ := write_cases hs
  have hlength := length_pending hwrite
  refine ⟨?_, ⟨_, became_appended⟩, ?_⟩
  · intro x hx
    obtain ⟨key, howned⟩ := h.entries x hx
    exact ⟨key, howned.enabled, howned.series, howned.alone, howned.current⟩
  · intro key hkey
    obtain ⟨before, hscan⟩ := h.scanned key hkey
    refine ⟨before, ?_⟩
    have htables := (write_ok_spec hwrite).2.1
    have hrows : ∀ k, (node.buffer k).1.rows = (s.node.buffer k).1.rows ++
        valuesAt (s.node.tables.addedBy fl (bodyOf fl (c, w)) w.nowNs) k := by
      intro k
      change node.tables.rows k = s.node.tables.rows k ++ _
      rw [htables, Tables.applyBody_rows]
    rw [hpending] at hscan
    simp only [List.map_nil, valuesAt, List.filter_nil, List.append_nil] at hscan
    change (node.buffer key).1.rows = _
    rw [hrows key, List.map_fst_zip (le_of_eq hlength)]
    change s.scan key ++ _ = _
    rw [hscan, List.append_assoc]
    rfl

theorem Inv.step {a : Action} (h : Inv s) (hok : plainStep s a) (hs : step fl s a = some t) :
    Inv t := by
  cases a with
  | enable key => exact h.enable hok hs
  | disable key => exact h.disable hs
  | write c w => exact h.write hs
  | observe => exact h.observe hok hs

theorem Inv.start (node : Node) (cap : Nat) : Inv (start node cap) :=
  ⟨by simp [LastCache.start, LastValueCache.new], ⟨"", by simp [LastCache.start]⟩,
    by simp [LastCache.start, LastValueCache.new, isEnabled]⟩

/-- The number of entries, in any run. -/
def Bounded (n : Nat) (s : State) : Prop :=
  s.node.lastValue.cap = n ∧ s.node.lastValue.entries.length ≤ n

theorem Bounded.step {n : Nat} {a : Action} (h : Bounded n s) (hs : step fl s a = some t) :
    Bounded n t := by
  obtain ⟨hcap, hlength⟩ := h
  cases a with
  | enable key =>
      simp only [LastCache.step, LastCache.enable] at hs
      split at hs
      · obtain rfl := Option.some.inj hs
        exact ⟨hcap, hlength⟩
      · cases hs
  | disable key =>
      simp only [LastCache.step, LastCache.disable] at hs
      split at hs
      · obtain rfl := Option.some.inj hs
        exact ⟨hcap, (List.length_filter_le _ _).trans hlength⟩
      · cases hs
  | write c w =>
      obtain ⟨node, m, _, _, rfl⟩ := write_cases hs
      exact ⟨hcap, hlength⟩
  | observe =>
      simp only [LastCache.step, LastCache.observe] at hs
      split at hs
      · cases hs
      · next p rest _ =>
          obtain rfl := Option.some.inj hs
          refine ⟨(observe_settings s.node.lastValue p).2.trans hcap, ?_⟩
          exact hcap ▸ length_observe _ _ _ _ _ (hcap ▸ hlength)

end Invariant

section Truth

variable {fl : FloatOps} {s : State} {key : TableKey}

theorem sameFields_iff {fields : List (String × FieldValue)} {row : Row} :
    sameFields fields row ↔ ∀ name, fields.lookup name = row.fields.lookup name := by
  refine ⟨fun h name => ?_, fun h name _ => h name⟩
  by_cases hname : name ∈ fields.map Prod.fst ++ row.fields.map Prod.fst
  · exact h name hname
  · rw [List.mem_append, not_or] at hname
    rw [lookup_of_notMem_keys hname.1, lookup_of_notMem_keys hname.2]

/-- The values of a row have the types of their columns. -/
theorem typed_of_mem {b : Buffer} {r : Row} (hr : r ∈ b.1.rows) {name : String} {v : FieldValue}
    (hv : r.fields.lookup name = some v) :
    (typesOf b.1.fields).lookup name = some (valueType v) := by
  obtain ⟨i, _, rfl⟩ := List.mem_map.mp hr
  rw [b.2.lookup_rowAt, TableBuffer.fieldAt] at hv
  obtain ⟨col, hcol, hcell⟩ := Option.bind_eq_some_iff.mp hv
  rw [lookup_typesOf, hcol, Option.map_some]
  rw [col.typed v (List.mem_of_getElem? (Option.join_eq_some_iff.mp hcell))]

/-- What the rows of the table say about a reading in its snapshot. -/
theorem Inv.snapshot (h : Inv s) (henabled : isEnabled s.node.lastValue key = true)
    {e : LastValue} (he : e ∈ s.node.lastValue.snapshot key.1 key.2) :
    Current (valuesAt s.seen key) e := by
  obtain ⟨x, hx, rfl⟩ := List.mem_map.mp he
  obtain ⟨hmem, hunder⟩ := List.mem_filter.mp hx
  obtain ⟨owner, howned⟩ := h.entries x hmem
  obtain rfl := howned.alone key henabled hunder
  exact howned.current

theorem Inv.scan_eq (h : Inv s) (hidle : s.pending = [])
    (henabled : isEnabled s.node.lastValue key = true) :
    ∃ before, s.scan key = before ++ valuesAt s.seen key := by
  obtain ⟨before, hscan⟩ := h.scanned key henabled
  rw [hidle] at hscan
  exact ⟨before, by simpa [valuesAt] using hscan⟩

theorem Inv.uniform (h : Inv s) (hidle : s.pending = [])
    (henabled : isEnabled s.node.lastValue key = true) :
    Uniform (s.node.lastValue.snapshot key.1 key.2) := by
  obtain ⟨before, hscan⟩ := h.scan_eq hidle henabled
  have htyped : ∀ e ∈ s.node.lastValue.snapshot key.1 key.2, ∀ name v,
      e.fields.lookup name = some v →
        (typesOf (s.node.buffer key).1.fields).lookup name = some (valueType v) := by
    intro e he name v hv
    obtain ⟨q, hq, hfields⟩ := (h.snapshot henabled he).stored
    have hin : q ∈ s.scan key := by
      rw [hscan]
      exact List.mem_append_right _ (lastOf_mem hq).1
    exact typed_of_mem hin ((sameFields_iff.mp hfields name).symm.trans hv)
  intro e he e' he' name v v' hv hv'
  exact Option.some.inj ((htyped e he name v hv).symm.trans (htyped e' he' name v' hv'))

/-- A row of the batch is the row of the table. -/
theorem Inv.shown (h : Inv s) (hidle : s.pending = [])
    (henabled : isEnabled s.node.lastValue key = true) {r : Row}
    (hr : r ∈ (s.lastCache key).rows) :
    r ∈ valuesAt s.seen key ∧
      (∀ other ∈ valuesAt s.seen key, other.tags = r.tags → other.time ≤ r.time) ∧
      lastOf Row.key r.key (s.scan key) = some r := by
  obtain ⟨before, hscan⟩ := h.scan_eq hidle henabled
  obtain ⟨e, he, htime, htags, hfields, hsorted, harrival⟩ :=
    mem_rows_buildBatch (h.uniform hidle henabled) (fun e he => (h.snapshot henabled he).sorted) hr
  obtain ⟨_, hnewest, q, hq, hsame⟩ := h.snapshot henabled he
  obtain ⟨hmem, hkey⟩ := lastOf_mem hq
  have hin : q ∈ s.scan key := by
    rw [hscan]
    exact List.mem_append_right _ hmem
  obtain ⟨i, _, hqi⟩ := List.mem_map.mp hin
  have hrq : r = q := by
    have hqtime : q.time = e.timestampNs := (Prod.mk.inj hkey).1
    have hqtags : q.tags = tagSet e.tags := (Prod.mk.inj hkey).2
    have hqsorted : Increasing q.fields := hqi ▸ Increasing.collect _
    have hqarrival : q.arrival = 0 := hqi ▸ rfl
    have hrfields : r.fields = q.fields :=
      hsorted.ext hqsorted fun name => (hfields name).trans (sameFields_iff.mp hsame name)
    cases r
    cases q
    simp_all
  subst hrq
  refine ⟨hmem, fun other hother htagsOther => ?_, ?_⟩
  · rw [htime]
    exact hnewest other hother (htagsOther.trans htags)
  · rw [hscan, lastOf_append, hkey, hq, Option.some_or]

/-- The number of entries never exceeds the cap. Where every row of an opted-in
table that reaches the cache is plain and every table opts in with nothing
under its name, each row of `last_cache('t')` is, between the calls, the newest
acknowledged row of its series since the table opted in, as a scan shows it
after last-write-wins. -/
theorem last_cache_truth (fl : FloatOps) (node : Node) (cap : Nat) (acts : List Action)
    (s : State) :
    (Run (step fl) (fun _ _ => True) (start node cap) acts s →
      s.node.lastValue.entries.length ≤ max cap 1) ∧
    (Run (step fl) plainStep (start node cap) acts s → s.pending = [] →
      ∀ key, isEnabled s.node.lastValue key = true → ∀ r ∈ (s.lastCache key).rows,
        r ∈ valuesAt s.seen key ∧
          (∀ other ∈ valuesAt s.seen key, other.tags = r.tags → other.time ≤ r.time) ∧
          lastOf Row.key r.key (s.scan key) = some r) := by
  constructor
  · intro run
    have hbounded : Bounded (max cap 1) s :=
      run.invariant (fun _ _ _ h _ hs => h.step hs) ⟨rfl, Nat.zero_le _⟩
    exact hbounded.2
  · intro run hidle key henabled r hr
    have hinv : Inv s := run.invariant (fun _ _ _ h hok hs => h.step hok hs) (.start node cap)
    exact hinv.shown hidle henabled hr

end Truth

section Runs

/-- A body of as many lines, written and shown to the cache. -/
def wrote (lines : Nat) (body : String) : List Action :=
  .write (sampleCall body) (clear 0) :: List.replicate lines .observe

def bare : Node := openNode noFloats emptyBoot []

/-- A late row of one series, between rows of another. -/
def lateRow : List Action :=
  .enable ("db", "m") :: wrote 1 "m,h=a v=1i 5" ++ wrote 2 "m,h=a v=2i 9\nm,h=b v=3i 4" ++
    wrote 1 "m,h=a v=7i 6"

theorem lateRow_ignored : ∃ s, Run (step noFloats) plainStep (start bare 2) lateRow s ∧
    (s.lastCache ("db", "m")).rows.length = 2 ∧
    ∀ r ∈ (s.lastCache ("db", "m")).rows, r ∈ valuesAt s.seen ("db", "m") ∧
      (∀ other ∈ valuesAt s.seen ("db", "m"), other.tags = r.tags → other.time ≤ r.time) ∧
      lastOf Row.key r.key (s.scan ("db", "m")) = some r := by
  obtain ⟨s, run, hidle, henabled, hlength⟩ := exists_run_with (step noFloats) plainStep
    (start bare 2) lateRow (fun s => s.pending.isEmpty = true ∧
      isEnabled s.node.lastValue ("db", "m") = true ∧
      (s.lastCache ("db", "m")).rows.length = 2) (by decide +kernel)
  exact ⟨s, run, hlength, fun r hr => (last_cache_truth noFloats bare 2 lateRow s).2 run
    (List.isEmpty_iff.mp hidle) _ henabled r hr⟩

/-- The only place is taken by another series in between. -/
def evictedRow : List Action :=
  .enable ("db", "m") :: wrote 1 "m,h=a v=1i 10" ++ wrote 1 "m,h=b v=3i 1" ++
    wrote 1 "m,h=a v=2i 5"

/-- Two values for one timestamp. -/
def rewrittenRow : List Action :=
  .enable ("db", "m") :: wrote 1 "m,h=a v=1i 5" ++ wrote 1 "m,h=a v=2i 5"

/-- The reading of an evicted series goes backwards, and a correction at the
same timestamp is not seen. -/
theorem last_cache_stale :
    (∃ s, Run (step noFloats) (fun _ _ => True) (start bare 1) evictedRow s ∧ s.pending.length = 0 ∧
      isEnabled s.node.lastValue ("db", "m") = true ∧
      (s.lastCache ("db", "m")).rows = [⟨5, tagSet [("h", "a")], [("v", .int 2)], 0⟩] ∧
      valuesAt s.seen ("db", "m") = [⟨10, tagSet [("h", "a")], [("v", .int 1)], 0⟩,
        ⟨1, tagSet [("h", "b")], [("v", .int 3)], 0⟩,
        ⟨5, tagSet [("h", "a")], [("v", .int 2)], 0⟩]) ∧
    ∃ s, Run (step noFloats) (fun _ _ => True) (start bare 1) rewrittenRow s ∧
      s.pending.length = 0 ∧ isEnabled s.node.lastValue ("db", "m") = true ∧
      (s.lastCache ("db", "m")).rows = [⟨5, tagSet [("h", "a")], [("v", .int 1)], 0⟩] ∧
      lastOf Row.key (5, tagSet [("h", "a")]) (s.scan ("db", "m")) =
        some ⟨5, tagSet [("h", "a")], [("v", .int 2)], 0⟩ :=
  ⟨exists_run_with _ _ _ _ _ (by decide +kernel), exists_run_with _ _ _ _ _ (by decide +kernel)⟩

end Runs

end TimeLake.LastCache
