import TimeLake.Ingest.LastValue
import TimeLake.Library.Split

/-!
The texts under which the last-value cache keeps its series. `series_key`
joins the parts with a zero character and the two sides of a tag with `=`, and
escapes neither. Over names and tags that keep clear of both the text determines
the series; every other series has another one under its text.
-/

namespace TimeLake.LastCache

open TimeLake.Library TimeLake.Ingest

/-- What a series is: its table and its sorted tags. -/
structure Series where
  db : String
  table : String
  tags : List (String × String)
  deriving DecidableEq

def Series.key (s : Series) : String := seriesKey s.db s.table s.tags

section Plain

def PlainName (name : String) : Prop := '\x00' ∉ name.toList

instance (name : String) : Decidable (PlainName name) := inferInstanceAs (Decidable (_ ∉ _))

/-- No separator in the key, and in the value no zero character with an equals
sign behind it. -/
def PlainTag (p : String × String) : Prop :=
  '\x00' ∉ p.1.toList ∧ '=' ∉ p.1.toList ∧ '=' ∉ p.2.toList.dropWhile (· ≠ '\x00')

instance (p : String × String) : Decidable (PlainTag p) := inferInstanceAs (Decidable (_ ∧ _ ∧ _))

structure Series.Plain (s : Series) : Prop where
  db : PlainName s.db
  table : PlainName s.table
  tags : ∀ p ∈ s.tags, PlainTag p

end Plain

section Text

/-- The tags one behind the other, with a zero character in front of each. -/
def tagsText : List (String × String) → List Char
  | [] => []
  | p :: rest => '\x00' :: (p.1.toList ++ '=' :: (p.2.toList ++ tagsText rest))

theorem intercalate_tags (tags : List (String × String)) :
    (String.intercalate "\x00" (tags.map fun p => p.1 ++ "=" ++ p.2)).toList =
      (tagsText tags).drop 1 := by
  induction tags with
  | nil => rfl
  | cons p rest ih =>
      cases rest with
      | nil => simp [tagsText]
      | cons q more =>
          rw [List.map_cons] at ih ⊢
          rw [List.map_cons, String.intercalate_cons_cons, String.toList_append, ih]
          simp [tagsText]

theorem toList_keyPrefix (db table : String) :
    (keyPrefix db table).toList = db.toList ++ '\x00' :: (table.toList ++ ['\x00']) := by
  simp [keyPrefix]

theorem toList_key (s : Series) :
    s.key.toList =
      s.db.toList ++ '\x00' :: (s.table.toList ++ '\x00' :: (tagsText s.tags).drop 1) := by
  rw [Series.key, seriesKey, String.toList_append, toList_keyPrefix, intercalate_tags]
  simp

/-- Two texts that continue a plain name with a zero character. -/
theorem cut_name {name other : String} {rest rest' : List Char} (hname : PlainName name)
    (hother : PlainName other)
    (h : name.toList ++ '\x00' :: rest = other.toList ++ '\x00' :: rest') :
    name = other ∧ rest = rest' := by
  have hcut := cutAt_append hname rest
  rw [h, cutAt_append hother rest'] at hcut
  obtain ⟨hlist, hrest⟩ := Prod.mk.inj (Option.some.inj hcut)
  exact ⟨(String.toList_injective hlist).symm, hrest.symm⟩

end Text

section Tags

theorem mem_after_zero {c : Char} {before after : List Char} (h : c ∈ after) :
    c ∈ (before ++ '\x00' :: after).dropWhile (· ≠ '\x00') := by
  induction before with
  | nil => simp [h]
  | cons d rest ih =>
      rw [List.cons_append, List.dropWhile_cons]
      split
      · exact ih
      · simp [h]

/-- Neither of two texts reaches its own separator through the other's. -/
theorem separators_clash {a b : Char} (hne : a ≠ b) {x y r r' : List Char} (hx : b ∉ x)
    (hy : a ∉ y) : x ++ a :: r ≠ y ++ b :: r' := by
  induction x generalizing y with
  | nil =>
      cases y with
      | nil => simp [hne]
      | cons d y => simp [show a ≠ d from fun heq => hy (by simp [heq])]
  | cons c x ih =>
      cases y with
      | nil => simp [show c ≠ b from fun heq => hx (by simp [heq])]
      | cons d y =>
          intro h
          exact ih (fun hmem => hx (by simp [hmem])) (fun hmem => hy (by simp [hmem]))
            (List.cons.inj h).2

/-- A plain value does not reach into the tags behind it. -/
theorem value_ends {v u : List Char} {rest rest' : List (String × String)}
    (hvalue : '=' ∉ (v ++ u).dropWhile (· ≠ '\x00')) (hrest : ∀ p ∈ rest, PlainTag p)
    (h : tagsText rest = u ++ tagsText rest') : u = [] := by
  cases u with
  | nil => rfl
  | cons c u =>
      exfalso
      cases rest with
      | nil => cases h
      | cons p more =>
          obtain ⟨hzero, hequals, -⟩ := hrest p (by simp)
          rw [tagsText, List.cons_append] at h
          obtain ⟨rfl, htail⟩ := List.cons.inj h
          have hclear : '=' ∉ u := fun hmem => hvalue (mem_after_zero hmem)
          have hbehind : ∃ behind, tagsText rest' = '\x00' :: behind := by
            cases rest' with
            | nil =>
                have hmem : '=' ∈ u := by
                  rw [← List.append_nil u, ← tagsText, ← htail]
                  simp
                exact absurd hmem hclear
            | cons q _ => exact ⟨_, rfl⟩
          obtain ⟨behind, hbehind⟩ := hbehind
          rw [hbehind] at htail
          exact separators_clash (by decide) hzero hclear htail

theorem value_unique {v v' : String} {rest rest' : List (String × String)} {k k' : String}
    (hv : PlainTag (k, v)) (hv' : PlainTag (k', v')) (hrest : ∀ p ∈ rest, PlainTag p)
    (hrest' : ∀ p ∈ rest', PlainTag p)
    (h : v.toList ++ tagsText rest = v'.toList ++ tagsText rest') :
    v = v' ∧ tagsText rest = tagsText rest' := by
  rcases List.append_eq_append_iff.mp h with ⟨u, hu, htext⟩ | ⟨u, hu, htext⟩
  · have hnil := value_ends (hu ▸ hv'.2.2) hrest htext
    subst hnil
    rw [List.append_nil] at hu
    exact ⟨(String.toList_injective hu).symm, htext⟩
  · have hnil := value_ends (hu ▸ hv.2.2) hrest' htext
    subst hnil
    rw [List.append_nil] at hu
    exact ⟨String.toList_injective hu, htext.symm⟩

theorem tagsText_injective {tags tags' : List (String × String)} (h : ∀ p ∈ tags, PlainTag p)
    (h' : ∀ p ∈ tags', PlainTag p) (heq : tagsText tags = tagsText tags') : tags = tags' := by
  induction tags generalizing tags' with
  | nil =>
      cases tags' with
      | nil => rfl
      | cons p rest => cases heq
  | cons p rest ih =>
      cases tags' with
      | nil => cases heq
      | cons q rest' =>
          obtain ⟨k, v⟩ := p
          obtain ⟨k', v'⟩ := q
          rw [List.forall_mem_cons] at h h'
          have htail := (List.cons.inj heq).2
          have hcut := cutAt_append h.1.2.1 (v.toList ++ tagsText rest)
          rw [htail, cutAt_append h'.1.2.1] at hcut
          obtain ⟨hkey, hvalue⟩ := Prod.mk.inj (Option.some.inj hcut)
          obtain ⟨rfl, hmore⟩ := value_unique h.1 h'.1 h.2 h'.2 hvalue.symm
          obtain rfl : k' = k := String.toList_injective hkey
          rw [ih h.2 h'.2 hmore]

theorem tagsText_of_drop {tags tags' : List (String × String)}
    (h : (tagsText tags).drop 1 = (tagsText tags').drop 1) : tagsText tags = tagsText tags' := by
  cases tags with
  | nil =>
      cases tags' with
      | nil => rfl
      | cons q rest => simp [tagsText] at h
  | cons p rest =>
      cases tags' with
      | nil => simp [tagsText] at h
      | cons q rest' => exact congrArg (List.cons '\x00') h

end Tags

/-- Plain series have different texts. -/
theorem Series.Plain.key_inj {s s' : Series} (h : s.Plain) (h' : s'.Plain)
    (heq : s.key = s'.key) : s = s' := by
  have hlist := congrArg String.toList heq
  rw [toList_key, toList_key] at hlist
  obtain ⟨hdb, hlist⟩ := cut_name h.db h'.db hlist
  obtain ⟨htable, hlist⟩ := cut_name h.table h'.table hlist
  have htags := tagsText_injective h.tags h'.tags (tagsText_of_drop hlist)
  cases s
  cases s'
  cases hdb
  cases htable
  cases htags
  rfl

/-- The text of a plain series begins with the prefix of its own table only. -/
theorem Series.Plain.under_iff {s : Series} (h : s.Plain) {db table : String}
    (hdb : PlainName db) (htable : PlainName table) :
    (keyPrefix db table).toList.isPrefixOf s.key.toList = true ↔ db = s.db ∧ table = s.table := by
  rw [List.isPrefixOf_iff_prefix, toList_keyPrefix, toList_key]
  constructor
  · rintro ⟨rest, hrest⟩
    simp only [List.append_assoc, List.cons_append] at hrest
    obtain ⟨hdb, htail⟩ := cut_name hdb h.db hrest
    exact ⟨hdb, (cut_name htable h.table htail).1⟩
  · rintro ⟨rfl, rfl⟩
    exact ⟨(tagsText s.tags).drop 1, by simp⟩

section Shared

theorem key_eq_of_text {s s' : Series}
    (h : s'.db.toList ++ '\x00' :: (s'.table.toList ++ '\x00' :: (tagsText s'.tags).drop 1) =
      s.db.toList ++ '\x00' :: (s.table.toList ++ '\x00' :: (tagsText s.tags).drop 1)) :
    s'.key = s.key := by
  apply String.toList_injective
  rw [toList_key, toList_key, h]

theorem ne_of_db_length {s s' : Series} (h : s'.db.toList.length ≠ s.db.toList.length) :
    s' ≠ s := by
  rintro rfl
  exact h rfl

/-- A zero character in a name can be taken for the end of the database. -/
theorem exists_other_of_names {s : Series} (h : ¬ PlainName s.db ∨ ¬ PlainName s.table) :
    ∃ s' : Series, s' ≠ s ∧ s'.tags = s.tags ∧ s'.key = s.key := by
  simp only [PlainName, not_not] at h
  rcases h with hdb | htable
  · obtain ⟨front, back, hsplit⟩ := List.append_of_mem hdb
    refine ⟨⟨String.ofList front, String.ofList (back ++ '\x00' :: s.table.toList), s.tags⟩,
      ne_of_db_length ?_, rfl, key_eq_of_text ?_⟩
    · simp [hsplit]
    · simp [hsplit]
  · obtain ⟨front, back, hsplit⟩ := List.append_of_mem htable
    refine ⟨⟨String.ofList (s.db.toList ++ '\x00' :: front), String.ofList back, s.tags⟩,
      ne_of_db_length ?_, rfl, key_eq_of_text ?_⟩
    · simp
    · simp [hsplit]

/-- A separator in a tag can be taken for the end of the table, of the key or of
the tag. -/
theorem exists_other_of_tag {s : Series} {k v : String} (htags : s.tags = [(k, v)])
    (h : ¬ PlainTag (k, v)) :
    ∃ s' : Series, s' ≠ s ∧ sortTags s'.tags = s'.tags ∧ s'.key = s.key := by
  have hcases : '\x00' ∈ k.toList ∨ '=' ∈ k.toList ∨ '=' ∈ v.toList.dropWhile (· ≠ '\x00') := by
    by_contra hnot
    simp only [not_or] at hnot
    exact h hnot
  rcases hcases with hzero | hequals | hvalue
  · obtain ⟨front, back, hsplit⟩ := List.append_of_mem hzero
    refine ⟨⟨String.ofList (s.db.toList ++ '\x00' :: s.table.toList), String.ofList front,
      [(String.ofList back, v)]⟩, ne_of_db_length ?_, rfl, key_eq_of_text ?_⟩
    · simp
    · simp [htags, tagsText, hsplit]
  · obtain ⟨front, back, hsplit⟩ := List.append_of_mem hequals
    refine ⟨⟨s.db, s.table, [(String.ofList front, String.ofList (back ++ '=' :: v.toList))]⟩,
      ?_, rfl, key_eq_of_text ?_⟩
    · intro heq
      have hsame := congrArg Series.tags heq
      rw [htags] at hsame
      have hkey := congrArg (fun p : String × String => p.1.toList.length) (List.cons.inj hsame).1
      simp [hsplit] at hkey
    · simp [htags, tagsText, hsplit]
  · have hzero : '\x00' ∈ v.toList := by
      by_contra hout
      rw [List.dropWhile_eq_nil_iff.mpr] at hvalue
      · cases hvalue
      · exact fun c hc => by simpa using fun heq : c = '\x00' => hout (heq ▸ hc)
    obtain ⟨front, back, hsplit, hout⟩ := List.eq_append_cons_of_mem hzero
    rw [hsplit, dropWhile_ne_append hout, List.mem_cons] at hvalue
    obtain ⟨key, value, hback⟩ := List.append_of_mem (hvalue.resolve_left (by decide))
    refine ⟨⟨String.ofList (s.db.toList ++ '\x00' :: s.table.toList),
      String.ofList (k.toList ++ '=' :: front), [(String.ofList key, String.ofList value)]⟩,
      ne_of_db_length ?_, rfl, key_eq_of_text ?_⟩
    · simp
    · simp [htags, tagsText, hsplit, hback]

/-- Two tags can be taken for one. -/
theorem exists_other_of_tags {s : Series} {p q : String × String} {rest : List (String × String)}
    (htags : s.tags = p :: q :: rest) :
    ∃ s' : Series, s' ≠ s ∧ sortTags s'.tags = s'.tags ∧ s'.key = s.key := by
  refine ⟨⟨s.db, s.table, [(p.1, String.ofList (p.2.toList ++ tagsText (q :: rest)))]⟩, ?_, rfl,
    key_eq_of_text ?_⟩
  · intro heq
    have hsame := congrArg Series.tags heq
    rw [htags] at hsame
    cases (List.cons.inj hsame).2
  · rw [htags]
    simp [tagsText]

/-- Every series that is not plain shares its text with another one. -/
theorem exists_other {s : Series} (hsorted : sortTags s.tags = s.tags) (h : ¬ s.Plain) :
    ∃ s' : Series, s' ≠ s ∧ sortTags s'.tags = s'.tags ∧ s'.key = s.key := by
  by_cases hnames : PlainName s.db ∧ PlainName s.table
  · cases htags : s.tags with
    | nil => exact absurd ⟨hnames.1, hnames.2, by simp [htags]⟩ h
    | cons p rest =>
        cases rest with
        | nil =>
            refine exists_other_of_tag htags fun hp => h ⟨hnames.1, hnames.2, ?_⟩
            simpa [htags] using hp
        | cons q rest => exact exists_other_of_tags htags
  · obtain ⟨s', hne, htags, hkey⟩ := exists_other_of_names (not_and_or.mp hnames)
    exact ⟨s', hne, by rw [htags, hsorted], hkey⟩

end Shared

end TimeLake.LastCache
