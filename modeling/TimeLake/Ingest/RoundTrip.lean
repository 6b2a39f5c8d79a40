import TimeLake.Ingest.Accounted

/-!
What the parser makes of the rows the serializer wrote. Of one row it gives the
row back if and only if the row is plain: its measurement is not empty and opens no
comment, no key is the reserved one, no text breaks the line, and every backslash is
followed by a character that may follow it. Of a list of rows it gives the list
back if and only if every one of them is plain.
-/

namespace TimeLake.Ingest

open TimeLake.Library TimeLake.Rows

section Pairs

def plainTag (p : String × String) : Bool :=
  keepsBackslashes .key p.1.toList && p.1 ≠ reservedKey && keepsBackslashes .value p.2.toList

def plainKey (p : String × FieldValue) : Bool :=
  keepsBackslashes .key p.1.toList && p.1 ≠ reservedKey

theorem takeTags_space (rest : List Char) : takeTags (' ' :: rest) = .ok ([], ' ' :: rest) :=
  takeTags_other fun _ heq => absurd (List.cons.inj heq).1 (by decide)

/-- The tags end in a space, and a tag value before the next comma or that space. -/
theorem tagsText_delimiter (tags : List (String × String)) (rest : List Char) :
    ∃ d tail, (d = Place.value.stop ∨ d = ' ') ∧ tagsText tags ++ ' ' :: rest = d :: tail := by
  cases tags with
  | nil => exact ⟨' ', rest, .inr rfl, rfl⟩
  | cons p tags => exact ⟨',', _, .inl rfl, rfl⟩

theorem takeTags_tagsText {tags : List (String × String)} (h : tags.all plainTag = true)
    (rest : List Char) : takeTags (tagsText tags ++ ' ' :: rest) = .ok (tags, ' ' :: rest) := by
  induction tags with
  | nil => exact takeTags_space rest
  | cons p tags ih =>
      obtain ⟨k, v⟩ := p
      rw [List.all_cons, Bool.and_eq_true] at h
      obtain ⟨hp, htags⟩ := h
      simp only [plainTag, Bool.and_eq_true, decide_eq_true_eq] at hp
      obtain ⟨⟨hkey, hreserved⟩, hvalue⟩ := hp
      obtain ⟨d, tail, hd, hnext⟩ := tagsText_delimiter tags rest
      have htoken := takeEscaped_escapeInto (p := .key) (d := '=')
        (t := escapeInto .value v.toList ++ (tagsText tags ++ ' ' :: rest)) (.inl rfl) hkey
      have hval := takeEscaped_escapeInto (p := .value) (t := tail) hd hvalue
      rw [← hnext] at hval
      rw [tagsText, List.cons_append, List.append_assoc, List.cons_append, List.append_assoc,
        takeTags_ok]
      change takeEscaped '=' _ = _ at htoken
      change takeEscaped ',' _ = _ at hval
      rw [htoken]
      refine ⟨_, tags, rfl, ?_, ?_, ?_⟩
      · rwa [String.ofList_toList]
      · rw [hval]
        exact ih htags
      · rw [hval, String.ofList_toList, String.ofList_toList]

/-- Tags that come back are plain. -/
theorem plainTag_of_takeTags {tags : List (String × String)} {rest left : List Char}
    (h : takeTags (tagsText tags ++ ' ' :: rest) = .ok (tags, left)) :
    tags.all plainTag = true := by
  induction tags with
  | nil => rfl
  | cons p tags ih =>
      obtain ⟨k, v⟩ := p
      rw [tagsText, List.cons_append, List.append_assoc, List.cons_append, List.append_assoc,
        takeTags_ok] at h
      obtain ⟨after, more, hafter, hreserved, hmore, heq⟩ := h
      obtain ⟨hp, rfl⟩ := List.cons.inj heq
      obtain ⟨hk, hv⟩ := Prod.mk.inj hp
      rw [← hk] at hreserved
      have hk' := congrArg String.toList hk
      rw [String.toList_ofList] at hk'
      have hkey := keepsBackslashes_of_takeEscaped (p := .key) (.inl rfl) hk'.symm
      have htoken := takeEscaped_escapeInto (p := .key) (d := '=')
        (t := escapeInto .value v.toList ++ (tagsText tags ++ ' ' :: rest)) (.inl rfl) hkey
      change takeEscaped '=' _ = _ at htoken
      rw [htoken] at hafter
      obtain rfl := (List.cons.inj hafter).2
      obtain ⟨d, tail, hd, hnext⟩ := tagsText_delimiter tags rest
      rw [hnext] at hv hmore
      have hv' := congrArg String.toList hv
      rw [String.toList_ofList] at hv'
      have hvalue := keepsBackslashes_of_takeEscaped (p := .value) hd hv'.symm
      have hval := takeEscaped_escapeInto (p := .value) (t := tail) hd hvalue
      change takeEscaped ',' _ = _ at hval
      rw [hval, ← hnext] at hmore
      rw [List.all_cons, ih hmore, Bool.and_true]
      simp [plainTag, hkey, hreserved, hvalue]

variable {fl : FloatOps} {display : UInt64 → List Char}

/-- One field in front of what a comma or the space before the timestamp begins. -/
theorem takeFields_pairText (hfl : FloatInverse fl display) {p : String × FieldValue}
    (hkey : keepsBackslashes .key p.1.toList = true) (hv : isFiniteField p.2 = true)
    {d : Char} (hd : d = ',' ∨ d = ' ') {tail left : List Char}
    {fields : List (String × FieldValue)} :
    takeFields fl (pairText display p ++ d :: tail) = .ok (fields, left) ↔
      p.1 ≠ reservedKey ∧
        ((∃ others, d = ',' ∧ takeFields fl tail = .ok (others, left) ∧ fields = p :: others) ∨
          (d = ' ' ∧ left = ' ' :: tail ∧ fields = [p])) := by
  have htoken := takeEscaped_escapeInto (p := .key) (d := '=')
    (t := fieldText display p.2 ++ d :: tail) (.inl rfl) hkey
  change takeEscaped '=' _ = _ at htoken
  have hvalue := takeFieldValue_fieldText hfl hv hd tail
  rw [pairText, List.append_assoc, List.cons_append, takeFields_ok, htoken]
  simp only [String.ofList_toList]
  constructor
  · rintro ⟨rest, v, after, hrest, hne, hv', hcases⟩
    obtain rfl := (List.cons.inj hrest).2
    rw [hvalue] at hv'
    obtain ⟨rfl, rfl⟩ := Prod.mk.inj (Except.ok.inj hv')
    refine ⟨hne, ?_⟩
    rcases hcases with ⟨more, others, heq, hmore, rfl⟩ | ⟨hlast, rfl, rfl⟩
    · obtain ⟨rfl, rfl⟩ := List.cons.inj heq
      exact .inl ⟨others, rfl, hmore, rfl⟩
    · rcases hd with rfl | rfl
      · exact absurd rfl (hlast tail)
      · exact .inr ⟨rfl, rfl, rfl⟩
  · rintro ⟨hne, ⟨others, rfl, hmore, rfl⟩ | ⟨rfl, rfl, rfl⟩⟩
    · exact ⟨_, _, _, rfl, hne, hvalue, .inl ⟨tail, others, rfl, hmore, rfl⟩⟩
    · refine ⟨_, _, _, rfl, hne, hvalue, .inr ⟨fun more heq => ?_, rfl, rfl⟩⟩
      exact absurd (List.cons.inj heq).1 (by decide)

/-- The first key of fields that come back keeps its backslashes. -/
theorem keepsBackslashes_of_takeFields {p : String × FieldValue} {text left : List Char}
    {others : List (String × FieldValue)}
    (h : takeFields fl (pairText display p ++ text) = .ok (p :: others, left)) :
    keepsBackslashes .key p.1.toList = true := by
  rw [pairText, List.append_assoc, List.cons_append, takeFields_ok] at h
  obtain ⟨rest, v, after, _, _, _, hcases⟩ := h
  have hp : p.1 = String.ofList (takeEscaped '='
      (escapeInto .key p.1.toList ++ '=' :: (fieldText display p.2 ++ text))).1 := by
    rcases hcases with ⟨_, _, _, _, heq⟩ | ⟨_, _, heq⟩
    · exact congrArg Prod.fst (List.cons.inj heq).1
    · exact congrArg Prod.fst (List.cons.inj heq).1
  have hp' := congrArg String.toList hp
  rw [String.toList_ofList] at hp'
  exact keepsBackslashes_of_takeEscaped (p := .key) (.inl rfl) hp'.symm

theorem takeFields_fieldsText (hfl : FloatInverse fl display)
    {fields : List (String × FieldValue)} (hne : fields ≠ [])
    (hfinite : fields.all (isFiniteField ·.2) = true) (hplain : fields.all plainKey = true)
    (tail : List Char) :
    takeFields fl (fieldsText display fields ++ ' ' :: tail) = .ok (fields, ' ' :: tail) := by
  induction fields with
  | nil => exact absurd rfl hne
  | cons p fields ih =>
      rw [List.all_cons, Bool.and_eq_true] at hfinite hplain
      have hkey := hplain.1
      simp only [plainKey, Bool.and_eq_true, decide_eq_true_eq] at hkey
      cases fields with
      | nil =>
          rw [fieldsText, takeFields_pairText hfl hkey.1 hfinite.1 (.inr rfl)]
          exact ⟨hkey.2, .inr ⟨rfl, rfl, rfl⟩⟩
      | cons q fields =>
          rw [fieldsText, List.append_assoc, List.cons_append,
            takeFields_pairText hfl hkey.1 hfinite.1 (.inl rfl)]
          exact ⟨hkey.2, .inl ⟨_, rfl, ih (by simp) hfinite.2 hplain.2, rfl⟩⟩

/-- Fields that come back have plain keys. -/
theorem plainKey_of_takeFields (hfl : FloatInverse fl display)
    {fields : List (String × FieldValue)} (hfinite : fields.all (isFiniteField ·.2) = true)
    {tail left : List Char}
    (h : takeFields fl (fieldsText display fields ++ ' ' :: tail) = .ok (fields, left)) :
    fields.all plainKey = true := by
  induction fields with
  | nil => rfl
  | cons p fields ih =>
      rw [List.all_cons, Bool.and_eq_true] at hfinite
      cases fields with
      | nil =>
          rw [fieldsText] at h
          have hkey := keepsBackslashes_of_takeFields h
          rw [takeFields_pairText hfl hkey hfinite.1 (.inr rfl)] at h
          simp [plainKey, hkey, h.1]
      | cons q fields =>
          rw [fieldsText, List.append_assoc] at h
          have hkey := keepsBackslashes_of_takeFields h
          rw [List.cons_append, takeFields_pairText hfl hkey hfinite.1 (.inl rfl)] at h
          obtain ⟨hreserved, ⟨others, _, hmore, heq⟩ | ⟨hd, _⟩⟩ := h
          · obtain rfl := (List.cons.inj heq).2
            rw [List.all_cons, ih hfinite.2 hmore]
            simp [plainKey, hkey, hreserved]
          · cases hd

end Pairs

section Timestamps

theorem isWhiteSpace_number {c : Char} (h : c = '-' ∨ c.isDigit = true) :
    isWhiteSpace c = false := by
  rcases h with rfl | h
  · decide
  · rw [Char.isDigit_iff_toNat] at h
    have hzero : '0'.toNat = 48 := rfl
    have hnine : '9'.toNat = 57 := rfl
    simp only [isWhiteSpace, Bool.or_eq_false_iff, Bool.and_eq_false_iff, decide_eq_false_iff_not]
    omega

theorem padInt_ne_nil (x : Int) : padInt 0 x ≠ [] := by
  rw [padInt]
  split
  · exact List.cons_ne_nil _ _
  · exact padNat_ne_nil 0 _

theorem trim_number {text : List Char} (h : ∀ c ∈ text, isWhiteSpace c = false) :
    trim text = text := by
  have hdrop : text.dropWhile isWhiteSpace = text :=
    List.dropWhile_eq_self_iff.mpr fun hl => by simp [h _ (List.getElem_mem hl)]
  rw [trim, hdrop, List.rdropWhile_eq_self_iff]
  intro hne
  rw [h _ (List.getLast_mem hne)]
  exact Bool.false_ne_true

theorem takeTimestamp_padInt {x : Int} (h : i64 x = some x) :
    takeTimestamp 1 (' ' :: padInt 0 x) = .ok (some x) := by
  have htrim : trim (padInt 0 x) = padInt 0 x :=
    trim_number fun c hc => isWhiteSpace_number (padInt_chars hc)
  rw [takeTimestamp, htrim]
  simp only [if_neg (padInt_ne_nil x), parseI64_padInt h, Int.mul_one, h]

end Timestamps

section Rows

/-- What every producer gives: a field, no float that is infinite or no number, and a
timestamp of the type. -/
structure Produced (row : ParsedLine) : Prop where
  fields : row.fields ≠ []
  finite : row.fields.all (isFiniteField ·.2) = true
  timestamp : i64 row.timestampNs = some row.timestampNs

/-- The line of the row, on its own, is read as the row. -/
def readsBack (row : ParsedLine) : Bool :=
  row.table ≠ "" && keepsBackslashes .measurement row.table.toList && row.tags.all plainTag &&
    row.fields.all plainKey

variable {fl : FloatOps} {display : UInt64 → List Char} {row : ParsedLine}

theorem parseLine_lineText (hfl : FloatInverse fl display) (hrow : Produced row) :
    parseLine fl (lineText display row) 1 0 = .ok row ↔ readsBack row = true := by
  obtain ⟨table, tags, fields, timestampNs⟩ := row
  obtain ⟨hfields, hfinite, htimestamp⟩ := hrow
  obtain ⟨d, tail, hd, hnext⟩ :=
    tagsText_delimiter tags (fieldsText display fields ++ ' ' :: padInt 0 timestampNs)
  have hline : lineText display ⟨table, tags, fields, timestampNs⟩ =
      escapeInto .measurement table.toList ++ d :: tail := by rw [lineText, hnext]
  simp only [readsBack, Bool.and_eq_true, decide_eq_true_eq]
  constructor
  · intro h
    obtain ⟨l, hread, hstamp⟩ := map_eq_ok.mp h
    obtain ⟨hne, tags', rest, fields', after, timestamp, htags, hfields', _, rfl⟩ :=
      readLine_ok.mp hread
    simp only [Line.stamp, ParsedLine.mk.injEq] at hstamp
    obtain ⟨htable, rfl, rfl, _⟩ := hstamp
    rw [hline] at hne htable htags
    have htable' := congrArg String.toList htable
    rw [String.toList_ofList] at htable'
    have hkeeps : keepsBackslashes .measurement table.toList = true :=
      keepsBackslashes_of_takeEscaped (p := .measurement) hd htable'
    have hname := takeEscaped_escapeInto (p := .measurement) (t := tail) hd hkeeps
    change takeEscaped ',' _ = _ at hname
    rw [hname] at hne htags
    rw [← hnext] at htags
    have hplain := plainTag_of_takeTags htags
    rw [takeTags_tagsText hplain] at htags
    obtain rfl := (List.cons.inj (Prod.mk.inj (Except.ok.inj htags)).2).2
    refine ⟨⟨⟨?_, hkeeps⟩, hplain⟩, plainKey_of_takeFields hfl hfinite hfields'⟩
    rintro rfl
    exact hne rfl
  · rintro ⟨⟨⟨hne, hkeeps⟩, htags⟩, hkeys⟩
    have hname := takeEscaped_escapeInto (p := .measurement) (t := tail) hd hkeeps
    change takeEscaped ',' _ = _ at hname
    refine map_eq_ok.mpr ⟨⟨table, tags, fields, some timestampNs⟩, ?_, rfl⟩
    rw [hline, readLine_ok, hname, ← hnext]
    refine ⟨?_, tags, _, fields, _, some timestampNs, takeTags_tagsText htags _,
      takeFields_fieldsText hfl hfields hfinite hkeys _, takeTimestamp_padInt htimestamp, ?_⟩
    · exact fun hnil => hne (String.toList_eq_nil_iff.mp hnil)
    · rw [String.ofList_toList]

end Rows

section Lines

def unbroken (s : String) : Bool := !s.toList.contains '\n'

def unbrokenValue : FieldValue → Bool
  | .str s => unbroken s
  | _ => true

/-- No text of the row has a line break. -/
def oneLine (table : String) (tags : List (String × String))
    (fields : List (String × FieldValue)) : Bool :=
  unbroken table && tags.all (fun p => unbroken p.1 && unbroken p.2) &&
    fields.all fun p => unbroken p.1 && unbrokenValue p.2

/-- The row is read back from among others. -/
def plainRow (row : ParsedLine) : Bool :=
  readsBack row && oneLine row.table row.tags row.fields && row.table.toList.head? ≠ some '#'

theorem unbroken_ofList {name : List Char} :
    unbroken (String.ofList name) = true ↔ '\n' ∉ name := by
  simp [unbroken]

variable {stop : Char} {text name : List Char}

theorem NameText.subset (h : NameText stop text name) : name ⊆ text := by
  induction h with
  | nil => exact List.Subset.refl _
  | escaped _ _ ih => exact List.subset_cons_of_subset _ (List.cons_subset_cons _ ih)
  | plain _ _ _ _ ih => exact List.cons_subset_cons _ ih

theorem QuotedText.subset (h : QuotedText text name) : name ⊆ text := by
  induction h with
  | nil => exact List.Subset.refl _
  | escaped _ _ ih => exact List.subset_cons_of_subset _ (List.cons_subset_cons _ ih)
  | plain _ _ _ ih => exact List.cons_subset_cons _ ih

variable {fl : FloatOps} {quoted : Bool} {table : String} {tags : List (String × String)}
  {fields : List (String × FieldValue)}

/-- A token makes a number or a truth value. -/
theorem unbrokenValue_of_scalar {token : List Char} {v : FieldValue}
    (h : scalar fl token = .ok v) : unbrokenValue v = true := by
  unfold scalar at h
  dsimp only at h
  repeat' split at h
  all_goals first
    | (obtain rfl := Except.ok.inj h; rfl)
    | cases h

theorem ValueText.unbroken {v : FieldValue} (h : ValueText fl quoted text v)
    (hline : '\n' ∉ text) : unbrokenValue v = true := by
  cases h with
  | quoted hs =>
      refine unbroken_ofList.mpr fun hmem => hline ?_
      exact List.mem_cons_of_mem _ (List.mem_append_left _ (hs.subset hmem))
  | scalar _ _ hscalar => exact unbrokenValue_of_scalar hscalar

theorem NameText.unbroken (h : NameText stop text name) (hline : '\n' ∉ text) :
    unbroken (String.ofList name) = true :=
  unbroken_ofList.mpr fun hmem => hline (h.subset hmem)

theorem TagsText.unbroken (h : TagsText text tags) (hline : '\n' ∉ text) :
    tags.all (fun p => Ingest.unbroken p.1 && Ingest.unbroken p.2) = true := by
  induction h with
  | nil => rfl
  | cons hkey _ hvalue _ ih =>
      simp only [List.mem_cons, List.mem_append, not_or] at hline
      obtain ⟨_, hkeyText, _, hvalueText, htext⟩ := hline
      rw [List.all_cons, hkey.unbroken hkeyText, hvalue.unbroken hvalueText, ih htext]
      rfl

theorem FieldsText.unbroken (h : FieldsText fl quoted text fields) (hline : '\n' ∉ text) :
    fields.all (fun p => Ingest.unbroken p.1 && unbrokenValue p.2) = true := by
  induction h with
  | last hkey _ hvalue =>
      simp only [List.mem_cons, List.mem_append, not_or] at hline
      obtain ⟨hkeyText, _, htext⟩ := hline
      rw [List.all_cons, hkey.unbroken hkeyText, hvalue.unbroken htext]
      rfl
  | cons hkey _ hvalue _ ih =>
      simp only [List.mem_cons, List.mem_append, not_or] at hline
      obtain ⟨hkeyText, _, hvalueText, _, htext⟩ := hline
      rw [List.all_cons, hkey.unbroken hkeyText, hvalue.unbroken hvalueText, ih htext]
      rfl

theorem RowText.oneLine (h : RowText fl quoted text table tags fields) (hline : '\n' ∉ text) :
    oneLine table tags fields = true := by
  cases h with
  | row htable _ htags hfields =>
      simp only [List.mem_cons, List.mem_append, not_or] at hline
      obtain ⟨htableText, htagsText, _, hfieldsText⟩ := hline
      rw [Ingest.oneLine, htable.unbroken htableText, htags.unbroken htagsText,
        hfields.unbroken hfieldsText]
      rfl

/-- A line without a break gives a row without one. -/
theorem oneLine_of_readLine {mult : Int} {line : List Char} {l : Line}
    (h : readLine fl mult line = .ok l) (hline : '\n' ∉ line) :
    oneLine l.table l.tags l.fields = true := by
  obtain ⟨quoted, text, left, rfl, hrow, _⟩ := readLine_rowText.mp h
  exact hrow.oneLine fun hmem => hline (List.mem_append_left _ hmem)

theorem splitLines_unbroken {text line : List Char} (h : line ∈ splitLines text) :
    '\n' ∉ line := by
  induction text generalizing line with
  | nil => cases h
  | cons c text ih =>
      rw [splitLines] at h
      split at h
      · rcases List.mem_cons.mp h with rfl | h
        · exact List.not_mem_nil
        · exact ih h
      · next hc =>
          have hc' : '\n' ≠ c := Ne.symm hc
          split at h
          · rw [List.mem_singleton.mp h]
            simpa using hc'
          · next first more hsplit =>
              rcases List.mem_cons.mp h with rfl | h
              · rw [List.mem_cons, not_or]
                exact ⟨hc', ih (hsplit ▸ List.mem_cons_self)⟩
              · exact ih (hsplit ▸ List.mem_cons_of_mem _ h)

theorem splitLines_cons {line : List Char} (h : '\n' ∉ line) (rest : List Char) :
    splitLines (line ++ '\n' :: rest) = line :: splitLines rest := by
  induction line with
  | nil => rw [List.nil_append, splitLines, if_pos rfl]
  | cons c line ih =>
      rw [List.mem_cons, not_or] at h
      rw [List.cons_append, splitLines, if_neg (Ne.symm h.1), ih h.2]

/-- The rows a body yields have no line break. -/
theorem oneLine_of_readLinesFrom {mult : Int} {no : Nat} {lines : List (List Char)}
    {ls : List Line} (h : readLinesFrom fl mult no lines = .ok ls)
    (hlines : ∀ line ∈ lines, '\n' ∉ line) :
    ls.length ≤ lines.length ∧ ∀ l ∈ ls, oneLine l.table l.tags l.fields = true := by
  induction lines generalizing no ls with
  | nil =>
      obtain rfl := Except.ok.inj h
      exact ⟨Nat.le_refl _, fun _ hl => absurd hl List.not_mem_nil⟩
  | cons raw lines ih =>
      have hrest : ∀ line ∈ lines, '\n' ∉ line := fun line hl => hlines line (.tail _ hl)
      rw [readLinesFrom] at h
      split at h
      · obtain ⟨hlen, hall⟩ := ih h hrest
        exact ⟨Nat.le_succ_of_le hlen, hall⟩
      · split at h
        · cases h
        · next l hread =>
            obtain ⟨more, hmore, rfl⟩ := map_eq_ok.mp h
            obtain ⟨hlen, hall⟩ := ih hmore hrest
            have hraw : '\n' ∉ raw.rdropWhile (· = '\r') := fun hmem =>
              hlines raw List.mem_cons_self ((List.rdropWhile_prefix _ _).subset hmem)
            refine ⟨Nat.succ_le_succ hlen, fun l' hl' => ?_⟩
            rcases List.mem_cons.mp hl' with rfl | hl'
            · exact oneLine_of_readLine hread hraw
            · exact hall l' hl'

end Lines

section Body

variable {fl : FloatOps} {display : UInt64 → List Char}

theorem newline_mem_escapeInto {p : Place} {s : List Char} (h : '\n' ∈ escapeInto p s) :
    '\n' ∈ s := by
  obtain ⟨c, hc, hmem⟩ := List.mem_flatMap.mp h
  split at hmem
  all_goals simp only [List.mem_cons, List.not_mem_nil, or_false] at hmem
  · rcases hmem with hmem | rfl
    · cases hmem
    · exact hc
  · rwa [hmem]

theorem newline_mem_quoteInto {s : List Char} (h : '\n' ∈ quoteInto s) : '\n' ∈ s := by
  obtain ⟨c, hc, hmem⟩ := List.mem_flatMap.mp h
  split at hmem
  all_goals simp only [List.mem_cons, List.not_mem_nil, or_false] at hmem
  · rcases hmem with hmem | rfl
    · cases hmem
    · exact hc
  · rwa [hmem]

theorem escapeInto_unbroken {p : Place} {s : String} (h : unbroken s = true) :
    '\n' ∉ escapeInto p s.toList := by
  intro hmem
  simp [unbroken, newline_mem_escapeInto hmem] at h

theorem padInt_unbroken (x : Int) : '\n' ∉ padInt 0 x :=
  fun hmem => (decimal_plain ((padInt_chars hmem).imp_right .inr)).2.1 rfl

theorem fieldText_unbroken (hfl : FloatInverse fl display) {v : FieldValue}
    (hfinite : isFiniteField v = true) (h : unbrokenValue v = true) :
    '\n' ∉ fieldText display v := by
  cases v with
  | float bits =>
      exact fun hmem =>
        (decimal_plain ((isDecimal_chars (hfl.decimal bits hfinite)).2 _ hmem)).2.1 rfl
  | int x =>
      intro hmem
      rcases List.mem_append.mp hmem with hmem | hmem
      · exact padInt_unbroken _ hmem
      · cases List.mem_singleton.mp hmem
  | uint x =>
      intro hmem
      rcases List.mem_append.mp hmem with hmem | hmem
      · exact (decimal_plain (.inr (.inr (padNat_isDigit hmem)))).2.1 rfl
      · cases List.mem_singleton.mp hmem
  | bool b => cases b <;> simp [fieldText]
  | str s =>
      intro hmem
      simp only [fieldText, List.mem_cons, List.mem_append, List.not_mem_nil, or_false] at hmem
      rcases hmem with hmem | hmem | hmem
      · cases hmem
      · simp [unbrokenValue, unbroken, newline_mem_quoteInto hmem] at h
      · cases hmem

theorem tagsText_unbroken {tags : List (String × String)}
    (h : tags.all (fun p => unbroken p.1 && unbroken p.2) = true) : '\n' ∉ tagsText tags := by
  induction tags with
  | nil => exact List.not_mem_nil
  | cons p tags ih =>
      obtain ⟨k, v⟩ := p
      simp only [List.all_cons, Bool.and_eq_true] at h
      obtain ⟨⟨hk, hv⟩, htags⟩ := h
      simp only [tagsText, List.mem_cons, List.mem_append, not_or]
      exact ⟨by decide, escapeInto_unbroken hk, by decide, escapeInto_unbroken hv, ih htags⟩

theorem fieldsText_unbroken (hfl : FloatInverse fl display) {fields : List (String × FieldValue)}
    (hfinite : fields.all (isFiniteField ·.2) = true)
    (h : fields.all (fun p => unbroken p.1 && unbrokenValue p.2) = true) :
    '\n' ∉ fieldsText display fields := by
  have hpair : ∀ p : String × FieldValue, isFiniteField p.2 = true →
      (unbroken p.1 && unbrokenValue p.2) = true → '\n' ∉ pairText display p := by
    intro p hp hp'
    rw [Bool.and_eq_true] at hp'
    simp only [pairText, List.mem_cons, List.mem_append, not_or]
    exact ⟨escapeInto_unbroken hp'.1, by decide, fieldText_unbroken hfl hp hp'.2⟩
  induction fields with
  | nil => exact List.not_mem_nil
  | cons p fields ih =>
      rw [List.all_cons, Bool.and_eq_true] at hfinite h
      cases fields with
      | nil => exact hpair p hfinite.1 h.1
      | cons q fields =>
          simp only [fieldsText, List.mem_cons, List.mem_append, not_or]
          exact ⟨hpair p hfinite.1 h.1, by decide, ih hfinite.2 h.2⟩

theorem lineText_unbroken (hfl : FloatInverse fl display) {row : ParsedLine}
    (hrow : Produced row) (h : oneLine row.table row.tags row.fields = true) :
    '\n' ∉ lineText display row := by
  simp only [oneLine, Bool.and_eq_true] at h
  simp only [lineText, List.mem_cons, List.mem_append, not_or]
  exact ⟨escapeInto_unbroken h.1.1, tagsText_unbroken h.1.2, by decide,
    fieldsText_unbroken hfl hrow.finite h.2, by decide, padInt_unbroken _⟩

/-- A line that ends in a number ends in no carriage return. -/
theorem rdropWhile_number (front : List Char) (x : Int) :
    (front ++ padInt 0 x).rdropWhile (· = '\r') = front ++ padInt 0 x := by
  rw [List.rdropWhile_eq_self_iff]
  intro hne
  rw [List.getLast_append_right (padInt_ne_nil x), decide_eq_true_eq]
  intro hlast
  have hmem := List.getLast_mem (padInt_ne_nil x)
  rw [hlast] at hmem
  rcases padInt_chars hmem with heq | hdigit
  · cases heq
  · cases hdigit

theorem rdropWhile_lineText (row : ParsedLine) :
    (lineText display row).rdropWhile (· = '\r') = lineText display row := by
  have hfront := rdropWhile_number (escapeInto .measurement row.table.toList ++
    (tagsText row.tags ++ ' ' :: (fieldsText display row.fields ++ [' ']))) row.timestampNs
  simpa [lineText] using hfront

/-- A line is a comment if and only if its measurement opens one. -/
theorem head?_lineText (row : ParsedLine) :
    (lineText display row).head? = some '#' ↔ row.table.toList.head? = some '#' := by
  rw [lineText]
  cases row.table.toList with
  | nil =>
      cases htags : row.tags with
      | nil => simp [escapeInto, tagsText]
      | cons p tags => simp [escapeInto, tagsText]
  | cons c s =>
      rw [escapeInto_cons]
      cases hesc : Place.measurement.escapes c with
      | false => simp
      | true =>
          have hc : c ≠ '#' := by
            rintro rfl
            cases hesc
          simp [hc]

/-- The lines of rows, each of them on a line of its own, give the rows back if and
only if each row is read back and none is a comment. -/
theorem readLinesFrom_lineText (hfl : FloatInverse fl display) {rows : List ParsedLine}
    (hrows : ∀ row ∈ rows, Produced row)
    (hlines : ∀ row ∈ rows, oneLine row.table row.tags row.fields = true) (no : Nat) :
    (readLinesFrom fl 1 no (rows.map (lineText display))).map (List.map (Line.stamp 0)) =
        .ok rows ↔ ∀ row ∈ rows, plainRow row = true := by
  induction rows generalizing no with
  | nil => exact ⟨fun _ _ h => absurd h List.not_mem_nil, fun _ => rfl⟩
  | cons row rows ih =>
      have hrow := hrows row List.mem_cons_self
      have hrest : ∀ row ∈ rows, Produced row := fun r hr => hrows r (.tail _ hr)
      have hlinesRest := fun r hr => hlines r (List.mem_cons_of_mem row hr)
      have hread := parseLine_lineText hfl hrow
      have hne : lineText display row ≠ [] := by simp [lineText]
      rw [List.map_cons, readLinesFrom, rdropWhile_lineText, List.forall_mem_cons]
      by_cases hcomment : row.table.toList.head? = some '#'
      · -- the line is skipped, and too few rows come back
        rw [if_pos (by simp [head?_lineText, hcomment])]
        constructor
        · intro h
          obtain ⟨ls, hls, heq⟩ := map_eq_ok.mp h
          have hunbroken : ∀ line ∈ rows.map (lineText display), '\n' ∉ line := by
            intro line hline
            obtain ⟨r, hr, rfl⟩ := List.mem_map.mp hline
            exact lineText_unbroken hfl (hrest r hr) (hlinesRest r hr)
          have hlen := (oneLine_of_readLinesFrom hls hunbroken).1
          have hlen' := congrArg List.length heq
          simp only [List.length_map, List.length_cons] at hlen hlen'
          omega
        · rintro ⟨hplain, _⟩
          simp [plainRow, hcomment] at hplain
      · have hplain : plainRow row = true ↔ readsBack row = true := by
          simp [plainRow, hlines row List.mem_cons_self, hcomment]
        rw [if_neg (by simp [hne, head?_lineText, hcomment]), hplain, ← hread]
        cases hline : readLine fl 1 (lineText display row) with
        | error e =>
            rw [parseLine, hline]
            constructor
            · intro h
              cases h
            · rintro ⟨h, _⟩
              cases h
        | ok l =>
            rw [parseLine, hline, ← ih hrest hlinesRest (no + 1)]
            constructor
            · intro h
              obtain ⟨ls, hls, heq⟩ := map_eq_ok.mp h
              obtain ⟨more, hmore, rfl⟩ := map_eq_ok.mp hls
              obtain ⟨hstamp, hrows⟩ := List.cons.inj heq
              exact ⟨congrArg Except.ok hstamp, map_eq_ok.mpr ⟨more, hmore, hrows⟩⟩
            · rintro ⟨hstamp, h⟩
              obtain ⟨more, hmore, hrows⟩ := map_eq_ok.mp h
              refine map_eq_ok.mpr ⟨l :: more, map_eq_ok.mpr ⟨more, hmore, rfl⟩, ?_⟩
              rw [List.map_cons, hrows, Except.ok.inj hstamp]

/-- Rows come back from the text the serializer writes if and only if each of them is
plain. -/
theorem parseLines_toLineProtocol (hfl : FloatInverse fl display) {rows : List ParsedLine}
    (hrows : ∀ row ∈ rows, Produced row) :
    parseLines fl (toLineProtocol display rows) 1 0 = .ok rows ↔
      ∀ row ∈ rows, plainRow row = true := by
  have hsplit : (∀ row ∈ rows, oneLine row.table row.tags row.fields = true) →
      splitLines (toLineProtocol display rows).toList = rows.map (lineText display) := by
    intro hlines
    rw [toLineProtocol, String.toList_ofList]
    induction rows with
    | nil => rfl
    | cons row rows ih =>
        have hunbroken := lineText_unbroken hfl (hrows row List.mem_cons_self)
          (hlines row List.mem_cons_self)
        rw [List.flatMap_cons, List.append_assoc, List.singleton_append,
          splitLines_cons hunbroken, List.map_cons,
          ih (fun r hr => hrows r (.tail _ hr)) fun r hr => hlines r (.tail _ hr)]
  rw [parseLines, readLines]
  constructor
  · intro h
    have hlines : ∀ row ∈ rows, oneLine row.table row.tags row.fields = true := by
      intro row hrow
      obtain ⟨ls, hls, rfl⟩ := map_eq_ok.mp h
      obtain ⟨l, hl, rfl⟩ := List.mem_map.mp hrow
      exact (oneLine_of_readLinesFrom hls fun _ => splitLines_unbroken).2 l hl
    rw [hsplit hlines] at h
    exact (readLinesFrom_lineText hfl hrows hlines 1).mp h
  · intro h
    have hlines : ∀ row ∈ rows, oneLine row.table row.tags row.fields = true := by
      intro row hrow
      have hplain := h row hrow
      simp only [plainRow, Bool.and_eq_true] at hplain
      exact hplain.1.2
    rw [hsplit hlines]
    exact (readLinesFrom_lineText hfl hrows hlines 1).mpr h

end Body

end TimeLake.Ingest
