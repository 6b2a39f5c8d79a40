import TimeLake.Ingest.LineGrammar

/-!
Which bytes of an accepted line the parser has looked at. All of them, if the line is
a row with nothing, blanks or a timestamp behind it. But the parser looks for the
timestamp only where a space follows the last field, and takes every other line to
end there: behind the quote that closes the last field it drops whatever stands
there, and the row is stamped with the default.
-/

namespace TimeLake.Ingest

open TimeLake.Library TimeLake.Rows

/-- The texts that may follow the fields: nothing, blanks, or a space and a timestamp. -/
inductive TimestampText (mult : Int) : List Char → Option Int → Prop where
  | absent : TimestampText mult [] none
  | blank {text : List Char} : trim text = [] → TimestampText mult (' ' :: text) none
  | given {text : List Char} {n t : Int} :
      trim text ≠ [] → parseI64 (trim text) = some n → i64 (n * mult) = some t →
      TimestampText mult (' ' :: text) (some t)

/-- The texts of a row up to its last field. -/
inductive RowText (fl : FloatOps) : Bool → List Char → String → List (String × String) →
    List (String × FieldValue) → Prop where
  | row {quoted : Bool} {tableText table tagsText fieldsText : List Char}
      {tags : List (String × String)} {fields : List (String × FieldValue)} :
      NameText ',' tableText table → table ≠ [] → TagsText tagsText tags →
      FieldsText fl quoted fieldsText fields →
      RowText fl quoted (tableText ++ (tagsText ++ ' ' :: fieldsText)) (String.ofList table) tags
        fields

/-- The line is the row and what may follow its fields, nothing else. -/
def Accounted (fl : FloatOps) (mult defaultTsNs : Int) (line : List Char) (row : ParsedLine) :
    Prop :=
  ∃ quoted text tail timestamp, line = text ++ tail ∧
    RowText fl quoted text row.table row.tags row.fields ∧
    TimestampText mult tail timestamp ∧ row.timestampNs = timestamp.getD defaultTsNs

/-- A closing quote ends the fields and neither a comma nor a space follows it. -/
def Stray (fl : FloatOps) (line : List Char) : Prop :=
  ∃ text c junk table tags fields, line = text ++ c :: junk ∧
    RowText fl true text table tags fields ∧ c ≠ ',' ∧ c ≠ ' '

section Scanners

variable {fl : FloatOps} {mult : Int} {line left : List Char} {l : Line}

theorem takeTimestamp_of_timestampText {t : Option Int} (h : TimestampText mult left t) :
    takeTimestamp mult left = .ok t := by
  cases h with
  | absent => rfl
  | blank htrim =>
      rw [takeTimestamp]
      simp only [if_pos htrim]
  | given htrim hparse hrange =>
      rw [takeTimestamp]
      simp only [if_neg htrim, hparse, hrange]

theorem timestampText_of_takeTimestamp {t : Option Int}
    (hleft : ∀ d tail, left = d :: tail → d = ' ') (h : takeTimestamp mult left = .ok t) :
    TimestampText mult left t := by
  cases left with
  | nil =>
      cases h
      exact .absent
  | cons d text =>
      obtain rfl := hleft d text rfl
      rw [takeTimestamp] at h
      split at h
      · next htrim =>
          cases h
          exact .blank htrim
      · next htrim =>
          split at h
          · cases h
          · next n hparse =>
              split at h
              · cases h
              · next t' hrange =>
                  cases h
                  exact .given htrim hparse hrange

theorem TimestampText.starts {t : Option Int} (h : TimestampText mult left t) :
    ∀ d tail, left = d :: tail → d = ' ' := by
  rintro d tail rfl
  cases h <;> rfl

variable {quoted : Bool} {text : List Char} {table : String} {tags : List (String × String)}
  {fields : List (String × FieldValue)}

/-- The scanners, in front of what may follow the last value. -/
theorem RowText.scanned (h : RowText fl quoted text table tags fields)
    (hends : EndsValue quoted left) (hcomma : ∀ more, left ≠ ',' :: more) :
    ∃ name rest, name ≠ [] ∧ table = String.ofList name ∧
      takeEscaped ',' (text ++ left) = (name, rest) ∧
      ∃ after, takeTags rest = .ok (tags, ' ' :: after) ∧
        takeFields fl after = .ok (fields, left) := by
  cases h with
  | @row tableText name tagsText fieldsText _ _ htable hne htags hfields =>
      obtain ⟨d, tail, hd, hnext⟩ := htags.delimiter (fieldsText ++ left)
      refine ⟨name, tagsText ++ ' ' :: (fieldsText ++ left), hne, rfl, ?_, _,
        takeTags_of_tagsText htags _, takeFields_of_fieldsText hfields hends hcomma⟩
      rw [List.append_assoc, List.append_assoc, List.cons_append, hnext]
      exact takeEscaped_of_nameText hd (by rcases hd with rfl | rfl <;> decide) htable

/-- What stands behind the text of a row does not depend on how the row is read. -/
theorem RowText.left_unique {quoted' : Bool} {text' left' : List Char} {table' : String}
    {tags' : List (String × String)} {fields' : List (String × FieldValue)}
    (h : RowText fl quoted text table tags fields) (hends : EndsValue quoted left)
    (hcomma : ∀ more, left ≠ ',' :: more)
    (h' : RowText fl quoted' text' table' tags' fields') (hends' : EndsValue quoted' left')
    (hcomma' : ∀ more, left' ≠ ',' :: more) (hline : text ++ left = text' ++ left') :
    left = left' := by
  obtain ⟨name, rest, _, _, hname, after, htags, hfields⟩ := h.scanned hends hcomma
  obtain ⟨name', rest', _, _, hname', after', htags', hfields'⟩ := h'.scanned hends' hcomma'
  rw [hline, hname'] at hname
  obtain ⟨rfl, rfl⟩ := Prod.mk.inj hname
  rw [htags'] at htags
  obtain rfl := (List.cons.inj (Prod.mk.inj (Except.ok.inj htags)).2).2
  rw [hfields'] at hfields
  exact (Prod.mk.inj (Except.ok.inj hfields)).2.symm

/-- An accepted line is the text of a row and what the parser took for its end. -/
theorem readLine_rowText : readLine fl mult line = .ok l ↔
    ∃ quoted text left, line = text ++ left ∧ RowText fl quoted text l.table l.tags l.fields ∧
      EndsValue quoted left ∧ (∀ more, left ≠ ',' :: more) ∧
      takeTimestamp mult left = .ok l.timestamp := by
  constructor
  · intro h
    obtain ⟨hne, tags, rest, fields, left, timestamp, htags, hfields, htimestamp, rfl⟩ :=
      readLine_ok.mp h
    obtain ⟨tagsText, htagsText, hspelt⟩ := tagsText_of_takeTags htags
    obtain ⟨d, tail, _, hnext⟩ := hspelt.delimiter rest
    rw [← htagsText] at hnext
    obtain ⟨_, tableText, hline, htable⟩ :=
      nameText_of_takeEscaped (by decide) (Prod.ext rfl hnext)
    obtain ⟨quoted, fieldsText, rfl, hfieldsText, hends, hcomma⟩ :=
      fieldsText_of_takeFields hfields
    refine ⟨quoted, _, left, ?_, .row htable hne hspelt hfieldsText, hends, hcomma, htimestamp⟩
    rw [hline, ← hnext, htagsText]
    simp
  · rintro ⟨quoted, text, left, rfl, hrow, hends, hcomma, htimestamp⟩
    obtain ⟨table, tags, fields, timestamp⟩ := l
    obtain ⟨name, rest, hne, rfl, hname, after, htags, hfields⟩ := hrow.scanned hends hcomma
    rw [readLine_ok, hname]
    exact ⟨hne, tags, after, fields, left, timestamp, htags, hfields, htimestamp, rfl⟩

end Scanners

section Accepted

variable {fl : FloatOps} {mult defaultTsNs : Int} {line : List Char} {row : ParsedLine}

theorem TimestampText.ends {left : List Char} {t : Option Int} (h : TimestampText mult left t)
    (quoted : Bool) : EndsValue quoted left ∧ ∀ more, left ≠ ',' :: more := by
  refine ⟨.inr fun d tail heq => .inr (h.starts d tail heq), fun more heq => ?_⟩
  exact absurd (h.starts ',' more heq) (by decide)

/-- An accepted line is accounted for, or it ends in a stray text and has the default
timestamp. -/
theorem parseLine_ok_iff : parseLine fl line mult defaultTsNs = .ok row ↔
    Accounted fl mult defaultTsNs line row ∨
      ∃ text c junk, line = text ++ c :: junk ∧
        RowText fl true text row.table row.tags row.fields ∧ c ≠ ',' ∧ c ≠ ' ' ∧
        row.timestampNs = defaultTsNs := by
  constructor
  · intro h
    obtain ⟨l, hread, rfl⟩ := map_eq_ok.mp h
    obtain ⟨quoted, text, left, rfl, hrow, hends, hcomma, htimestamp⟩ := readLine_rowText.mp hread
    by_cases hstray : ∃ c junk, left = c :: junk ∧ c ≠ ' '
    · obtain ⟨c, junk, rfl, hc⟩ := hstray
      have hc' : c ≠ ',' := by
        rintro rfl
        exact hcomma junk rfl
      obtain rfl : quoted = true := hends.resolve_right fun hall => by
        rcases hall c junk rfl with heq | heq
        · exact hc' heq
        · exact hc heq
      rw [takeTimestamp] at htimestamp
      · refine .inr ⟨text, c, junk, rfl, hrow, hc', hc, ?_⟩
        rw [Line.stamp, ← Except.ok.inj htimestamp]
        rfl
      · exact fun rest heq => hc (List.cons.inj heq).1
    · have hleft : ∀ d tail, left = d :: tail → d = ' ' := by
        intro d tail heq
        by_contra hd
        exact hstray ⟨d, tail, heq, hd⟩
      exact .inl ⟨quoted, text, left, _, rfl, hrow,
        timestampText_of_takeTimestamp hleft htimestamp, rfl⟩
  · rintro (⟨quoted, text, tail, timestamp, rfl, hrow, htail, hstamp⟩ |
      ⟨text, c, junk, rfl, hrow, hcomma, hspace, hstamp⟩)
    · obtain ⟨hends, hcomma⟩ := htail.ends quoted
      refine map_eq_ok.mpr ⟨⟨row.table, row.tags, row.fields, timestamp⟩, ?_, ?_⟩
      · exact readLine_rowText.mpr ⟨quoted, text, tail, rfl, hrow, hends, hcomma,
          takeTimestamp_of_timestampText htail⟩
      · rw [Line.stamp, ← hstamp]
    · refine map_eq_ok.mpr ⟨⟨row.table, row.tags, row.fields, none⟩, ?_, ?_⟩
      · refine readLine_rowText.mpr ⟨true, text, c :: junk, rfl, hrow, .inl rfl, ?_, ?_⟩
        · exact fun more heq => hcomma (List.cons.inj heq).1
        · rw [takeTimestamp]
          exact fun rest heq => hspace (List.cons.inj heq).1
      · change ParsedLine.mk row.table row.tags row.fields defaultTsNs = row
        rw [← hstamp]

/-- A stray text is no timestamp: no reading of the line accounts for it. -/
theorem not_accounted_of_stray (h : Stray fl line) :
    ¬Accounted fl mult defaultTsNs line row := by
  obtain ⟨text, c, junk, table, tags, fields, rfl, hrow, hcomma, hspace⟩ := h
  rintro ⟨quoted, text', tail, timestamp, hline, hrow', htail, _⟩
  obtain ⟨hends', hcomma'⟩ := htail.ends quoted
  have hleft := hrow.left_unique (.inl rfl) (fun more heq => hcomma (List.cons.inj heq).1) hrow'
    hends' hcomma' hline
  exact hspace (htail.starts c junk hleft.symm)

/-- What the parser accepts is accounted for, byte by byte, if and only if no stray
text follows the quote that closes the last field. -/
theorem accepted_accounted_iff (fl : FloatOps) (mult defaultTsNs : Int) (line : List Char) :
    (∀ row, parseLine fl line mult defaultTsNs = .ok row →
      Accounted fl mult defaultTsNs line row) ↔ ¬Stray fl line := by
  constructor
  · intro h hstray
    obtain ⟨text, c, junk, table, tags, fields, hline, hrow, hcomma, hspace⟩ := id hstray
    have hparsed : parseLine fl line mult defaultTsNs = .ok ⟨table, tags, fields, defaultTsNs⟩ :=
      parseLine_ok_iff.mpr (.inr ⟨text, c, junk, hline, hrow, hcomma, hspace, rfl⟩)
    exact not_accounted_of_stray hstray (h _ hparsed)
  · intro hstray row h
    rcases parseLine_ok_iff.mp h with haccounted | ⟨text, c, junk, hline, hrow, hcomma, hspace, _⟩
    · exact haccounted
    · exact absurd ⟨text, c, junk, _, _, _, hline, hrow, hcomma, hspace⟩ hstray

/-- A timestamp written right behind the quote is dropped: the row takes the default
in its place. -/
theorem unspaced_timestamp_dropped :
    parseLine ⟨fun _ => none, fun _ => 0, fun _ => 0⟩ "m v=\"a\"1".toList 1 7 =
        .ok ⟨"m", [], [("v", .str "a")], 7⟩ ∧
      ¬Accounted ⟨fun _ => none, fun _ => 0, fun _ => 0⟩ 1 7 "m v=\"a\"1".toList
        ⟨"m", [], [("v", .str "a")], 7⟩ := by
  have hm : NameText ',' ['m'] ['m'] := .plain (by decide) (by decide) (absurd · (by decide)) .nil
  have hv : NameText '=' ['v'] ['v'] := .plain (by decide) (by decide) (absurd · (by decide)) .nil
  have ha : QuotedText ['a'] ['a'] := .plain (by decide) (by decide) .nil
  have hstray : Stray ⟨fun _ => none, fun _ => 0, fun _ => 0⟩ "m v=\"a\"1".toList :=
    ⟨_, '1', [], _, _, _, rfl,
      .row hm (by decide) .nil (.last hv (by decide) (.quoted ha)), by decide, by decide⟩
  exact ⟨by decide +kernel, not_accounted_of_stray hstray⟩

end Accepted

end TimeLake.Ingest
