import TimeLake.Ingest.LineProtocol
import TimeLake.Library.Fallible

/-!
What the scanners of the line parser have read when they succeed: one equivalence
for each of them, from the text it was given to what it returns and what it
leaves.
-/

namespace TimeLake.Ingest

open TimeLake.Library TimeLake.Rows

section Scanners

theorem rejectReservedKey_ok {kind : KeyKind} {key : String} :
    rejectReservedKey kind key = .ok () ↔ key ≠ reservedKey := by
  unfold rejectReservedKey
  split
  · next h => simp [h]
  · next h => simp [h]

theorem takeTags_other {text : List Char} (h : ∀ rest, text ≠ ',' :: rest) :
    takeTags text = .ok ([], text) := by
  rw [takeTags]
  exact h

/-- A tag is a key, an equals sign and a value. -/
theorem takeTags_ok {text left : List Char} {tags : List (String × String)} :
    takeTags (',' :: text) = .ok (tags, left) ↔
      ∃ rest more, (takeEscaped '=' text).2 = '=' :: rest ∧
        String.ofList (takeEscaped '=' text).1 ≠ reservedKey ∧
        takeTags (takeEscaped ',' rest).2 = .ok (more, left) ∧
        tags = (String.ofList (takeEscaped '=' text).1,
          String.ofList (takeEscaped ',' rest).1) :: more := by
  rw [takeTags]
  split
  · next rest hkey =>
      simp only
      cases hreserved : rejectReservedKey .tag (String.ofList (takeEscaped '=' text).1) with
      | error e =>
          constructor
          · intro h
            cases h
          · rintro ⟨_, _, _, hne, _, _⟩
            rw [rejectReservedKey_ok.mpr hne] at hreserved
            cases hreserved
      | ok u =>
          have hne := rejectReservedKey_ok.mp hreserved
          simp only
          constructor
          · intro h
            cases hmore : takeTags (takeEscaped ',' rest).2 with
            | error e =>
                rw [hmore] at h
                cases h
            | ok p =>
                rw [hmore] at h
                obtain ⟨rfl, rfl⟩ := Prod.mk.inj (Except.ok.inj h)
                exact ⟨rest, p.1, hkey, hne, hmore, rfl⟩
          · rintro ⟨rest', more, heq, _, hmore, rfl⟩
            rw [hkey] at heq
            obtain rfl := (List.cons.inj heq).2
            rw [hmore]
            rfl
  · next hkey =>
      constructor
      · intro h
        cases h
      · rintro ⟨rest, _, heq, _⟩
        exact absurd heq (hkey rest)

/-- A field is a key, an equals sign and a value; a comma behind it brings another
one. -/
theorem takeFields_ok {fl : FloatOps} {text left : List Char}
    {fields : List (String × FieldValue)} :
    takeFields fl text = .ok (fields, left) ↔
      ∃ rest v after, (takeEscaped '=' text).2 = '=' :: rest ∧
        String.ofList (takeEscaped '=' text).1 ≠ reservedKey ∧
        takeFieldValue fl rest = .ok (v, after) ∧
        ((∃ more others, after = ',' :: more ∧ takeFields fl more = .ok (others, left) ∧
            fields = (String.ofList (takeEscaped '=' text).1, v) :: others) ∨
          ((∀ more, after ≠ ',' :: more) ∧ left = after ∧
            fields = [(String.ofList (takeEscaped '=' text).1, v)])) := by
  rw [takeFields]
  split
  · next rest hkey =>
      simp only
      cases hreserved : rejectReservedKey .field (String.ofList (takeEscaped '=' text).1) with
      | error e =>
          constructor
          · intro h
            cases h
          · rintro ⟨_, _, _, _, hne, _⟩
            rw [rejectReservedKey_ok.mpr hne] at hreserved
            cases hreserved
      | ok u =>
          have hne := rejectReservedKey_ok.mp hreserved
          simp only
          split
          · next e hvalue =>
              constructor
              · intro h
                cases h
              · rintro ⟨rest', v, after, heq, _, hv, _⟩
                rw [hkey] at heq
                obtain rfl := (List.cons.inj heq).2
                rw [hvalue] at hv
                cases hv
          · next v more hvalue =>
              constructor
              · intro h
                cases hmore : takeFields fl more with
                | error e =>
                    rw [hmore] at h
                    cases h
                | ok p =>
                    rw [hmore] at h
                    obtain ⟨rfl, rfl⟩ := Prod.mk.inj (Except.ok.inj h)
                    exact ⟨rest, v, _, hkey, hne, hvalue, .inl ⟨more, p.1, rfl, hmore, rfl⟩⟩
              · rintro ⟨rest', v', after, heq, _, hv, hcases⟩
                rw [hkey] at heq
                obtain rfl := (List.cons.inj heq).2
                rw [hvalue] at hv
                obtain ⟨rfl, rfl⟩ := Prod.mk.inj (Except.ok.inj hv)
                rcases hcases with ⟨more', others, heq, hmore, rfl⟩ | ⟨hlast, _⟩
                · obtain rfl := (List.cons.inj heq).2
                  rw [hmore]
                  rfl
                · exact absurd rfl (hlast more)
          · next v after hlast hvalue =>
              constructor
              · intro h
                obtain ⟨rfl, rfl⟩ := Prod.mk.inj (Except.ok.inj h)
                exact ⟨rest, v, _, hkey, hne, hvalue,
                  .inr ⟨hlast, rfl, rfl⟩⟩
              · rintro ⟨rest', v', after', heq, _, hv, hcases⟩
                rw [hkey] at heq
                obtain rfl := (List.cons.inj heq).2
                rw [hvalue] at hv
                obtain ⟨rfl, rfl⟩ := Prod.mk.inj (Except.ok.inj hv)
                rcases hcases with ⟨more, others, rfl, _, _⟩ | ⟨_, rfl, rfl⟩
                · exact (hlast more rfl).elim
                · rfl
  · next hkey =>
      constructor
      · intro h
        cases h
      · rintro ⟨rest, _, _, heq, _⟩
        exact absurd heq (hkey rest)

/-- A line is a measurement, the tags, a space, the fields and a timestamp. -/
theorem readLine_ok {fl : FloatOps} {mult : Int} {line : List Char} {l : Line} :
    readLine fl mult line = .ok l ↔
      (takeEscaped ',' line).1 ≠ [] ∧ ∃ tags rest fields after timestamp,
        takeTags (takeEscaped ',' line).2 = .ok (tags, ' ' :: rest) ∧
        takeFields fl rest = .ok (fields, after) ∧
        takeTimestamp mult after = .ok timestamp ∧
        l = ⟨String.ofList (takeEscaped ',' line).1, tags, fields, timestamp⟩ := by
  rw [readLine]
  split
  · next hnil =>
      constructor
      · intro h
        cases h
      · exact fun h => absurd hnil h.1
  · next hne =>
      constructor
      · intro h
        obtain ⟨⟨tags, rest⟩, htags, h⟩ := bind_eq_ok.mp h
        simp only at h
        split at h
        · next rest =>
            obtain ⟨⟨fields, after⟩, hfields, h⟩ := bind_eq_ok.mp h
            obtain ⟨timestamp, htimestamp, h⟩ := bind_eq_ok.mp h
            exact ⟨hne, tags, rest, fields, after, timestamp, htags, hfields, htimestamp,
              (Except.ok.inj h).symm⟩
        · cases h
      · rintro ⟨_, tags, rest, fields, after, timestamp, htags, hfields, htimestamp, rfl⟩
        refine bind_eq_ok.mpr ⟨(tags, ' ' :: rest), htags, ?_⟩
        exact bind_eq_ok.mpr ⟨(fields, after), hfields, bind_eq_ok.mpr ⟨timestamp, htimestamp, rfl⟩⟩

end Scanners

end TimeLake.Ingest
