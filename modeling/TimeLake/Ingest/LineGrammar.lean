import TimeLake.Ingest.Serialize
import TimeLake.Ingest.Scanner

/-!
The texts of a line, piece by piece: how a name, a quoted string, a value, the tags,
the fields and a timestamp may be written. The scanners read exactly these, in front
of what may follow each of them, and nothing of the line lies between two pieces.
What follows the last field is another matter: the parser looks for a space there and
takes anything else for the end of the line.
-/

namespace TimeLake.Ingest

open TimeLake.Library TimeLake.Rows

section Names

/-- A text of a name: a backslash stands in front of an escapable character, or for
itself in front of another one of the same name. -/
inductive NameText (stop : Char) : List Char → List Char → Prop where
  | nil : NameText stop [] []
  | escaped {n : Char} {text name : List Char} :
      escapable n = true → NameText stop text name → NameText stop ('\\' :: n :: text) (n :: name)
  | plain {c : Char} {text name : List Char} :
      c ≠ stop → c ≠ ' ' → (c = '\\' → ∃ n tail, text = n :: tail ∧ escapable n = false) →
      NameText stop text name → NameText stop (c :: text) (c :: name)

variable {stop d : Char} {text name t : List Char}

theorem takeEscaped_of_nameText (hd : d = stop ∨ d = ' ') (hne : d ≠ '\\')
    (h : NameText stop text name) : takeEscaped stop (text ++ d :: t) = (name, d :: t) := by
  induction h with
  | nil => exact takeEscaped_stop hd hne t
  | escaped hn _ ih =>
      rw [List.cons_append, List.cons_append, takeEscaped_pair hn, ih]
  | @plain c text name hstop hspace hback _ ih =>
      rw [List.cons_append, takeEscaped_plain ?_ hstop hspace, ih]
      by_cases hc : c = '\\'
      · obtain ⟨n, more, rfl, hn⟩ := hback hc
        exact .inr ⟨n, _, rfl, hn⟩
      · exact .inl hc

/-- What the scanner of a name leaves begins with a delimiter, and what it took is a
text of the name. -/
theorem nameText_of_takeEscaped (hstop : escapable stop = true)
    (h : takeEscaped stop text = (name, d :: t)) :
    (d = stop ∨ d = ' ') ∧ ∃ taken, text = taken ++ d :: t ∧ NameText stop taken name := by
  induction text using takeEscaped.induct stop generalizing name with
  | case1 => cases h
  | case2 c hc =>
      rw [takeEscaped, if_pos hc] at h
      obtain ⟨rfl, heq⟩ := Prod.mk.inj h
      obtain ⟨rfl, rfl⟩ := List.cons.inj heq
      exact ⟨by simpa using hc, [], rfl, .nil⟩
  | case3 c hc =>
      rw [takeEscaped, if_neg hc] at h
      cases h
  | case4 c n rest hesc _ _ _ ih =>
      rw [takeEscaped, if_pos hesc] at h
      obtain ⟨rfl, hleft⟩ := Prod.mk.inj h
      obtain ⟨hd, taken, rfl, htaken⟩ := ih (Prod.ext rfl hleft)
      simp only [Bool.and_eq_true, decide_eq_true_eq] at hesc
      obtain ⟨rfl, hn⟩ := hesc
      exact ⟨hd, '\\' :: n :: taken, rfl, .escaped hn htaken⟩
  | case5 c n rest hesc hc =>
      rw [takeEscaped, if_neg hesc, if_pos hc] at h
      obtain ⟨rfl, heq⟩ := Prod.mk.inj h
      obtain ⟨rfl, rfl⟩ := List.cons.inj heq
      exact ⟨by simpa using hc, [], rfl, .nil⟩
  | case6 c n rest hesc hc _ _ _ ih =>
      rw [takeEscaped, if_neg hesc, if_neg hc] at h
      obtain ⟨rfl, hleft⟩ := Prod.mk.inj h
      obtain ⟨hd, taken, htext, htaken⟩ := ih (Prod.ext rfl hleft)
      simp only [Bool.or_eq_true, decide_eq_true_eq, not_or] at hc
      refine ⟨hd, c :: taken, by rw [htext]; rfl, .plain hc.1 hc.2 (fun hback => ?_) htaken⟩
      have hn : escapable n = false := by simpa [hback] using hesc
      cases taken with
      | nil =>
          -- then the delimiter stands behind the backslash, and it is escapable
          obtain ⟨rfl, _⟩ := List.cons.inj htext
          rcases hd with rfl | rfl
          · rw [hstop] at hn
            cases hn
          · cases hn
      | cons m taken =>
          obtain ⟨rfl, _⟩ := List.cons.inj htext
          exact ⟨n, taken, rfl, hn⟩

theorem takeEscaped_iff (hstop : escapable stop = true) (hne : stop ≠ '\\') :
    takeEscaped stop text = (name, d :: t) ↔
      (d = stop ∨ d = ' ') ∧ ∃ taken, text = taken ++ d :: t ∧ NameText stop taken name := by
  refine ⟨nameText_of_takeEscaped hstop, ?_⟩
  rintro ⟨hd, taken, rfl, htaken⟩
  refine takeEscaped_of_nameText hd ?_ htaken
  rcases hd with rfl | rfl
  · exact hne
  · decide

end Names

section Tags

/-- The texts of tag pairs. -/
inductive TagsText : List Char → List (String × String) → Prop where
  | nil : TagsText [] []
  | cons {keyText key valueText value text : List Char} {tags : List (String × String)} :
      NameText '=' keyText key → String.ofList key ≠ reservedKey →
      NameText ',' valueText value → TagsText text tags →
      TagsText (',' :: (keyText ++ '=' :: (valueText ++ text)))
        ((String.ofList key, String.ofList value) :: tags)

variable {text rest : List Char} {tags : List (String × String)}

theorem TagsText.delimiter (h : TagsText text tags) (rest : List Char) :
    ∃ d tail, (d = ',' ∨ d = ' ') ∧ text ++ ' ' :: rest = d :: tail := by
  cases h with
  | nil => exact ⟨' ', rest, .inr rfl, rfl⟩
  | cons => exact ⟨',', _, .inl rfl, rfl⟩

theorem takeTags_of_tagsText (h : TagsText text tags) (rest : List Char) :
    takeTags (text ++ ' ' :: rest) = .ok (tags, ' ' :: rest) := by
  induction h with
  | nil => exact takeTags_other fun _ heq => absurd (List.cons.inj heq).1 (by decide)
  | @cons keyText key valueText value text tags hkey hreserved hvalue htags ih =>
      obtain ⟨d, tail, hd, hnext⟩ := htags.delimiter rest
      have hk := takeEscaped_of_nameText (t := valueText ++ (text ++ ' ' :: rest)) (.inl rfl)
        (by decide) hkey
      have hv : takeEscaped ',' (valueText ++ (text ++ ' ' :: rest)) =
          (value, text ++ ' ' :: rest) := by
        rw [hnext]
        exact takeEscaped_of_nameText hd (by rcases hd with rfl | rfl <;> decide) hvalue
      rw [List.cons_append, List.append_assoc, List.cons_append, List.append_assoc, takeTags_ok,
        hk]
      refine ⟨_, tags, rfl, hreserved, ?_, ?_⟩
      · rw [hv]
        exact ih
      · rw [hv]

theorem tagsText_of_takeTags (h : takeTags text = .ok (tags, ' ' :: rest)) :
    ∃ taken, text = taken ++ ' ' :: rest ∧ TagsText taken tags := by
  induction tags generalizing text with
  | nil =>
      by_cases hcomma : ∃ more, text = ',' :: more
      · obtain ⟨more, rfl⟩ := hcomma
        obtain ⟨_, _, _, _, _, heq⟩ := takeTags_ok.mp h
        cases heq
      · rw [takeTags_other fun more heq => hcomma ⟨more, heq⟩] at h
        obtain ⟨_, rfl⟩ := Prod.mk.inj (Except.ok.inj h)
        exact ⟨[], rfl, .nil⟩
  | cons p tags ih =>
      by_cases hcomma : ∃ more, text = ',' :: more
      · obtain ⟨text, rfl⟩ := hcomma
        obtain ⟨after, more, hafter, hreserved, hmore, heq⟩ := takeTags_ok.mp h
        obtain ⟨rfl, rfl⟩ := List.cons.inj heq
        obtain ⟨_, keyText, hkeyText, hkey⟩ :=
          nameText_of_takeEscaped (by decide) (Prod.ext rfl hafter)
        obtain ⟨taken, htaken, htags⟩ := ih hmore
        obtain ⟨d, tail, hd, hnext⟩ := htags.delimiter rest
        rw [← htaken] at hnext
        obtain ⟨_, valueText, hvalueText, hvalue⟩ :=
          nameText_of_takeEscaped (by decide) (Prod.ext rfl hnext)
        refine ⟨',' :: (keyText ++ '=' :: (valueText ++ taken)), ?_,
          .cons hkey hreserved hvalue htags⟩
        rw [hkeyText, hvalueText, ← hnext, htaken]
        simp
      · rw [takeTags_other fun more heq => hcomma ⟨more, heq⟩] at h
        cases h

end Tags

section Values

/-- The texts between two quotes. -/
inductive QuotedText : List Char → List Char → Prop where
  | nil : QuotedText [] []
  | escaped (c : Char) {text s : List Char} :
      QuotedText text s → QuotedText ('\\' :: c :: text) (c :: s)
  | plain {c : Char} {text s : List Char} :
      c ≠ '\\' → c ≠ '"' → QuotedText text s → QuotedText (c :: text) (c :: s)

variable {text s left : List Char}

theorem takeQuoted_of_quotedText (h : QuotedText text s) (left : List Char) :
    takeQuoted (text ++ '"' :: left) = some (s, left) := by
  induction h with
  | nil =>
      cases left with
      | nil => rfl
      | cons n left => exact (takeQuoted.eq_3 '"' n left).trans (by rw [if_neg (by decide)]; rfl)
  | escaped c _ ih =>
      rw [List.cons_append, List.cons_append, takeQuoted, if_pos rfl, ih]
      rfl
  | @plain c text s hback hquote _ ih =>
      cases hrest : text ++ '"' :: left with
      | nil => simp at hrest
      | cons n rest =>
          rw [hrest] at ih
          rw [List.cons_append, hrest, takeQuoted, if_neg hback, if_neg hquote, ih]
          rfl

theorem quotedText_of_takeQuoted (h : takeQuoted text = some (s, left)) :
    ∃ taken, text = taken ++ '"' :: left ∧ QuotedText taken s := by
  induction text using takeQuoted.induct generalizing s with
  | case1 => cases h
  | case2 =>
      cases h
      exact ⟨[], rfl, .nil⟩
  | case3 c hquote =>
      rw [takeQuoted, if_neg hquote] at h
      cases h
  | case4 n rest ih =>
      rw [takeQuoted, if_pos rfl, Option.map_eq_some_iff] at h
      obtain ⟨⟨t, l⟩, hrest, hpair⟩ := h
      cases hpair
      obtain ⟨taken, rfl, htaken⟩ := ih hrest
      exact ⟨'\\' :: n :: taken, rfl, .escaped n htaken⟩
  | case5 n rest hc =>
      rw [takeQuoted, if_neg hc, if_pos rfl] at h
      cases h
      exact ⟨[], rfl, .nil⟩
  | case6 c n rest hc hquote ih =>
      rw [takeQuoted, if_neg hc, if_neg hquote, Option.map_eq_some_iff] at h
      obtain ⟨⟨t, l⟩, hrest, hpair⟩ := h
      cases hpair
      obtain ⟨taken, htext, htaken⟩ := ih hrest
      exact ⟨c :: taken, by rw [htext]; rfl, .plain hc hquote htaken⟩

/-- The texts of a field value; `true` for the quoted ones. -/
inductive ValueText (fl : FloatOps) : Bool → List Char → FieldValue → Prop where
  | quoted {text s : List Char} :
      QuotedText text s → ValueText fl true ('"' :: (text ++ ['"'])) (.str (String.ofList s))
  | scalar {text : List Char} {v : FieldValue} :
      (∀ more, text ≠ '"' :: more) → (∀ c ∈ text, c ≠ ',' ∧ c ≠ ' ') → scalar fl text = .ok v →
      ValueText fl false text v

/-- What the parser may leave behind a value: a token reaches to a delimiter or to the
end of the line, a quoted string has its own end. -/
def EndsValue (quoted : Bool) (left : List Char) : Prop :=
  quoted = true ∨ ∀ d tail, left = d :: tail → d = ',' ∨ d = ' '

variable {fl : FloatOps} {quoted : Bool} {v : FieldValue}

theorem takeFieldValue_of_valueText (h : ValueText fl quoted text v)
    (hleft : EndsValue quoted left) : takeFieldValue fl (text ++ left) = .ok (v, left) := by
  cases h with
  | @quoted text s htext =>
      have hread := takeQuoted_of_quotedText htext left
      rw [List.cons_append, List.append_assoc, List.singleton_append, takeFieldValue]
      simp only [hread]
  | scalar hquote hplain hscalar =>
      exact takeFieldValue_scalar (hleft.resolve_left Bool.false_ne_true) hplain hquote hscalar

theorem valueText_of_takeFieldValue (h : takeFieldValue fl text = .ok (v, left)) :
    ∃ quoted taken, text = taken ++ left ∧ ValueText fl quoted taken v ∧
      EndsValue quoted left := by
  unfold takeFieldValue at h
  split at h
  · next rest =>
      split at h
      · next s after hread =>
          obtain ⟨rfl, rfl⟩ := Prod.mk.inj (Except.ok.inj h)
          obtain ⟨taken, rfl, htaken⟩ := quotedText_of_takeQuoted hread
          exact ⟨true, '"' :: (taken ++ ['"']), by simp, .quoted htaken, .inl rfl⟩
      · cases h
  · next hquote =>
      cases hscalar : scalar fl (text.takeWhile fun c => c ≠ ',' && c ≠ ' ') with
      | error e =>
          rw [hscalar] at h
          cases h
      | ok value =>
          rw [hscalar] at h
          obtain ⟨rfl, rfl⟩ := Prod.mk.inj (Except.ok.inj h)
          refine ⟨false, text.takeWhile fun c => c ≠ ',' && c ≠ ' ',
            List.takeWhile_append_dropWhile.symm, .scalar (fun more heq => ?_) (fun c hc => ?_)
              hscalar, .inr ?_⟩
          · have htext := List.takeWhile_append_dropWhile (l := text)
              (p := fun c => c ≠ ',' && c ≠ ' ')
            rw [heq] at htext
            exact hquote _ htext.symm
          · have hc' := List.mem_takeWhile_imp hc
            simpa using hc'
          · intro d tail hdrop
            have hd := List.head?_dropWhile_not (fun c => c ≠ ',' && c ≠ ' ') text
            rw [hdrop] at hd
            simpa [or_iff_not_imp_left] using hd

/-- The texts of the fields; `true` where the last value is quoted. -/
inductive FieldsText (fl : FloatOps) : Bool → List Char → List (String × FieldValue) → Prop where
  | last {quoted : Bool} {keyText key text : List Char} {v : FieldValue} :
      NameText '=' keyText key → String.ofList key ≠ reservedKey →
      ValueText fl quoted text v →
      FieldsText fl quoted (keyText ++ '=' :: text) [(String.ofList key, v)]
  | cons {inner quoted : Bool} {keyText key valueText text : List Char} {v : FieldValue}
      {fields : List (String × FieldValue)} :
      NameText '=' keyText key → String.ofList key ≠ reservedKey →
      ValueText fl inner valueText v → FieldsText fl quoted text fields →
      FieldsText fl quoted (keyText ++ '=' :: (valueText ++ ',' :: text))
        ((String.ofList key, v) :: fields)

variable {fields : List (String × FieldValue)}

theorem takeFields_of_fieldsText (h : FieldsText fl quoted text fields)
    (hleft : EndsValue quoted left) (hcomma : ∀ more, left ≠ ',' :: more) :
    takeFields fl (text ++ left) = .ok (fields, left) := by
  induction h with
  | last hkey hreserved hvalue =>
      have hv := takeFieldValue_of_valueText hvalue hleft
      rw [List.append_assoc, List.cons_append, takeFields_ok,
        takeEscaped_of_nameText (.inl rfl) (by decide) hkey]
      exact ⟨_, _, left, rfl, hreserved, hv, .inr ⟨hcomma, rfl, rfl⟩⟩
  | @cons inner quoted keyText key valueText text v fields hkey hreserved hvalue _ ih =>
      have hends : EndsValue inner (',' :: (text ++ left)) := by
        refine .inr fun d tail heq => .inl ?_
        exact (List.cons.inj heq).1.symm
      have hv := takeFieldValue_of_valueText hvalue hends
      rw [List.append_assoc, List.cons_append, List.append_assoc, List.cons_append, takeFields_ok,
        takeEscaped_of_nameText (.inl rfl) (by decide) hkey]
      exact ⟨_, v, _, rfl, hreserved, hv, .inl ⟨_, fields, rfl, ih hleft, rfl⟩⟩

theorem fieldsText_of_takeFields (h : takeFields fl text = .ok (fields, left)) :
    ∃ quoted taken, text = taken ++ left ∧ FieldsText fl quoted taken fields ∧
      EndsValue quoted left ∧ ∀ more, left ≠ ',' :: more := by
  induction fields generalizing text with
  | nil =>
      obtain ⟨_, _, _, _, _, _, ⟨_, _, _, _, heq⟩ | ⟨_, _, heq⟩⟩ := takeFields_ok.mp h
      · cases heq
      · cases heq
  | cons p fields ih =>
      obtain ⟨rest, v, after, hrest, hreserved, hv, hcases⟩ := takeFields_ok.mp h
      obtain ⟨_, keyText, hkeyText, hkey⟩ :=
        nameText_of_takeEscaped (by decide) (Prod.ext rfl hrest)
      obtain ⟨quoted, valueText, rfl, hvalue, hends⟩ := valueText_of_takeFieldValue hv
      rcases hcases with ⟨more, others, rfl, hmore, heq⟩ | ⟨hcomma, rfl, heq⟩
      · obtain ⟨rfl, rfl⟩ := List.cons.inj heq
        obtain ⟨last, taken, rfl, htaken, hlast⟩ := ih hmore
        refine ⟨last, keyText ++ '=' :: (valueText ++ ',' :: taken), ?_,
          .cons hkey hreserved hvalue htaken, hlast⟩
        rw [hkeyText]
        simp
      · obtain ⟨rfl, rfl⟩ := List.cons.inj heq
        refine ⟨quoted, keyText ++ '=' :: valueText, ?_, .last hkey hreserved hvalue, hends,
          hcomma⟩
        rw [hkeyText]
        simp

end Values

end TimeLake.Ingest
