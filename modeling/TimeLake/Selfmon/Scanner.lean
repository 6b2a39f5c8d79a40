import TimeLake.Selfmon.Exposition

/-!
What the escapers of self-monitoring write, and what the scanner of the exposition makes
of a label that was escaped for it. A sample of the exposition has names of the server's
own and labels with any values; the text of a sample, the comments and the blank lines
around it are read as the samples that are finite numbers, their labels as they were.
-/

namespace TimeLake.Selfmon

open TimeLake.Library TimeLake.Ingest

section Texts

/-- What a tag shows of a text: a line end is the two characters it is escaped to. -/
def shown (value : List Char) : List Char :=
  value.flatMap fun c => if c = '\n' then ['\\', 'n'] else [c]

def shownText (s : String) : String := String.ofList (shown s.toList)

/-- What a quoted field shows of a text: there the backslash of a line end is lost. -/
def shownField (value : List Char) : List Char := value.map fun c => if c = '\n' then 'n' else c

theorem shown_of_unbroken {s : List Char} (h : '\n' ∉ s) : shown s = s := by
  have hid : ∀ c ∈ s, (if c = '\n' then ['\\', 'n'] else [c]) = [c] := by
    intro c hc
    rw [if_neg]
    rintro rfl
    exact h hc
  rw [shown, List.flatMap_congr hid, List.flatMap_singleton']

/-- An escaped text is the text of a name, whichever delimiter the scanner stops at. -/
theorem nameText_escapeTag {stop : Char} (hstop : stop = ',' ∨ stop = '=') (s : List Char) :
    NameText stop (escapeTag s) (shown s) := by
  induction s with
  | nil => exact .nil
  | cons c s ih =>
      rw [escapeTag, shown, List.flatMap_cons, List.flatMap_cons, ← escapeTag, ← shown]
      by_cases hesc : escapable c = true
      · have hbreak : c ≠ '\n' := by
          rintro rfl
          cases hesc
        rw [if_pos hesc, if_neg hbreak]
        exact .escaped hesc ih
      · by_cases hbreak : c = '\n'
        · subst hbreak
          rw [if_neg hesc, if_pos rfl]
          -- the letter behind the backslash is none that the scanner unescapes
          refine .plain ?_ (by decide) (fun _ => ⟨'n', _, rfl, rfl⟩)
            (.plain ?_ (by decide) (absurd · (by decide)) ih)
          all_goals rcases hstop with rfl | rfl <;> decide
        · rw [if_neg hesc, if_neg hbreak]
          simp only [escapable, Bool.or_eq_true, decide_eq_true_eq, not_or] at hesc
          obtain ⟨⟨⟨hcomma, hspace⟩, hequals⟩, hback⟩ := hesc
          refine .plain ?_ hspace (absurd · hback) ih
          rcases hstop with rfl | rfl
          · exact hcomma
          · exact hequals

theorem quotedText_escapeQuoted (s : List Char) : QuotedText (escapeQuoted s) (shownField s) := by
  induction s with
  | nil => exact .nil
  | cons c s ih =>
      rw [escapeQuoted, List.flatMap_cons, ← escapeQuoted, shownField, List.map_cons, ← shownField]
      split
      · next hesc =>
          have hbreak : c ≠ '\n' := by
            rintro rfl
            cases hesc
          rw [if_neg hbreak]
          exact .escaped c ih
      · next hesc =>
          simp only [Bool.or_eq_true, decide_eq_true_eq, not_or] at hesc
          split
          · exact .escaped 'n' ih
          · exact .plain hesc.2 hesc.1 ih

theorem newline_notMem_escapeTag (s : List Char) : '\n' ∉ escapeTag s := by
  intro hmem
  obtain ⟨c, _, hc⟩ := List.mem_flatMap.mp hmem
  split at hc
  · next hesc =>
      rw [List.mem_cons, List.mem_singleton] at hc
      rcases hc with hc | rfl
      · cases hc
      · cases hesc
  · split at hc
    · simp at hc
    · next hbreak => exact hbreak (List.mem_singleton.mp hc).symm

theorem newline_notMem_escapeQuoted (s : List Char) : '\n' ∉ escapeQuoted s := by
  intro hmem
  obtain ⟨c, _, hc⟩ := List.mem_flatMap.mp hmem
  split at hc
  · next hesc =>
      rw [List.mem_cons, List.mem_singleton] at hc
      rcases hc with hc | rfl
      · cases hc
      · cases hesc
  · split at hc
    · simp at hc
    · next hbreak => exact hbreak (List.mem_singleton.mp hc).symm

/-- The scanner of labels undoes the escaper of the exposition, for any text. -/
theorem scanValue_escapeQuoted (s rest : List Char) :
    scanValue (escapeQuoted s ++ '"' :: rest) = some (s, rest) := by
  induction s with
  | nil =>
      cases rest with
      | nil => rfl
      | cons n rest =>
          change scanValue ('"' :: n :: rest) = _
          rw [scanValue, if_neg (by decide), if_pos rfl]
  | cons c s ih =>
      rw [escapeQuoted, List.flatMap_cons, ← escapeQuoted, List.append_assoc]
      split
      · next hesc =>
          have hcases : c = '"' ∨ c = '\\' := by simpa using hesc
          change scanValue ('\\' :: c :: (escapeQuoted s ++ '"' :: rest)) = _
          rw [scanValue, if_pos rfl, if_pos (by rcases hcases with rfl | rfl <;> decide), ih,
            if_neg (by rcases hcases with rfl | rfl <;> decide)]
          rfl
      · next hesc =>
          simp only [Bool.or_eq_true, decide_eq_true_eq, not_or] at hesc
          split
          · next hbreak =>
              subst hbreak
              change scanValue ('\\' :: 'n' :: (escapeQuoted s ++ '"' :: rest)) = _
              rw [scanValue, if_pos rfl, if_pos (by decide), ih]
              rfl
          · cases htext : escapeQuoted s ++ '"' :: rest with
            | nil => simp at htext
            | cons n more =>
                rw [htext] at ih
                change scanValue (c :: n :: more) = _
                rw [scanValue, if_neg hesc.2, if_neg hesc.1, ih]
                rfl

end Texts

section Samples

def nameChar (c : Char) : Bool := c.isAlphanum || c = '_' || c = ':'

/-- What names a metric or a label. -/
def legalName (s : String) : Bool := s ≠ "" && s.toList.all nameChar

/-- A sample of the exposition. The names are the server's own; a label may have any
value. -/
structure Sample where
  name : String
  labels : List (String × String)
  value : List Char
  named : legalName name = true ∧ name ≠ reservedKey
  labelled : ∀ p ∈ labels, legalName p.1 = true ∧ p.1 ≠ reservedKey ∧ p.1 ≠ "node"
  distinct : (labels.map Prod.fst).Nodup
  printed : value ≠ [] ∧ ∀ c ∈ value, isWhiteSpace c = false

def labelText (p : String × String) : List Char :=
  p.1.toList ++ '=' :: '"' :: (escapeLabel p.2 ++ ['"'])

def labelsText : List (String × String) → List Char
  | [] => []
  | p :: rest => labelText p ++ rest.flatMap fun q => ',' :: labelText q

def Sample.text (s : Sample) : List Char :=
  s.name.toList ++ ((if s.labels = [] then [] else '{' :: (labelsText s.labels ++ ['}'])) ++
    ' ' :: s.value)

/-- A line of the exposition. -/
inductive ExpoLine where
  | blank
  | comment (text : List Char) (unbroken : '\n' ∉ text)
  | sample (s : Sample)

def ExpoLine.text : ExpoLine → List Char
  | .blank => []
  | .comment text _ => '#' :: text
  | .sample s => s.text

def ExpoLine.sample? : ExpoLine → Option Sample
  | .sample s => some s
  | _ => none

def expoText (lines : List ExpoLine) : List Char := lines.flatMap fun l => l.text ++ ['\n']

/-- The samples that are finite numbers, in order. -/
def finiteSamples (fl : FloatOps) (lines : List ExpoLine) : List Sample :=
  (lines.filterMap ExpoLine.sample?).filter fun s => isFiniteText fl s.value

/-- The labels as the map the samples are grouped by. -/
def Sample.labelSet (s : Sample) : Labels := (collect s.labels).map toLex

end Samples

section Scanning

theorem nameChar_bounds {c : Char} (h : nameChar c = true) : 48 ≤ c.toNat ∧ c.toNat ≤ 122 := by
  simp only [nameChar, Bool.or_eq_true, decide_eq_true_eq] at h
  rcases h with (h | rfl) | rfl
  · change ((decide (65 ≤ c.val ∧ c.val ≤ 90) ||
      (decide (97 ≤ c.val) && decide (c.val ≤ 122))) ||
      (decide (48 ≤ c.val) && decide (c.val ≤ 57))) = true at h
    simp only [Bool.or_eq_true, Bool.and_eq_true, decide_eq_true_eq,
      UInt32.le_iff_toNat_le] at h
    change (((65 ≤ c.toNat ∧ c.toNat ≤ 90) ∨ (97 ≤ c.toNat ∧ c.toNat ≤ 122)) ∨
      (48 ≤ c.toNat ∧ c.toNat ≤ 57)) at h
    omega
  · decide
  · decide

/-- A character of a name is no blank and no other character. -/
theorem nameChar_ne {c k : Char} (h : nameChar c = true) (hk : nameChar k = false) : c ≠ k := by
  rintro rfl
  rw [hk] at h
  cases h

theorem nameChar_not_white {c : Char} (h : nameChar c = true) : isWhiteSpace c = false := by
  have hbounds := nameChar_bounds h
  simp only [isWhiteSpace, Bool.or_eq_false_iff, Bool.and_eq_false_iff, decide_eq_false_iff_not]
  omega

theorem legalName_chars {s : String} (h : legalName s = true) :
    s.toList ≠ [] ∧ ∀ c ∈ s.toList, nameChar c = true := by
  simp only [legalName, Bool.and_eq_true, decide_eq_true_eq, List.all_eq_true] at h
  exact ⟨fun hnil => h.1 (String.toList_eq_nil_iff.mp hnil), h.2⟩

theorem notMem_of_legalName {s : String} (h : legalName s = true) {k : Char}
    (hk : nameChar k = false) : k ∉ s.toList :=
  fun hmem => nameChar_ne ((legalName_chars h).2 k hmem) hk rfl

theorem trim_self {text : List Char} (hhead : ∀ c ∈ text.head?, isWhiteSpace c = false)
    (hlast : ∀ c ∈ text.getLast?, isWhiteSpace c = false) : trim text = text := by
  have hdrop : text.dropWhile isWhiteSpace = text := by
    rw [List.dropWhile_eq_self_iff]
    intro hl
    rw [hhead _ (by rw [List.head?_eq_getElem?, List.getElem?_eq_getElem hl]; rfl)]
    exact Bool.false_ne_true
  rw [trim, hdrop, List.rdropWhile_eq_self_iff]
  intro hne
  rw [hlast _ (List.getLast?_eq_some_getLast hne)]
  exact Bool.false_ne_true

/-- The separators around a key are trimmed, and a legal key has none inside. -/
theorem trimmed_key {key : String} (h : legalName key = true) {front : List Char}
    (hfront : ∀ c ∈ front, isSeparator c = true) :
    ((front ++ key.toList).dropWhile isSeparator).rdropWhile isSeparator = key.toList := by
  obtain ⟨hne, hchars⟩ := legalName_chars h
  have hplain : ∀ c ∈ key.toList, isSeparator c = false := by
    intro c hc
    have hcomma := nameChar_ne (hchars c hc) (k := ',') (by decide)
    have hspace := nameChar_ne (hchars c hc) (k := ' ') (by decide)
    simp [isSeparator, hcomma, hspace]
  have hdrop : key.toList.dropWhile isSeparator = key.toList :=
    List.dropWhile_eq_self_iff.mpr fun hl => by simp [hplain _ (List.getElem_mem hl)]
  rw [List.dropWhile_append_of_pos hfront, hdrop, List.rdropWhile_eq_self_iff]
  intro _
  rw [hplain _ (List.getLast_mem hne)]
  exact Bool.false_ne_true

/-- One pair of the labels. -/
theorem parseLabelsInto_pair {p : String × String} (hp : legalName p.1 = true)
    {front : List Char} (hfront : ∀ c ∈ front, isSeparator c = true)
    (out : List (String × String)) (rest : List Char) :
    parseLabelsInto out (front ++ (labelText p ++ rest)) =
      parseLabelsInto (insertPair p.1 p.2 out) rest := by
  have hbefore : '=' ∉ front ++ p.1.toList := by
    rw [List.mem_append, not_or]
    refine ⟨fun hmem => ?_, notMem_of_legalName hp (by decide)⟩
    exact absurd (hfront '=' hmem) (by decide)
  have htext : front ++ (labelText p ++ rest) =
      (front ++ p.1.toList) ++ '=' :: '"' :: (escapeLabel p.2 ++ '"' :: rest) := by
    simp [labelText]
  have hcut := cutAt_append hbefore ('"' :: (escapeLabel p.2 ++ '"' :: rest))
  have hscan : scanValue (escapeLabel p.2 ++ '"' :: rest) = some (p.2.toList, rest) :=
    scanValue_escapeQuoted p.2.toList rest
  have hkey : ¬p.1.toList = [] := (legalName_chars hp).1
  rw [htext, parseLabelsInto]
  split
  · next before more heq =>
      rw [hcut] at heq
      obtain ⟨rfl, hmore⟩ := Prod.mk.inj (Option.some.inj heq)
      obtain rfl := (List.cons.inj hmore).2
      split
      · next value left hvalue =>
          rw [hscan] at hvalue
          obtain ⟨rfl, rfl⟩ := Prod.mk.inj (Option.some.inj hvalue)
          simp only [trimmed_key hp hfront, if_neg hkey, String.ofList_toList]
      · next hnone =>
          rw [hscan] at hnone
          cases hnone
  · next hother => exact absurd hcut (hother _ _)

theorem parseLabelsInto_rest {labels : List (String × String)}
    (h : ∀ p ∈ labels, legalName p.1 = true) (out : List (String × String)) :
    parseLabelsInto out (labels.flatMap fun q => ',' :: labelText q) =
      some (labels.foldl (fun m p => insertPair p.1 p.2 m) out) := by
  induction labels generalizing out with
  | nil =>
      rw [List.flatMap_nil, parseLabelsInto]
      rfl
  | cons p rest ih =>
      have hcomma : ∀ c ∈ [','], isSeparator c = true := by simp [isSeparator]
      rw [List.flatMap_cons, List.cons_append, ← List.singleton_append,
        parseLabelsInto_pair (h p List.mem_cons_self) hcomma, List.foldl_cons]
      exact ih (fun q hq => h q (.tail _ hq)) _

/-- The labels come out of their text as they went in. -/
theorem parseLabels_labelsText {labels : List (String × String)}
    (h : ∀ p ∈ labels, legalName p.1 = true) :
    parseLabels (labelsText labels) = some ((collect labels).map toLex) := by
  cases labels with
  | nil =>
      rw [labelsText, parseLabels, parseLabelsInto]
      rfl
  | cons p rest =>
      have hpair : parseLabelsInto [] (labelText p ++ rest.flatMap fun q => ',' :: labelText q) =
          parseLabelsInto (insertPair p.1 p.2 []) (rest.flatMap fun q => ',' :: labelText q) :=
        parseLabelsInto_pair (h p List.mem_cons_self) (fun _ hc => absurd hc List.not_mem_nil) [] _
      rw [labelsText, parseLabels, hpair,
        parseLabelsInto_rest fun q hq => h q (.tail _ hq)]
      rfl

theorem labelsText_end {labels : List (String × String)} (h : labels ≠ []) :
    ∃ front, labelsText labels = front ++ ['"'] := by
  cases labels with
  | nil => exact absurd rfl h
  | cons p rest =>
      rcases List.eq_nil_or_concat rest with rfl | ⟨more, q, rfl⟩
      · exact ⟨p.1.toList ++ '=' :: '"' :: escapeLabel p.2, by simp [labelsText, labelText]⟩
      · refine ⟨labelText p ++ ((more.flatMap fun q => ',' :: labelText q) ++
          ',' :: (q.1.toList ++ '=' :: '"' :: escapeLabel q.2)), ?_⟩
        simp [labelsText, labelText]

variable {fl : FloatOps}

/-- A line with a sample gives the sample, if it is a finite number. -/
theorem readSample_text (s : Sample) :
    readSample fl s.text =
      some (if isFiniteText fl s.value then some (s.labelSet, s.name, s.value) else none) := by
  obtain ⟨hname, hchars⟩ := legalName_chars s.named.1
  obtain ⟨c, tail, hcons⟩ := List.exists_cons_of_ne_nil hname
  have hc : nameChar c = true := hchars c (hcons ▸ List.mem_cons_self)
  have htrim : trim s.text = s.text := by
    apply trim_self
    · intro d hd
      rw [Sample.text, hcons, List.cons_append, List.head?_cons, Option.mem_some_iff] at hd
      rw [← hd]
      exact nameChar_not_white hc
    · intro d hd
      obtain ⟨front, last, hvalue⟩ := List.eq_nil_or_concat s.value |>.resolve_left s.printed.1
      have hend : s.text = (s.name.toList ++ ((if s.labels = [] then [] else
          '{' :: (labelsText s.labels ++ ['}'])) ++ ' ' :: front)) ++ [last] := by
        simp [Sample.text, hvalue]
      rw [hend, List.getLast?_concat, Option.mem_some_iff] at hd
      refine s.printed.2 d ?_
      rw [hvalue, ← hd]
      simp
  have hstart : ¬(s.text = [] || s.text.head? = some '#') = true := by
    have hhash : c ≠ '#' := nameChar_ne hc (by decide)
    simp [Sample.text, hcons, hhash]
  have hspace : ' ' ∉ s.value := fun hmem => absurd (s.printed.2 ' ' hmem) (by decide)
  have hcut : rcutAt ' ' s.text = some (s.name.toList ++
      (if s.labels = [] then [] else '{' :: (labelsText s.labels ++ ['}'])), s.value) := by
    rw [Sample.text, ← List.append_assoc]
    exact rcutAt_append hspace _
  have hbrace : '{' ∉ s.name.toList := notMem_of_legalName s.named.1 (by decide)
  rw [readSample, htrim]
  simp only [if_neg hstart, hcut]
  split
  · by_cases hlabels : s.labels = []
    · have hset : s.labelSet = [] := by rw [Sample.labelSet, hlabels]; rfl
      simp only [if_pos hlabels, List.append_nil, cutAt_eq_none.mpr hbrace, if_neg hname,
        String.ofList_toList, hset]
    · obtain ⟨front, hfront⟩ := labelsText_end hlabels
      have hdrop : (labelsText s.labels ++ ['}']).rdropWhile (· = '}') = labelsText s.labels := by
        rw [List.rdropWhile_concat_pos _ _ _ (by decide), hfront,
          List.rdropWhile_concat_neg _ _ _ (by decide)]
      simp only [if_neg hlabels, cutAt_append hbrace, hdrop,
        parseLabels_labelsText fun p hp => (s.labelled p hp).1, Option.map_some, if_neg hname,
        String.ofList_toList, Sample.labelSet]
  · rfl

/-- Comments and blank lines give nothing. -/
theorem readSample_line (l : ExpoLine) :
    readSample fl l.text = some ((l.sample?.filter fun s => isFiniteText fl s.value).map
      fun s => (s.labelSet, s.name, s.value)) := by
  cases l with
  | blank => rfl
  | comment text _ =>
      have hdrop : ('#' :: text).dropWhile isWhiteSpace = '#' :: text := by
        rw [List.dropWhile_cons_of_neg (by decide)]
      have hhead : (trim ('#' :: text)).head? = some '#' := by
        rw [trim, hdrop]
        cases hkept : ('#' :: text).rdropWhile isWhiteSpace with
        | nil =>
            have hall := List.rdropWhile_eq_nil_iff.mp hkept '#' List.mem_cons_self
            exact absurd hall (by decide)
        | cons d more =>
            obtain ⟨rest, hrest⟩ := List.rdropWhile_prefix isWhiteSpace ('#' :: text)
            rw [hkept] at hrest
            rw [List.head?_cons, (List.cons.inj hrest).1]
      simp [readSample, ExpoLine.text, ExpoLine.sample?, hhead]
  | sample s =>
      rw [ExpoLine.text, readSample_text, ExpoLine.sample?]
      cases hfinite : isFiniteText fl s.value <;> simp [Option.filter, hfinite]

theorem newline_notMem_labelText {p : String × String} (hp : legalName p.1 = true) :
    '\n' ∉ labelText p := by
  simp only [labelText, List.mem_append, List.mem_cons, List.not_mem_nil, or_false, not_or]
  exact ⟨notMem_of_legalName hp (by decide), by decide, by decide,
    newline_notMem_escapeQuoted _, by decide⟩

theorem ExpoLine.unbroken (l : ExpoLine) : '\n' ∉ l.text := by
  cases l with
  | blank => exact List.not_mem_nil
  | comment text h =>
      rw [ExpoLine.text, List.mem_cons, not_or]
      exact ⟨by decide, h⟩
  | sample s =>
      have hvalue : '\n' ∉ s.value := fun hmem => absurd (s.printed.2 '\n' hmem) (by decide)
      have hlabels : '\n' ∉ labelsText s.labels := by
        cases hs : s.labels with
        | nil => exact List.not_mem_nil
        | cons p rest =>
            rw [labelsText, List.mem_append, not_or, List.mem_flatMap]
            refine ⟨newline_notMem_labelText (s.labelled p (by simp [hs])).1, ?_⟩
            rintro ⟨q, hq, hmem⟩
            rcases List.mem_cons.mp hmem with hmem | hmem
            · cases hmem
            · exact newline_notMem_labelText (s.labelled q (by simp [hs, hq])).1 hmem
      rw [ExpoLine.text, Sample.text]
      split
      · simp [notMem_of_legalName s.named.1 (k := '\n') (by decide), hvalue]
      · simp [notMem_of_legalName s.named.1 (k := '\n') (by decide), hvalue, hlabels]

theorem splitLines_expoText (lines : List ExpoLine) :
    splitLines (expoText lines) = lines.map ExpoLine.text := by
  induction lines with
  | nil => rfl
  | cons l rest ih =>
      rw [expoText, List.flatMap_cons, List.append_assoc, List.singleton_append,
        splitLines_cons l.unbroken, ← expoText, ih, List.map_cons]

theorem groupSamples_lines (lines : List ExpoLine) (grouped : Grouped) :
    groupSamples fl grouped (lines.map ExpoLine.text) =
      some ((finiteSamples fl lines).foldl
        (fun g s => addSample g (s.labelSet, s.name, s.value)) grouped) := by
  induction lines generalizing grouped with
  | nil => rfl
  | cons l rest ih =>
      rw [List.map_cons, groupSamples, readSample_line, finiteSamples, List.filterMap_cons]
      cases hs : l.sample? with
      | none => exact ih grouped
      | some s =>
          cases hfinite : isFiniteText fl s.value with
          | false =>
              simp only [Option.filter, hfinite, Bool.false_eq_true, if_false, Option.map_none,
                List.filter_cons]
              exact ih grouped
          | true =>
              simp only [Option.filter, hfinite, if_true, Option.map_some, List.filter_cons,
                List.foldl_cons]
              exact ih _

end Scanning

end TimeLake.Selfmon
