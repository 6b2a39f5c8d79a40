import TimeLake.Selfmon.Scanner

/-!
What self-monitoring writes is what it was meant to write. The text of a client, be it a
database name, the identity of a certificate or a label, passes the escaper of the
exposition, the scanner of label values, the escaper of a tag and the scanner of a line;
it comes out as it went in, but for line ends, and nothing of it is taken for structure.

A text read as a finite number is assumed to be made of digits, signs, a point and an
exponent, as the grammar of `f64::from_str` has it.
-/

namespace TimeLake.Selfmon

open TimeLake.Library TimeLake.Rows TimeLake.Ingest

section Grouping

variable {fl : FloatOps}

/-- What a group holds comes from the samples of its label set. -/
structure FromSamples (fl : FloatOps) (samples : List Sample)
    (group : Labels × List (String × List Char)) : Prop where
  labels : ∃ s ∈ samples, group.1 = s.labelSet
  some : group.2 ≠ []
  fields : ∀ p ∈ group.2, ∃ s ∈ samples, p = (s.name, s.value)

theorem fromSamples {samples : List Sample} {g : Labels × List (String × List Char)}
    (h : g ∈ groupInto Sample.labelSet (fun s => (s.name, s.value)) samples) :
    FromSamples fl samples (g.1, collect g.2) := by
  have hmem : ∀ p ∈ g.2, ∃ s ∈ samples, s.labelSet = g.1 ∧ (s.name, s.value) = p :=
    fun p hp => exists_of_mem_group h hp
  obtain ⟨p, rest, hcons⟩ := List.exists_cons_of_ne_nil (mem_groupInto.mp h).1
  refine ⟨?_, ?_, fun q hq => ?_⟩
  · obtain ⟨s, hs, hset, _⟩ := hmem p (hcons ▸ List.mem_cons_self)
    exact ⟨s, hs, hset.symm⟩
  · exact collect_ne_nil (mem_groupInto.mp h).1
  · obtain ⟨s, hs, _, heq⟩ := hmem q (mem_of_mem_collect hq)
    exact ⟨s, hs, heq.symm⟩

end Grouping

section Intended

/-- What `f64::from_str` takes for a finite number is made of digits, signs, points and
exponents, and ends in a digit or a point. -/
structure FloatGrammar (fl : FloatOps) : Prop where
  chars : ∀ text, isFiniteText fl text = true →
    ∀ c ∈ text, c.isDigit = true ∨ c ∈ ['+', '-', '.', 'e', 'E']
  last : ∀ text, isFiniteText fl text = true →
    ∃ c, text.getLast? = some c ∧ (c.isDigit = true ∨ c = '.')

def floatField (fl : FloatOps) (text : List Char) : FieldValue := .float ((fl.parse text).getD 0)

def tagsOf (node : String) (labels : Labels) : List (String × String) :=
  ("node", shownText node) :: labels.map fun p => ((ofLex p).1, shownText (ofLex p).2)

/-- The row of a label set. -/
def metricsRow (fl : FloatOps) (node : String) (nowNs : Int64)
    (group : Labels × List (String × List Char)) : ParsedLine :=
  ⟨"metrics", tagsOf node group.1, group.2.map fun p => (p.1, floatField fl p.2), nowNs.toInt⟩

/-- The rows of an exposition: one for each label set of a finite sample, with the last
value of each name. -/
def sampleRows (fl : FloatOps) (node : String) (nowNs : Int64) (lines : List ExpoLine) :
    List ParsedLine :=
  (groupInto Sample.labelSet (fun s => (s.name, s.value)) (finiteSamples fl lines)).map
    fun g => metricsRow fl node nowNs (g.1, collect g.2)

/-- The row of a query. -/
def queryRow (fl : FloatOps) (millis : Nat → List Char) (node : String) (stats : QueryStats)
    (nowNs : Int64) : ParsedLine :=
  ⟨"queries",
    ("node", shownText node) :: ("db", shownText stats.db) ::
      ("outcome", stats.outcome.asStr) ::
      (stats.identity.map fun identity => ("identity", shownText identity)).toList,
    [("duration_ms", floatField fl (millis stats.duration)),
      ("wait_ms", floatField fl (millis stats.admissionWait)),
      ("rows", .int (Int64.ofInt stats.rows)),
      ("ref", .str (String.ofList (shownField stats.refId.toList)))], nowNs.toInt⟩

end Intended

section Reading

variable {fl : FloatOps}

/-- The line is read as the row wherever it stands, and as nothing else. -/
structure Reads (fl : FloatOps) (line : List Char) (row : ParsedLine) : Prop where
  unbroken : '\n' ∉ line
  kept : line.rdropWhile (· = '\r') = line
  starts : ∃ c tail, line = c :: tail ∧ c ≠ '#'
  read : readLine fl 1 line = .ok ⟨row.table, row.tags, row.fields, some row.timestampNs⟩

theorem i64_toInt (x : Int64) : i64 x.toInt = some x.toInt := by
  rw [i64, if_pos ⟨x.le_toInt, x.toInt_lt⟩]

theorem reads_row {quoted : Bool} {text : List Char} {row : ParsedLine} {nowNs : Int64}
    (h : RowText fl quoted text row.table row.tags row.fields) (hbreak : '\n' ∉ text)
    (hstart : ∃ c tail, text = c :: tail ∧ c ≠ '#') (hnow : row.timestampNs = nowNs.toInt) :
    Reads fl (text ++ ' ' :: padInt 0 nowNs.toInt) row where
  unbroken := by
    simp only [List.mem_append, List.mem_cons, not_or]
    exact ⟨hbreak, by decide, padInt_unbroken _⟩
  kept := by
    have hkept := rdropWhile_number (text ++ [' ']) nowNs.toInt
    rwa [List.append_assoc, List.singleton_append] at hkept
  starts := by
    obtain ⟨c, tail, rfl, hc⟩ := hstart
    exact ⟨c, _, rfl, hc⟩
  read := by
    refine readLine_rowText.mpr ⟨quoted, text, _, rfl, h, .inr ?_, ?_, ?_⟩
    · intro d tail heq
      exact .inr (List.cons.inj heq).1.symm
    · intro more heq
      exact absurd (List.cons.inj heq).1 (by decide)
    · rw [hnow]
      exact takeTimestamp_padInt (i64_toInt nowNs)

theorem nameText_plain {stop : Char} (hstop : stop = ',' ∨ stop = '=') {s : List Char}
    (h : s.all nameChar = true) : NameText stop s s := by
  induction s with
  | nil => exact .nil
  | cons c s ih =>
      rw [List.all_cons, Bool.and_eq_true] at h
      refine .plain ?_ (nameChar_ne h.1 (by decide))
        (fun hback => absurd hback (nameChar_ne h.1 (by decide))) (ih h.2)
      rcases hstop with rfl | rfl
      · exact nameChar_ne h.1 (by decide)
      · exact nameChar_ne h.1 (by decide)

theorem nameText_legal {s : String} (h : legalName s = true) :
    NameText '=' (escapeTag s.toList) s.toList := by
  have htext := nameText_escapeTag (.inr rfl) s.toList
  rwa [shown_of_unbroken (notMem_of_legalName h (by decide))] at htext

/-- A tag of a fixed key. -/
theorem tagsText_fixed {text : List Char} {tags : List (String × String)} (key value : List Char)
    (hkey : key.all nameChar = true)
    (hreserved : String.ofList key ≠ reservedKey) (h : TagsText text tags) :
    TagsText (',' :: (key ++ '=' :: (escapeTag value ++ text)))
      ((String.ofList key, String.ofList (shown value)) :: tags) :=
  .cons (nameText_plain (.inr rfl) hkey) hreserved (nameText_escapeTag (.inl rfl) value) h

theorem tagsText_labels {labels : Labels}
    (h : ∀ p ∈ labels, legalName (ofLex p).1 = true ∧ (ofLex p).1 ≠ reservedKey) :
    TagsText (labels.flatMap fun p =>
        ',' :: (escapeTag (ofLex p).1.toList ++ '=' :: escapeTag (ofLex p).2.toList))
      (labels.map fun p => ((ofLex p).1, shownText (ofLex p).2)) := by
  induction labels with
  | nil => exact .nil
  | cons p rest ih =>
      obtain ⟨hlegal, hreserved⟩ := h p List.mem_cons_self
      have hcons := TagsText.cons (nameText_legal hlegal) (by rwa [String.ofList_toList])
        (nameText_escapeTag (.inl rfl) (ofLex p).2.toList) (ih fun q hq => h q (.tail _ hq))
      rw [String.ofList_toList] at hcons
      simpa [shownText] using hcons

theorem float_chars (hfl : FloatGrammar fl) {text : List Char}
    (h : isFiniteText fl text = true) :
    ∀ c ∈ text, c ≠ ',' ∧ c ≠ ' ' ∧ c ≠ '"' ∧ c ≠ '\n' := by
  intro c hc
  rcases hfl.chars text h c hc with hdigit | hmem
  · obtain ⟨⟨hcomma, hspace, hquote⟩, hbreak, _⟩ := decimal_plain (.inr (.inr hdigit))
    exact ⟨hcomma, hspace, hquote, hbreak⟩
  · simp only [List.mem_cons, List.not_mem_nil, or_false] at hmem
    rcases hmem with rfl | rfl | rfl | rfl | rfl <;> decide

/-- A finite number is a value of the field it stands for. -/
theorem valueText_float (hfl : FloatGrammar fl) {text : List Char}
    (h : isFiniteText fl text = true) : ValueText fl false text (floatField fl text) := by
  have hchars := float_chars hfl h
  obtain ⟨c, hlast, hc⟩ := hfl.last text h
  have hdecimal : c = '-' ∨ c = '.' ∨ c.isDigit = true := .inr hc.symm
  obtain ⟨_, _, hword, hi, hu⟩ := decimal_plain hdecimal
  refine .scalar (fun more heq => ?_) (fun c hc => ⟨(hchars c hc).1, (hchars c hc).2.1⟩) ?_
  · exact (hchars '"' (heq ▸ List.mem_cons_self)).2.2.1 rfl
  · rw [scalar_number hlast hword, if_neg hi, if_neg hu, floatField]
    unfold isFiniteText at h
    cases hparse : fl.parse text with
    | none =>
        rw [hparse] at h
        cases h
    | some bits => rfl

theorem fieldsText_pairs (hfl : FloatGrammar fl) {fields : List (String × List Char)}
    (hne : fields ≠ []) (h : ∀ p ∈ fields, legalName p.1 = true ∧ p.1 ≠ reservedKey ∧
      isFiniteText fl p.2 = true) :
    FieldsText fl false (pairsText fields) (fields.map fun p => (p.1, floatField fl p.2)) := by
  induction fields with
  | nil => exact absurd rfl hne
  | cons p rest ih =>
      obtain ⟨hlegal, hreserved, hfinite⟩ := h p List.mem_cons_self
      have hkey := nameText_legal hlegal
      have hreserved' : String.ofList p.1.toList ≠ reservedKey := by rwa [String.ofList_toList]
      have hvalue := valueText_float hfl hfinite
      cases rest with
      | nil =>
          have hlast := FieldsText.last hkey hreserved' hvalue
          rwa [String.ofList_toList] at hlast
      | cons q rest =>
          have hcons := FieldsText.cons hkey hreserved' hvalue
            (ih (List.cons_ne_nil q rest) fun r hr => h r (.tail _ hr))
          rwa [String.ofList_toList] at hcons

theorem pairsText_unbroken (hfl : FloatGrammar fl) {fields : List (String × List Char)}
    (h : ∀ p ∈ fields, isFiniteText fl p.2 = true) : '\n' ∉ pairsText fields := by
  have hvalue : ∀ p ∈ fields, '\n' ∉ p.2 := fun p hp hmem =>
    (float_chars hfl (h p hp) '\n' hmem).2.2.2 rfl
  induction fields with
  | nil => exact List.not_mem_nil
  | cons p rest ih =>
      have hp := hvalue p List.mem_cons_self
      have hrest := ih (fun q hq => h q (.tail _ hq)) fun q hq => hvalue q (.tail _ hq)
      cases rest with
      | nil =>
          simp only [pairsText, List.mem_append, List.mem_cons, not_or]
          exact ⟨newline_notMem_escapeTag _, by decide, hp⟩
      | cons q rest =>
          simp only [pairsText, List.mem_append, List.mem_cons, not_or] at hrest ⊢
          exact ⟨newline_notMem_escapeTag _, by decide, hp, by decide, hrest⟩

end Reading

section Lines

variable {fl : FloatOps}

theorem labelSet_legal (s : Sample) :
    ∀ p ∈ s.labelSet, legalName (ofLex p).1 = true ∧ (ofLex p).1 ≠ reservedKey := by
  intro p hp
  obtain ⟨q, hq, rfl⟩ := List.mem_map.mp hp
  obtain ⟨hlegal, hreserved, _⟩ := s.labelled q (mem_of_mem_collect hq)
  exact ⟨hlegal, hreserved⟩

/-- The line of a label set is read as its row. -/
theorem reads_metricsLine (hfl : FloatGrammar fl) (node : String) (nowNs : Int64)
    {samples : List Sample} (hfinite : ∀ s ∈ samples, isFiniteText fl s.value = true)
    {group : Labels × List (String × List Char)} (h : FromSamples fl samples group) :
    Reads fl (metricsLine node nowNs group) (metricsRow fl node nowNs group) := by
  obtain ⟨⟨s, _, hset⟩, hne, hfields⟩ := h
  have hlegal : ∀ p ∈ group.2, legalName p.1 = true ∧ p.1 ≠ reservedKey ∧
      isFiniteText fl p.2 = true := by
    intro p hp
    obtain ⟨q, hq, rfl⟩ := hfields p hp
    exact ⟨q.named.1, q.named.2, hfinite q hq⟩
  have htags := tagsText_fixed "node".toList node.toList (by decide) (by decide)
    (tagsText_labels (hset ▸ labelSet_legal s))
  have hrow := RowText.row (nameText_plain (.inl rfl) (s := "metrics".toList) (by decide))
    (by decide) htags (fieldsText_pairs hfl hne hlegal)
  have hline : metricsLine node nowNs group = ("metrics".toList ++ (',' :: ("node".toList ++ '=' ::
      (escapeTag node.toList ++ group.1.flatMap fun p =>
        ',' :: (escapeTag (ofLex p).1.toList ++ '=' :: escapeTag (ofLex p).2.toList))) ++
      ' ' :: pairsText group.2)) ++ ' ' :: padInt 0 nowNs.toInt := by
    have hhead : "metrics,node=".toList = "metrics".toList ++ ',' :: ("node".toList ++ ['=']) := by
      decide
    unfold metricsLine
    rw [hhead]
    simp only [List.append_assoc, List.cons_append, List.nil_append]
  rw [hline]
  refine reads_row hrow ?_ ⟨'m', _, rfl, by decide⟩ rfl
  have hlabels : '\n' ∉ group.1.flatMap fun p =>
      ',' :: (escapeTag (ofLex p).1.toList ++ '=' :: escapeTag (ofLex p).2.toList) := by
    intro hmem
    obtain ⟨p, _, hp⟩ := List.mem_flatMap.mp hmem
    simp [newline_notMem_escapeTag] at hp
  have hpairs := pairsText_unbroken hfl fun p hp => (hlegal p hp).2.2
  simp only [List.mem_append, List.mem_cons, not_or]
  exact ⟨by decide, ⟨by decide, by decide, by decide, newline_notMem_escapeTag _, hlabels⟩,
    by decide, hpairs⟩

/-- The value of a count. -/
theorem valueText_count {n : Nat} (h : n < 2 ^ 63) :
    ValueText fl false (padNat 0 n ++ ['i']) (.int (Int64.ofInt n)) := by
  have hpad : padNat 0 n = padInt 0 n := by
    rw [padInt, if_neg (by omega), Int.natAbs_natCast]
  have hrange : i64 (n : Int) = some (n : Int) := by
    rw [i64, if_pos (by omega)]
  have hchars : ∀ c ∈ padNat 0 n ++ ['i'], c ≠ ',' ∧ c ≠ ' ' ∧ c ≠ '"' :=
    suffixed_chars (fun c hc => .inr (.inr (padNat_isDigit hc))) (by decide)
  refine .scalar (fun more heq => ?_) (fun c hc => ⟨(hchars c hc).1, (hchars c hc).2.1⟩) ?_
  · exact (hchars '"' (heq ▸ List.mem_cons_self)).2.2 rfl
  · rw [scalar_number (c := 'i') List.getLast?_concat (by decide), if_pos rfl,
      List.dropLast_concat, hpad,
      parseI64_padInt hrange]

/-- The tags and the fields of the line of a query. -/
def queryTags (node : String) (stats : QueryStats) : List Char :=
  ',' :: ("node".toList ++ '=' :: (escapeTag node.toList ++
    ',' :: ("db".toList ++ '=' :: (escapeTag stats.db.toList ++
      ',' :: ("outcome".toList ++ '=' :: (escapeTag stats.outcome.asStr.toList ++
        stats.identity.elim [] fun identity =>
          ',' :: ("identity".toList ++ '=' :: (escapeTag identity.toList ++ []))))))))

def queryFields (millis : Nat → List Char) (stats : QueryStats) : List Char :=
  "duration_ms".toList ++ '=' :: (millis stats.duration ++
    ',' :: ("wait_ms".toList ++ '=' :: (millis stats.admissionWait ++
      ',' :: ("rows".toList ++ '=' :: ((padNat 0 stats.rows ++ ['i']) ++
        ',' :: ("ref".toList ++ '=' :: '"' :: (escapeQuoted stats.refId.toList ++ ['"'])))))))

theorem escapeTag_outcome (o : QueryOutcome) :
    escapeTag o.asStr.toList = o.asStr.toList ∧ shownText o.asStr = o.asStr := by
  cases o <;> exact ⟨by decide, by decide⟩

theorem queryLine_eq (millis : Nat → List Char) (node : String) (stats : QueryStats)
    (nowNs : Int64) :
    queryLine millis node stats nowNs = ("queries".toList ++ (queryTags node stats ++
      ' ' :: queryFields millis stats)) ++ ' ' :: padInt 0 nowNs.toInt := by
  have hnode : "queries,node=".toList = "queries".toList ++ ',' :: ("node".toList ++ ['=']) := by
    decide
  have hdb : ",db=".toList = ',' :: ("db".toList ++ ['=']) := by decide
  have houtcome : ",outcome=".toList = ',' :: ("outcome".toList ++ ['=']) := by decide
  have hidentity : ",identity=".toList = ',' :: ("identity".toList ++ ['=']) := by decide
  have hduration : " duration_ms=".toList = ' ' :: ("duration_ms".toList ++ ['=']) := by decide
  have hwait : ",wait_ms=".toList = ',' :: ("wait_ms".toList ++ ['=']) := by decide
  have hrows : ",rows=".toList = ',' :: ("rows".toList ++ ['=']) := by decide
  have href : "i,ref=\"".toList = 'i' :: ',' :: ("ref".toList ++ ['=', '"']) := by decide
  have hend : "\" ".toList = ['"', ' '] := by decide
  unfold queryLine queryTags queryFields escapeFieldString
  rw [hnode, hdb, houtcome, hidentity, hduration, hwait, hrows, href, hend,
    (escapeTag_outcome stats.outcome).1]
  cases stats.identity <;>
    simp only [Option.elim, List.append_assoc, List.cons_append, List.nil_append, List.append_nil]

theorem queryTags_text (node : String) (stats : QueryStats) :
    TagsText (queryTags node stats) (("node", shownText node) :: ("db", shownText stats.db) ::
      ("outcome", stats.outcome.asStr) ::
      (stats.identity.map fun identity => ("identity", shownText identity)).toList) := by
  have hidentity : TagsText
      (stats.identity.elim [] fun identity =>
        ',' :: ("identity".toList ++ '=' :: (escapeTag identity.toList ++ [])))
      (stats.identity.map fun identity => ("identity", shownText identity)).toList := by
    cases stats.identity with
    | none => exact .nil
    | some identity => exact tagsText_fixed _ _ (by decide) (by decide) .nil
  have houtcome := tagsText_fixed "outcome".toList stats.outcome.asStr.toList (by decide)
    (by decide) hidentity
  change TagsText _ (("outcome", shownText stats.outcome.asStr) :: _) at houtcome
  rw [(escapeTag_outcome stats.outcome).2] at houtcome
  exact tagsText_fixed _ _ (by decide) (by decide)
    (tagsText_fixed _ _ (by decide) (by decide) houtcome)

theorem queryFields_text (hfl : FloatGrammar fl) {millis : Nat → List Char}
    (hmillis : ∀ d, isFiniteText fl (millis d) = true) (stats : QueryStats) :
    FieldsText fl true (queryFields millis stats)
      [("duration_ms", floatField fl (millis stats.duration)),
        ("wait_ms", floatField fl (millis stats.admissionWait)),
        ("rows", .int (Int64.ofInt stats.rows)),
        ("ref", .str (String.ofList (shownField stats.refId.toList)))] := by
  have hname : ∀ s : String, s.toList.all nameChar = true → NameText '=' s.toList s.toList :=
    fun s hs => nameText_plain (.inr rfl) hs
  have href : FieldsText fl true _ _ := .last (hname "ref" (by decide)) (by decide)
    (.quoted (quotedText_escapeQuoted stats.refId.toList))
  exact .cons (hname "duration_ms" (by decide)) (by decide)
    (valueText_float hfl (hmillis stats.duration))
    (.cons (hname "wait_ms" (by decide)) (by decide)
      (valueText_float hfl (hmillis stats.admissionWait))
      (.cons (hname "rows" (by decide)) (by decide) (valueText_count stats.counted) href))

/-- The line of a query is read as its row. -/
theorem reads_queryLine (hfl : FloatGrammar fl) {millis : Nat → List Char}
    (hmillis : ∀ d, isFiniteText fl (millis d) = true) (node : String) (stats : QueryStats)
    (nowNs : Int64) :
    Reads fl (queryLine millis node stats nowNs) (queryRow fl millis node stats nowNs) := by
  have hrow := RowText.row (nameText_plain (.inl rfl) (s := "queries".toList) (by decide))
    (by decide) (queryTags_text node stats) (queryFields_text hfl hmillis stats)
  rw [queryLine_eq]
  refine reads_row hrow ?_ ⟨'q', _, rfl, by decide⟩ rfl
  have hfloat : ∀ d, '\n' ∉ millis d := fun d hmem =>
    (float_chars hfl (hmillis d) '\n' hmem).2.2.2 rfl
  have hrows : '\n' ∉ padNat 0 stats.rows := fun hmem =>
    absurd (padNat_isDigit hmem) (by decide)
  have hidentity : '\n' ∉ stats.identity.elim [] fun identity =>
      ',' :: ("identity".toList ++ '=' :: (escapeTag identity.toList ++ [])) := by
    cases stats.identity with
    | none => exact List.not_mem_nil
    | some identity =>
        simp only [Option.elim, List.mem_cons, List.mem_append, List.not_mem_nil, or_false, not_or]
        exact ⟨by decide, by decide, by decide, newline_notMem_escapeTag _⟩
  unfold queryTags queryFields
  simp only [List.mem_append, List.mem_cons, List.not_mem_nil, or_false, not_or]
  exact ⟨by decide, ⟨by decide, by decide, by decide, newline_notMem_escapeTag _, by decide,
    by decide, by decide, newline_notMem_escapeTag _, by decide, by decide, by decide,
    newline_notMem_escapeTag _, hidentity⟩, by decide, by decide, by decide, hfloat _, by decide,
    by decide, by decide, hfloat _, by decide, by decide, by decide, ⟨hrows, by decide⟩, by decide,
    by decide, by decide, by decide, newline_notMem_escapeQuoted _, by decide⟩

end Lines

end TimeLake.Selfmon
