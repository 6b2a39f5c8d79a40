import TimeLake.Selfmon.Rows

/-!
What waits in the queue between two drains is a row a line: whatever queries end and
whichever expositions are sampled, the drained lines joined by line ends are read as the
rows they stand for, as far as the queue had room, and every finite sample is a field of
the row of its labels.
-/

namespace TimeLake.Selfmon

open TimeLake.Library TimeLake.Rows TimeLake.Ingest

section Bodies

variable {fl : FloatOps}

theorem splitLines_single {line : List Char} (hne : line ≠ []) (h : '\n' ∉ line) :
    splitLines line = [line] := by
  induction line with
  | nil => exact absurd rfl hne
  | cons c rest ih =>
      rw [List.mem_cons, not_or] at h
      rw [splitLines, if_neg (Ne.symm h.1)]
      cases rest with
      | nil => rfl
      | cons d more => rw [ih (List.cons_ne_nil d more) h.2]

/-- Joined lines are the lines again. -/
theorem splitLines_intercalate {lines : List (List Char)}
    (h : ∀ line ∈ lines, line ≠ [] ∧ '\n' ∉ line) :
    splitLines (['\n'].intercalate lines) = lines := by
  induction lines with
  | nil => rfl
  | cons line rest ih =>
      obtain ⟨hne, hbreak⟩ := h line List.mem_cons_self
      cases rest with
      | nil =>
          have hjoin : ['\n'].intercalate [line] = line := by simp [List.intercalate]
          rw [hjoin, splitLines_single hne hbreak]
      | cons next more =>
          have hjoin : ['\n'].intercalate (line :: next :: more) =
              line ++ '\n' :: ['\n'].intercalate (next :: more) := by
            simp [List.intercalate, List.intersperse]
          rw [hjoin, splitLines_cons hbreak, ih fun l hl => h l (.tail _ hl)]

theorem readLinesFrom_reads {lines : List (List Char)} {rows : List ParsedLine}
    (h : List.Forall₂ (Reads fl) lines rows) (no : Nat) :
    readLinesFrom fl 1 no lines =
      .ok (rows.map fun r => ⟨r.table, r.tags, r.fields, some r.timestampNs⟩) := by
  induction h generalizing no with
  | nil => rfl
  | @cons line row lines rows hread _ ih =>
      obtain ⟨c, tail, hcons, hc⟩ := hread.starts
      have hstart : ¬(line = [] || line.head? = some '#') = true := by simp [hcons, hc]
      rw [readLinesFrom, hread.kept]
      simp only [if_neg hstart, hread.read, ih, Except.map, List.map_cons]

/-- The body made of lines that are read as rows is read as these rows. -/
theorem parseLines_body {lines : List (List Char)} {rows : List ParsedLine}
    (h : List.Forall₂ (Reads fl) lines rows) (defaultTsNs : Int) :
    parseLines fl (body lines) 1 defaultTsNs = .ok rows := by
  have hlines : ∀ line ∈ lines, line ≠ [] ∧ '\n' ∉ line := by
    intro line hline
    obtain ⟨row, hread⟩ : ∃ row, Reads fl line row := by
      clear * - h hline
      induction h with
      | nil => cases hline
      | cons hread _ ih =>
          rcases List.mem_cons.mp hline with rfl | hline
          · exact ⟨_, hread⟩
          · exact ih hline
    obtain ⟨c, tail, hcons, _⟩ := hread.starts
    exact ⟨by simp [hcons], hread.unbroken⟩
  rw [parseLines, readLines, body, String.toList_ofList, splitLines_intercalate hlines,
    readLinesFrom_reads h]
  simp [Except.map, Line.stamp, Function.comp_def]

end Bodies

section Queueing

theorem take_append_take {α : Type*} (xs ys : List α) (n : Nat) :
    (xs.take n ++ ys).take n = (xs ++ ys).take n := by
  rcases Nat.le_total xs.length n with hle | hge
  · rw [List.take_of_length_le hle]
  · rw [List.take_append_of_le_length (by simpa using hge), List.take_take, min_self,
      List.take_append_of_le_length hge]

/-- The queue keeps the first lines it has room for. -/
theorem foldl_enqueue (lines : List (List Char)) (m : SelfMonitor)
    (hroom : m.pending.length ≤ m.capacity) :
    (lines.foldl SelfMonitor.enqueue m).pending = (m.pending ++ lines).take m.capacity ∧
      (lines.foldl SelfMonitor.enqueue m).capacity = m.capacity ∧
      (lines.foldl SelfMonitor.enqueue m).node = m.node := by
  induction lines generalizing m with
  | nil => exact ⟨by rw [List.append_nil, List.take_of_length_le hroom]; rfl, rfl, rfl⟩
  | cons line rest ih =>
      rw [List.foldl_cons]
      by_cases hfull : m.capacity ≤ m.pending.length
      · have hstep : m.enqueue line = { m with dropped := m.dropped + 1 } := if_pos hfull
        rw [hstep]
        obtain ⟨hpending, hcapacity, hnode⟩ := ih { m with dropped := m.dropped + 1 } hroom
        refine ⟨?_, hcapacity, hnode⟩
        rw [hpending, List.take_append_of_le_length hfull, List.take_append_of_le_length hfull]
      · have hstep : m.enqueue line = { m with pending := m.pending ++ [line] } := if_neg hfull
        rw [hstep]
        obtain ⟨hpending, hcapacity, hnode⟩ := ih { m with pending := m.pending ++ [line] } (by
          simp only [List.length_append, List.length_singleton]
          omega)
        refine ⟨?_, hcapacity, hnode⟩
        rw [hpending, List.append_assoc, List.singleton_append]

/-- What a node observes of itself. -/
inductive Event where
  | query (stats : QueryStats) (nowNs : Int64)
  | sample (lines : List ExpoLine) (nowNs : Int64)

variable (fl : FloatOps) (millis : Nat → List Char)

def observe (m : SelfMonitor) : Event → Option SelfMonitor
  | .query stats nowNs => some (m.onQuery millis stats nowNs)
  | .sample lines nowNs => m.sampleExposition fl (expoText lines) nowNs

def observeAll (m : SelfMonitor) (events : List Event) : Option SelfMonitor :=
  events.foldlM (observe fl millis) m

/-- The rows an event stands for. -/
def Event.rows (node : String) : Event → List ParsedLine
  | .query stats nowNs => [queryRow fl millis node stats nowNs]
  | .sample lines nowNs => sampleRows fl node nowNs lines

end Queueing

section Runs

variable {fl : FloatOps} {millis : Nat → List Char}

/-- The lines of an exposition are read as its rows; the scanner does not fail on it. -/
theorem exposition_reads (hfl : FloatGrammar fl) (node : String) (nowNs : Int64)
    (lines : List ExpoLine) :
    ∃ texts, expositionToLineProtocol fl (expoText lines) node nowNs = some texts ∧
      List.Forall₂ (Reads fl) texts (sampleRows fl node nowNs lines) := by
  have hgroups : groupSamples fl [] (splitLines (expoText lines)) =
      some ((groupInto Sample.labelSet (fun s => (s.name, s.value)) (finiteSamples fl lines)).map
        fun p => (p.1, collect p.2)) := by
    rw [splitLines_expoText, groupSamples_lines]
    exact congrArg some (foldl_insertInto (finiteSamples fl lines))
  refine ⟨_, by rw [expositionToLineProtocol, hgroups, Option.map_some], ?_⟩
  rw [sampleRows, List.map_map, List.forall₂_map_left_iff, List.forall₂_map_right_iff,
    List.forall₂_same]
  intro g hg
  refine reads_metricsLine hfl node nowNs (fun s hs => ?_) (fromSamples hg)
  exact (List.mem_filter.mp hs).2

/-- One event adds lines that are read as its rows. -/
theorem observe_reads (hfl : FloatGrammar fl) (hmillis : ∀ d, isFiniteText fl (millis d) = true)
    {m : SelfMonitor} (hroom : m.pending.length ≤ m.capacity) (e : Event) :
    ∃ after texts, observe fl millis m e = some after ∧
      after.pending = (m.pending ++ texts).take m.capacity ∧ after.capacity = m.capacity ∧
      after.node = m.node ∧ List.Forall₂ (Reads fl) texts (e.rows fl millis m.node) := by
  cases e with
  | query stats nowNs =>
      obtain ⟨hpending, hcapacity, hnode⟩ :=
        foldl_enqueue [queryLine millis m.node stats nowNs] m hroom
      refine ⟨_, _, rfl, hpending, hcapacity, hnode, .cons ?_ .nil⟩
      exact reads_queryLine hfl hmillis m.node stats nowNs
  | sample lines nowNs =>
      obtain ⟨texts, htexts, hreads⟩ := exposition_reads hfl m.node nowNs lines
      obtain ⟨hpending, hcapacity, hnode⟩ := foldl_enqueue texts m hroom
      refine ⟨_, texts, ?_, hpending, hcapacity, hnode, hreads⟩
      rw [observe, SelfMonitor.sampleExposition, htexts, Option.map_some]

/-- A run of events adds lines that are read as their rows, as far as there is room. -/
theorem observeAll_reads (hfl : FloatGrammar fl)
    (hmillis : ∀ d, isFiniteText fl (millis d) = true) (events : List Event) {m : SelfMonitor}
    (hroom : m.pending.length ≤ m.capacity) :
    ∃ after texts, observeAll fl millis m events = some after ∧
      after.pending = (m.pending ++ texts).take m.capacity ∧
      List.Forall₂ (Reads fl) texts (events.flatMap (Event.rows fl millis m.node)) := by
  induction events generalizing m with
  | nil => exact ⟨m, [], rfl, by rw [List.append_nil, List.take_of_length_le hroom], .nil⟩
  | cons e rest ih =>
      obtain ⟨next, texts, hstep, hpending, hcapacity, hnode, hreads⟩ :=
        observe_reads hfl hmillis hroom e
      have hroom' : next.pending.length ≤ next.capacity := by
        rw [hpending, hcapacity]
        exact List.length_take_le _ _
      obtain ⟨after, more, hrun, hafter, hmore⟩ := ih hroom'
      refine ⟨after, texts ++ more, ?_, ?_, ?_⟩
      · rw [observeAll, List.foldlM_cons, hstep]
        exact hrun
      · rw [hafter, hpending, hcapacity, take_append_take, List.append_assoc]
      · rw [hnode] at hmore
        rw [List.flatMap_cons]
        exact List.rel_append hreads hmore

/-- The row holds the sample: its labels and the node are the tags, and its name is a
field, with its value unless another sample of the series has another one. -/
structure Carries (fl : FloatOps) (node : String) (samples : List Sample) (s : Sample)
    (row : ParsedLine) : Prop where
  table : row.table = "metrics"
  tags : row.tags.Perm (("node", shownText node) :: s.labels.map fun p => (p.1, shownText p.2))
  distinct : (row.tags.map Prod.fst).Nodup
  field : (row.fields.lookup s.name).isSome
  value : (∀ q ∈ samples, q.labelSet = s.labelSet → q.name = s.name → q.value = s.value) →
    row.fields.lookup s.name = some (floatField fl s.value)

theorem carried {lines : List ExpoLine} {s : Sample} (hs : s ∈ finiteSamples fl lines)
    (node : String) (nowNs : Int64) :
    ∃ row ∈ sampleRows fl node nowNs lines, Carries fl node (finiteSamples fl lines) s row := by
  obtain ⟨xs, hgroup, hmem⟩ := @exists_group _ _ _ _ Sample.labelSet
    (fun s : Sample => (s.name, s.value)) _ _ hs
  have htags : (tagsOf node s.labelSet).Perm
      (("node", shownText node) :: s.labels.map fun p => (p.1, shownText p.2)) := by
    rw [tagsOf, Sample.labelSet, List.map_map]
    exact ((perm_collect s.distinct).map _).cons _
  have hlookup : ∃ v, (collect xs).lookup s.name = some v := by
    rw [lookup_collect, ← Option.isSome_iff_exists]
    by_contra hnone
    rw [Option.not_isSome_iff_eq_none, List.lookup_eq_none_iff] at hnone
    have hself := hnone _ (List.mem_reverse.mpr hmem)
    simp at hself
  obtain ⟨v, hv⟩ := hlookup
  refine ⟨_, List.mem_map_of_mem hgroup, rfl, htags, ?_, ?_, fun hsame => ?_⟩
  · refine (htags.map Prod.fst).nodup_iff.mpr (List.nodup_cons.mpr ⟨?_, ?_⟩)
    · intro hnode
      rw [List.map_map] at hnode
      obtain ⟨p, hp, heq⟩ := List.mem_map.mp hnode
      exact (s.labelled p hp).2.2 heq
    · rw [List.map_map]
      exact s.distinct
  · rw [metricsRow, lookup_map_snd fun _ text => floatField fl text, hv]
    rfl
  · rw [metricsRow, lookup_map_snd fun _ text => floatField fl text, hv]
    obtain ⟨q, hq, hset, hpair⟩ :=
      exists_of_mem_group hgroup (mem_of_mem_collect (mem_of_lookup hv))
    obtain ⟨hname, hvalue⟩ := Prod.mk.inj hpair
    rw [← hvalue, hsame q hq hset hname]
    rfl

/-- The lines queued between two drains are read, one row a line, as the rows of the
events, in order and as far as the queue has room; and every finite sample of an
exposition is in the row of its labels. -/
theorem queued_rows_read_back (hfl : FloatGrammar fl)
    (hmillis : ∀ d, isFiniteText fl (millis d) = true) (m : SelfMonitor) (events : List Event)
    (defaultTsNs : Int) :
    ∃ after rows, observeAll fl millis m.drain.2 events = some after ∧
      rows = (events.flatMap (Event.rows fl millis m.node)).take m.capacity ∧
      parseLines fl (body after.drain.1) 1 defaultTsNs = .ok rows ∧
      rows.length = after.drain.1.length ∧
      ∀ lines nowNs, Event.sample lines nowNs ∈ events → ∀ s ∈ finiteSamples fl lines,
        ∃ row ∈ sampleRows fl m.node nowNs lines,
          Carries fl m.node (finiteSamples fl lines) s row := by
  obtain ⟨after, texts, hrun, hpending, hreads⟩ :=
    observeAll_reads hfl hmillis events (m := m.drain.2) (Nat.zero_le _)
  have hkept := List.forall₂_take m.capacity hreads
  have hdrained : after.drain.1 = texts.take m.capacity := hpending
  refine ⟨after, _, hrun, rfl, ?_, ?_, fun lines nowNs _ s hs => carried hs m.node nowNs⟩
  · rw [hdrained]
    exact parseLines_body hkept defaultTsNs
  · rw [hdrained]
    exact hkept.length_eq.symm

/-- The texts of two numbers. -/
def fewFloats : FloatOps :=
  ⟨fun text => if text = ['1', '2'] then some 0x4028000000000000
    else if text = ['0', '.', '0', '0', '0'] then some 0 else none, fun _ => 0, fun _ => 0⟩

def noTime (_ : Nat) : List Char := ['0', '.', '0', '0', '0']

theorem fewFloats_cases {text : List Char} (h : isFiniteText fewFloats text = true) :
    text = ['1', '2'] ∨ text = ['0', '.', '0', '0', '0'] := by
  simp only [isFiniteText, fewFloats] at h
  by_cases htwelve : text = ['1', '2']
  · exact .inl htwelve
  · by_cases hzero : text = ['0', '.', '0', '0', '0']
    · exact .inr hzero
    · rw [if_neg htwelve, if_neg hzero] at h
      cases h

theorem fewFloats_grammar : FloatGrammar fewFloats where
  chars text h c hc := by
    rcases fewFloats_cases h with rfl | rfl
    · have hcases : c = '1' ∨ c = '2' := by simpa using hc
      rcases hcases with rfl | rfl <;> decide
    · have hcases : c = '0' ∨ c = '.' ∨ c = '0' := by simpa using hc
      rcases hcases with rfl | rfl | rfl <;> decide
  last text h := by
    rcases fewFloats_cases h with rfl | rfl
    · exact ⟨'2', rfl, by decide⟩
    · exact ⟨'0', rfl, by decide⟩

/-- A query of a client whose certificate has a comma and a space in its name. -/
def agentQuery : QueryStats where
  refId := "7f"
  db := "poc\nqueries x=1"
  identity := some "Tributary Agent,4=x"
  admissionWait := 0
  duration := 0
  rows := 3
  outcome := .ok
  counted := by decide

/-- A table whose name closes the label. -/
def evilTable : Sample where
  name := "timelake_storage_rows"
  labels := [("table", "ev\"il,a=\\\n"), ("db", "poc")]
  value := ['1', '2']
  named := by decide
  labelled := by decide
  distinct := by decide
  printed := by
    refine ⟨by decide, fun c hc => ?_⟩
    have hcases : c = '1' ∨ c = '2' := by simpa using hc
    rcases hcases with rfl | rfl <;> decide

theorem client_text_read_back :
    ∃ after, observeAll fewFloats noTime (SelfMonitor.new "n 1" none).drain.2
        [.query agentQuery 5, .sample [.blank, .sample evilTable] 6] = some after ∧
      parseLines fewFloats (body after.drain.1) 1 0 = .ok
        [⟨"queries", [("node", "n 1"), ("db", "poc\\nqueries x=1"), ("outcome", "ok"),
            ("identity", "Tributary Agent,4=x")],
          [("duration_ms", .float 0), ("wait_ms", .float 0), ("rows", .int 3), ("ref", .str "7f")],
          5⟩,
        ⟨"metrics", [("node", "n 1"), ("db", "poc"), ("table", "ev\"il,a=\\\\n")],
          [("timelake_storage_rows", .float 0x4028000000000000)], 6⟩] := by
  have hzero : isFiniteText fewFloats ['0', '.', '0', '0', '0'] = true := by decide +kernel
  have hmillis : ∀ d, isFiniteText fewFloats (noTime d) = true := fun _ => hzero
  obtain ⟨after, rows, hrun, hrows, hparsed, _⟩ := queued_rows_read_back fewFloats_grammar hmillis
    (SelfMonitor.new "n 1" none) [.query agentQuery 5, .sample [.blank, .sample evilTable] 6] 0
  refine ⟨after, hrun, ?_⟩
  rw [hparsed, hrows]
  decide +kernel

end Runs

end TimeLake.Selfmon
