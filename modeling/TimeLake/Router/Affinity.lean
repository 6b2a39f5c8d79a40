import TimeLake.Router.Shards
import TimeLake.Library.Fallible

/-!
What the router's split does to a body the parser accepts. Every line arrives
once, in order, and parses to what it was; a table stays together where it is
spelt the one way, or where there are too few targets for its spellings to part.
-/

namespace TimeLake.Router

open TimeLake.Library TimeLake.Ingest
open TimeLake.Wal (utf8_eq)

section Definitions

/-- The lines that went to one target. -/
def part (k : Nat) (lines : List ParsedLine) (place : List Nat) : List ParsedLine :=
  ((lines.zip place).filter fun p => p.2 = k).map Prod.fst

/-- Every line has one place, and the body at a place parses to the lines placed
there, in their order. -/
structure Sharded (parse : String → Except ParseError (List ParsedLine)) (lines : List ParsedLine)
    (shards : List String) (place : List Nat) : Prop where
  placed : place.length = lines.length
  inRange : ∀ k ∈ place, k < shards.length
  parses : ∀ k shard, shards[k]? = some shard → parse shard = .ok (part k lines place)

def TablesTogether (lines : List ParsedLine) (place : List Nat) : Prop :=
  ∀ p ∈ lines.zip place, ∀ q ∈ lines.zip place, p.1.table = q.1.table → p.2 = q.2

/-- The lines of a body that are neither blank nor comments. -/
def contentLines (text : List Char) : List (List Char) :=
  ((splitLines text).map fun raw => raw.rdropWhile (· = '\r')).filter isContent

/-- Lines that give one table spell it alike. -/
def SpeltAlike (text : String) : Prop :=
  ∀ x ∈ contentLines text.toList, ∀ y ∈ contentLines text.toList,
    (takeEscaped ',' x).1 = (takeEscaped ',' y).1 → spelling x = spelling y

def route (db : String) (targets : Nat) (line : List Char) : Nat :=
  shardOf db (measurementOf line) targets

end Definitions

section Parsing

variable {fl : FloatOps} {mult ts : Int}

theorem readLinesFrom_ok_iff (raws : List (List Char)) (no : Nat) (ls : List Line) :
    readLinesFrom fl mult no raws = .ok ls ↔
      List.Forall₂ (fun line l => readLine fl mult line = .ok l)
        ((raws.map fun raw => raw.rdropWhile (· = '\r')).filter isContent) ls := by
  induction raws generalizing no ls with
  | nil =>
      rw [readLinesFrom, List.map_nil, List.filter_nil, List.forall₂_nil_left_iff]
      constructor
      · intro h
        cases h
        rfl
      · rintro rfl
        rfl
  | cons raw rest ih =>
      rw [readLinesFrom, List.map_cons]
      split
      · next hskip =>
          rw [List.filter_cons_of_neg (by rw [isContent, hskip]; simp)]
          exact ih (no + 1) ls
      · next hkeep =>
          rw [List.filter_cons_of_pos (by rw [isContent, Bool.eq_false_iff.mpr hkeep]; rfl)]
          cases hline : readLine fl mult (raw.rdropWhile (· = '\r')) with
          | error e =>
              constructor
              · intro h
                cases h
              · intro h
                obtain ⟨l, _, hl, _⟩ := List.forall₂_cons_left_iff.mp h
                rw [hline] at hl
                cases hl
          | ok l =>
              constructor
              · intro h
                cases hrest : readLinesFrom fl mult (no + 1) rest with
                | error e =>
                    rw [hrest] at h
                    cases h
                | ok more =>
                    rw [hrest] at h
                    cases h
                    exact .cons hline ((ih _ _).mp hrest)
              · intro h
                obtain ⟨l', more, hl, hmore, rfl⟩ := List.forall₂_cons_left_iff.mp h
                rw [hline] at hl
                cases hl
                dsimp only
                rw [(ih _ _).mpr hmore]
                rfl

theorem parseLine_ok_iff {line : List Char} {l : ParsedLine} :
    parseLine fl line mult ts = .ok l ↔
      ∃ raw, readLine fl mult line = .ok raw ∧ raw.stamp ts = l := by
  unfold parseLine
  cases readLine fl mult line with
  | error e => simp [Except.map]
  | ok raw => simp [Except.map]

theorem forall₂_parseLine {xs : List (List Char)} {lines : List ParsedLine} :
    List.Forall₂ (fun line l => parseLine fl line mult ts = .ok l) xs lines ↔
      ∃ raws, List.Forall₂ (fun line raw => readLine fl mult line = .ok raw) xs raws ∧
        raws.map (Line.stamp ts) = lines := by
  induction xs generalizing lines with
  | nil => simp [eq_comm]
  | cons x rest ih =>
      simp only [List.forall₂_cons_left_iff, ih]
      constructor
      · rintro ⟨l, _, hl, ⟨raws, hraws, rfl⟩, rfl⟩
        obtain ⟨raw, hraw, rfl⟩ := parseLine_ok_iff.mp hl
        exact ⟨raw :: raws, ⟨raw, raws, hraw, hraws, rfl⟩, rfl⟩
      · rintro ⟨_, ⟨raw, raws, hraw, hraws, rfl⟩, rfl⟩
        exact ⟨_, _, parseLine_ok_iff.mpr ⟨raw, hraw, rfl⟩, ⟨raws, hraws, rfl⟩, rfl⟩

/-- `parse_lines` line by line. -/
theorem parseLines_ok_iff {text : String} {lines : List ParsedLine} :
    parseLines fl text mult ts = .ok lines ↔
      List.Forall₂ (fun line l => parseLine fl line mult ts = .ok l) (contentLines text.toList)
        lines := by
  rw [forall₂_parseLine]
  unfold contentLines
  simp only [← readLinesFrom_ok_iff _ 1, parseLines, readLines]
  cases readLinesFrom fl mult 1 (splitLines text.toList) with
  | error e => simp [Except.map]
  | ok raws => simp [Except.map]

theorem table_of_parseLine {line : List Char} {l : ParsedLine}
    (h : parseLine fl line mult ts = .ok l) :
    l.table = String.ofList (takeEscaped ',' line).1 ∧ (takeEscaped ',' line).1 ≠ [] := by
  obtain ⟨raw, hraw, rfl⟩ := parseLine_ok_iff.mp h
  unfold readLine at hraw
  dsimp only at hraw
  split at hraw
  · cases hraw
  · next hne =>
      refine ⟨?_, hne⟩
      obtain ⟨⟨tags, rest⟩, _, hraw⟩ := bind_eq_ok.mp hraw
      dsimp only at hraw
      split at hraw
      · obtain ⟨⟨fields, rest⟩, _, hraw⟩ := bind_eq_ok.mp hraw
        obtain ⟨timestamp, _, hraw⟩ := bind_eq_ok.mp hraw
        cases hraw
        rfl
      · cases hraw

end Parsing

section Grouping

variable {db : String} {targets : Nat}

/-- What one target gets of the pieces. -/
def routed (db : String) (targets k : Nat) (pieces : List (List Char)) : List Char :=
  (pieces.filter fun p => isContent (trimEnd p) && route db targets (trimEnd p) = k).flatMap
    terminated

theorem routed_cons (k : Nat) (p : List Char) (rest : List (List Char)) :
    routed db targets k (p :: rest) =
      (if isContent (trimEnd p) && route db targets (trimEnd p) = k then terminated p else []) ++
        routed db targets k rest := by
  unfold routed
  rw [List.filter_cons]
  split
  · rw [List.flatMap_cons]
  · rw [List.nil_append]

/-- The grouping loop, for lines that have a measurement. -/
theorem group_spec (pieces shards : List (List Char))
    (hpieces : ∀ p ∈ pieces, isContent (trimEnd p) = true → measurementOf (trimEnd p) ≠ []) :
    ∃ out, group db targets pieces shards = .ok out ∧ out.length = shards.length ∧
      ∀ k s, shards[k]? = some s → out[k]? = some (s ++ routed db targets k pieces) := by
  induction pieces generalizing shards with
  | nil => exact ⟨shards, rfl, rfl, fun k s h => by simpa [routed] using h⟩
  | cons p rest ih =>
      have hrest := fun q hq => hpieces q (List.mem_cons_of_mem p hq)
      rw [group]
      split
      · next hcontent =>
          have hne : trimEnd p ≠ [] := by
            intro hnil
            simp [isContent, hnil] at hcontent
          obtain ⟨c, m, hm⟩ := List.exists_cons_of_ne_nil (hpieces p List.mem_cons_self hcontent)
          rw [lineMeasurement, if_neg hne, hm]
          dsimp only
          obtain ⟨out, hout, hlength, hget⟩ :=
            ih (shards.modify (shardOf db (c :: m) targets) (· ++ terminated p)) hrest
          refine ⟨out, hout, by simpa using hlength, ?_⟩
          intro k s hs
          by_cases hk : shardOf db (c :: m) targets = k
          · have hstep := hget k (s ++ terminated p) (by simp [hk, hs])
            rw [hstep, routed_cons, if_pos (by simp [hcontent, route, hm, hk]), List.append_assoc]
          · have hstep := hget k s (by simp [hk, hs])
            rw [hstep, routed_cons, if_neg (by simp [route, hm, hk]), List.nil_append]
      · next hskip =>
          obtain ⟨out, hout, hlength, hget⟩ := ih shards hrest
          refine ⟨out, hout, hlength, fun k s hs => ?_⟩
          rw [hget k s hs, routed_cons, if_neg (by simp [hskip]), List.nil_append]

/-- Terminated pieces are cut apart again. -/
theorem splitLines_flatMap {pieces : List (List Char)} (h : ∀ p ∈ pieces, Piece p) :
    splitLines (pieces.flatMap terminated) = pieces.map unbroken := by
  induction pieces with
  | nil => rfl
  | cons p rest ih =>
      rw [List.flatMap_cons, terminated_eq (h p List.mem_cons_self), List.append_assoc,
        List.singleton_append, splitLines_append (notMem_unbroken p),
        ih fun q hq => h q (List.mem_cons_of_mem p hq), List.map_cons]

theorem contentLines_pieces {pieces : List (List Char)} (h : ∀ p ∈ pieces, Piece p) :
    ((pieces.map unbroken).map fun raw => raw.rdropWhile (· = '\r')).filter isContent =
      (pieces.map trimEnd).filter isContent := by
  rw [List.map_map]
  congr 1
  exact List.map_congr_left fun p hp => (trimEnd_eq (h p hp)).symm

/-- The lines of a shard are those of the body that were routed to it. -/
theorem contentLines_routed (k : Nat) (text : List Char) :
    contentLines (routed db targets k (splitInclusive text)) =
      (contentLines text).filter fun line => route db targets line = k := by
  have hpieces : ∀ p ∈ splitInclusive text, Piece p := fun p => piece_of_mem_splitInclusive
  rw [contentLines, contentLines, routed, splitLines_flatMap, splitLines_eq,
    contentLines_pieces, contentLines_pieces hpieces]
  · rw [List.filter_map, List.filter_map, List.filter_map, List.filter_filter, List.filter_filter]
    congr 1
    apply List.filter_congr
    intro p _
    cases hcontent : isContent (trimEnd p) <;> simp [hcontent]
  all_goals exact fun p hp => hpieces p (List.mem_of_mem_filter hp)

end Grouping

section Placing

variable {db : String} {targets : Nat} {lines : List ParsedLine} {place : List Nat}

theorem mem_part {k : Nat} {l : ParsedLine} : l ∈ part k lines place ↔
    (l, k) ∈ lines.zip place := by
  simp only [part, List.mem_map, List.mem_filter, decide_eq_true_eq]
  constructor
  · rintro ⟨⟨l, j⟩, ⟨hmem, rfl⟩, rfl⟩
    exact hmem
  · intro h
    exact ⟨(l, k), ⟨h, rfl⟩, rfl⟩

theorem forall₂_part {α : Type} {R : α → ParsedLine → Prop} (f : α → Nat) (k : Nat) {xs : List α}
    (h : List.Forall₂ R xs lines) :
    List.Forall₂ R (xs.filter fun x => f x = k) (part k lines (xs.map f)) := by
  induction h with
  | nil => exact .nil
  | @cons x l xs lines hx _ ih =>
      unfold part at ih ⊢
      rw [List.map_cons, List.zip_cons_cons]
      by_cases hk : f x = k
      · rw [List.filter_cons_of_pos (by simpa using hk),
          List.filter_cons_of_pos (by simpa using hk),
          List.map_cons]
        exact .cons hx ih
      · rw [List.filter_cons_of_neg (by simpa using hk),
          List.filter_cons_of_neg (by simpa using hk)]
        exact ih

theorem mem_zip_of_forall₂ {α : Type} {R : α → ParsedLine → Prop} (f : α → Nat) {xs : List α}
    (h : List.Forall₂ R xs lines) :
    (∀ x ∈ xs, ∃ l, R x l ∧ (l, f x) ∈ lines.zip (xs.map f)) ∧
      ∀ p ∈ lines.zip (xs.map f), ∃ x ∈ xs, R x p.1 ∧ p.2 = f x := by
  induction h with
  | nil => simp
  | @cons x l xs lines hx _ ih =>
      rw [List.map_cons, List.zip_cons_cons]
      constructor
      · intro y hy
        rcases List.mem_cons.mp hy with rfl | hy
        · exact ⟨l, hx, List.mem_cons_self⟩
        · obtain ⟨l', hl', hmem⟩ := ih.1 y hy
          exact ⟨l', hl', List.mem_cons_of_mem _ hmem⟩
      · intro p hp
        rcases List.mem_cons.mp hp with rfl | hp
        · exact ⟨x, List.mem_cons_self, hx, rfl⟩
        · obtain ⟨y, hy, hR, heq⟩ := ih.2 p hp
          exact ⟨y, List.mem_cons_of_mem _ hy, hR, heq⟩

end Placing

section Split

variable {fl : FloatOps} {db text : String} {mult ts : Int} {targets : Nat}
  {lines : List ParsedLine}

/-- Where the router puts the lines of a body. -/
def places (db : String) (targets : Nat) (text : String) : List Nat :=
  (contentLines text.toList).map (route db targets)

theorem shardBodies_spec (db : String) (htargets : 0 < targets)
    (h : parseLines fl text mult ts = .ok lines) :
    ∃ shards, shardBodies db targets text = .ok shards ∧ shards.length = targets ∧
      Sharded (fun body => parseLines fl body mult ts) lines shards (places db targets text) := by
  have hlines := parseLines_ok_iff.mp h
  have hpieces : ∀ p ∈ splitInclusive text.toList, isContent (trimEnd p) = true →
      measurementOf (trimEnd p) ≠ [] := by
    intro p hp hcontent hnil
    have hmem : trimEnd p ∈ contentLines text.toList := by
      rw [contentLines, splitLines_eq, contentLines_pieces fun q => piece_of_mem_splitInclusive]
      exact List.mem_filter.mpr ⟨List.mem_map.mpr ⟨p, hp, rfl⟩, hcontent⟩
    obtain ⟨l, hl, _⟩ := (mem_zip_of_forall₂ (fun _ => 0) hlines).1 _ hmem
    exact (table_of_parseLine hl).2 (measurementOf_eq_nil hnil)
  obtain ⟨out, hout, hlength, hget⟩ :=
    group_spec (splitInclusive text.toList) (List.replicate targets []) hpieces
  rw [List.length_replicate] at hlength
  refine ⟨out.map String.ofList, by rw [shardBodies, hout]; rfl, by simpa using hlength, ?_, ?_, ?_⟩
  · rw [places, List.length_map, hlines.length_eq]
  · intro k hk
    obtain ⟨x, _, rfl⟩ := List.mem_map.mp hk
    rw [List.length_map, hlength]
    exact Nat.mod_lt _ htargets
  · intro k shard hshard
    rw [List.getElem?_map, Option.map_eq_some_iff] at hshard
    obtain ⟨body, hbody, rfl⟩ := hshard
    have hk : k < targets := by
      rw [← hlength]
      exact (List.getElem?_eq_some_iff.mp hbody).1
    have hrouted := hget k [] (by simp [hk])
    rw [hbody, List.nil_append] at hrouted
    obtain rfl := Option.some.inj hrouted
    rw [parseLines_ok_iff, String.toList_ofList, contentLines_routed]
    exact forall₂_part (route db targets) k hlines

/-- Whatever places the shards are read with, they hold the same lines. -/
theorem Sharded.part_eq {parse : String → Except ParseError (List ParsedLine)}
    {shards : List String} {place place' : List Nat} (h : Sharded parse lines shards place)
    (h' : Sharded parse lines shards place') {k : Nat} (hk : k < shards.length) :
    part k lines place = part k lines place' := by
  have hget := List.getElem?_eq_getElem hk
  exact Except.ok.inj ((h.parses k _ hget).symm.trans (h'.parses k _ hget))

/-- Tables that are together in the shards went to one target each. -/
theorem route_of_together {shards : List String} {place : List Nat} (htargets : 0 < targets)
    (h : parseLines fl text mult ts = .ok lines)
    (hshards : shardBodies db targets text = .ok shards)
    (hplace : Sharded (fun body => parseLines fl body mult ts) lines shards place)
    (htogether : TablesTogether lines place) {x y : List Char}
    (hx : x ∈ contentLines text.toList) (hy : y ∈ contentLines text.toList)
    (htable : (takeEscaped ',' x).1 = (takeEscaped ',' y).1) :
    route db targets x = route db targets y := by
  obtain ⟨shards', hshards', hlength, hsharded⟩ := shardBodies_spec db htargets h
  obtain rfl := Except.ok.inj (hshards.symm.trans hshards')
  have hline := (mem_zip_of_forall₂ (route db targets) (parseLines_ok_iff.mp h)).1
  have hmoved : ∀ x ∈ contentLines text.toList, ∃ l, parseLine fl x mult ts = .ok l ∧
      (l, route db targets x) ∈ lines.zip place := by
    intro x hx
    obtain ⟨l, hl, hmem⟩ := hline x hx
    refine ⟨l, hl, mem_part.mp ?_⟩
    rw [hplace.part_eq hsharded (by rw [hlength]; exact Nat.mod_lt _ htargets)]
    exact mem_part.mpr hmem
  obtain ⟨l, hl, hmem⟩ := hmoved x hx
  obtain ⟨l', hl', hmem'⟩ := hmoved y hy
  refine htogether _ hmem _ hmem' ?_
  rw [(table_of_parseLine hl).1, (table_of_parseLine hl').1, htable]

/-- Spellings that differ in escapes have hashes of one parity. -/
theorem route_two {x y : List Char} (h : (takeEscaped ',' x).1 = (takeEscaped ',' y).1) :
    route db 2 x = route db 2 y := by
  simp only [route, shardOf, routeHash, utf8_eq, String.toList_ofList]
  rw [mix_measurementOf_parity, mix_measurementOf_parity, h]

theorem route_eq {x y : List Char} (htargets : 0 < targets) (hspelt : SpeltAlike text ∨ targets ≤ 2)
    (hx : x ∈ contentLines text.toList) (hy : y ∈ contentLines text.toList)
    (h : (takeEscaped ',' x).1 = (takeEscaped ',' y).1) :
    route db targets x = route db targets y := by
  rcases hspelt with halike | hfew
  · rw [route, route, measurementOf_eq_spelling, measurementOf_eq_spelling, halike x hx y hy h]
  · obtain rfl | rfl : targets = 1 ∨ targets = 2 := by omega
    · rw [route, route, shardOf, shardOf, Nat.mod_one, Nat.mod_one]
    · exact route_two h

/-- The shards of an accepted body hold its lines, each once and in order, and keep
its tables together if these are spelt alike or there are fewer than three targets. -/
theorem sharding_preserves (fl : FloatOps) (db text : String) (mult ts : Int) (targets : Nat)
    (htargets : 0 < targets) (lines : List ParsedLine)
    (h : parseLines fl text mult ts = .ok lines) :
    ∃ shards place, shardBodies db targets text = .ok shards ∧ shards.length = targets ∧
      Sharded (fun body => parseLines fl body mult ts) lines shards place ∧
      (SpeltAlike text ∨ targets ≤ 2 → TablesTogether lines place) := by
  obtain ⟨shards, hshards, hlength, hsharded⟩ := shardBodies_spec db htargets h
  refine ⟨shards, _, hshards, hlength, hsharded, ?_⟩
  intro hspelt p hp q hq htable
  have hzip := (mem_zip_of_forall₂ (route db targets) (parseLines_ok_iff.mp h)).2
  obtain ⟨x, hx, hl, hplace⟩ := hzip p hp
  obtain ⟨y, hy, hl', hplace'⟩ := hzip q hq
  rw [(table_of_parseLine hl).1, (table_of_parseLine hl').1] at htable
  rw [hplace, hplace']
  exact route_eq htargets hspelt hx hy (String.ofList_injective htable)

/-- The loop's own guard never fires behind the parse. -/
theorem write_guarded (raw : Bytes) (precision : Option String) (htargets : 0 < targets)
    (line : String) : write fl db raw precision targets ≠ .error (.noMeasurement line) := by
  have hsend : ∀ text mult, write.send fl db targets text mult ≠ .error (.noMeasurement line) := by
    intro text mult hsend
    unfold write.send at hsend
    split at hsend
    · cases hsend
    · next lines hlines =>
        obtain ⟨shards, hshards, _⟩ := shardBodies_spec db htargets hlines
        rw [hshards] at hsend
        cases hsend
  unfold write
  split
  · simp
  · split
    · exact hsend _ _
    · split
      · exact hsend _ _
      · simp

end Split

section Samples

instance (text : String) : Decidable (SpeltAlike text) :=
  inferInstanceAs (Decidable (∀ x ∈ _, ∀ y ∈ _, _ → _))

def mixedBody : String := "we\\,ird,host=a v=1i\r\n# note\n\nmem v=2i\nwe\\,ird v=3i 7"

def mixedLines : List ParsedLine :=
  [⟨"we,ird", [("host", "a")], [("v", .int 1)], 0⟩, ⟨"mem", [], [("v", .int 2)], 0⟩,
    ⟨"we,ird", [], [("v", .int 3)], 7⟩]

theorem mixedBody_together : ∃ shards place, shardBodies "db" 3 mixedBody = .ok shards ∧
    Sharded (fun body => parseLines noFloats body 1 0) mixedLines shards place ∧
      TablesTogether mixedLines place := by
  obtain ⟨shards, place, hshards, _, hsharded, htogether⟩ :=
    sharding_preserves noFloats "db" mixedBody 1 0 3 (by decide) mixedLines (by decide +kernel)
  exact ⟨shards, place, hshards, hsharded, htogether (.inl (by decide +kernel))⟩

/-- An equals sign need not be escaped in a measurement, and may be. -/
def twoSpellings : String := "a=b v=1i\na\\=b v=2i"

theorem twoSpellings_split : ∃ lines shards, parseLines noFloats twoSpellings 1 0 = .ok lines ∧
    shardBodies "db" 3 twoSpellings = .ok shards ∧
      ¬ ∃ place, Sharded (fun body => parseLines noFloats body 1 0) lines shards place ∧
        TablesTogether lines place := by
  have h : parseLines noFloats twoSpellings 1 0 =
      .ok [⟨"a=b", [], [("v", .int 1)], 0⟩, ⟨"a=b", [], [("v", .int 2)], 0⟩] := by
    decide +kernel
  obtain ⟨shards, hshards, _⟩ := shardBodies_spec "db" (show 0 < 3 by decide) h
  refine ⟨_, shards, h, hshards, ?_⟩
  rintro ⟨place, hplace, htogether⟩
  have hroute := route_of_together (by decide) h hshards hplace htogether
    (x := "a=b v=1i".toList) (y := "a\\=b v=2i".toList) (by decide +kernel) (by decide +kernel)
    (by decide +kernel)
  exact absurd hroute (by decide +kernel)

end Samples

end TimeLake.Router
