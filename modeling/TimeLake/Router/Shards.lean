import TimeLake.Ingest.Node

/-!
The router's split of a write (`crates/server/src/router.rs`). It parses the
body as an ingester would, and then cuts it into lines and measurements by
scanners of its own; a line goes to the target that the hash of its measurement
as spelt chooses. Both scanners stop at ASCII bytes only, so characters stand
for bytes here as in the parser: behind a backslash the source skips one byte,
and what is left of a longer character is no stop.
-/

namespace TimeLake.Router

open TimeLake.Library TimeLake.Ingest
open TimeLake.Wal (utf8 fromUtf8)

section Functions

/-- One line with its ending, up to the first line break. -/
def splitInclusive : List Char → List (List Char)
  | [] => []
  | c :: rest =>
      if c = '\n' then [c] :: splitInclusive rest
      else match splitInclusive rest with
        | [] => [[c]]
        | line :: more => (c :: line) :: more

/-- The text before the first comma or space that no backslash precedes. -/
def measurementOf : List Char → List Char
  | [] => []
  | [c] => if c = ',' || c = ' ' then [] else [c]
  | c :: n :: rest =>
      if c = '\\' then c :: n :: measurementOf rest
      else if c = ',' || c = ' ' then []
      else c :: measurementOf (n :: rest)

def lineMeasurement (line : List Char) : Option (List Char) :=
  if line = [] then none else some (measurementOf line)

/-- FNV-1a from a state on. -/
def mix (h : UInt64) (bytes : Bytes) : UInt64 :=
  bytes.foldl (fun h b => (h ^^^ b.toUInt64) * 0x100000001b3) h

/-- The hash of `db\0measurement`. -/
def routeHash (db : String) (measurement : List Char) : UInt64 :=
  mix (mix (mix 0xcbf29ce484222325 (utf8 db)) [0]) (utf8 (String.ofList measurement))

def shardOf (db : String) (measurement : List Char) (targets : Nat) : Nat :=
  (routeHash db measurement).toNat % targets

/-- The line without its ending. -/
def trimEnd (line : List Char) : List Char := line.rdropWhile fun c => c = '\n' || c = '\r'

def isContent (line : List Char) : Bool := !(line = [] || line.head? = some '#')

/-- `push_str`, with a line break if the line has none. -/
def terminated (line : List Char) : List Char :=
  if line.getLast? = some '\n' then line else line ++ ['\n']

inductive RouterError where
  | notUtf8
  | badPrecision (p : String)
  | parse (e : ParseError)
  | noMeasurement (line : String)
  deriving DecidableEq

/-- The grouping loop of `write`. -/
def group (db : String) (targets : Nat) : List (List Char) → List (List Char) →
    Except RouterError (List (List Char))
  | [], shards => .ok shards
  | line :: rest, shards =>
      let trimmed := trimEnd line
      if isContent trimmed then
        match lineMeasurement trimmed with
        | some (c :: m) =>
            group db targets rest
              (shards.modify (shardOf db (c :: m) targets) (· ++ terminated line))
        | _ => .error (.noMeasurement (String.ofList (trimmed.take 80)))
      else group db targets rest shards

def shardBodies (db : String) (targets : Nat) (text : String) : Except RouterError (List String) :=
  (group db targets (splitInclusive text.toList) (List.replicate targets [])).map
    (List.map String.ofList)

/-- `write`, up to what it forwards. -/
def write (fl : FloatOps) (db : String) (raw : Bytes) (precision : Option String) (targets : Nat) :
    Except RouterError (List String) :=
  match fromUtf8 raw with
  | none => .error .notUtf8
  | some text =>
      match precision with
      | none => send text 1
      | some p =>
          match precisionMultiplier p with
          | some mult => send text mult
          | none => .error (.badPrecision p)
where
  send (text : String) (mult : Int64) : Except RouterError (List String) :=
    match parseLines fl text mult.toInt 0 with
    | .error e => .error (.parse e)
    | .ok _ => shardBodies db targets text

end Functions

section Scanners

theorem takeEscaped_plain {c : Char} (hesc : c ≠ '\\') (hcomma : c ≠ ',') (hspace : c ≠ ' ')
    (rest : List Char) :
    takeEscaped ',' (c :: rest) = (c :: (takeEscaped ',' rest).1, (takeEscaped ',' rest).2) := by
  cases rest with
  | nil => simp [takeEscaped, hcomma, hspace]
  | cons n rest => simp [takeEscaped, hesc, hcomma, hspace]

/-- The router's cut and the parser's are the same. -/
theorem measurementOf_append (line : List Char) :
    measurementOf line ++ (takeEscaped ',' line).2 = line := by
  induction line using measurementOf.induct with
  | case1 => rfl
  | case2 c hstop => rw [measurementOf, takeEscaped, if_pos hstop, if_pos hstop, List.nil_append]
  | case3 c hstop => rw [measurementOf, takeEscaped, if_neg hstop, if_neg hstop, List.append_nil]
  | case4 n rest ih =>
      rw [measurementOf, if_pos rfl]
      by_cases hn : escapable n = true
      · simpa [takeEscaped, hn] using ih
      · have hleft : (takeEscaped ',' ('\\' :: n :: rest)).2 = (takeEscaped ',' rest).2 := by
          simp only [escapable, Bool.or_eq_true, decide_eq_true_eq, not_or] at hn
          obtain ⟨⟨⟨hcomma, hspace⟩, _⟩, hback⟩ := hn
          simp [takeEscaped, escapable, takeEscaped_plain hback hcomma hspace, *]
        rw [hleft, List.cons_append, List.cons_append, ih]
  | case5 c n rest hc hstop =>
      have hesc : ¬ (c = '\\' && escapable n) = true := by simp [hc]
      rw [measurementOf, takeEscaped, if_neg hc, if_pos hstop, if_neg hesc, if_pos hstop,
        List.nil_append]
  | case6 c n rest hc hstop ih =>
      simp only [Bool.or_eq_true, decide_eq_true_eq, not_or] at hstop
      rw [takeEscaped_plain hc hstop.1 hstop.2, measurementOf, if_neg hc,
        if_neg (by simpa using hstop), List.cons_append, ih]

theorem measurementOf_eq_nil {line : List Char} (h : measurementOf line = []) :
    (takeEscaped ',' line).1 = [] := by
  match line with
  | [] => rfl
  | [c] =>
      rw [measurementOf] at h
      split at h
      · next hstop => rw [takeEscaped, if_pos hstop]
      · cases h
  | c :: n :: rest =>
      rw [measurementOf] at h
      split at h
      · cases h
      · next hc =>
          split at h
          · next hstop =>
              have hesc : ¬ (c = '\\' && escapable n) = true := by simp [hc]
              rw [takeEscaped, if_neg hesc, if_pos hstop]
          · cases h

/-- The text a line gives its table in. -/
def spelling (line : List Char) : List Char :=
  line.take (line.length - (takeEscaped ',' line).2.length)

theorem measurementOf_eq_spelling (line : List Char) : measurementOf line = spelling line := by
  have h := measurementOf_append line
  have hlength := congrArg List.length h
  rw [List.length_append] at hlength
  have htake := @List.take_left _ (measurementOf line) (takeEscaped ',' line).2
  rw [h] at htake
  rw [spelling, ← hlength, Nat.add_sub_cancel, htake]

end Scanners

section Parity

theorem mix_append (h : UInt64) (a b : Bytes) : mix h (a ++ b) = mix (mix h a) b :=
  List.foldl_append

theorem xor_parity (a b : Nat) : (a ^^^ b) % 2 = (a + b) % 2 := by
  have hxor : (a ^^^ b) % 2 = a % 2 ^^^ b % 2 := Nat.xor_mod_two_pow (n := 1)
  rw [hxor, Nat.add_mod]
  rcases Nat.mod_two_eq_zero_or_one a with ha | ha <;>
    rcases Nat.mod_two_eq_zero_or_one b with hb | hb <;> rw [ha, hb] <;> rfl

/-- The multiplier is odd, so that a byte counts in the last bit of the hash by its
own last bit only. -/
theorem mix_cons_parity (h : UInt64) (b : UInt8) (rest : Bytes) : ∃ next : UInt64,
    mix h (b :: rest) = mix next rest ∧ next.toNat % 2 = (h.toNat + b.toNat) % 2 := by
  refine ⟨(h ^^^ b.toUInt64) * 0x100000001b3, rfl, ?_⟩
  have hprime : (0x100000001b3 : UInt64).toNat = 0x100000001b3 := rfl
  have hxor := xor_parity h.toNat b.toNat
  rw [UInt64.toNat_mul, UInt64.toNat_xor, UInt8.toNat_toUInt64, hprime]
  generalize h.toNat ^^^ b.toNat = x at hxor ⊢
  omega

theorem mix_parity {h h' : UInt64} (heq : h.toNat % 2 = h'.toNat % 2) (bytes : Bytes) :
    (mix h bytes).toNat % 2 = (mix h' bytes).toNat % 2 := by
  induction bytes generalizing h h' with
  | nil => exact heq
  | cons b rest ih =>
      obtain ⟨next, hmix, hnext⟩ := mix_cons_parity h b rest
      obtain ⟨next', hmix', hnext'⟩ := mix_cons_parity h' b rest
      rw [hmix, hmix']
      exact ih (by omega)

/-- A backslash is an even byte. -/
theorem mix_backslash_parity (h : UInt64) (cs : List Char) :
    (mix h (encodeChars ('\\' :: cs))).toNat % 2 = (mix h (encodeChars cs)).toNat % 2 := by
  have hbyte : encodeChars ('\\' :: cs) = 0x5C :: encodeChars cs := encodeChars_ascii (by decide) cs
  obtain ⟨next, hmix, hnext⟩ := mix_cons_parity h 0x5C (encodeChars cs)
  have heven : (0x5C : UInt8).toNat = 92 := rfl
  rw [hbyte, hmix]
  exact mix_parity (by omega) _

theorem mix_cons_congr (c : Char) {x y : List Char}
    (hxy : ∀ h, (mix h (encodeChars x)).toNat % 2 = (mix h (encodeChars y)).toNat % 2)
    (h : UInt64) :
    (mix h (encodeChars (c :: x))).toNat % 2 = (mix h (encodeChars (c :: y))).toNat % 2 := by
  rw [encodeChars_cons, encodeChars_cons, mix_append, mix_append]
  exact hxy _

/-- What escaping adds to a table's name does not change the last bit of the hash. -/
theorem mix_measurementOf_parity (line : List Char) (h : UInt64) :
    (mix h (encodeChars (measurementOf line))).toNat % 2 =
      (mix h (encodeChars (takeEscaped ',' line).1)).toNat % 2 := by
  induction line using measurementOf.induct generalizing h with
  | case1 => rfl
  | case2 c hstop => rw [measurementOf, takeEscaped, if_pos hstop, if_pos hstop]
  | case3 c hstop => rw [measurementOf, takeEscaped, if_neg hstop, if_neg hstop]
  | case4 n rest ih =>
      rw [measurementOf, if_pos rfl]
      by_cases hn : escapable n = true
      · have htoken : (takeEscaped ',' ('\\' :: n :: rest)).1 = n :: (takeEscaped ',' rest).1 := by
          simp [takeEscaped, hn]
        rw [mix_backslash_parity, htoken]
        exact mix_cons_congr n ih h
      · have htoken : (takeEscaped ',' ('\\' :: n :: rest)).1 =
            '\\' :: n :: (takeEscaped ',' rest).1 := by
          simp only [escapable, Bool.or_eq_true, decide_eq_true_eq, not_or] at hn
          obtain ⟨⟨⟨hcomma, hspace⟩, _⟩, hback⟩ := hn
          simp [takeEscaped, escapable, takeEscaped_plain hback hcomma hspace, *]
        rw [htoken]
        exact mix_cons_congr '\\' (mix_cons_congr n ih) h
  | case5 c n rest hc hstop =>
      have hesc : ¬ (c = '\\' && escapable n) = true := by simp [hc]
      rw [measurementOf, takeEscaped, if_neg hc, if_pos hstop, if_neg hesc, if_pos hstop]
  | case6 c n rest hc hstop ih =>
      simp only [Bool.or_eq_true, decide_eq_true_eq, not_or] at hstop
      rw [takeEscaped_plain hc hstop.1 hstop.2, measurementOf, if_neg hc,
        if_neg (by simpa using hstop)]
      exact mix_cons_congr c ih h

end Parity

section Lines

/-- A piece without its line break. -/
def unbroken (piece : List Char) : List Char := piece.takeWhile (· ≠ '\n')

/-- The pieces of a text break at their ends only. -/
def Piece (piece : List Char) : Prop :=
  piece = unbroken piece ∨ piece = unbroken piece ++ ['\n']

theorem unbroken_cons {c : Char} (hc : c ≠ '\n') (line : List Char) :
    unbroken (c :: line) = c :: unbroken line := by
  simp [unbroken, hc]

theorem piece_of_mem_splitInclusive {text piece : List Char} (h : piece ∈ splitInclusive text) :
    Piece piece := by
  induction text generalizing piece with
  | nil => cases h
  | cons c rest ih =>
      unfold splitInclusive at h
      split at h
      · next hc =>
          rcases List.mem_cons.mp h with rfl | hrest
          · exact .inr (by simp [unbroken, hc])
          · exact ih hrest
      · next hc =>
          split at h
          · obtain rfl := List.mem_singleton.mp h
            exact .inl (by simp [unbroken, hc])
          · next first more hsplit =>
              rw [hsplit] at ih
              rcases List.mem_cons.mp h with rfl | hmore
              · have hfirst : Piece first := ih List.mem_cons_self
                unfold Piece at hfirst ⊢
                rw [unbroken_cons hc, List.cons_append, List.cons_inj_right, List.cons_inj_right]
                exact hfirst
              · exact ih (List.mem_cons_of_mem _ hmore)

/-- The parser sees the same lines. -/
theorem splitLines_eq (text : List Char) :
    splitLines text = (splitInclusive text).map unbroken := by
  induction text with
  | nil => rfl
  | cons c rest ih =>
      unfold splitLines splitInclusive
      split
      · next hc => simp [ih, unbroken, hc]
      · next hc =>
          rw [ih]
          cases splitInclusive rest with
          | nil => simp [unbroken, hc]
          | cons first more => simp [unbroken_cons hc]

theorem notMem_unbroken (piece : List Char) : '\n' ∉ unbroken piece := by
  intro h
  simpa using List.mem_takeWhile_imp h

private theorem rdropWhile_congr {p q : Char → Bool} {l : List Char} (h : ∀ c ∈ l, p c = q c) :
    l.rdropWhile p = l.rdropWhile q := by
  induction l using List.reverseRecOn with
  | nil => rfl
  | append_singleton l c ih =>
      rw [List.rdropWhile_concat, List.rdropWhile_concat, h c (by simp),
        ih fun d hd => h d (List.mem_append_left _ hd)]

/-- Both take the same ending off a line. -/
theorem trimEnd_eq {piece : List Char} (h : Piece piece) :
    trimEnd piece = (unbroken piece).rdropWhile (· = '\r') := by
  have hclean : (unbroken piece).rdropWhile (fun c => c = '\n' || c = '\r') =
      (unbroken piece).rdropWhile (· = '\r') := by
    refine rdropWhile_congr fun c hc => ?_
    have : c ≠ '\n' := by
      rintro rfl
      exact notMem_unbroken piece hc
    simp [this]
  unfold trimEnd
  rcases h with heq | heq
  · conv_lhs => rw [heq]
    exact hclean
  · conv_lhs => rw [heq]
    rw [List.rdropWhile_concat_pos _ _ _ (by simp), hclean]

theorem splitLines_append {line : List Char} (h : '\n' ∉ line) (rest : List Char) :
    splitLines (line ++ '\n' :: rest) = line :: splitLines rest := by
  induction line with
  | nil => simp [splitLines]
  | cons c line ih =>
      rw [List.mem_cons, not_or] at h
      rw [List.cons_append, splitLines, if_neg (Ne.symm h.1), ih h.2]

theorem terminated_eq {piece : List Char} (h : Piece piece) :
    terminated piece = unbroken piece ++ ['\n'] := by
  unfold terminated
  rcases h with heq | heq
  · rw [if_neg ?_, ← heq]
    intro hlast
    rw [heq] at hlast
    exact notMem_unbroken piece (List.mem_of_getLast? hlast)
  · rw [if_pos ?_, ← heq]
    rw [heq, List.getLast?_concat]

end Lines

end TimeLake.Router
