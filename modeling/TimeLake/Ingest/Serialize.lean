import TimeLake.Ingest.LineProtocol
import TimeLake.Library.Decimal

/-!
The serializer of `crates/ingest`, `to_line_protocol`, and what the parser makes
of one token that it wrote. A comma, a space and mostly an equals sign get a
backslash; a backslash gets none. So the parser may take a backslash of the text
together with what follows it, and exactly the texts where it does not come back.

Rendering a float is a parameter, as reading one is.
-/

namespace TimeLake.Ingest

open TimeLake.Library TimeLake.Rows

section Serializer

/-- The places a name stands in: they differ in the delimiter the parser stops at
and in whether an equals sign is escaped. -/
inductive Place where
  | measurement | key | value
  deriving DecidableEq, Repr

def Place.stop : Place → Char
  | .measurement | .value => ','
  | .key => '='

def Place.escapeEquals : Place → Bool
  | .measurement => false
  | .key | .value => true

def Place.escapes (p : Place) (c : Char) : Bool :=
  c = ',' || c = ' ' || (p.escapeEquals && c = '=')

/-- `escape_into`. -/
def escapeInto (p : Place) (s : List Char) : List Char :=
  s.flatMap fun c => if p.escapes c then ['\\', c] else [c]

/-- The body of a string field. -/
def quoteInto (s : List Char) : List Char :=
  s.flatMap fun c => if c = '"' || c = '\\' then ['\\', c] else [c]

variable (display : UInt64 → List Char)

def fieldText : FieldValue → List Char
  | .float bits => display bits
  | .int x => padInt 0 x.toInt ++ ['i']
  | .uint x => padNat 0 x.toNat ++ ['u']
  | .bool b => [if b then 't' else 'f']
  | .str s => '"' :: (quoteInto s.toList ++ ['"'])

def tagsText : List (String × String) → List Char
  | [] => []
  | (k, v) :: rest =>
      ',' :: (escapeInto .key k.toList ++ '=' :: (escapeInto .value v.toList ++ tagsText rest))

def pairText (p : String × FieldValue) : List Char :=
  escapeInto .key p.1.toList ++ '=' :: fieldText display p.2

def fieldsText : List (String × FieldValue) → List Char
  | [] => []
  | [p] => pairText display p
  | p :: q :: rest => pairText display p ++ ',' :: fieldsText (q :: rest)

/-- A row without its line end. -/
def lineText (row : ParsedLine) : List Char :=
  escapeInto .measurement row.table.toList ++ (tagsText row.tags ++ ' ' ::
    (fieldsText display row.fields ++ ' ' :: padInt 0 row.timestampNs))

/-- `to_line_protocol`. -/
def toLineProtocol (rows : List ParsedLine) : String :=
  String.ofList (rows.flatMap fun row => lineText display row ++ ['\n'])

end Serializer

section Tokens

/-- What may follow a backslash of the text: the parser neither takes it with the
backslash nor stops at it behind one. -/
def Place.allowsBehind (p : Place) (n : Char) : Bool :=
  n ≠ '\\' && n ≠ ' ' && n ≠ p.stop && (p.escapeEquals || n ≠ '=')

/-- Every backslash is followed by a character that may follow it. -/
def keepsBackslashes (p : Place) : List Char → Bool
  | [] => true
  | [c] => c ≠ '\\'
  | c :: n :: rest => (c ≠ '\\' || p.allowsBehind n) && keepsBackslashes p (n :: rest)

variable {p : Place} {stop : Char}

theorem takeEscaped_stop {d : Char} (hstop : d = stop ∨ d = ' ') (hd : d ≠ '\\')
    (rest : List Char) : takeEscaped stop (d :: rest) = ([], d :: rest) := by
  cases rest with
  | nil => rw [takeEscaped, if_pos (by simpa using hstop)]
  | cons n rest =>
      rw [takeEscaped, if_neg (by simp [hd]), if_pos (by simpa using hstop)]

theorem takeEscaped_pair {n : Char} (hn : escapable n = true) (rest : List Char) :
    takeEscaped stop ('\\' :: n :: rest) =
      (n :: (takeEscaped stop rest).1, (takeEscaped stop rest).2) := by
  rw [takeEscaped, if_pos (by simp [hn])]

theorem takeEscaped_plain {c : Char} {rest : List Char}
    (hc : c ≠ '\\' ∨ ∃ n tail, rest = n :: tail ∧ escapable n = false)
    (hstop : c ≠ stop) (hspace : c ≠ ' ') :
    takeEscaped stop (c :: rest) =
      (c :: (takeEscaped stop rest).1, (takeEscaped stop rest).2) := by
  cases rest with
  | nil =>
      have hend : takeEscaped stop [] = ([], []) := rfl
      rw [hend, takeEscaped, if_neg (by simp [hstop, hspace])]
  | cons n rest =>
      have hpair : ¬(c = '\\' && escapable n) = true := by
        rcases hc with hc | ⟨m, tail, heq, hm⟩
        · simp [hc]
        · obtain ⟨rfl, rfl⟩ := List.cons.inj heq
          simp [hm]
      rw [takeEscaped, if_neg hpair, if_neg (by simp [hstop, hspace])]

theorem escapeInto_cons (c : Char) (s : List Char) :
    escapeInto p (c :: s) = (if p.escapes c then ['\\', c] else [c]) ++ escapeInto p s :=
  List.flatMap_cons

/-- What the serializer escapes can be unescaped, and is no backslash. -/
theorem escapable_of_escapes {c : Char} (h : p.escapes c = true) :
    escapable c = true ∧ c ≠ '\\' := by
  simp only [Place.escapes, Bool.or_eq_true, Bool.and_eq_true, decide_eq_true_eq] at h
  rcases h with (rfl | rfl) | ⟨_, rfl⟩ <;> exact ⟨rfl, by decide⟩

/-- What it leaves alone does not stop the parser. -/
theorem plain_of_not_escapes {c : Char} (h : p.escapes c = false) : c ≠ p.stop ∧ c ≠ ' ' := by
  simp only [Place.escapes, Bool.or_eq_false_iff, Bool.and_eq_false_iff,
    decide_eq_false_iff_not] at h
  refine ⟨?_, h.1.2⟩
  cases p with
  | measurement | value => exact h.1.1
  | key => exact h.2.resolve_left (by decide)

theorem delimiter_ne_backslash {d : Char} (hd : d = p.stop ∨ d = ' ') :
    d ≠ '\\' ∧ escapable d = true := by
  rcases hd with rfl | rfl
  · cases p <;> exact ⟨by decide, by decide⟩
  · exact ⟨by decide, by decide⟩

/-- The token after an escaped character, whether it is read with its backslash or
behind one. -/
theorem takeEscaped_escaped {c : Char} (hc : c ≠ '\\') (s tail : List Char) :
    takeEscaped p.stop (escapeInto p (c :: s) ++ tail) =
      (c :: (takeEscaped p.stop (escapeInto p s ++ tail)).1,
        (takeEscaped p.stop (escapeInto p s ++ tail)).2) := by
  rw [escapeInto_cons]
  cases hesc : p.escapes c with
  | true => exact takeEscaped_pair (escapable_of_escapes hesc).1 _
  | false =>
      obtain ⟨hstop, hspace⟩ := plain_of_not_escapes hesc
      exact takeEscaped_plain (.inl hc) hstop hspace

/-- The cases of a backslash in the text: at the end, before another, before a
character that is escaped, before an equals sign in a measurement, and before a
character that means nothing to either side. -/
theorem takeEscaped_backslash_end {d : Char} (hd : d = p.stop ∨ d = ' ') (tail : List Char) :
    (takeEscaped p.stop (escapeInto p ['\\'] ++ d :: tail)).1.head? = some d := by
  have hesc : p.escapes '\\' = false := by cases p <;> rfl
  rw [escapeInto_cons, hesc]
  change (takeEscaped p.stop ('\\' :: d :: tail)).1.head? = some d
  rw [takeEscaped_pair (delimiter_ne_backslash hd).2]
  rfl

theorem escapeInto_backslash (s tail : List Char) :
    escapeInto p ('\\' :: s) ++ tail = '\\' :: (escapeInto p s ++ tail) := by
  have hesc : p.escapes '\\' = false := by cases p <;> rfl
  rw [escapeInto_cons, hesc]
  rfl

theorem takeEscaped_two_backslashes (s tail : List Char) :
    takeEscaped p.stop (escapeInto p ('\\' :: '\\' :: s) ++ tail) =
      ('\\' :: (takeEscaped p.stop (escapeInto p s ++ tail)).1,
        (takeEscaped p.stop (escapeInto p s ++ tail)).2) := by
  rw [escapeInto_backslash, escapeInto_backslash]
  exact takeEscaped_pair rfl _

/-- A backslash and a character behind it come back as they are if that one may
follow; otherwise the token ends at the backslash or begins without it. -/
theorem takeEscaped_backslash {n : Char} (hn : n ≠ '\\') (s tail : List Char) :
    if p.allowsBehind n then
      takeEscaped p.stop (escapeInto p ('\\' :: n :: s) ++ tail) =
        ('\\' :: n :: (takeEscaped p.stop (escapeInto p s ++ tail)).1,
          (takeEscaped p.stop (escapeInto p s ++ tail)).2)
    else
      (takeEscaped p.stop (escapeInto p ('\\' :: n :: s) ++ tail)).1 = ['\\'] ∨
        (takeEscaped p.stop (escapeInto p ('\\' :: n :: s) ++ tail)).1.head? = some n := by
  rw [escapeInto_backslash, escapeInto_cons]
  cases hesc : p.escapes n with
  | true =>
      -- the serializer puts its backslash between the two
      have hpair : takeEscaped p.stop
          ('\\' :: ((if true = true then ['\\', n] else [n]) ++ escapeInto p s ++ tail)) =
            ('\\' :: (takeEscaped p.stop (n :: (escapeInto p s ++ tail))).1,
              (takeEscaped p.stop (n :: (escapeInto p s ++ tail))).2) := takeEscaped_pair rfl _
      rw [hpair]
      by_cases hstop : n = p.stop ∨ n = ' '
      · have hallows : p.allowsBehind n = false := by
          rcases hstop with rfl | rfl <;> simp [Place.allowsBehind]
        rw [hallows, takeEscaped_stop hstop hn]
        exact .inl rfl
      · obtain ⟨hstop, hspace⟩ := not_or.mp hstop
        have hequals : (p.escapeEquals || n ≠ '=') = true := by
          simp only [Place.escapes, Bool.or_eq_true, Bool.and_eq_true, decide_eq_true_eq] at hesc
          rcases hesc with (rfl | rfl) | ⟨hequals, _⟩
          · simp
          · simp
          · rw [hequals, Bool.true_or]
        have hallows : p.allowsBehind n = true := by
          simp only [Place.allowsBehind, hequals, Bool.and_true]
          simp [hn, hstop, hspace]
        rw [hallows, takeEscaped_plain (.inl hn) hstop hspace]
        rfl
  | false =>
      obtain ⟨hstop, hspace⟩ := plain_of_not_escapes hesc
      cases hescapable : escapable n with
      | true =>
          -- an equals sign, where the serializer leaves it alone
          have hpair : takeEscaped p.stop
              ('\\' :: ((if false = true then ['\\', n] else [n]) ++ escapeInto p s ++ tail)) =
                (n :: (takeEscaped p.stop (escapeInto p s ++ tail)).1,
                  (takeEscaped p.stop (escapeInto p s ++ tail)).2) := takeEscaped_pair hescapable _
          have hallows : p.allowsBehind n = false := by
            simp only [escapable, Bool.or_eq_true, decide_eq_true_eq] at hescapable
            rcases hescapable with ((rfl | rfl) | rfl) | rfl
            · simp [Place.escapes] at hesc
            · simp [Place.escapes] at hesc
            · simp [Place.escapes] at hesc
              simp [Place.allowsBehind, hesc]
            · exact absurd rfl hn
          rw [hallows, hpair]
          exact .inr rfl
      | false =>
          have hallows : p.allowsBehind n = true := by
            simp only [escapable, Bool.or_eq_false_iff, decide_eq_false_iff_not] at hescapable
            simp [Place.allowsBehind, hn, hspace, hstop, hescapable]
          have hstop' : '\\' ≠ p.stop := by cases p <;> decide
          have hfirst : takeEscaped p.stop
              ('\\' :: ((if false = true then ['\\', n] else [n]) ++ escapeInto p s ++ tail)) =
                ('\\' :: (takeEscaped p.stop (n :: (escapeInto p s ++ tail))).1,
                  (takeEscaped p.stop (n :: (escapeInto p s ++ tail))).2) :=
            takeEscaped_plain (.inr ⟨n, _, rfl, hescapable⟩) hstop' (by decide)
          rw [hallows, hfirst, takeEscaped_plain (.inl hn) hstop hspace]
          rfl

/-- Induction on a text by its backslashes. -/
theorem backslash_induction {P : List Char → Prop} (nil : P []) (last : P ['\\'])
    (plain : ∀ c s, c ≠ '\\' → P s → P (c :: s))
    (two : ∀ s, P s → P ('\\' :: '\\' :: s))
    (pair : ∀ n s, n ≠ '\\' → P s → P ('\\' :: n :: s)) : ∀ s, P s
  | [] => nil
  | c :: s => by
      by_cases hc : c = '\\'
      · subst hc
        cases s with
        | nil => exact last
        | cons n s =>
            have hs := backslash_induction nil last plain two pair s
            by_cases hn : n = '\\'
            · subst hn
              exact two s hs
            · exact pair n s hn hs
      · exact plain c s hc (backslash_induction nil last plain two pair s)

theorem keepsBackslashes_cons {c : Char} (hc : c ≠ '\\') (s : List Char) :
    keepsBackslashes p (c :: s) = keepsBackslashes p s := by
  cases s with
  | nil => simp [keepsBackslashes, hc]
  | cons n s => simp [keepsBackslashes, hc]

theorem keepsBackslashes_pair {n : Char} (hn : n ≠ '\\') (s : List Char) :
    keepsBackslashes p ('\\' :: n :: s) = (p.allowsBehind n && keepsBackslashes p s) := by
  rw [keepsBackslashes, keepsBackslashes_cons hn]
  simp

variable {d : Char} {t : List Char}

/-- A text that keeps its backslashes comes back, up to the delimiter. -/
theorem takeEscaped_escapeInto (hd : d = p.stop ∨ d = ' ') {s : List Char}
    (h : keepsBackslashes p s = true) :
    takeEscaped p.stop (escapeInto p s ++ d :: t) = (s, d :: t) := by
  induction s using backslash_induction with
  | nil => exact takeEscaped_stop hd (delimiter_ne_backslash hd).1 t
  | last => cases h
  | plain c s hc ih =>
      rw [keepsBackslashes_cons hc] at h
      rw [takeEscaped_escaped hc, ih h]
  | two s ih => simp [keepsBackslashes, Place.allowsBehind] at h
  | pair n s hn ih =>
      rw [keepsBackslashes_pair hn, Bool.and_eq_true] at h
      have hpair := takeEscaped_backslash (p := p) hn s (d :: t)
      rw [if_pos h.1] at hpair
      rw [hpair, ih h.2]

/-- No text comes back with more backslashes in front of it. -/
theorem takeEscaped_ne_more (hd : d = p.stop ∨ d = ' ') (s : List Char) (k : Nat) :
    (takeEscaped p.stop (escapeInto p s ++ d :: t)).1 ≠ List.replicate (k + 1) '\\' ++ s := by
  have hd' := (delimiter_ne_backslash hd).1
  induction s using backslash_induction generalizing k with
  | nil =>
      have hnil : escapeInto p [] ++ d :: t = d :: t := rfl
      rw [hnil, takeEscaped_stop hd hd']
      simp
  | last =>
      intro heq
      have hhead := takeEscaped_backslash_end hd t
      rw [heq, List.replicate_succ] at hhead
      exact hd' (Option.some.inj hhead).symm
  | plain c s hc ih =>
      intro heq
      rw [takeEscaped_escaped hc, List.replicate_succ, List.cons_append] at heq
      exact hc (List.cons.inj heq).1
  | two s ih =>
      intro heq
      rw [takeEscaped_two_backslashes, List.replicate_succ, List.cons_append] at heq
      apply ih (k + 1)
      rw [(List.cons.inj heq).2, List.replicate_succ', List.replicate_succ']
      simp
  | pair n s hn ih =>
      intro heq
      have hpair := takeEscaped_backslash (p := p) hn s (d :: t)
      split at hpair
      · rw [hpair, List.replicate_succ, List.cons_append] at heq
        have htail := (List.cons.inj heq).2
        cases k with
        | zero => exact hn (List.cons.inj htail).1
        | succ k =>
            rw [List.replicate_succ, List.cons_append] at htail
            exact hn (List.cons.inj htail).1
      · rcases hpair with hone | hhead
        · rw [hone] at heq
          have hlen := congrArg List.length heq
          simp only [List.length_append, List.length_replicate, List.length_cons,
            List.length_nil] at hlen
          omega
        · rw [heq, List.replicate_succ] at hhead
          exact hn (Option.some.inj hhead).symm

/-- A text that comes back keeps its backslashes. -/
theorem keepsBackslashes_of_takeEscaped (hd : d = p.stop ∨ d = ' ') {s : List Char}
    (h : (takeEscaped p.stop (escapeInto p s ++ d :: t)).1 = s) :
    keepsBackslashes p s = true := by
  induction s using backslash_induction with
  | nil => rfl
  | last =>
      have hhead := takeEscaped_backslash_end hd t
      rw [h] at hhead
      exact absurd (Option.some.inj hhead).symm (delimiter_ne_backslash hd).1
  | plain c s hc ih =>
      rw [takeEscaped_escaped hc] at h
      rw [keepsBackslashes_cons hc]
      exact ih (List.cons.inj h).2
  | two s ih =>
      rw [takeEscaped_two_backslashes] at h
      exact absurd (List.cons.inj h).2 (takeEscaped_ne_more hd s 0)
  | pair n s hn ih =>
      rw [keepsBackslashes_pair hn, Bool.and_eq_true]
      have hpair := takeEscaped_backslash (p := p) hn s (d :: t)
      split at hpair
      · next hallows =>
          rw [hpair] at h
          exact ⟨hallows, ih (List.cons.inj (List.cons.inj h).2).2⟩
      · rcases hpair with hone | hhead
        · rw [hone] at h
          cases h
        · rw [h] at hhead
          exact absurd (Option.some.inj hhead).symm hn

end Tokens

section Values

theorem takeQuoted_quoteInto (s tail : List Char) :
    takeQuoted (quoteInto s ++ '"' :: tail) = some (s, tail) := by
  induction s with
  | nil =>
      have hnil : quoteInto [] ++ '"' :: tail = '"' :: tail := rfl
      rw [hnil]
      cases tail with
      | nil => rfl
      | cons n tail => rw [takeQuoted, if_neg (by decide), if_pos rfl]
  | cons c s ih =>
      have hcons : quoteInto (c :: s) ++ '"' :: tail =
          (if c = '"' || c = '\\' then ['\\', c] else [c]) ++ (quoteInto s ++ '"' :: tail) := by
        rw [quoteInto, List.flatMap_cons, List.append_assoc]
        rfl
      rw [hcons]
      by_cases hc : (c = '"' || c = '\\') = true
      · rw [if_pos hc]
        change takeQuoted ('\\' :: c :: (quoteInto s ++ '"' :: tail)) = _
        rw [takeQuoted, if_pos rfl, ih]
        rfl
      · rw [if_neg hc]
        simp only [Bool.or_eq_true, decide_eq_true_eq, not_or] at hc
        cases hrest : quoteInto s ++ '"' :: tail with
        | nil => simp at hrest
        | cons n rest =>
            rw [hrest] at ih
            change takeQuoted (c :: n :: rest) = _
            rw [takeQuoted, if_neg hc.2, if_neg hc.1, ih]
            rfl

theorem parseDigits_toDigits (n : Nat) : parseDigits (padNat 0 n) = some n := by
  have hdigits : (padNat 0 n).all Char.isDigit = true :=
    List.all_eq_true.mpr fun c hc => padNat_isDigit hc
  rw [parseDigits, if_pos ⟨padNat_ne_nil 0 n, hdigits⟩, padNat_value]

theorem padNat_head {n : Nat} {c : Char} {ds : List Char} (h : padNat 0 n = c :: ds) :
    c.isDigit = true := padNat_isDigit (h ▸ List.mem_cons_self)

theorem parseI64_padInt {x : Int} (h : i64 x = some x) : parseI64 (padInt 0 x) = some x := by
  rw [padInt]
  split
  · next hneg =>
      have habs : -(x.natAbs : Int) = x := by omega
      rw [parseI64, parseDigits_toDigits, Option.bind_some, habs, h]
  · next hpos =>
      have habs : (x.natAbs : Int) = x := by omega
      have hdigits := parseDigits_toDigits x.natAbs
      cases hds : padNat 0 x.natAbs with
      | nil => exact absurd hds (padNat_ne_nil 0 _)
      | cons c ds =>
          rw [hds] at hdigits
          have hc := padNat_head hds
          rw [parseI64]
          · rw [hdigits, Option.bind_some, habs, h]
          · rintro tail heq
            obtain ⟨rfl, _⟩ := List.cons.inj heq
            revert hc
            decide
          · rintro tail heq
            obtain ⟨rfl, _⟩ := List.cons.inj heq
            revert hc
            decide

theorem parseU64_padNat {n : Nat} (h : n < 2 ^ 64) : parseU64 (padNat 0 n) = some n := by
  have hdigits := parseDigits_toDigits n
  cases hds : padNat 0 n with
  | nil => exact absurd hds (padNat_ne_nil 0 _)
  | cons c ds =>
      rw [hds] at hdigits
      have hc := padNat_head hds
      have hplus : c ≠ '+' := by
        rintro rfl
        revert hc
        decide
      rw [parseU64]
      · rw [hdigits, Option.bind_some, if_pos h]
      · exact fun tail heq => hplus (List.cons.inj heq).1

/-- A token whose last character no spelling of a truth value has is none. -/
theorem not_boolean {token : List Char} {c : Char} (hlast : token.getLast? = some c)
    (hc : c ∉ ['t', 'T', 'e', 'E', 'f', 'F']) :
    trueTokens.contains (String.ofList token) = false ∧
      falseTokens.contains (String.ofList token) = false := by
  have hwords : ∀ w ∈ trueTokens ++ falseTokens, ∀ c, w.toList.getLast? = some c →
      c ∈ ['t', 'T', 'e', 'E', 'f', 'F'] := by
    intro w hw c hlast
    simp only [trueTokens, falseTokens, List.mem_append, List.mem_cons, List.not_mem_nil,
      or_false] at hw
    rcases hw with (rfl | rfl | rfl | rfl | rfl) | rfl | rfl | rfl | rfl | rfl <;>
      (obtain rfl := Option.some.inj hlast; decide)
  have hnone : String.ofList token ∉ trueTokens ++ falseTokens := by
    intro hw
    exact hc (hwords _ hw c (by rwa [String.toList_ofList]))
  rw [List.mem_append, not_or] at hnone
  exact ⟨by simpa using hnone.1, by simpa using hnone.2⟩

/-- What the text of a finite float looks like: it has no exponent. -/
def isDecimal (text : List Char) : Bool :=
  !text.isEmpty && text.all fun c => c.isDigit || c = '.' || c = '-'

/-- The bits of a float that is neither infinite nor no number. -/
def isFinite (bits : UInt64) : Bool := (bits >>> 52) &&& 0x7FF ≠ 0x7FF

/-- What the serializer and the parser rely on of the float type. -/
structure FloatInverse (fl : FloatOps) (display : UInt64 → List Char) : Prop where
  decimal : ∀ bits, isFinite bits = true → isDecimal (display bits) = true
  parse : ∀ bits, isFinite bits = true → fl.parse (display bits) = some bits

variable {fl : FloatOps} {display : UInt64 → List Char}

/-- The float of a field, if it is one, is finite. -/
def isFiniteField : FieldValue → Bool
  | .float bits => isFinite bits
  | _ => true

/-- The text of a number: the token it makes, without a delimiter. -/
theorem scalar_number {token : List Char} {c : Char} (hlast : token.getLast? = some c)
    (hc : c ∉ ['t', 'T', 'e', 'E', 'f', 'F']) :
    scalar fl token =
      if c = 'i' then
        match parseI64 token.dropLast with
        | some x => .ok (.int (Int64.ofInt x))
        | none => .error (.badInteger (String.ofList token))
      else if c = 'u' then
        match parseU64 token.dropLast with
        | some x => .ok (.uint (UInt64.ofNat x))
        | none => .error (.badUinteger (String.ofList token))
      else
        match fl.parse token with
        | some bits => .ok (.float bits)
        | none => .error (.badFloat (String.ofList token)) := by
  obtain ⟨htrue, hfalse⟩ := not_boolean hlast hc
  have hne : token ≠ [] := by
    rintro rfl
    cases hlast
  have hends : ∀ d, token.getLast? = some d ↔ c = d := by
    intro d
    rw [hlast, Option.some.injEq]
  simp only [scalar, if_neg hne, htrue, hfalse, Bool.false_eq_true, if_false]
  exact if_congr (hends 'i') rfl (if_congr (hends 'u') rfl rfl)

/-- A token is read up to a delimiter or the end of the line. -/
theorem takeFieldValue_scalar {token left : List Char} {v : FieldValue}
    (hleft : ∀ d tail, left = d :: tail → d = ',' ∨ d = ' ')
    (hplain : ∀ c ∈ token, c ≠ ',' ∧ c ≠ ' ') (hquote : ∀ more, token ≠ '"' :: more)
    (hscalar : scalar fl token = .ok v) : takeFieldValue fl (token ++ left) = .ok (v, left) := by
  have hstop : left.takeWhile (fun c => c ≠ ',' && c ≠ ' ') = [] ∧
      left.dropWhile (fun c => c ≠ ',' && c ≠ ' ') = left := by
    cases left with
    | nil => exact ⟨rfl, rfl⟩
    | cons d tail =>
        have hdelim : ¬(decide (d ≠ ',') && decide (d ≠ ' ')) = true := by
          rcases hleft d tail rfl with rfl | rfl <;> decide
        exact ⟨List.takeWhile_cons_of_neg hdelim, List.dropWhile_cons_of_neg hdelim⟩
  have htake : (token ++ left).takeWhile (fun c => c ≠ ',' && c ≠ ' ') = token := by
    rw [List.takeWhile_append_of_pos (by simpa using hplain), hstop.1, List.append_nil]
  have hdrop : (token ++ left).dropWhile (fun c => c ≠ ',' && c ≠ ' ') = left := by
    rw [List.dropWhile_append_of_pos (by simpa using hplain), hstop.2]
  have hne : token ≠ [] := by
    rintro rfl
    cases hscalar
  rw [takeFieldValue]
  · rw [htake, hdrop, hscalar]
    rfl
  · intro rest heq
    cases token with
    | nil => exact hne rfl
    | cons c token =>
        obtain ⟨rfl, _⟩ := List.cons.inj heq
        exact hquote token rfl

theorem takeFieldValue_token {token tail : List Char} {d : Char} {v : FieldValue}
    (hd : d = ',' ∨ d = ' ') (hchars : ∀ c ∈ token, c ≠ ',' ∧ c ≠ ' ' ∧ c ≠ '"')
    (hscalar : scalar fl token = .ok v) :
    takeFieldValue fl (token ++ d :: tail) = .ok (v, d :: tail) := by
  refine takeFieldValue_scalar ?_ (fun c hc => ⟨(hchars c hc).1, (hchars c hc).2.1⟩) ?_ hscalar
  · rintro _ _ heq
    obtain ⟨rfl, _⟩ := List.cons.inj heq
    exact hd
  · rintro more rfl
    exact (hchars _ List.mem_cons_self).2.2 rfl

theorem padInt_chars {x : Int} {c : Char} (h : c ∈ padInt 0 x) : c = '-' ∨ c.isDigit = true := by
  rw [padInt] at h
  split at h
  · exact (List.mem_cons.mp h).imp_right fun hc => padNat_isDigit hc
  · exact .inr (padNat_isDigit h)

/-- The characters of a number are no delimiters, no letters and no line end. -/
theorem decimal_plain {c : Char} (h : c = '-' ∨ c = '.' ∨ c.isDigit = true) :
    (c ≠ ',' ∧ c ≠ ' ' ∧ c ≠ '"') ∧ c ≠ '\n' ∧ c ∉ ['t', 'T', 'e', 'E', 'f', 'F'] ∧ c ≠ 'i' ∧
      c ≠ 'u' := by
  have hne : ∀ k : Char, k.isDigit = false → k ≠ '-' → k ≠ '.' → c ≠ k := by
    rintro k hdigit hminus hdot rfl
    rcases h with h | h | h
    · exact hminus h
    · exact hdot h
    · rw [hdigit] at h
      cases h
  refine ⟨⟨hne ',' ?_ ?_ ?_, hne ' ' ?_ ?_ ?_, hne '"' ?_ ?_ ?_⟩, hne '\n' ?_ ?_ ?_, ?_,
    hne 'i' ?_ ?_ ?_, hne 'u' ?_ ?_ ?_⟩ <;> try decide
  simp only [List.mem_cons, List.not_mem_nil, or_false, not_or]
  refine ⟨hne 't' ?_ ?_ ?_, hne 'T' ?_ ?_ ?_, hne 'e' ?_ ?_ ?_, hne 'E' ?_ ?_ ?_, hne 'f' ?_ ?_ ?_,
    hne 'F' ?_ ?_ ?_⟩ <;> decide

theorem isDecimal_chars {text : List Char} (h : isDecimal text = true) :
    text ≠ [] ∧ ∀ c ∈ text, c = '-' ∨ c = '.' ∨ c.isDigit = true := by
  rw [isDecimal, Bool.and_eq_true] at h
  refine ⟨by simpa using h.1, fun c hc => ?_⟩
  have hchar := List.all_eq_true.mp h.2 c hc
  simp only [Bool.or_eq_true, decide_eq_true_eq] at hchar
  rcases hchar with (hchar | hchar) | hchar
  · exact .inr (.inr hchar)
  · exact .inr (.inl hchar)
  · exact .inl hchar

/-- A number with its suffix. -/
theorem suffixed_chars {digits : List Char} {suffix : Char}
    (hdigits : ∀ c ∈ digits, c = '-' ∨ c = '.' ∨ c.isDigit = true)
    (hsuffix : suffix ≠ ',' ∧ suffix ≠ ' ' ∧ suffix ≠ '"') :
    ∀ c ∈ digits ++ [suffix], c ≠ ',' ∧ c ≠ ' ' ∧ c ≠ '"' := by
  intro c hc
  rcases List.mem_append.mp hc with hc | hc
  · exact (decimal_plain (hdigits c hc)).1
  · rw [List.mem_singleton.mp hc]
    exact hsuffix

/-- A field value comes back, up to the delimiter. -/
theorem takeFieldValue_fieldText (hfl : FloatInverse fl display) {v : FieldValue}
    (hv : isFiniteField v = true) {d : Char} (hd : d = ',' ∨ d = ' ') (tail : List Char) :
    takeFieldValue fl (fieldText display v ++ d :: tail) = .ok (v, d :: tail) := by
  cases v with
  | str s =>
      rw [fieldText, List.cons_append, List.append_assoc, takeFieldValue]
      simp only [List.singleton_append, takeQuoted_quoteInto, String.ofList_toList]
  | bool b =>
      cases b with
      | false =>
          have hscalar : scalar fl ['f'] = .ok (.bool false) := by
            rw [scalar, if_neg (List.cons_ne_nil _ _), if_neg (by decide), if_pos (by decide)]
          exact @takeFieldValue_token fl ['f'] tail d _ hd (by simp) hscalar
      | true =>
          have hscalar : scalar fl ['t'] = .ok (.bool true) := by
            rw [scalar, if_neg (List.cons_ne_nil _ _), if_pos (by decide)]
          exact @takeFieldValue_token fl ['t'] tail d _ hd (by simp) hscalar
  | int x =>
      have hrange : i64 x.toInt = some x.toInt := by
        have hlo := x.le_toInt
        have hhi := x.toInt_lt
        rw [i64, if_pos ⟨hlo, hhi⟩]
      rw [fieldText]
      apply takeFieldValue_token hd
      · exact suffixed_chars (fun c hc => (padInt_chars hc).imp_right .inr) (by decide)
      · have hlast : (padInt 0 x.toInt ++ ['i']).getLast? = some 'i' := List.getLast?_concat
        rw [scalar_number hlast (by decide), if_pos rfl, List.dropLast_concat,
          parseI64_padInt hrange]
        simp only [Int64.ofInt_toInt]
  | uint x =>
      rw [fieldText]
      apply takeFieldValue_token hd
      · exact suffixed_chars (fun c hc => .inr (.inr (padNat_isDigit hc))) (by decide)
      · have hlast : (padNat 0 x.toNat ++ ['u']).getLast? = some 'u' := List.getLast?_concat
        rw [scalar_number hlast (by decide), if_neg (by decide), if_pos rfl,
          List.dropLast_concat, parseU64_padNat x.toNat_lt]
        simp only [UInt64.ofNat_toNat]
  | float bits =>
      obtain ⟨hne, hchars⟩ := isDecimal_chars (hfl.decimal bits hv)
      rw [fieldText]
      apply takeFieldValue_token hd
      · exact fun c hc => (decimal_plain (hchars c hc)).1
      · have hlast : (display bits).getLast? = some ((display bits).getLast hne) :=
          List.getLast?_eq_some_getLast hne
        obtain ⟨_, _, hletter, hi, hu⟩ := decimal_plain (hchars _ (List.getLast_mem hne))
        rw [scalar_number hlast hletter, if_neg hi, if_neg hu, hfl.parse bits hv]

end Values

end TimeLake.Ingest
