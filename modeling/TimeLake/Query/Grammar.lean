import TimeLake.Query.Label
import TimeLake.Library.Utf8

/-!
The label grammar as the module comment of `visibility.rs` gives it, over the
characters of a label, and a parser for it that builds the expression instead of
evaluating it on the way. The parser accepts what the grammar derives and
nothing else, and the evaluator of the source does what this parser does, with
the expression evaluated, whatever the authorizations are.
-/

namespace TimeLake.Query

open TimeLake.Library TimeLake.Wal

section Grammar

inductive LabelOp where
  | and | or
  deriving DecidableEq, Repr

def LabelOp.char : LabelOp → Char
  | .and => '&'
  | .or => '|'

/-- What a label says, a token by its text. -/
inductive LabelExpr where
  | token (text : List Char)
  | join (op : LabelOp) (x y : LabelExpr)
  deriving DecidableEq, Repr

/-- The value of an expression, given which tokens are held. -/
def LabelExpr.value (held : List Char → Bool) : LabelExpr → Bool
  | .token text => held text
  | .join .and x y => x.value held && y.value held
  | .join .or x y => x.value held || y.value held

def isBlank (c : Char) : Bool :=
  c = ' ' || c = '\t' || c = '\n' || c = '\x0C' || c = '\r'

/-- Letters, digits and the five signs of an unquoted token. -/
def isTokenChar (c : Char) : Bool :=
  ('A' ≤ c && c ≤ 'Z') || ('a' ≤ c && c ≤ 'z') || ('0' ≤ c && c ≤ '9') ||
    c = '_' || c = '.' || c = ':' || c = '/' || c = '-'

def Blanks (ws : List Char) : Prop := ∀ c ∈ ws, isBlank c = true

/-- The text between quotes, and what it stands for. -/
inductive Quotes : List Char → List Char → Prop where
  | nil : Quotes [] []
  | plain {c cs text} : c ≠ '"' → c ≠ '\\' → Quotes cs text → Quotes (c :: cs) (c :: text)
  | escaped {c cs text} : c = '"' ∨ c = '\\' → Quotes cs text → Quotes ('\\' :: c :: cs) (c :: text)

/-- The parts of a label: a term, terms joined by operators of one kind, and one
level of either. -/
inductive LabelPart where
  | term
  | chain (op : LabelOp)
  | level

inductive Derives : LabelPart → List Char → LabelExpr → Prop where
  | token {ws text} : Blanks ws → text ≠ [] → (∀ c ∈ text, isTokenChar c = true) →
      Derives .term (ws ++ text) (.token text)
  | quoted {ws body text} : Blanks ws → Quotes body text → text ≠ [] →
      Derives .term (ws ++ '"' :: (body ++ ['"'])) (.token text)
  | paren {ws inner ws' x} : Blanks ws → Derives .level inner x → Blanks ws' →
      Derives .term (ws ++ '(' :: (inner ++ (ws' ++ [')']))) x
  | two {op a ws b x y} : Derives .term a x → Blanks ws → Derives .term b y →
      Derives (.chain op) (a ++ (ws ++ op.char :: b)) (.join op x y)
  | more {op a ws b x y} : Derives (.chain op) a x → Blanks ws → Derives .term b y →
      Derives (.chain op) (a ++ (ws ++ op.char :: b)) (.join op x y)
  | single {a x} : Derives .term a x → Derives .level a x
  | joined {op a x} : Derives (.chain op) a x → Derives .level a x

/-- A label is one level, with blanks behind it. -/
def DerivesLabel (label : List Char) (x : LabelExpr) : Prop :=
  ∃ body ws, label = body ++ ws ∧ Derives .level body x ∧ Blanks ws

end Grammar

section Reader

def opOf (c : Char) : Option LabelOp :=
  if c = '&' then some .and else if c = '|' then some .or else none

/-- A quoted token behind its opening quote. -/
def readQuoted : List Char → List Char → Option (List Char × List Char)
  | _, [] => none
  | acc, '"' :: rest => some (acc, rest)
  | acc, '\\' :: c :: rest => if c = '"' || c = '\\' then readQuoted (acc ++ [c]) rest else none
  | _, ['\\'] => none
  | acc, c :: rest => readQuoted (acc ++ [c]) rest

mutual

def readTerm : Nat → List Char → Option (LabelExpr × List Char)
  | 0, _ => none
  | fuel + 1, s =>
      match s.dropWhile isBlank with
      | '(' :: rest =>
          match readLevel fuel rest with
          | none => none
          | some (x, rest) =>
              match rest.dropWhile isBlank with
              | ')' :: rest => some (x, rest)
              | _ => none
      | '"' :: rest =>
          match readQuoted [] rest with
          | none => none
          | some ([], _) => none
          | some (text, rest) => some (.token text, rest)
      | rest =>
          match rest.takeWhile isTokenChar with
          | [] => none
          | text => some (.token text, rest.dropWhile isTokenChar)

def readLevel : Nat → List Char → Option (LabelExpr × List Char)
  | 0, _ => none
  | fuel + 1, s =>
      match readTerm fuel s with
      | none => none
      | some (x, rest) => readChain fuel none x rest

def readChain : Nat → Option LabelOp → LabelExpr → List Char → Option (LabelExpr × List Char)
  | 0, _, _, _ => none
  | fuel + 1, levelOp, x, s =>
      match s.dropWhile isBlank with
      | [] => some (x, [])
      | c :: rest =>
          match opOf c with
          | none => some (x, c :: rest)
          | some op =>
              if levelOp.any (· ≠ op) then none
              else
                match readTerm fuel rest with
                | none => none
                | some (y, rest) => readChain fuel (some op) (.join op x y) rest

end

/-- The expression of a label. -/
def readLabel (fuel : Nat) (label : List Char) : Option LabelExpr :=
  match readLevel fuel label with
  | none => none
  | some (x, rest) => if rest.dropWhile isBlank = [] then some x else none

end Reader

section Bytes

theorem blankClass : AsciiClass isAsciiWhitespace isBlank :=
  ((((AsciiClass.eq ' ' (by decide)).or (.eq '\t' (by decide))).or (.eq '\n' (by decide))).or
    (.eq '\x0C' (by decide))).or (.eq '\r' (by decide))

theorem tokenClass : AsciiClass isTokenByte isTokenChar := by
  have hupper := AsciiClass.between 'A' 'Z' (by decide) (by decide)
  have hlower := AsciiClass.between 'a' 'z' (by decide) (by decide)
  have hdigit := AsciiClass.between '0' '9' (by decide) (by decide)
  have hsigns := ((((AsciiClass.eq '_' (by decide)).or (.eq '-' (by decide))).or
    (.eq '.' (by decide))).or (.eq ':' (by decide))).or (.eq '/' (by decide))
  have hchar : isTokenChar = fun c => ((('0' ≤ c && c ≤ '9') || ('A' ≤ c && c ≤ 'Z')) ||
      ('a' ≤ c && c ≤ 'z')) ||
        ((((c = '_' || c = '-') || c = '.') || c = ':') || c = '/') := by
    funext c
    simp only [isTokenChar, Bool.or_assoc, Bool.or_comm, Bool.or_left_comm]
  have hbyte : isTokenByte = fun b => (((0x30 ≤ b && b ≤ 0x39) || (0x41 ≤ b && b ≤ 0x5A)) ||
      (0x61 ≤ b && b ≤ 0x7A)) ||
        ((((b = 0x5F || b = 0x2D) || b = 0x2E) || b = 0x3A) || b = 0x2F) := by
    funext b
    simp only [isTokenByte, isAsciiAlphanumeric, Bool.or_assoc]
  rw [hbyte, hchar]
  exact ((hdigit.or hupper).or hlower).or hsigns

theorem skipWs_encode (cs : List Char) :
    skipWs (encodeChars cs) = encodeChars (cs.dropWhile isBlank) := blankClass.dropWhile cs

theorem quotedToken_plain {b : UInt8} (hquote : b ≠ 0x22) (hslash : b ≠ 0x5C) (acc rest : Bytes) :
    quotedToken acc (b :: rest) = quotedToken (acc ++ [b]) rest := by
  rw [quotedToken]
  · exact hquote
  · exact fun _ _ h _ => hslash h
  · exact fun h _ => hslash h

theorem quotedToken_high {bs : Bytes} (h : ∀ b ∈ bs, 128 ≤ b.toNat) (acc rest : Bytes) :
    quotedToken acc (bs ++ rest) = quotedToken (acc ++ bs) rest := by
  induction bs generalizing acc with
  | nil => rw [List.nil_append, List.append_nil]
  | cons b bs ih =>
      have hb := h b List.mem_cons_self
      have hquote : b ≠ 0x22 := by
        rintro rfl
        revert hb
        decide
      have hslash : b ≠ 0x5C := by
        rintro rfl
        revert hb
        decide
      rw [List.cons_append, quotedToken_plain hquote hslash,
        ih fun x hx => h x (List.mem_cons_of_mem _ hx), List.append_assoc, List.singleton_append]

theorem escapeClass : AsciiClass (fun b => b = 0x22 || b = 0x5C) (fun c => c = '"' || c = '\\') :=
  (AsciiClass.eq '"' (by decide)).or (.eq '\\' (by decide))

/-- An ordinary character between quotes is taken as it is. -/
theorem quotedToken_char {c : Char} (hquote : c ≠ '"') (hslash : c ≠ '\\') (acc rest : List Char) :
    quotedToken (encodeChars acc) (encodeChars (c :: rest)) =
      quotedToken (encodeChars (acc ++ [c])) (encodeChars rest) := by
  rw [encodeChars_append, encodeChars_cons c [], encodeChars_nil, List.append_nil]
  by_cases hc : c.toNat < 128
  · have hclass := escapeClass.same c hc
    simp only [hquote, hslash, decide_false, Bool.or_false, Bool.or_eq_false_iff,
      decide_eq_false_iff_not] at hclass
    rw [encodeChars_ascii hc, utf8EncodeChar_ascii hc, quotedToken_plain hclass.1 hclass.2]
  · rw [encodeChars_cons, quotedToken_high (utf8EncodeChar_high (Nat.le_of_not_lt hc)).2]

theorem quotedToken_encode (acc cs : List Char) :
    (quotedToken (encodeChars acc) (encodeChars cs)).toOption =
      (readQuoted acc cs).map fun p => (encodeChars p.1, encodeChars p.2) := by
  induction acc, cs using readQuoted.induct with
  | case1 acc => rfl
  | case2 acc rest => rfl
  | case3 acc c rest hc ih =>
      rw [readQuoted, if_pos hc, ← ih, encodeChars_append]
      simp only [Bool.or_eq_true, decide_eq_true_eq] at hc
      rcases hc with rfl | rfl <;> rfl
  | case4 acc c rest hc =>
      obtain ⟨b, tail, henc, hb⟩ := escapeClass.head c rest
      rw [readQuoted, if_neg hc, encodeChars_ascii (by decide), henc]
      simp only [Bool.not_eq_true] at hc
      rw [hc] at hb
      change (quotedToken (encodeChars acc) (0x5C :: b :: tail)).toOption = none
      rw [quotedToken, hb]
      rfl
  | case5 acc => rfl
  | case6 acc c rest hquote hslash hlast ih =>
      have hslash' : c ≠ '\\' := by
        intro heq
        cases rest with
        | nil => exact hlast heq rfl
        | cons d rest => exact hslash d rest heq rfl
      rw [quotedToken_char hquote hslash', ih, readQuoted]
      · exact hquote
      · exact hslash
      · exact hlast

end Bytes

section Evaluator

def LabelOp.byte : LabelOp → UInt8
  | .and => 0x26
  | .or => 0x7C

theorem openerClass :
    AsciiClass (fun b => b = 0x28 || b = 0x22) (fun c => c = '(' || c = '"') :=
  (AsciiClass.eq '(' (by decide)).or (.eq '"' (by decide))

theorem opClass : AsciiClass (fun b => b = 0x26 || b = 0x7C) (fun c => (opOf c).isSome) := by
  have hop : (fun c => (opOf c).isSome) = fun c => c = '&' || c = '|' := by
    funext c
    by_cases hand : c = '&'
    · simp [opOf, hand]
    · by_cases hor : c = '|' <;> simp [opOf, hand, hor]
  rw [hop]
  exact (AsciiClass.eq '&' (by decide)).or (.eq '|' (by decide))

theorem closerClass : AsciiClass (fun b => b = 0x29) (fun c => c = ')') :=
  .eq ')' (by decide)

/-- A token is held when the bytes of its text, each taken for a character, are
among the authorizations. -/
def heldBytes (auths : List String) (text : List Char) : Bool :=
  auths.contains (asChars (encodeChars text))

variable (auths : List String) (length : Nat)

/-- What the evaluator has of a result of the reader. -/
def evaluated (r : Option (LabelExpr × List Char)) : Option (Bool × Bytes) :=
  r.map fun p => (p.1.value (heldBytes auths), encodeChars p.2)

theorem term_token {r s : Bytes} {fuel : Nat} (hskip : skipWs s = r)
    (hparen : ∀ tail, r ≠ 0x28 :: tail) (hquote : ∀ tail, r ≠ 0x22 :: tail) :
    (term auths length (fuel + 1) s).toOption =
      if r.takeWhile isTokenByte = [] then none
      else some (auths.contains (asChars (r.takeWhile isTokenByte)), r.dropWhile isTokenByte) := by
  subst hskip
  rw [term]
  split
  · next rest heq => exact absurd heq (hparen rest)
  · next rest heq => exact absurd heq (hquote rest)
  · split
    · next heq => rw [if_pos heq]; rfl
    · next hne => rw [if_neg hne]; rfl

theorem readTerm_token {r s : List Char} {fuel : Nat} (hskip : s.dropWhile isBlank = r)
    (hparen : ∀ tail, r ≠ '(' :: tail) (hquote : ∀ tail, r ≠ '"' :: tail) :
    readTerm (fuel + 1) s =
      if r.takeWhile isTokenChar = [] then none
      else some (.token (r.takeWhile isTokenChar), r.dropWhile isTokenChar) := by
  subst hskip
  rw [readTerm]
  split
  · next rest heq => exact absurd heq (hparen rest)
  · next rest heq => exact absurd heq (hquote rest)
  · split
    · next heq => rw [if_pos heq]
    · next hne => rw [if_neg hne]

/-- A term that is an unquoted token, or none at all. -/
theorem term_of_token {cs : List Char} {fuel : Nat}
    (hparen : ∀ tail, cs.dropWhile isBlank ≠ '(' :: tail)
    (hquote : ∀ tail, cs.dropWhile isBlank ≠ '"' :: tail) :
    (term auths length (fuel + 1) (encodeChars cs)).toOption =
      evaluated auths (readTerm (fuel + 1) cs) := by
  rw [readTerm_token rfl hparen hquote]
  generalize hr : cs.dropWhile isBlank = r at hparen hquote
  have hbytes : ∀ k : UInt8, k = 0x28 ∨ k = 0x22 → ∀ tail, encodeChars r ≠ k :: tail := by
    intro k hk tail heq
    cases r with
    | nil => cases heq
    | cons c rest =>
        obtain ⟨b, tail', henc, hb⟩ := openerClass.head c rest
        rw [heq] at henc
        obtain ⟨rfl, _⟩ := List.cons.inj henc
        have hc : (decide (c = '(') || decide (c = '"')) = false := by
          simp only [Bool.or_eq_false_iff, decide_eq_false_iff_not]
          exact ⟨fun h => hparen rest (by rw [h]), fun h => hquote rest (by rw [h])⟩
        rw [hc] at hb
        rcases hk with rfl | rfl <;> cases hb
  rw [term_token auths length (skipWs_encode cs) (by rw [hr]; exact hbytes _ (.inl rfl))
    (by rw [hr]; exact hbytes _ (.inr rfl)), hr, tokenClass.takeWhile, tokenClass.dropWhile]
  by_cases hnil : r.takeWhile isTokenChar = []
  · rw [if_pos hnil, if_pos (encodeChars_eq_nil.mpr hnil)]
    rfl
  · rw [if_neg hnil, if_neg (fun h => hnil (encodeChars_eq_nil.mp h))]
    rfl

/-- The results of the two agree: both fail, or both have one. -/
theorem evaluated_cases {e : Except LabelError (Bool × Bytes)}
    {r : Option (LabelExpr × List Char)} (h : e.toOption = evaluated auths r) :
    ((∃ err, e = .error err) ∧ r = none) ∨
      ∃ x rest, e = .ok (x.value (heldBytes auths), encodeChars rest) ∧ r = some (x, rest) := by
  cases r with
  | none =>
      cases e with
      | error err => exact .inl ⟨⟨err, rfl⟩, rfl⟩
      | ok p => cases h
  | some p =>
      cases e with
      | error err => cases h
      | ok q => exact .inr ⟨p.1, p.2, congrArg Except.ok (Option.some.inj h), rfl⟩

theorem term_paren {cs rest : List Char} {fuel : Nat} (hskip : cs.dropWhile isBlank = '(' :: rest)
    (ih : (expression auths length fuel (encodeChars rest)).toOption =
      evaluated auths (readLevel fuel rest)) :
    (term auths length (fuel + 1) (encodeChars cs)).toOption =
      evaluated auths (readTerm (fuel + 1) cs) := by
  have hbytes : skipWs (encodeChars cs) = 0x28 :: encodeChars rest := by
    rw [skipWs_encode, hskip, encodeChars_ascii (by decide)]
    rfl
  rw [term, readTerm, hskip]
  simp only [hbytes]
  rcases evaluated_cases auths ih with ⟨⟨err, he⟩, hr⟩ | ⟨x, behind, he, hr⟩
  · rw [he, hr]
    rfl
  · simp only [he, hr, skipWs_encode]
    generalize behind.dropWhile isBlank = ds
    cases ds with
    | nil => rfl
    | cons c ds =>
        by_cases hc : c = ')'
        · subst hc
          rw [encodeChars_ascii (by decide)]
          rfl
        · obtain ⟨b, tail, henc, hb⟩ := closerClass.head c ds
          rw [henc]
          simp only [hc, decide_false, decide_eq_false_iff_not] at hb
          split
          · next heq => exact absurd (List.cons.inj heq).1 hb
          · split
            · next heq => exact absurd (List.cons.inj heq).1 hc
            · rfl

theorem term_quoted {cs rest : List Char} {fuel : Nat}
    (hskip : cs.dropWhile isBlank = '"' :: rest) :
    (term auths length (fuel + 1) (encodeChars cs)).toOption =
      evaluated auths (readTerm (fuel + 1) cs) := by
  have hbytes : skipWs (encodeChars cs) = 0x22 :: encodeChars rest := by
    rw [skipWs_encode, hskip, encodeChars_ascii (by decide)]
    rfl
  have hread := quotedToken_encode [] rest
  rw [encodeChars_nil] at hread
  rw [term, readTerm, hskip]
  simp only [hbytes]
  cases hq : readQuoted [] rest with
  | none =>
      rw [hq] at hread
      cases he : quotedToken [] (encodeChars rest) with
      | error err => rfl
      | ok p =>
          rw [he] at hread
          cases hread
  | some p =>
      obtain ⟨text, behind⟩ := p
      rw [hq] at hread
      cases he : quotedToken [] (encodeChars rest) with
      | error err =>
          rw [he] at hread
          cases hread
      | ok q =>
          rw [he] at hread
          obtain rfl := Option.some.inj hread
          cases text with
          | nil => rfl
          | cons c text =>
              have hne : encodeChars (c :: text) ≠ [] := by simp [encodeChars_eq_nil]
              simp only
              rfl

theorem char_of_opOf {c : Char} {o : LabelOp} (h : opOf c = some o) : c = o.char := by
  unfold opOf at h
  split at h
  · next hc =>
      cases h
      exact hc
  · split at h
    · next hc =>
        cases h
        exact hc
    · cases h

theorem opOf_char (o : LabelOp) : opOf o.char = some o := by cases o <;> rfl

theorem encodeChars_op (o : LabelOp) (cs : List Char) :
    encodeChars (o.char :: cs) = o.byte :: encodeChars cs := by
  cases o
  · exact encodeChars_ascii (by decide) cs
  · exact encodeChars_ascii (by decide) cs

theorem operators_step {x : LabelExpr} {op : Option LabelOp} {cs : List Char} {fuel : Nat}
    (hterm : ∀ cs, (term auths length fuel (encodeChars cs)).toOption =
      evaluated auths (readTerm fuel cs))
    (hchain : ∀ op x cs, (operators auths length fuel (Option.map LabelOp.byte op)
      (x.value (heldBytes auths)) (encodeChars cs)).toOption =
        evaluated auths (readChain fuel op x cs)) :
    (operators auths length (fuel + 1) (op.map LabelOp.byte) (x.value (heldBytes auths))
      (encodeChars cs)).toOption = evaluated auths (readChain (fuel + 1) op x cs) := by
  rw [operators, readChain, skipWs_encode]
  generalize cs.dropWhile isBlank = ds
  cases ds with
  | nil => rfl
  | cons c ds =>
      cases hop : opOf c with
      | none =>
          obtain ⟨b, tail, henc, hb⟩ := opClass.head c ds
          rw [hop] at hb
          simp only [henc, hb, Option.isSome_none, Bool.false_eq_true, if_false, hop]
          simp only [evaluated, Option.map_some, henc, Except.toOption]
      | some o =>
          obtain rfl := char_of_opOf hop
          have hbyte : (o.byte = 0x26 || o.byte = 0x7C : Bool) = true := by cases o <;> rfl
          have hmixed : (op.map LabelOp.byte).any (· ≠ o.byte) = op.any (· ≠ o) := by
            cases op with
            | none => rfl
            | some prev => cases prev <;> cases o <;> rfl
          rw [encodeChars_op]
          simp only [hbyte, if_true, hmixed, hop]
          by_cases hne : op.any (· ≠ o) = true
          · rw [if_pos hne, if_pos hne]
            rfl
          · rw [if_neg hne, if_neg hne]
            rcases evaluated_cases auths (hterm ds) with ⟨⟨err, he⟩, hr⟩ | ⟨y, behind, he, hr⟩
            · rw [he, hr]
              rfl
            · simp only [he, hr]
              have hjoin : (if o.byte = 0x26 then
                    x.value (heldBytes auths) && y.value (heldBytes auths)
                  else x.value (heldBytes auths) || y.value (heldBytes auths)) =
                  (LabelExpr.join o x y).value (heldBytes auths) := by cases o <;> rfl
              rw [hjoin]
              exact hchain (some o) (.join o x y) behind

/-- The evaluator reads what the reader reads, and evaluates it. -/
theorem evaluator_reads (fuel : Nat) :
    (∀ cs, (term auths length fuel (encodeChars cs)).toOption =
      evaluated auths (readTerm fuel cs)) ∧
    (∀ cs, (expression auths length fuel (encodeChars cs)).toOption =
      evaluated auths (readLevel fuel cs)) ∧
    ∀ op x cs, (operators auths length fuel (Option.map LabelOp.byte op)
      (x.value (heldBytes auths)) (encodeChars cs)).toOption =
        evaluated auths (readChain fuel op x cs) := by
  induction fuel with
  | zero => exact ⟨fun _ => rfl, fun _ => rfl, fun _ _ _ => rfl⟩
  | succ fuel ih =>
      obtain ⟨hterm, hlevel, hchain⟩ := ih
      refine ⟨fun cs => ?_, fun cs => ?_, fun op x cs => operators_step auths length hterm hchain⟩
      · by_cases hparen : ∃ rest, cs.dropWhile isBlank = '(' :: rest
        · obtain ⟨rest, hskip⟩ := hparen
          exact term_paren auths length hskip (hlevel rest)
        · by_cases hquote : ∃ rest, cs.dropWhile isBlank = '"' :: rest
          · obtain ⟨rest, hskip⟩ := hquote
            exact term_quoted auths length hskip
          · exact term_of_token auths length (fun tail h => hparen ⟨tail, h⟩)
              fun tail h => hquote ⟨tail, h⟩
      · rw [expression, readLevel]
        rcases evaluated_cases auths (hterm cs) with ⟨⟨err, he⟩, hr⟩ | ⟨x, behind, he, hr⟩
        · rw [he, hr]
          rfl
        · simp only [he, hr]
          exact hchain none x behind

/-- `evaluate` on a label that is not blank. -/
theorem evaluate_eq {label : String} (hblank : label.toList.all isWhitespace = false) :
    (evaluate label auths).toOption =
      (readLabel (2 * (utf8 label).length + 3) label.toList).map fun x =>
        x.value (heldBytes auths) := by
  have hread := (evaluator_reads auths (utf8 label).length (2 * (utf8 label).length + 3)).2.1
    label.toList
  rw [← Wal.utf8_eq] at hread
  rw [evaluate, hblank, readLabel]
  simp only [Bool.false_eq_true, if_false]
  rcases evaluated_cases auths hread with ⟨⟨err, he⟩, hr⟩ | ⟨x, behind, he, hr⟩
  · rw [he, hr]
    rfl
  · simp only [he, hr, skipWs_encode]
    by_cases hnil : behind.dropWhile isBlank = []
    · rw [if_pos hnil, hnil]
      rfl
    · rw [if_neg hnil]
      cases henc : encodeChars (behind.dropWhile isBlank) with
      | nil => exact absurd (encodeChars_eq_nil.mp henc) hnil
      | cons b tail => rfl

end Evaluator

end TimeLake.Query
