import TimeLake.Query.Derivation

/-!
What the label evaluator makes of a label against what the grammar says of it.
The two differ in two places. A label of Unicode blanks is taken for an empty
one, though the grammar has ASCII blanks only. And a quoted token is compared
byte by byte, each byte taken for a character, so a token with a character
beyond ASCII is compared under another text, which is longer than its own.
-/

namespace TimeLake.Query

open TimeLake.Library TimeLake.Wal

section Tokens

def isAsciiText (text : List Char) : Bool := text.all fun c => decide (c.toNat < 128)

/-- The text a token is compared under: its bytes, each taken for a character. -/
def comparedText (text : List Char) : List Char :=
  (encodeChars text).map fun b => Char.ofNat b.toNat

def LabelExpr.tokens : LabelExpr → List (List Char)
  | .token text => [text]
  | .join _ x y => x.tokens ++ y.tokens

theorem LabelExpr.value_congr {held held' : List Char → Bool} (x : LabelExpr)
    (h : ∀ text ∈ x.tokens, held text = held' text) : x.value held = x.value held' := by
  induction x with
  | token text => exact h text List.mem_cons_self
  | join op x y ihx ihy =>
      have hx := ihx fun text ht => h text (List.mem_append_left _ ht)
      have hy := ihy fun text ht => h text (List.mem_append_right _ ht)
      cases op with
      | and => rw [LabelExpr.value, LabelExpr.value, hx, hy]
      | or => rw [LabelExpr.value, LabelExpr.value, hx, hy]

theorem comparedText_ascii {text : List Char} (h : isAsciiText text = true) :
    comparedText text = text := by
  induction text with
  | nil => rfl
  | cons c text ih =>
      simp only [isAsciiText, List.all_cons, Bool.and_eq_true, decide_eq_true_eq] at h
      have hbyte : (UInt8.ofNat c.toNat).toNat = c.toNat := by
        rw [UInt8.toNat_ofNat']
        omega
      have htail := ih h.2
      rw [comparedText] at htail ⊢
      rw [encodeChars_ascii h.1, List.map_cons, htail, hbyte, Char.ofNat_toNat]

theorem ofNat_byte (b : UInt8) : (Char.ofNat b.toNat).toNat = b.toNat := by
  have hb := b.toNat_lt
  have hvalid : b.toNat.isValidChar := Or.inl (by omega)
  rw [Char.ofNat, dif_pos hvalid]
  rfl

/-- A token beyond ASCII is compared under a longer text, which is beyond ASCII
too. -/
theorem comparedText_high {text : List Char} (h : isAsciiText text = false) :
    text.length < (comparedText text).length ∧ isAsciiText (comparedText text) = false := by
  obtain ⟨c, hc, hhigh⟩ := List.all_eq_false.mp h
  have hge : 128 ≤ c.toNat := by simpa using hhigh
  obtain ⟨before, behind, rfl⟩ := List.append_of_mem hc
  obtain ⟨hlong, hbytes⟩ := utf8EncodeChar_high hge
  constructor
  · have hbefore := length_le_encodeChars before
    have hbehind := length_le_encodeChars behind
    rw [comparedText, encodeChars_append, encodeChars_cons]
    simp only [List.length_map, List.length_append, List.length_cons]
    omega
  · cases henc : String.utf8EncodeChar c with
    | nil => exact absurd henc String.utf8EncodeChar_ne_nil
    | cons b tail =>
        have hb := hbytes b (henc ▸ List.mem_cons_self)
        apply List.all_eq_false.mpr
        refine ⟨Char.ofNat b.toNat, ?_, ?_⟩
        · rw [comparedText, encodeChars_append, encodeChars_cons, henc]
          simp
        · rw [ofNat_byte]
          simpa using hb

theorem heldBytes_eq (auths : List String) (text : List Char) :
    heldBytes auths text = auths.contains (String.ofList (comparedText text)) := rfl

end Tokens

section Meaning

/-- A token is held when its exact text is among the authorizations. -/
def heldExactly (auths : List String) (text : List Char) : Bool :=
  auths.contains (String.ofList text)

/-- What the grammar says of a label. -/
def Says (label : String) (auths : List String) (v : Bool) : Prop :=
  (Blanks label.toList ∧ v = true) ∨
    ∃ x, DerivesLabel label.toList x ∧ v = x.value (heldExactly auths)

/-- The evaluator gives what the grammar says, and fails closed where it says
nothing. -/
def MeansWhatItSays (label : String) (auths : List String) : Prop :=
  (∀ v, evaluate label auths = .ok v ↔ Says label auths v) ∧
    ((∀ v, ¬Says label auths v) →
      (∃ e, evaluate label auths = .error e) ∧ isVisible label auths = false)

/-- The value is the same whichever tokens beyond ASCII are held. -/
def LabelExpr.AsciiDecided (x : LabelExpr) : Prop :=
  ∀ held held' : List Char → Bool,
    (∀ text, isAsciiText text = true → held text = held' text) → x.value held = x.value held'

/-- A label of blanks has ASCII blanks only, and what a label says is decided by
its ASCII tokens. -/
def PlainLabel (label : String) : Prop :=
  (label.toList.all isWhitespace = true → Blanks label.toList) ∧
    ∀ x, DerivesLabel label.toList x → x.AsciiDecided

theorem isWhitespace_of_blank {c : Char} (h : isBlank c = true) : isWhitespace c = true := by
  simp only [isBlank, Bool.or_eq_true, decide_eq_true_eq] at h
  rcases h with (((rfl | rfl) | rfl) | rfl) | rfl <;> decide

theorem tokenChar_not_whitespace {c : Char} (h : isTokenChar c = true) :
    isWhitespace c = false := by
  have hascii := tokenClass.ascii_of h
  have hall : ∀ n < 128, isTokenChar (Char.ofNat n) = true →
      isWhitespace (Char.ofNat n) = false := by decide +kernel
  have hc := hall c.toNat hascii
  rw [Char.ofNat_toNat] at hc
  exact hc h

/-- Something derived has a character that is no blank of any kind. -/
theorem derives_nonblank {part : LabelPart} {body : List Char} {x : LabelExpr}
    (h : Derives part body x) : ∃ c ∈ body, isWhitespace c = false := by
  induction h with
  | @token ws text _ hne htext =>
      cases text with
      | nil => exact absurd rfl hne
      | cons c text =>
          exact ⟨c, by simp, tokenChar_not_whitespace (htext c List.mem_cons_self)⟩
  | quoted => exact ⟨'"', by simp, by decide⟩
  | paren => exact ⟨'(', by simp, by decide⟩
  | two _ _ _ ih _ | more _ _ _ ih _ =>
      obtain ⟨c, hc, hblank⟩ := ih
      exact ⟨c, List.mem_append_left _ hc, hblank⟩
  | single _ ih | joined _ ih => exact ih

theorem not_blank_of_derives {label : List Char} {x : LabelExpr} (h : DerivesLabel label x) :
    label.all isWhitespace = false := by
  obtain ⟨body, ws, rfl, hbody, _⟩ := h
  obtain ⟨c, hc, hblank⟩ := derives_nonblank hbody
  exact List.all_eq_false.mpr ⟨c, List.mem_append_left _ hc, by simp [hblank]⟩

theorem blank_of_blanks {label : List Char} (h : Blanks label) :
    label.all isWhitespace = true :=
  List.all_eq_true.mpr fun c hc => isWhitespace_of_blank (h c hc)

variable {label : String} {auths : List String}

theorem evaluate_blank (h : label.toList.all isWhitespace = true) :
    evaluate label auths = .ok true := by rw [evaluate, if_pos h]

/-- A label that is not blank is evaluated by what the grammar derives of it. -/
theorem evaluate_ok_iff (h : label.toList.all isWhitespace = false) (v : Bool) :
    evaluate label auths = .ok v ↔
      ∃ x, DerivesLabel label.toList x ∧ v = x.value (heldBytes auths) := by
  have hfuel : 2 * label.toList.length + 1 ≤ 2 * (utf8 label).length + 3 := by
    have hlen := length_le_encodeChars label.toList
    rw [Wal.utf8_eq]
    omega
  have heval := evaluate_eq auths h
  constructor
  · intro hv
    rw [hv] at heval
    obtain ⟨x, hx, hval⟩ := Option.map_eq_some_iff.mp heval.symm
    exact ⟨x, (readLabel_iff hfuel).mp hx, hval.symm⟩
  · rintro ⟨x, hx, rfl⟩
    rw [(readLabel_iff hfuel).mpr hx] at heval
    cases he : evaluate label auths with
    | error e =>
        rw [he] at heval
        cases heval
    | ok w =>
        rw [he] at heval
        exact congrArg Except.ok (Option.some.inj heval)

/-- Of one label the grammar derives one expression. -/
theorem derivesLabel_unique {label : List Char} {x y : LabelExpr} (hx : DerivesLabel label x)
    (hy : DerivesLabel label y) : x = y := by
  have hread := (readLabel_iff (Nat.le_refl _)).mpr hx
  rw [(readLabel_iff (Nat.le_refl _)).mpr hy] at hread
  exact (Option.some.inj hread).symm

theorem says_iff_of_derives {x : LabelExpr} (hx : DerivesLabel label.toList x) (v : Bool) :
    Says label auths v ↔ v = x.value (heldExactly auths) := by
  constructor
  · rintro (⟨hblanks, _⟩ | ⟨y, hy, rfl⟩)
    · have hblank := blank_of_blanks hblanks
      rw [not_blank_of_derives hx] at hblank
      cases hblank
    · rw [derivesLabel_unique hx hy]
  · rintro rfl
    exact .inr ⟨x, hx, rfl⟩

/-- A label means what it says when its blanks are ASCII and its value is decided
by its ASCII tokens. -/
theorem PlainLabel.means (h : PlainLabel label) (auths : List String) :
    MeansWhatItSays label auths := by
  have hmeaning : ∀ v, evaluate label auths = .ok v ↔ Says label auths v := by
    intro v
    cases hblank : label.toList.all isWhitespace with
    | true =>
        rw [evaluate_blank hblank, Except.ok.injEq]
        constructor
        · rintro rfl
          exact .inl ⟨h.1 hblank, rfl⟩
        · rintro (⟨_, rfl⟩ | ⟨x, hx, _⟩)
          · rfl
          · rw [not_blank_of_derives hx] at hblank
            cases hblank
    | false =>
        rw [evaluate_ok_iff hblank]
        have hsame : ∀ x, DerivesLabel label.toList x →
            x.value (heldBytes auths) = x.value (heldExactly auths) := by
          intro x hx
          apply h.2 x hx
          intro text htext
          rw [heldBytes_eq, comparedText_ascii htext, heldExactly]
        constructor
        · rintro ⟨x, hx, rfl⟩
          exact .inr ⟨x, hx, hsame x hx⟩
        · rintro (⟨hblanks, _⟩ | ⟨x, hx, rfl⟩)
          · rw [blank_of_blanks hblanks] at hblank
            cases hblank
          · exact ⟨x, hx, (hsame x hx).symm⟩
  refine ⟨hmeaning, fun hnone => ?_⟩
  cases he : evaluate label auths with
  | ok v => exact absurd ((hmeaning v).mp he) (hnone v)
  | error e =>
      refine ⟨⟨e, rfl⟩, ?_⟩
      rw [isVisible, he]

end Meaning

section Exact

/-- The texts an expression compares its tokens under, of those it has. -/
def comparedAmong (tokens : List (List Char)) (held : List Char → Bool) (text : List Char) : Bool :=
  tokens.contains (comparedText text) && held (comparedText text)

/-- If comparing under the other text never matters then the tokens beyond ASCII
do not. The other text of a held one must be a longer held one, so after as many
steps as the longest token has characters none of them is held. -/
theorem value_ascii_only {x : LabelExpr}
    (hsame : ∀ held, x.value held = x.value (comparedAmong x.tokens held)) (n : Nat)
    (held : List Char → Bool)
    (hshort : ∀ text ∈ x.tokens, isAsciiText text = false → held text = true → text.length < n) :
    x.value held = x.value fun text => isAsciiText text && held text := by
  induction n generalizing held with
  | zero =>
      apply x.value_congr
      intro text htext
      cases hascii : isAsciiText text with
      | true => simp
      | false =>
          cases hheld : held text with
          | false => rfl
          | true => exact absurd (hshort text htext hascii hheld) (Nat.not_lt_zero _)
  | succ n ih =>
      have hnext := ih (comparedAmong x.tokens held) (by
        intro text _ hascii hheld
        obtain ⟨hlonger, hhigh⟩ := comparedText_high hascii
        simp only [comparedAmong, Bool.and_eq_true, List.contains_iff_mem] at hheld
        have := hshort _ hheld.1 hhigh hheld.2
        omega)
      rw [hsame held, hnext]
      apply x.value_congr
      intro text htext
      cases hascii : isAsciiText text with
      | false => rfl
      | true =>
          rw [comparedAmong, comparedText_ascii hascii, List.contains_iff_mem.mpr htext]
          rfl

theorem length_le_of_tokens {x : LabelExpr} {text : List Char} (h : text ∈ x.tokens) :
    text.length < x.tokens.flatten.length + 1 :=
  Nat.lt_succ_of_le (List.sublist_flatten_of_mem h).length_le

theorem asciiDecided_of_same {x : LabelExpr}
    (hsame : ∀ auths, x.value (heldBytes auths) = x.value (heldExactly auths)) :
    x.AsciiDecided := by
  have hstep : ∀ held, x.value held = x.value (comparedAmong x.tokens held) := by
    intro held
    -- the authorizations are the tokens that are to be held
    have hmem : ∀ text, ((x.tokens.filter held).map String.ofList).contains (String.ofList text) =
        (x.tokens.contains text && held text) := by
      intro text
      rw [Bool.eq_iff_iff, List.contains_iff_mem, Bool.and_eq_true, List.contains_iff_mem,
        List.mem_map]
      constructor
      · rintro ⟨other, hother, heq⟩
        rw [String.ofList_inj] at heq
        subst heq
        exact List.mem_filter.mp hother
      · exact fun h => ⟨text, List.mem_filter.mpr h, rfl⟩
    have hboth := hsame ((x.tokens.filter held).map String.ofList)
    have hexact : x.value (heldExactly ((x.tokens.filter held).map String.ofList)) =
        x.value held := by
      apply x.value_congr
      intro text htext
      rw [heldExactly, hmem, List.contains_iff_mem.mpr htext, Bool.true_and]
    have hbytes : x.value (heldBytes ((x.tokens.filter held).map String.ofList)) =
        x.value (comparedAmong x.tokens held) := by
      apply x.value_congr
      intro text _
      rw [heldBytes_eq, hmem, comparedAmong]
    rw [← hexact, ← hbytes, hboth]
  have hascii := fun held => value_ascii_only hstep (x.tokens.flatten.length + 1) held
    fun text htext _ _ => length_le_of_tokens htext
  intro held held' hagree
  rw [hascii held, hascii held']
  apply x.value_congr
  intro text _
  cases htext : isAsciiText text with
  | false => rfl
  | true => rw [hagree text htext]

/-- Under every set of authorizations the evaluator means what the label says, if
and only if the label is a plain one: its blanks are ASCII, and no token beyond
ASCII decides its value. -/
theorem evaluate_means_iff (label : String) :
    (∀ auths, MeansWhatItSays label auths) ↔ PlainLabel label := by
  constructor
  · intro h
    constructor
    · intro hblank
      rcases ((h []).1 true).mp (evaluate_blank hblank) with ⟨hblanks, _⟩ | ⟨x, hx, _⟩
      · exact hblanks
      · rw [not_blank_of_derives hx] at hblank
        cases hblank
    · intro x hx
      apply asciiDecided_of_same
      intro auths
      have heval : evaluate label auths = .ok (x.value (heldBytes auths)) :=
        (evaluate_ok_iff (not_blank_of_derives hx) _).mpr ⟨x, hx, rfl⟩
      exact (says_iff_of_derives hx _).mp (((h auths).1 _).mp heval)
  · exact fun h auths => h.means auths

/-- A quoted token beyond ASCII is refused to who holds it, and a label of one
no-break space is shown to everyone. -/
theorem accented_token_refused :
    (evaluate "\"é\"" ["é"] = .ok false ∧ Says "\"é\"" ["é"] true) ∧
      (evaluate "\u00A0" [] = .ok true ∧ ∀ v, ¬Says "\u00A0" [] v) ∧
        ¬MeansWhatItSays "\"é\"" ["é"] ∧ ¬MeansWhatItSays "\u00A0" [] := by
  have hrefused : evaluate "\"é\"" ["é"] = .ok false := by decide +kernel
  have hshown : evaluate "\u00A0" [] = .ok true := by decide +kernel
  have hterm : Derives .term "\"é\"".toList (.token ['é']) :=
    @Derives.quoted [] ['é'] ['é'] (fun _ h => by cases h) (.plain (by decide) (by decide) .nil)
      (by decide)
  have hquoted : DerivesLabel "\"é\"".toList (.token ['é']) :=
    ⟨_, [], (List.append_nil _).symm, .single hterm, fun _ h => by cases h⟩
  have hmeaning : Says "\"é\"" ["é"] true := .inr ⟨_, hquoted, by decide +kernel⟩
  have hnothing : ∀ v, ¬Says "\u00A0" [] v := by
    rintro v (⟨hblanks, _⟩ | ⟨x, hx, _⟩)
    · have hc := hblanks '\u00A0' (by decide +kernel)
      revert hc
      decide +kernel
    · have hblank := not_blank_of_derives hx
      revert hblank
      decide +kernel
  refine ⟨⟨hrefused, hmeaning⟩, ⟨hshown, hnothing⟩, ?_, ?_⟩
  · intro h
    rw [← h.1, hrefused] at hmeaning
    cases hmeaning
  · exact fun h => hnothing true ((h.1 true).mp hshown)

end Exact

end TimeLake.Query
