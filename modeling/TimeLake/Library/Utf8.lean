import TimeLake.Library.Stream

/-!
Scanning UTF-8 by bytes and by characters. An ASCII character is one byte below
128 and every other one is two or more bytes from 128 up, so a scanner that asks
its bytes for ASCII classes only does to the encoding of a text what the scanner
for the characters does to the text.
-/

namespace TimeLake.Library

/-- The UTF-8 encoding of a text. -/
def encodeChars (cs : List Char) : Bytes := cs.flatMap String.utf8EncodeChar

section Encoding

@[simp] theorem encodeChars_nil : encodeChars [] = [] := rfl

theorem encodeChars_cons (c : Char) (cs : List Char) :
    encodeChars (c :: cs) = String.utf8EncodeChar c ++ encodeChars cs := by
  rw [encodeChars, List.flatMap_cons, encodeChars]

theorem encodeChars_append (cs ds : List Char) :
    encodeChars (cs ++ ds) = encodeChars cs ++ encodeChars ds := List.flatMap_append

theorem utf8EncodeChar_ascii {c : Char} (h : c.toNat < 128) :
    String.utf8EncodeChar c = [UInt8.ofNat c.toNat] := by
  unfold String.utf8EncodeChar
  exact if_pos (Nat.le_of_lt_succ h)

theorem utf8EncodeChar_high {c : Char} (h : 128 ≤ c.toNat) :
    1 < (String.utf8EncodeChar c).length ∧ ∀ b ∈ String.utf8EncodeChar c, 128 ≤ b.toNat := by
  have hv : ¬c.val.toNat ≤ 0x7f := Nat.not_le.mpr h
  unfold String.utf8EncodeChar
  simp only [if_neg hv]
  split
  · next h2 =>
      simp only [List.length_cons, List.length_nil, List.mem_cons, List.not_mem_nil, or_false,
        forall_eq_or_imp, forall_eq, UInt8.toNat_ofNat']
      omega
  · next h2 =>
      split
      · next h3 =>
          simp only [List.length_cons, List.length_nil, List.mem_cons, List.not_mem_nil, or_false,
            forall_eq_or_imp, forall_eq, UInt8.toNat_ofNat']
          omega
      · next h3 =>
          simp only [List.length_cons, List.length_nil, List.mem_cons, List.not_mem_nil, or_false,
            forall_eq_or_imp, forall_eq, UInt8.toNat_ofNat']
          omega

theorem encodeChars_ascii {c : Char} (h : c.toNat < 128) (cs : List Char) :
    encodeChars (c :: cs) = UInt8.ofNat c.toNat :: encodeChars cs := by
  rw [encodeChars_cons, utf8EncodeChar_ascii h, List.singleton_append]

theorem encodeChars_eq_nil {cs : List Char} : encodeChars cs = [] ↔ cs = [] := by
  cases cs with
  | nil => simp
  | cons c cs =>
      rw [encodeChars_cons]
      simp [String.utf8EncodeChar_ne_nil]

theorem encodeChars_injective : Function.Injective encodeChars := by
  intro cs ds h
  have hbytes : (String.ofList cs).toByteArray = (String.ofList ds).toByteArray := by
    change (encodeChars cs).toByteArray = (encodeChars ds).toByteArray
    rw [h]
  exact String.ofList_injective (String.toByteArray_inj.mp hbytes)

theorem length_le_encodeChars (cs : List Char) : cs.length ≤ (encodeChars cs).length := by
  induction cs with
  | nil => simp
  | cons c cs ih =>
      have hpos := List.length_pos_of_ne_nil (String.utf8EncodeChar_ne_nil (c := c))
      rw [encodeChars_cons, List.length_append, List.length_cons]
      omega

end Encoding

section Classes

/-- A class of bytes and a class of characters that are the same on ASCII and
have nothing else. -/
structure AsciiClass (p : UInt8 → Bool) (q : Char → Bool) : Prop where
  same : ∀ c : Char, c.toNat < 128 → p (UInt8.ofNat c.toNat) = q c
  high : ∀ b : UInt8, 128 ≤ b.toNat → p b = false
  highChar : ∀ c : Char, 128 ≤ c.toNat → q c = false

variable {p : UInt8 → Bool} {q : Char → Bool}

theorem toNat_ofAscii {n : Nat} (hn : n < 128) : (UInt8.ofNat n).toNat = n := by
  rw [UInt8.toNat_ofNat', Nat.mod_eq_of_lt (by omega)]

/-- One character. -/
theorem AsciiClass.eq (k : Char) (hk : k.toNat < 128) :
    AsciiClass (fun b => b = UInt8.ofNat k.toNat) (fun c => c = k) where
  same c hc := by
    rw [decide_eq_decide]
    constructor
    · intro h
      have hnat := congrArg UInt8.toNat h
      rw [toNat_ofAscii hc, toNat_ofAscii hk] at hnat
      exact Char.toNat_inj.mp hnat
    · intro h
      rw [h]
  high b hb := by
    rw [decide_eq_false_iff_not]
    rintro rfl
    rw [toNat_ofAscii hk] at hb
    omega
  highChar c hc := by
    rw [decide_eq_false_iff_not]
    rintro rfl
    omega

/-- A range of characters. -/
theorem AsciiClass.between (lo hi : Char) (hlo : lo.toNat < 128) (hhi : hi.toNat < 128) :
    AsciiClass (fun b => UInt8.ofNat lo.toNat ≤ b && b ≤ UInt8.ofNat hi.toNat)
      (fun c => lo ≤ c && c ≤ hi) where
  same c hc := by
    have hle : ∀ a b : Char, a.toNat < 128 → b.toNat < 128 →
        (UInt8.ofNat a.toNat ≤ UInt8.ofNat b.toNat ↔ a ≤ b) := by
      intro a b ha hb
      rw [UInt8.le_iff_toNat_le, toNat_ofAscii ha, toNat_ofAscii hb]
      rfl
    simp only [hle lo c hlo hc, hle c hi hc hhi]
  high b hb := by
    have hnot : ¬ b ≤ UInt8.ofNat hi.toNat := by
      intro hle
      rw [UInt8.le_iff_toNat_le, toNat_ofAscii hhi] at hle
      omega
    simp [hnot]
  highChar c hc := by
    have hnot : ¬ c ≤ hi := by
      intro hle
      have : c.toNat ≤ hi.toNat := hle
      omega
    simp [hnot]

theorem AsciiClass.or {p' : UInt8 → Bool} {q' : Char → Bool} (h : AsciiClass p q)
    (h' : AsciiClass p' q') : AsciiClass (fun b => p b || p' b) (fun c => q c || q' c) where
  same c hc := by rw [h.same c hc, h'.same c hc]
  high b hb := by rw [h.high b hb, h'.high b hb, Bool.or_false]
  highChar c hc := by rw [h.highChar c hc, h'.highChar c hc, Bool.or_false]

/-- The first byte of a text is in the class when its first character is. -/
theorem AsciiClass.head (h : AsciiClass p q) (c : Char) (cs : List Char) :
    ∃ b tail, encodeChars (c :: cs) = b :: tail ∧ p b = q c := by
  by_cases hc : c.toNat < 128
  · exact ⟨_, _, encodeChars_ascii hc cs, h.same c hc⟩
  · have hle := Nat.le_of_not_lt hc
    cases henc : String.utf8EncodeChar c with
    | nil => exact absurd henc String.utf8EncodeChar_ne_nil
    | cons b tail =>
        refine ⟨b, tail ++ encodeChars cs, by rw [encodeChars_cons, henc, List.cons_append], ?_⟩
        rw [h.highChar c hle]
        exact h.high b ((utf8EncodeChar_high hle).2 b (henc ▸ List.mem_cons_self))

theorem AsciiClass.ascii_of (h : AsciiClass p q) {c : Char} (hc : q c = true) : c.toNat < 128 := by
  by_contra hge
  rw [h.highChar c (Nat.le_of_not_lt hge)] at hc
  cases hc

theorem AsciiClass.dropWhile (h : AsciiClass p q) (cs : List Char) :
    (encodeChars cs).dropWhile p = encodeChars (cs.dropWhile q) := by
  induction cs with
  | nil => rfl
  | cons c cs ih =>
      cases hq : q c with
      | true =>
          have hc := h.ascii_of hq
          rw [encodeChars_ascii hc, List.dropWhile_cons_of_pos (by rw [h.same c hc, hq]), ih,
            List.dropWhile_cons_of_pos hq]
      | false =>
          obtain ⟨b, tail, henc, hb⟩ := h.head c cs
          rw [List.dropWhile_cons_of_neg (by simp [hq]), henc,
            List.dropWhile_cons_of_neg (by simp [hb, hq])]

theorem AsciiClass.takeWhile (h : AsciiClass p q) (cs : List Char) :
    (encodeChars cs).takeWhile p = encodeChars (cs.takeWhile q) := by
  induction cs with
  | nil => rfl
  | cons c cs ih =>
      cases hq : q c with
      | true =>
          have hc := h.ascii_of hq
          rw [encodeChars_ascii hc, List.takeWhile_cons_of_pos (by rw [h.same c hc, hq]), ih,
            List.takeWhile_cons_of_pos hq, encodeChars_ascii hc]
      | false =>
          obtain ⟨b, tail, henc, hb⟩ := h.head c cs
          rw [List.takeWhile_cons_of_neg (by simp [hq]), henc,
            List.takeWhile_cons_of_neg (by simp [hb, hq]), encodeChars_nil]

end Classes

end TimeLake.Library
