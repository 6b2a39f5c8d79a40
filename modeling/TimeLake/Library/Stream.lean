import Mathlib.Data.List.Basic
import Mathlib.Tactic.Ring

/-!
Reading records from a byte stream that may have been cut off. A parser is
`Streaming` when bytes behind what it reads do not change what it does: then
a record cut short at any byte is reported as an unexpected end of file and as
nothing else. `scan` reads records until one of them ends the loop.
-/

namespace TimeLake.Library

abbrev Bytes := List UInt8

/-- The `width` low bytes of a number, least significant first. -/
def leBytes : Nat → Nat → Bytes
  | 0, _ => []
  | width + 1, n => UInt8.ofNat n :: leBytes width (n / 256)

def ofLe : Bytes → Nat
  | [] => 0
  | b :: rest => b.toNat + 256 * ofLe rest

@[simp] theorem length_leBytes (width n : Nat) : (leBytes width n).length = width := by
  induction width generalizing n with
  | zero => rfl
  | succ width ih => simp [leBytes, ih]

theorem ofLe_leBytes {width n : Nat} (h : n < 256 ^ width) : ofLe (leBytes width n) = n := by
  induction width generalizing n with
  | zero => simp_all [leBytes, ofLe]
  | succ width ih =>
      have hdiv : n / 256 < 256 ^ width := by
        rw [Nat.div_lt_iff_lt_mul (by decide)]
        rwa [Nat.pow_succ] at h
      simp only [leBytes, ofLe, ih hdiv, UInt8.toNat_ofNat']
      omega

theorem ofLe_lt (bytes : Bytes) : ofLe bytes < 256 ^ bytes.length := by
  induction bytes with
  | nil => decide
  | cons b rest ih =>
      have hb := b.toNat_lt
      rw [ofLe, List.length_cons, Nat.pow_succ]
      omega

/-- `std::io::ErrorKind`, as far as a reader looks at it. -/
inductive ReadError (ε : Type) where
  | unexpectedEof
  | invalid (e : ε)
  deriving DecidableEq, Repr

abbrev Parser (ε α : Type) := StateT Bytes (Except (ReadError ε)) α

variable {ε α β : Type}

/-- `Read::read_exact`. -/
def readExact (n : Nat) : Parser ε Bytes := fun bytes =>
  if n ≤ bytes.length then .ok (bytes.take n, bytes.drop n) else .error .unexpectedEof

def fail (e : ε) : Parser ε α := fun _ => .error (.invalid e)

/-- `Option` to parser, with the error of the `None` case. -/
def require (e : ε) : Option α → Parser ε α
  | some a => pure a
  | none => fail e

theorem readExact_append {n : Nat} {bytes : Bytes} (h : bytes.length = n) (rest : Bytes) :
    (readExact n : Parser ε Bytes) (bytes ++ rest) = .ok (bytes, rest) := by
  simp [readExact, ← h]

theorem readExact_short {n : Nat} {bytes : Bytes} (h : bytes.length < n) :
    (readExact n : Parser ε Bytes) bytes = .error .unexpectedEof := by
  simp [readExact, Nat.not_le.mpr h]

theorem readExact_ok {n : Nat} {bytes a rest : Bytes}
    (h : (readExact n : Parser ε Bytes) bytes = .ok (a, rest)) :
    a.length = n ∧ bytes = a ++ rest := by
  unfold readExact at h
  split at h
  · next hle =>
      cases h
      exact ⟨List.length_take_of_le hle, (List.take_append_drop n bytes).symm⟩
  · cases h

/-- More bytes at the end change nothing but what is left over, unless the
parser ran into the end. -/
structure Streaming (p : Parser ε α) : Prop where
  ok : ∀ {t a r}, p t = .ok (a, r) → ∀ u, p (t ++ u) = .ok (a, r ++ u)
  error : ∀ {t e}, p t = .error (.invalid e) → ∀ u, p (t ++ u) = .error (.invalid e)

namespace Streaming

theorem pure (a : α) : Streaming (pure a : Parser ε α) where
  ok := by
    intro t b r h u
    cases h
    rfl
  error := by
    intro t e h
    cases h

theorem fail (e : ε) : Streaming (fail e : Parser ε α) where
  ok := by
    intro t b r h
    cases h
  error := by
    intro t e' h u
    cases h
    rfl

theorem require (e : ε) (o : Option α) : Streaming (require e o) := by
  cases o with
  | none => exact fail e
  | some a => exact pure a

theorem readExact (n : Nat) : Streaming (readExact n : Parser ε Bytes) where
  ok := by
    intro t a r h u
    unfold Library.readExact at h ⊢
    split at h
    · next hle =>
        cases h
        have hle' : n ≤ (t ++ u).length := by simp; omega
        rw [if_pos hle', List.take_append_of_le_length hle, List.drop_append_of_le_length hle]
    · cases h
  error := by
    intro t e h
    unfold Library.readExact at h
    split at h <;> cases h

theorem bind {p : Parser ε α} {q : α → Parser ε β} (hp : Streaming p)
    (hq : ∀ a, Streaming (q a)) : Streaming (p >>= q) where
  ok := by
    intro t b r h u
    cases ht : p t with
    | error e => simp [Bind.bind, StateT.bind, ht, Except.bind] at h
    | ok pair =>
        obtain ⟨a, rest⟩ := pair
        have h' : q a rest = .ok (b, r) := by
          simpa [Bind.bind, StateT.bind, ht, Except.bind] using h
        simpa [Bind.bind, StateT.bind, hp.ok ht u, Except.bind] using (hq a).ok h' u
  error := by
    intro t e h u
    cases ht : p t with
    | error e' =>
        have he : e' = .invalid e := by
          simpa [Bind.bind, StateT.bind, ht, Except.bind] using h
        subst he
        simp [Bind.bind, StateT.bind, hp.error ht u, Except.bind]
    | ok pair =>
        obtain ⟨a, rest⟩ := pair
        have h' : q a rest = .error (.invalid e) := by
          simpa [Bind.bind, StateT.bind, ht, Except.bind] using h
        simpa [Bind.bind, StateT.bind, hp.ok ht u, Except.bind] using (hq a).error h' u

theorem ite {c : Prop} [Decidable c] {p q : Parser ε α} (hp : Streaming p)
    (hq : Streaming q) : Streaming (if c then p else q) := by
  split
  · exact hp
  · exact hq

/-- A record cut short at any byte runs into the end of the file. -/
theorem torn {p : Parser ε α} (hp : Streaming p) {record t : Bytes} {a : α}
    (hrecord : p record = .ok (a, [])) (hpre : t <+: record) (hne : t ≠ record) :
    p t = .error .unexpectedEof := by
  obtain ⟨u, rfl⟩ := hpre
  have hu : u ≠ [] := by
    rintro rfl
    simp at hne
  cases ht : p t with
  | ok pair =>
      obtain ⟨b, r⟩ := pair
      have := (hp.ok ht u).symm.trans hrecord
      simp [hu] at this
  | error e =>
      cases e with
      | unexpectedEof => rfl
      | invalid e =>
          have := (hp.error ht u).symm.trans hrecord
          cases this

end Streaming

theorem bind_ok {p : Parser ε α} {q : α → Parser ε β} {t r : Bytes} {a : α}
    (h : p t = .ok (a, r)) : (p >>= q) t = q a r := by
  simp [Bind.bind, StateT.bind, h, Except.bind]

theorem bind_ok_iff {p : Parser ε α} {q : α → Parser ε β} {t r : Bytes} {b : β} :
    (p >>= q) t = .ok (b, r) ↔ ∃ a t', p t = .ok (a, t') ∧ q a t' = .ok (b, r) := by
  constructor
  · intro h
    cases ht : p t with
    | error e => simp [Bind.bind, StateT.bind, ht, Except.bind] at h
    | ok pair =>
        refine ⟨pair.1, pair.2, rfl, ?_⟩
        simpa [Bind.bind, StateT.bind, ht, Except.bind] using h
  · rintro ⟨a, t', hp, hq⟩
    rw [bind_ok hp, hq]

/-- What a loop over records ends with. -/
structure Scan (ε α : Type) where
  records : List α
  left : Bytes
  stop : Option (ReadError ε)

/-- Read records numbered from `seq` until the reader sees a clean end or
fails. Every record takes at least one byte, so `fuel` past the number of
bytes is never used up. -/
def scan (read : Nat → Bytes → Except (ReadError ε) (Option (α × Bytes))) :
    Nat → Nat → Bytes → Scan ε α
  | 0, _, bytes => ⟨[], bytes, none⟩
  | fuel + 1, seq, bytes =>
      match read seq bytes with
      | .ok (some (a, rest)) =>
          let s := scan read fuel (seq + 1) rest
          { s with records := a :: s.records }
      | .ok none => ⟨[], bytes, none⟩
      | .error e => ⟨[], bytes, some e⟩

/-- The bytes of records numbered from `seq` on. -/
def encodeFrom (encode : Nat → α → Bytes) : Nat → List α → Bytes
  | _, [] => []
  | seq, a :: rest => encode seq a ++ encodeFrom encode (seq + 1) rest

theorem encodeFrom_append (encode : Nat → α → Bytes) (seq : Nat) (xs ys : List α) :
    encodeFrom encode seq (xs ++ ys) =
      encodeFrom encode seq xs ++ encodeFrom encode (seq + xs.length) ys := by
  induction xs generalizing seq with
  | nil => rfl
  | cons x xs ih =>
      simp only [List.cons_append, encodeFrom, ih, List.length_cons, List.append_assoc]
      rw [Nat.add_right_comm, Nat.add_assoc seq]

section Scan

variable {read : Nat → Bytes → Except (ReadError ε) (Option (α × Bytes))}
  {encode : Nat → α → Bytes}

/-- Whole records are read back in order; the loop ends at what follows. -/
theorem scan_encodeFrom (records : List α) (tail : Bytes)
    (hread : ∀ seq a, a ∈ records → ∀ rest,
      read seq (encode seq a ++ rest) = .ok (some (a, rest)))
    {seq fuel : Nat} {stop : Option (ReadError ε)}
    (htail : ∀ fuel', 0 < fuel' →
      scan read fuel' (seq + records.length) tail = ⟨[], tail, stop⟩)
    (hfuel : records.length < fuel) :
    scan read fuel seq (encodeFrom encode seq records ++ tail) = ⟨records, tail, stop⟩ := by
  induction records generalizing seq fuel with
  | nil => exact htail fuel (by omega)
  | cons a rest ih =>
      obtain ⟨fuel, rfl⟩ := Nat.exists_eq_add_one_of_ne_zero (Nat.ne_zero_of_lt hfuel)
      have hrest : scan read fuel (seq + 1) (encodeFrom encode (seq + 1) rest ++ tail) =
          ⟨rest, tail, stop⟩ := by
        refine ih (fun n b hb => hread n b (by simp [hb])) ?_ (by simpa using hfuel)
        intro fuel' hpos
        have := htail fuel' hpos
        rwa [List.length_cons, Nat.add_comm rest.length, ← Nat.add_assoc] at this
      rw [scan, encodeFrom, List.append_assoc, hread seq a (by simp)]
      simp only [hrest]

theorem length_le_encodeFrom (encode : Nat → α → Bytes) (records : List α) (seq : Nat)
    (hpos : ∀ n a, 0 < (encode n a).length) :
    records.length ≤ (encodeFrom encode seq records).length := by
  induction records generalizing seq with
  | nil => simp
  | cons a rest ih =>
      have := ih (seq + 1)
      have := hpos seq a
      simp only [List.length_cons, encodeFrom, List.length_append]
      omega

end Scan

end TimeLake.Library
