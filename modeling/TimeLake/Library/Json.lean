import TimeLake.Library.Pairs
import Mathlib.Data.List.Basic

/-!
JSON texts. The writer is the compact one: no blanks, and of the characters of a string
only those escaped that have to be. The reader takes any JSON value, with blanks
between the tokens, down to a given depth of nesting, and leaves the rest of its input.
Numbers are of any type: the writer asks for their tokens, the reader hands the tokens
over and `decode` makes numbers of them.
-/

namespace TimeLake.Library

inductive Json (ν : Type) where
  | null
  | bool (b : Bool)
  | num (n : ν)
  | str (s : String)
  | arr (items : List (Json ν))
  | obj (members : List (String × Json ν))

namespace Json

section Strings

def hexDigit (n : Nat) : Char := if n < 10 then Char.ofNat (48 + n) else Char.ofNat (87 + n)

def hexValue (c : Char) : Option Nat :=
  if c.isDigit then some (c.toNat - 48)
  else if 'a' ≤ c ∧ c ≤ 'f' then some (c.toNat - 87)
  else if 'A' ≤ c ∧ c ≤ 'F' then some (c.toNat - 55)
  else none

/-- The characters with an escape of their own. -/
def shortEscapes : List (Char × Char) :=
  [('"', '"'), ('\\', '\\'), (Char.ofNat 8, 'b'), (Char.ofNat 12, 'f'), ('\n', 'n'), ('\r', 'r'),
    ('\t', 't')]

def escapeChar (c : Char) : List Char :=
  match shortEscapes.lookup c with
  | some e => ['\\', e]
  | none =>
      if c.toNat < 32 then ['\\', 'u', '0', '0', hexDigit (c.toNat / 16), hexDigit (c.toNat % 16)]
      else [c]

def quote (s : String) : List Char := '"' :: s.toList.flatMap escapeChar ++ ['"']

/-- Four hexadecimal digits. -/
def readHex : List Char → Option (Nat × List Char)
  | a :: b :: c :: d :: rest => do
      let a ← hexValue a
      let b ← hexValue b
      let c ← hexValue c
      let d ← hexValue d
      some (((a * 16 + b) * 16 + c) * 16 + d, rest)
  | _ => none

/-- Behind a backslash. An unpaired surrogate is no character. -/
def readEscape : List Char → Option (Char × List Char)
  | 'u' :: rest => do
      let (n, rest) ← readHex rest
      if 0xD800 ≤ n ∧ n < 0xDC00 then
        match rest with
        | '\\' :: 'u' :: rest => do
            let (m, rest) ← readHex rest
            if 0xDC00 ≤ m ∧ m < 0xE000 then
              some (Char.ofNat (0x10000 + (n - 0xD800) * 0x400 + (m - 0xDC00)), rest)
            else none
        | _ => none
      else if 0xDC00 ≤ n ∧ n < 0xE000 then none
      else some (Char.ofNat n, rest)
  | '/' :: rest => some ('/', rest)
  | e :: rest => (shortEscapes.find? fun p => p.2 = e).map fun p => (p.1, rest)
  | [] => none

/-- The characters up to the closing quote. -/
def readChars : Nat → List Char → Option (List Char × List Char)
  | 0, _ => none
  | fuel + 1, cs =>
      match cs with
      | [] => none
      | c :: rest =>
          if c = '"' then some ([], rest)
          else if c = '\\' then do
            let (d, rest) ← readEscape rest
            let (ds, rest) ← readChars fuel rest
            some (d :: ds, rest)
          else if c.toNat < 32 then none
          else do
            let (ds, rest) ← readChars fuel rest
            some (c :: ds, rest)

theorem hexValue_hexDigit : ∀ n < 16, hexValue (hexDigit n) = some n := by decide

theorem escapeChar_ne_nil (c : Char) : escapeChar c ≠ [] := by
  unfold escapeChar
  split
  · simp
  · split <;> simp

theorem readEscape_short {p : Char × Char} (hp : p ∈ shortEscapes) (rest : List Char) :
    readEscape (p.2 :: rest) = some (p.1, rest) := by
  simp only [shortEscapes, List.mem_cons, List.not_mem_nil, or_false] at hp
  rcases hp with rfl | rfl | rfl | rfl | rfl | rfl | rfl <;> rfl

theorem readEscape_control {c : Char} (h : c.toNat < 32) (rest : List Char) :
    readEscape ('u' :: '0' :: '0' :: hexDigit (c.toNat / 16) :: hexDigit (c.toNat % 16) :: rest) =
      some (c, rest) := by
  have hhex : readHex ('0' :: '0' :: hexDigit (c.toNat / 16) :: hexDigit (c.toNat % 16) :: rest) =
      some (c.toNat, rest) := by
    have hzero : hexValue '0' = some 0 := by decide
    rw [readHex, hzero, hexValue_hexDigit _ (by omega), hexValue_hexDigit _ (by omega)]
    have hvalue : ((0 * 16 + 0) * 16 + c.toNat / 16) * 16 + c.toNat % 16 = c.toNat := by omega
    simp only [Option.bind_eq_bind, Option.bind_some, hvalue]
  rw [readEscape, hhex]
  simp only [Option.bind_eq_bind, Option.bind_some]
  rw [if_neg (by omega), if_neg (by omega), Char.ofNat_toNat]

/-- What the escape of a character reads as. -/
theorem readChars_escapeChar (c : Char) (fuel : Nat) (rest : List Char) :
    readChars (fuel + 1) (escapeChar c ++ rest) =
      (readChars fuel rest).map fun p => (c :: p.1, p.2) := by
  have hbackslash : ∀ cs, readEscape cs = some (c, rest) → readChars (fuel + 1) ('\\' :: cs) =
      (readChars fuel rest).map fun p => (c :: p.1, p.2) := by
    intro cs hcs
    rw [readChars]
    simp only [Char.reduceEq, if_false, if_true, hcs, Option.bind_eq_bind, Option.bind_some]
    cases readChars fuel rest <;> rfl
  unfold escapeChar
  split
  · next e he => exact hbackslash _ (readEscape_short (mem_of_lookup he) rest)
  · next hnone =>
      split
      · next hcontrol => exact hbackslash _ (readEscape_control hcontrol rest)
      · next hplain =>
          have hne : ∀ d e, shortEscapes.lookup d = some e → c ≠ d := by
            rintro d e hd rfl
            rw [hnone] at hd
            cases hd
          rw [List.singleton_append, readChars]
          simp only [if_neg (hne '"' '"' rfl), if_neg (hne '\\' '\\' rfl), if_neg hplain]
          cases readChars fuel rest <;> rfl

theorem readChars_escaped (cs : List Char) {fuel : Nat} (rest : List Char)
    (hfuel : cs.length < fuel) :
    readChars fuel (cs.flatMap escapeChar ++ '"' :: rest) = some (cs, rest) := by
  induction cs generalizing fuel with
  | nil =>
      obtain ⟨fuel, rfl⟩ := Nat.exists_eq_add_one.mpr hfuel
      rfl
  | cons c cs ih =>
      obtain ⟨fuel, rfl⟩ := Nat.exists_eq_add_one.mpr (Nat.zero_lt_of_lt hfuel)
      rw [List.flatMap_cons, List.append_assoc, readChars_escapeChar,
        ih (by simpa using hfuel)]
      rfl

end Strings

section Values

variable {ν μ : Type}

mutual

/-- The compact text of a value. -/
def write (text : ν → List Char) : Json ν → List Char
  | .null => ['n', 'u', 'l', 'l']
  | .bool true => ['t', 'r', 'u', 'e']
  | .bool false => ['f', 'a', 'l', 's', 'e']
  | .num n => text n
  | .str s => quote s
  | .arr [] => ['[', ']']
  | .arr (v :: items) => '[' :: write text v ++ writeItems text items
  | .obj [] => ['{', '}']
  | .obj ((k, v) :: members) => '{' :: quote k ++ ':' :: write text v ++ writeMembers text members

/-- The rest of an array. -/
def writeItems (text : ν → List Char) : List (Json ν) → List Char
  | [] => [']']
  | v :: items => ',' :: write text v ++ writeItems text items

/-- The rest of an object. -/
def writeMembers (text : ν → List Char) : List (String × Json ν) → List Char
  | [] => ['}']
  | (k, v) :: members => ',' :: quote k ++ ':' :: write text v ++ writeMembers text members

end

mutual

/-- How deep arrays and objects are nested. -/
def depth : Json ν → Nat
  | .arr items => depthItems items + 1
  | .obj members => depthMembers members + 1
  | _ => 0

def depthItems : List (Json ν) → Nat
  | [] => 0
  | v :: items => max (depth v) (depthItems items)

def depthMembers : List (String × Json ν) → Nat
  | [] => 0
  | (_, v) :: members => max (depth v) (depthMembers members)

end

mutual

/-- All numbers are of a kind, and no object has two members of one name. -/
def Proper (P : ν → Prop) : Json ν → Prop
  | .num n => P n
  | .arr items => ProperItems P items
  | .obj members => (members.map Prod.fst).Nodup ∧ ProperMembers P members
  | _ => True

def ProperItems (P : ν → Prop) : List (Json ν) → Prop
  | [] => True
  | v :: items => Proper P v ∧ ProperItems P items

def ProperMembers (P : ν → Prop) : List (String × Json ν) → Prop
  | [] => True
  | (_, v) :: members => Proper P v ∧ ProperMembers P members

end

end Values

section Reader

def isBlank (c : Char) : Bool := c = ' ' || c = '\n' || c = '\t' || c = '\r'

/-- The characters of number tokens. -/
def isNumberChar (c : Char) : Bool :=
  c.isDigit || c = '-' || c = '+' || c = '.' || c = 'e' || c = 'E'

/-- A token of a number begins like one. -/
def IsToken (token : List Char) : Prop :=
  (∀ c ∈ token, isNumberChar c = true) ∧ ∃ c rest, token = c :: rest ∧ (c.isDigit = true ∨ c = '-')

def readWord : List Char → Option (Json (List Char) × List Char)
  | 'n' :: 'u' :: 'l' :: 'l' :: rest => some (.null, rest)
  | 't' :: 'r' :: 'u' :: 'e' :: rest => some (.bool true, rest)
  | 'f' :: 'a' :: 'l' :: 's' :: 'e' :: rest => some (.bool false, rest)
  | _ => none

mutual

def readValue : Nat → Nat → List Char → Option (Json (List Char) × List Char)
  | 0, _, _ => none
  | fuel + 1, depth, cs =>
      match cs.dropWhile isBlank with
      | [] => none
      | c :: rest =>
          if c = '"' then (readChars rest.length rest).map fun p => (.str (.ofList p.1), p.2)
          else if c = '[' then
            match depth with
            | 0 => none
            | depth + 1 =>
                if (rest.dropWhile isBlank).head? = some ']' then
                  some (.arr [], (rest.dropWhile isBlank).tail)
                else do
                  let (v, rest) ← readValue fuel depth rest
                  let (vs, rest) ← readItems fuel depth rest
                  some (.arr (v :: vs), rest)
          else if c = '{' then
            match depth with
            | 0 => none
            | depth + 1 =>
                if (rest.dropWhile isBlank).head? = some '}' then
                  some (.obj [], (rest.dropWhile isBlank).tail)
                else do
                  let (p, rest) ← readMember fuel depth rest
                  let (ps, rest) ← readMembers fuel depth rest
                  some (.obj (p :: ps), rest)
          else if c.isDigit || c = '-' then
            some (.num (c :: rest.takeWhile isNumberChar), rest.dropWhile isNumberChar)
          else readWord (c :: rest)
termination_by structural fuel => fuel

def readItems : Nat → Nat → List Char → Option (List (Json (List Char)) × List Char)
  | 0, _, _ => none
  | fuel + 1, depth, cs =>
      match cs.dropWhile isBlank with
      | [] => none
      | c :: rest =>
          if c = ']' then some ([], rest)
          else if c = ',' then do
            let (v, rest) ← readValue fuel depth rest
            let (vs, rest) ← readItems fuel depth rest
            some (v :: vs, rest)
          else none

/-- A name, a colon and a value. -/
def readMember : Nat → Nat → List Char → Option ((String × Json (List Char)) × List Char)
  | 0, _, _ => none
  | fuel + 1, depth, cs =>
      if (cs.dropWhile isBlank).head? = some '"' then do
        let rest := (cs.dropWhile isBlank).tail
        let (k, rest) ← readChars rest.length rest
        if (rest.dropWhile isBlank).head? = some ':' then do
          let (v, rest) ← readValue fuel depth (rest.dropWhile isBlank).tail
          some ((.ofList k, v), rest)
        else none
      else none

def readMembers : Nat → Nat → List Char → Option (List (String × Json (List Char)) × List Char)
  | 0, _, _ => none
  | fuel + 1, depth, cs =>
      match cs.dropWhile isBlank with
      | [] => none
      | c :: rest =>
          if c = '}' then some ([], rest)
          else if c = ',' then do
            let (p, rest) ← readMember fuel depth rest
            let (ps, rest) ← readMembers fuel depth rest
            some (p :: ps, rest)
          else none

end

/-- The value a text begins with. -/
def read (depth : Nat) (cs : List Char) : Option (Json (List Char) × List Char) :=
  readValue (cs.length + 1) depth cs

end Reader

section RoundTrip

variable {v : Json (List Char)}

/-- What stands behind a value ends it: a number ends where no more of it follows. -/
def Ends (rest : List Char) : Json (List Char) → Prop
  | .num _ => ∀ c cs, rest = c :: cs → isNumberChar c = false
  | _ => True

theorem ends_of_cons {c : Char} (hc : isNumberChar c = false) (cs : List Char)
    (v : Json (List Char)) : Ends (c :: cs) v := by
  cases v with
  | num n =>
      rintro d ds heq
      rw [← (List.cons.inj heq).1]
      exact hc
  | _ => trivial

/-- The first character of a value is no blank and closes nothing. -/
theorem write_head (h : v.Proper IsToken) :
    ∃ c cs, v.write id = c :: cs ∧ isBlank c = false ∧ c ≠ ']' := by
  cases v with
  | null => exact ⟨'n', _, rfl, rfl, by decide⟩
  | bool b => cases b <;> exact ⟨_, _, rfl, rfl, by decide⟩
  | num n =>
      obtain ⟨_, c, cs, rfl, hc⟩ := h
      refine ⟨c, cs, rfl, ?_, ?_⟩
      · rcases hc with hc | rfl
        · unfold isBlank
          simp only [Bool.or_eq_false_iff, decide_eq_false_iff_not]
          refine ⟨⟨⟨?_, ?_⟩, ?_⟩, ?_⟩ <;> rintro rfl <;> cases hc
        · rfl
      · rintro rfl
        rcases hc with hc | hc <;> cases hc
  | str s => exact ⟨'"', _, rfl, rfl, by decide⟩
  | arr items => cases items <;> exact ⟨'[', _, rfl, rfl, by decide⟩
  | obj members => rcases members with _ | ⟨⟨k, v⟩, ms⟩ <;> exact ⟨'{', _, rfl, rfl, by decide⟩

theorem dropWhile_write (h : v.Proper IsToken) (rest : List Char) :
    (v.write id ++ rest).dropWhile isBlank = v.write id ++ rest := by
  obtain ⟨c, cs, heq, hblank, _⟩ := write_head h
  rw [heq, List.cons_append, List.dropWhile_cons_of_neg (by rw [hblank]; decide)]

theorem length_le_escaped (cs : List Char) : cs.length ≤ (cs.flatMap escapeChar).length := by
  induction cs with
  | nil => exact le_refl _
  | cons c cs ih =>
      have hone : 0 < (escapeChar c).length := List.length_pos_iff.mpr (escapeChar_ne_nil c)
      rw [List.flatMap_cons, List.length_append, List.length_cons]
      omega

theorem readChars_quoted (s : String) (rest : List Char) :
    readChars (s.toList.flatMap escapeChar ++ '"' :: rest).length
      (s.toList.flatMap escapeChar ++ '"' :: rest) = some (s.toList, rest) := by
  refine readChars_escaped s.toList rest ?_
  have hlength := length_le_escaped s.toList
  rw [List.length_append, List.length_cons]
  omega

theorem readValue_token {token : List Char} (h : IsToken token) {rest : List Char}
    (hends : Ends rest (.num token)) (fuel depth : Nat) :
    readValue (fuel + 1) depth (token ++ rest) = some (.num token, rest) := by
  have hproper : (Json.num token).Proper IsToken := h
  have hdrop : (token ++ rest).dropWhile isBlank = token ++ rest := dropWhile_write hproper rest
  obtain ⟨hchars, c, cs, rfl, hc⟩ := h
  unfold readValue
  rw [hdrop, List.cons_append]
  have hcs : ∀ d ∈ cs, isNumberChar d = true := fun d hd => hchars d (List.mem_cons_of_mem _ hd)
  have htake : rest.takeWhile isNumberChar = [] := by
    cases rest with
    | nil => rfl
    | cons d ds => exact List.takeWhile_cons_of_neg (by rw [hends d ds rfl]; decide)
  have hdropped : rest.dropWhile isNumberChar = rest := by
    cases rest with
    | nil => rfl
    | cons d ds => exact List.dropWhile_cons_of_neg (by rw [hends d ds rfl]; decide)
  have hne : ∀ d : Char, d.isDigit = false → d ≠ '-' → c ≠ d := by
    rintro d hdigit hminus rfl
    rcases hc with hc | hc
    · rw [hdigit] at hc
      cases hc
    · exact hminus hc
  dsimp only
  rw [if_neg (hne _ rfl (by decide)), if_neg (hne _ rfl (by decide)),
    if_neg (hne _ rfl (by decide)), if_pos (by simpa using hc),
    List.takeWhile_append_of_pos hcs, List.dropWhile_append_of_pos hcs, htake, hdropped,
    List.append_nil]

theorem readMember_quote (k : String) (fuel depth : Nat) (text : List Char) :
    readMember (fuel + 1) depth (quote k ++ ':' :: text) =
      (readValue fuel depth text).map fun p => ((k, p.1), p.2) := by
  have hread := readChars_quoted k (':' :: text)
  have hquote : quote k ++ ':' :: text =
      '"' :: (k.toList.flatMap escapeChar ++ '"' :: (':' :: text)) := by
    simp [quote]
  rw [hquote]
  unfold readMember
  rw [List.dropWhile_cons_of_neg (by decide), List.head?_cons, if_pos rfl, List.tail_cons]
  dsimp only
  rw [hread]
  simp only [Option.bind_eq_bind, Option.bind_some]
  rw [List.dropWhile_cons_of_neg (by decide), List.head?_cons, if_pos rfl, List.tail_cons,
    String.ofList_toList]
  cases readValue fuel depth text <;> rfl

/-- Two readings in a row, each of which goes through down to its own depth. -/
theorem bind_within {α β γ : Type} {m n depth : Nat} {x : α} {y : β} {text rest : List Char}
    (next : List Char → Option (β × List Char)) (f : α → β → γ)
    (hnext : next text = if n ≤ depth then some (y, rest) else none) :
    ((if m ≤ depth then some (x, text) else none).bind fun p => (next p.2).bind fun q =>
      some (f p.1 q.1, q.2)) = if max m n ≤ depth then some (f x y, rest) else none := by
  by_cases hm : m ≤ depth
  · rw [if_pos hm, Option.bind_some, hnext]
    by_cases hn : n ≤ depth
    · rw [if_pos hn, if_pos (Nat.max_le.mpr ⟨hm, hn⟩), Option.bind_some]
    · rw [if_neg hn, if_neg (fun h => hn (Nat.max_le.mp h).2), Option.bind_none]
  · rw [if_neg hm, if_neg (fun h => hm (Nat.max_le.mp h).1), Option.bind_none]

mutual

/-- What was written reads as the value that was written, if it is not nested too deep. -/
theorem readValue_write (v : Json (List Char)) (h : v.Proper IsToken) (fuel depth : Nat)
    (rest : List Char) (hfuel : (v.write id).length < fuel) (hends : Ends rest v) :
    readValue fuel depth (v.write id ++ rest) =
      if v.depth ≤ depth then some (v, rest) else none := by
  obtain ⟨fuel, rfl⟩ := Nat.exists_eq_add_one.mpr (Nat.zero_lt_of_lt hfuel)
  match v with
  | .null => rfl
  | .bool true => rfl
  | .bool false => rfl
  | .num n =>
      rw [if_pos (show (Json.num n).depth ≤ depth from Nat.zero_le _)]
      exact readValue_token h hends fuel depth
  | .str s =>
      have hquote : (Json.str s : Json (List Char)).write id ++ rest =
          '"' :: (s.toList.flatMap escapeChar ++ '"' :: rest) := by
        simp [write, quote]
      have hread := readChars_quoted s rest
      rw [hquote, if_pos (show (Json.str s : Json (List Char)).depth ≤ depth from Nat.zero_le _)]
      unfold readValue
      rw [List.dropWhile_cons_of_neg (by decide)]
      dsimp only
      rw [if_pos rfl, hread, Option.map_some, String.ofList_toList]
  | .arr [] => cases depth <;> rfl
  | .arr (x :: items) =>
      cases depth with
      | zero => rfl
      | succ depth =>
          simp only [write, List.length_append, List.length_cons] at hfuel
          obtain ⟨hx, hitems⟩ := h
          have hvalue := readValue_write x hx fuel depth (writeItems id items ++ rest)
            (by omega) (by cases items <;> exact ends_of_cons rfl _ _)
          have htail := readItems_write items hitems fuel depth rest (by omega)
          have harr : (Json.arr (x :: items)).write id ++ rest =
              '[' :: (x.write id ++ (writeItems id items ++ rest)) := by
            simp [write]
          obtain ⟨c, cs, hc, _, hclose⟩ := write_head hx
          rw [harr]
          unfold readValue
          rw [List.dropWhile_cons_of_neg (by decide)]
          dsimp only
          rw [if_neg (by decide), if_pos rfl, dropWhile_write hx, if_neg (by simp [hc, hclose]),
            hvalue]
          simp only [Json.depth, depthItems, Nat.add_le_add_iff_right]
          exact bind_within (readItems fuel depth) (fun x items => Json.arr (x :: items)) htail
  | .obj [] => cases depth <;> rfl
  | .obj ((k, x) :: members) =>
      cases depth with
      | zero => rfl
      | succ depth =>
          simp only [write, List.length_append, List.length_cons] at hfuel
          obtain ⟨_, hx, hmembers⟩ := h
          obtain ⟨fuel, rfl⟩ : ∃ f, fuel = f + 1 := Nat.exists_eq_add_one.mpr (by omega)
          have hvalue := readValue_write x hx fuel depth (writeMembers id members ++ rest)
            (by omega) (by cases members <;> exact ends_of_cons rfl _ _)
          have htail := readMembers_write members hmembers (fuel + 1) depth rest (by omega)
          have hobj : (Json.obj ((k, x) :: members)).write id ++ rest =
              '{' :: (quote k ++ ':' :: (x.write id ++ (writeMembers id members ++ rest))) := by
            simp [write]
          rw [hobj]
          unfold readValue
          rw [List.dropWhile_cons_of_neg (by decide)]
          dsimp only
          rw [if_neg (by decide), if_neg (by decide), if_pos rfl, if_neg (by simp [quote, isBlank]),
            readMember_quote, hvalue, apply_ite (Option.map _)]
          simp only [Json.depth, depthMembers, Nat.add_le_add_iff_right]
          exact bind_within (readMembers (fuel + 1) depth)
            (fun p members => Json.obj (p :: members)) htail

theorem readItems_write (items : List (Json (List Char))) (h : ProperItems IsToken items)
    (fuel depth : Nat) (rest : List Char) (hfuel : (writeItems id items).length < fuel) :
    readItems fuel depth (writeItems id items ++ rest) =
      if depthItems items ≤ depth then some (items, rest) else none := by
  obtain ⟨fuel, rfl⟩ := Nat.exists_eq_add_one.mpr (Nat.zero_lt_of_lt hfuel)
  match items with
  | [] => rfl
  | x :: items =>
      simp only [writeItems, List.length_append, List.length_cons] at hfuel
      obtain ⟨hx, hitems⟩ := h
      have hvalue := readValue_write x hx fuel depth (writeItems id items ++ rest)
        (by omega) (by cases items <;> exact ends_of_cons rfl _ _)
      have htail := readItems_write items hitems fuel depth rest (by omega)
      have hcomma : writeItems id (x :: items) ++ rest =
          ',' :: (x.write id ++ (writeItems id items ++ rest)) := by
        simp [writeItems]
      rw [hcomma]
      unfold readItems
      rw [List.dropWhile_cons_of_neg (by decide)]
      dsimp only
      rw [if_neg (by decide), if_pos rfl, hvalue, depthItems]
      exact bind_within (readItems fuel depth) List.cons htail

theorem readMembers_write (members : List (String × Json (List Char)))
    (h : ProperMembers IsToken members) (fuel depth : Nat) (rest : List Char)
    (hfuel : (writeMembers id members).length < fuel) :
    readMembers fuel depth (writeMembers id members ++ rest) =
      if depthMembers members ≤ depth then some (members, rest) else none := by
  obtain ⟨fuel, rfl⟩ := Nat.exists_eq_add_one.mpr (Nat.zero_lt_of_lt hfuel)
  match members with
  | [] => rfl
  | (k, x) :: members =>
      simp only [writeMembers, List.length_append, List.length_cons] at hfuel
      obtain ⟨hx, hmembers⟩ := h
      obtain ⟨fuel, rfl⟩ : ∃ f, fuel = f + 1 := Nat.exists_eq_add_one.mpr (by omega)
      have hvalue := readValue_write x hx fuel depth (writeMembers id members ++ rest)
        (by omega) (by cases members <;> exact ends_of_cons rfl _ _)
      have htail := readMembers_write members hmembers (fuel + 1) depth rest (by omega)
      have hcomma : writeMembers id ((k, x) :: members) ++ rest =
          ',' :: (quote k ++ ':' :: (x.write id ++ (writeMembers id members ++ rest))) := by
        simp [writeMembers]
      rw [hcomma]
      unfold readMembers
      rw [List.dropWhile_cons_of_neg (by decide)]
      dsimp only
      rw [if_neg (by decide), if_pos rfl, readMember_quote, hvalue, apply_ite (Option.map _),
        depthMembers]
      exact bind_within (readMembers (fuel + 1) depth) List.cons htail

end

/-- The reader gives back a written value and what stands behind it, and refuses one that
is nested too deep. -/
theorem read_write (v : Json (List Char)) (h : v.Proper IsToken) (depth : Nat) (rest : List Char)
    (hends : Ends rest v) :
    read depth (v.write id ++ rest) = if v.depth ≤ depth then some (v, rest) else none := by
  refine readValue_write v h _ depth rest ?_ hends
  rw [List.length_append]
  omega

end RoundTrip

section Controls

variable {ν : Type} {text : ν → List Char} {P : ν → Prop}

theorem escapeChar_visible (c : Char) : ∀ d ∈ escapeChar c, 32 ≤ d.toNat := by
  unfold escapeChar
  split
  · next e he =>
      have hshort : ∀ p ∈ shortEscapes, 32 ≤ p.2.toNat := by decide
      intro d hd
      rcases List.mem_pair.mp hd with rfl | rfl
      · decide
      · exact hshort _ (mem_of_lookup he)
  · split
    · have hhex : ∀ n < 16, 32 ≤ (hexDigit n).toNat := by decide
      intro d hd
      simp only [List.mem_cons, List.not_mem_nil, or_false] at hd
      rcases hd with rfl | rfl | rfl | rfl | rfl | rfl
      · decide
      · decide
      · decide
      · decide
      · exact hhex _ (by omega)
      · exact hhex _ (by omega)
    · intro d hd
      obtain rfl := List.mem_singleton.mp hd
      omega

theorem quote_visible (s : String) : ∀ d ∈ quote s, 32 ≤ d.toNat := by
  intro d hd
  simp only [quote, List.cons_append, List.mem_cons, List.mem_append, List.mem_flatMap,
    List.not_mem_nil, or_false] at hd
  rcases hd with rfl | ⟨c, _, hc⟩ | rfl
  · decide
  · exact escapeChar_visible c d hc
  · decide

mutual

/-- A written value has no control characters, line feeds among them. -/
theorem write_visible (hP : ∀ n, P n → ∀ d ∈ text n, 32 ≤ d.toNat)
    (v : Json ν) (h : v.Proper P) : ∀ d ∈ v.write text, 32 ≤ d.toNat := by
  match v with
  | .null | .bool true | .bool false | .arr [] | .obj [] => simp [write]
  | .num n => exact hP n h
  | .str s => exact quote_visible s
  | .arr (x :: items) =>
      intro d hd
      simp only [write, List.cons_append, List.mem_cons, List.mem_append] at hd
      rcases hd with rfl | hd | hd
      · decide
      · exact write_visible hP x h.1 d hd
      · exact writeItems_visible hP items h.2 d hd
  | .obj ((k, x) :: members) =>
      intro d hd
      simp only [write, List.cons_append, List.append_assoc, List.mem_cons, List.mem_append] at hd
      rcases hd with rfl | hd | rfl | hd | hd
      · decide
      · exact quote_visible k d hd
      · decide
      · exact write_visible hP x h.2.1 d hd
      · exact writeMembers_visible hP members h.2.2 d hd

theorem writeItems_visible (hP : ∀ n, P n → ∀ d ∈ text n, 32 ≤ d.toNat)
    (items : List (Json ν)) (h : ProperItems P items) :
    ∀ d ∈ writeItems text items, 32 ≤ d.toNat := by
  match items with
  | [] => simp [writeItems]
  | x :: items =>
      intro d hd
      simp only [writeItems, List.cons_append, List.mem_cons, List.mem_append] at hd
      rcases hd with rfl | hd | hd
      · decide
      · exact write_visible hP x h.1 d hd
      · exact writeItems_visible hP items h.2 d hd

theorem writeMembers_visible (hP : ∀ n, P n → ∀ d ∈ text n, 32 ≤ d.toNat)
    (members : List (String × Json ν)) (h : ProperMembers P members) :
    ∀ d ∈ writeMembers text members, 32 ≤ d.toNat := by
  match members with
  | [] => simp [writeMembers]
  | (k, x) :: members =>
      intro d hd
      simp only [writeMembers, List.cons_append, List.append_assoc, List.mem_cons,
        List.mem_append] at hd
      rcases hd with rfl | hd | rfl | hd | hd
      · decide
      · exact quote_visible k d hd
      · decide
      · exact write_visible hP x h.1 d hd
      · exact writeMembers_visible hP members h.2 d hd

end

end Controls

end Json

end TimeLake.Library
