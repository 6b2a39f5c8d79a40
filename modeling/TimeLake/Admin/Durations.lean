import TimeLake.Admin.Retention
import TimeLake.Ingest.RoundTrip

/-!
The grammar of a retention window has two readers: `parse_duration_secs` behind the
admin surface and `parse_retention` behind the environment. They read a duration alike
unless it is spelled in a way that one of them does not know (`m`, `s`, a blank before
the unit) or its seconds are none or more than 64 bits hold. What `humanize_secs` shows
is read back by the first of them.
-/

namespace TimeLake.Admin

open TimeLake.Cluster
open TimeLake.Ingest
open TimeLake.Library

/-- `humanize_secs`: the largest unit that divides the seconds. -/
def humanizeSecs (secs : Nat) : String :=
  if secs % 86400 = 0 then String.ofList (padNat 0 (secs / 86400) ++ ['d'])
  else if secs % 3600 = 0 then String.ofList (padNat 0 (secs / 3600) ++ ['h'])
  else if secs % 60 = 0 then String.ofList (padNat 0 (secs / 60) ++ ['m'])
  else String.ofList (padNat 0 secs ++ ['s'])

/-- The database and the table that a scope names. -/
def namedScope (scope : List Char) : String × String :=
  match splitOnce '.' (trim scope) with
  | some (db, table) => (String.ofList (trim db), String.ofList (trim table))
  | none => (retentionAnyDb, String.ofList (trim scope))

/-- The policy of a part `scope=dur` whose window is the one the admin surface reads. -/
def adminPolicy (part : List Char) : Option RetentionPolicy :=
  (splitOnce '=' (trim part)).bind fun p =>
    (parseDurationSecs (String.ofList p.2)).map fun seconds =>
      ⟨(namedScope p.1).1, (namedScope p.1).2, seconds⟩

/-- Each part of a `TIMELAKE_RETENTION` string gives the policy that the admin surface
would read from it, or none where it would read none. -/
def Honoured (spec : String) : Prop :=
  ∀ part ∈ spec.toList.splitOn ',', parsePolicy part = adminPolicy part

/-- A window that a retention may have. -/
def IsWindow (seconds : Nat) : Prop := 0 < seconds ∧ seconds < 2 ^ 64

/-- A number in front of a unit that both readers know: its window is one, and if there
are blanks between the two it is none. -/
def UnitAlike (num : List Char) (unit : Nat) : Prop :=
  (∀ n, parseU64 num = some n → IsWindow (n * unit)) ∧
    ∀ n, trim num ≠ num → parseU64 (trim num) = some n → ¬ IsWindow (n * unit)

/-- A number in front of a unit that the environment does not know. -/
def UnitUnread (num : List Char) (unit : Nat) : Prop :=
  ∀ n, parseU64 (trim num) = some n → ¬ IsWindow (n * unit)

/-- A duration that both readers take alike. -/
def SpelledAlike (dur : List Char) : Prop :=
  match (trim dur).getLast? with
  | some 'd' => UnitAlike (trim dur).dropLast 86400
  | some 'h' => UnitAlike (trim dur).dropLast 3600
  | some 'm' => UnitUnread (trim dur).dropLast 60
  | some 's' => UnitUnread (trim dur).dropLast 1
  | _ => ∀ n, parseU64 (trim dur) = some n → IsWindow n

section Windows

/-- The number and the unit that the environment finds in a duration. -/
def envUnit (dur : List Char) : List Char × Nat :=
  match dur.getLast? with
  | some 'd' => (dur.dropLast, 86400)
  | some 'h' => (dur.dropLast, 3600)
  | _ => (dur, 1)

/-- What the environment makes of a number and a unit. -/
def wrappedWindow (num : List Char) (unit : Nat) : Option Nat :=
  (parseU64 num).map fun n => n * unit % 2 ^ 64

/-- What the environment makes of a duration. -/
def envWindow (dur : List Char) : Option Nat :=
  wrappedWindow (envUnit (trim dur)).1 (envUnit (trim dur)).2

/-- The number and the unit that the admin surface finds in a duration. -/
def adminUnit (dur : List Char) (last : Char) : List Char × Nat :=
  match last with
  | 'd' => (dur.dropLast, 86400)
  | 'h' => (dur.dropLast, 3600)
  | 'm' => (dur.dropLast, 60)
  | 's' => (dur.dropLast, 1)
  | _ => (dur, 1)

/-- What the admin surface makes of a number and a unit. -/
def checkedWindow (num : List Char) (unit : Nat) : Option Nat :=
  (parseU64 (trim num)).bind fun n =>
    if n * unit < 2 ^ 64 ∧ 0 < n * unit then some (n * unit) else none

theorem checkedWindow_eq_none {num : List Char} {unit : Nat} :
    checkedWindow num unit = none ↔ UnitUnread num unit := by
  unfold checkedWindow UnitUnread IsWindow
  cases parseU64 (trim num) with
  | none => simp
  | some n =>
      simp only [Option.bind_some, Option.some.injEq, forall_eq']
      split
      · next h => simpa only [reduceCtorEq, false_iff, not_not] using And.symm h
      · next h => simpa only [true_iff, and_comm] using h

theorem parsePolicy_eq (part : List Char) :
    parsePolicy part = (splitOnce '=' (trim part)).bind fun p =>
      (envWindow p.2).map fun seconds =>
        ⟨(namedScope p.1).1, (namedScope p.1).2, seconds⟩ := by
  unfold parsePolicy
  cases splitOnce '=' (trim part) with
  | none => rfl
  | some p =>
      obtain ⟨scope, dur⟩ := p
      simp only [Option.bind_eq_bind, Option.bind_some, envWindow, wrappedWindow,
        Option.map_eq_bind, Option.bind_assoc]
      rfl

theorem parseDurationSecs_eq (dur : List Char) :
    parseDurationSecs (String.ofList dur) = (trim dur).getLast?.bind fun last =>
      checkedWindow (adminUnit (trim dur) last).1 (adminUnit (trim dur) last).2 := by
  unfold parseDurationSecs
  rw [String.toList_ofList]
  rfl

/-- `trim` leaves no blanks at the ends. -/
theorem trim_trim (text : List Char) : trim (trim text) = trim text := by
  have hhead : (trim text).dropWhile isWhiteSpace = trim text := by
    rw [List.dropWhile_eq_self_iff]
    intro hpos
    have hprefix : trim text <+: text.dropWhile isWhiteSpace := List.rdropWhile_prefix _ _
    have hget := hprefix.getElem hpos
    rw [hget]
    exact List.dropWhile_get_zero_not _ _ _
  unfold trim at hhead ⊢
  rw [hhead, List.rdropWhile_idempotent]

theorem parseU64_chars {text : List Char} {n : Nat} (h : parseU64 text = some n) :
    ∀ c ∈ text, c = '+' ∨ c.isDigit = true := by
  have hdigits : ∀ ds : List Char, ((parseDigits ds).bind fun n =>
      if n < 2 ^ 64 then some n else none) = some n → ∀ c ∈ ds, c.isDigit = true := by
    intro ds hds
    obtain ⟨m, hm, _⟩ := Option.bind_eq_some_iff.mp hds
    unfold parseDigits at hm
    split at hm
    · next hall => exact List.all_eq_true.mp hall.2
    · cases hm
  unfold parseU64 at h
  dsimp only at h
  split at h
  · next ds =>
      intro c hc
      rcases List.mem_cons.mp hc with rfl | hc
      · exact .inl rfl
      · exact .inr (hdigits ds h c hc)
  · exact fun c hc => .inr (hdigits _ h c hc)

theorem trim_of_parseU64 {text : List Char} {n : Nat} (h : parseU64 text = some n) :
    trim text = text := by
  apply trim_number
  intro c hc
  rcases parseU64_chars h c hc with rfl | hdigit
  · decide
  · exact isWhiteSpace_number (.inr hdigit)

/-- A number with a unit that both readers know. -/
theorem wrapped_eq_checked {num : List Char} {unit : Nat} :
    wrappedWindow num unit = checkedWindow num unit ↔ UnitAlike num unit := by
  by_cases htrim : trim num = num
  · rw [wrappedWindow, checkedWindow, htrim, UnitAlike]
    cases parseU64 num with
    | none => simp [htrim]
    | some n =>
        simp only [Option.map_some, Option.bind_some, Option.some.injEq, forall_eq', htrim, ne_eq,
          not_true_eq_false, false_implies, implies_true, and_true, IsWindow]
        split
        · next h => simp only [Nat.mod_eq_of_lt h.1, h.1, h.2, and_self]
        · next h => simpa only [reduceCtorEq, false_iff, and_comm] using h
  · have hnone : parseU64 num = none := by
      cases hparse : parseU64 num with
      | none => rfl
      | some n => exact absurd (trim_of_parseU64 hparse) htrim
    rw [wrappedWindow, hnone, Option.map_none, eq_comm, checkedWindow_eq_none, UnitAlike, hnone]
    simp [UnitUnread, htrim]

/-- A number with a unit that only the admin surface knows. -/
theorem wrapped_of_letter {text : List Char} {c : Char} (hc : c ∈ text) (hplus : c ≠ '+')
    (hdigit : c.isDigit = false) (unit : Nat) : wrappedWindow text unit = none := by
  cases hparse : parseU64 text with
  | none => rw [wrappedWindow, hparse, Option.map_none]
  | some n =>
      rcases parseU64_chars hparse c hc with rfl | h
      · exact absurd rfl hplus
      · rw [hdigit] at h
        cases h

theorem envWindow_eq_iff (dur : List Char) :
    envWindow dur = parseDurationSecs (String.ofList dur) ↔ SpelledAlike dur := by
  rw [parseDurationSecs_eq, envWindow, SpelledAlike]
  cases hlast : (trim dur).getLast? with
  | none =>
      have hnil : trim dur = [] := List.getLast?_eq_none_iff.mp hlast
      rw [hnil]
      simp [envUnit, wrappedWindow, parseU64, parseDigits]
  | some last =>
      have hmem : last ∈ trim dur := List.mem_of_getLast? hlast
      rw [Option.bind_some]
      by_cases hd : last = 'd'
      · subst hd
        simp only [envUnit, hlast, adminUnit]
        exact wrapped_eq_checked
      · by_cases hh : last = 'h'
        · subst hh
          simp only [envUnit, hlast, adminUnit]
          exact wrapped_eq_checked
        · have henv : envUnit (trim dur) = (trim dur, 1) := by
            simp [envUnit, hlast, hd, hh]
          rw [henv]
          by_cases hm : last = 'm'
          · subst hm
            simp only [adminUnit]
            rw [wrapped_of_letter hmem (by decide) (by decide), eq_comm, checkedWindow_eq_none]
          · by_cases hs : last = 's'
            · subst hs
              simp only [adminUnit]
              rw [wrapped_of_letter hmem (by decide) (by decide), eq_comm, checkedWindow_eq_none]
            · have hadmin : adminUnit (trim dur) last = (trim dur, 1) := by
                unfold adminUnit
                split <;> first | contradiction | rfl
              rw [hadmin, wrapped_eq_checked, UnitAlike, trim_trim]
              simp [hd, hh, hm, hs]

/-- A part of the string is read by both readers alike when its duration is. -/
theorem parsePolicy_eq_iff (part : List Char) :
    parsePolicy part = adminPolicy part ↔
      ∀ scope dur, splitOnce '=' (trim part) = some (scope, dur) → SpelledAlike dur := by
  rw [parsePolicy_eq, adminPolicy]
  cases splitOnce '=' (trim part) with
  | none => simp
  | some p =>
      obtain ⟨scope, dur⟩ := p
      have hinj : Function.Injective fun seconds =>
          (⟨(namedScope scope).1, (namedScope scope).2, seconds⟩ : RetentionPolicy) := by
        intro a b h
        exact congrArg RetentionPolicy.seconds h
      rw [Option.bind_some, Option.bind_some, (Option.map_injective hinj).eq_iff,
        envWindow_eq_iff]
      constructor
      · rintro h _ _ heq
        obtain ⟨_, rfl⟩ := Prod.mk.inj (Option.some.inj heq)
        exact h
      · exact fun h => h scope dur rfl

end Windows

section Humanize

theorem isWhiteSpace_padNat {n : Nat} {c : Char} (h : c ∈ padNat 0 n) : isWhiteSpace c = false :=
  isWhiteSpace_number (.inr (padNat_isDigit h))

/-- A number and a unit that it is written with. -/
theorem parse_numbered {q unit : Nat} {u : Char} (hu : isWhiteSpace u = false)
    (hunit : adminUnit (padNat 0 q ++ [u]) u = (padNat 0 q, unit)) (hone : 0 < unit)
    (hw : IsWindow (q * unit)) :
    parseDurationSecs (String.ofList (padNat 0 q ++ [u])) = some (q * unit) := by
  have htext : trim (padNat 0 q ++ [u]) = padNat 0 q ++ [u] := by
    apply trim_number
    intro c hc
    rcases List.mem_append.mp hc with hc | hc
    · exact isWhiteSpace_padNat hc
    · obtain rfl := List.mem_singleton.mp hc
      exact hu
  have hnum : trim (padNat 0 q) = padNat 0 q := trim_number fun c hc => isWhiteSpace_padNat hc
  have hq : q < 2 ^ 64 := lt_of_le_of_lt (Nat.le_mul_of_pos_right q hone) hw.2
  rw [parseDurationSecs_eq, htext, List.getLast?_concat, Option.bind_some, hunit, checkedWindow,
    hnum, parseU64_padNat hq, Option.bind_some, if_pos ⟨hw.2, hw.1⟩]

theorem parse_humanizeSecs {n : Nat} (hw : IsWindow n) :
    parseDurationSecs (humanizeSecs n) = some n := by
  have hexact : ∀ {unit : Nat} {u : Char}, n % unit = 0 → isWhiteSpace u = false →
      adminUnit (padNat 0 (n / unit) ++ [u]) u = (padNat 0 (n / unit), unit) → 0 < unit →
        parseDurationSecs (String.ofList (padNat 0 (n / unit) ++ [u])) = some n := by
    intro unit u hmod hu hunit hone
    have hmul : n / unit * unit = n := Nat.div_mul_cancel (Nat.dvd_of_mod_eq_zero hmod)
    rw [parse_numbered hu hunit hone (hmul.symm ▸ hw), hmul]
  unfold humanizeSecs
  split
  · next hday => exact hexact hday (by decide) (by simp [adminUnit]) (by decide)
  · split
    · next hhour => exact hexact hhour (by decide) (by simp [adminUnit]) (by decide)
    · split
      · next hminute => exact hexact hminute (by decide) (by simp [adminUnit]) (by decide)
      · have hone := @parse_numbered n 1 's' (by decide) (by simp [adminUnit]) (by decide)
          (by rwa [Nat.mul_one])
        rwa [Nat.mul_one] at hone

end Humanize

/-- The environment honours the windows of the admin surface exactly in the strings whose
durations are spelled alike, and what is shown of a window is read back. -/
theorem retention_grammar_iff (spec : String) :
    (Honoured spec ↔ ∀ part ∈ spec.toList.splitOn ',', ∀ scope dur,
      splitOnce '=' (trim part) = some (scope, dur) → SpelledAlike dur) ∧
    ∀ n, 0 < n → n < 2 ^ 64 → parseDurationSecs (humanizeSecs n) = some n := by
  refine ⟨?_, fun n hpos hlt => parse_humanizeSecs ⟨hpos, hlt⟩⟩
  exact forall₂_congr fun part _ => parsePolicy_eq_iff part

theorem ninety_minutes_shown :
    0 < 5400 ∧ 5400 < 2 ^ 64 ∧ humanizeSecs 5400 = "90m" ∧
      parseDurationSecs (humanizeSecs 5400) = some 5400 :=
  ⟨by decide, by decide, by decide +kernel,
    (retention_grammar_iff "poc.metrics=90m").2 5400 (by decide) (by decide)⟩

/-- The admin surface takes ninety minutes, the environment drops the policy. -/
theorem minutes_dropped : ¬ ∀ spec : String, Honoured spec := by
  intro hall
  have hpart := hall "_system.metrics=90m" "_system.metrics=90m".toList (by decide +kernel)
  have hread : adminPolicy "_system.metrics=90m".toList =
      some ⟨"_system", "metrics", 5400⟩ := by decide +kernel
  have hdropped : parsePolicy "_system.metrics=90m".toList = none := by decide +kernel
  rw [hread, hdropped] at hpart
  cases hpart

end TimeLake.Admin
