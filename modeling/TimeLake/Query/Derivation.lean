import TimeLake.Query.Grammar
import Mathlib.Data.List.TakeWhile

/-!
The reader of `Grammar` reads a label exactly when the grammar derives it. What
it reads is derived, by induction on the fuel; what is derived is read, by
induction on the derivation, with fuel for two calls at every character.
-/

namespace TimeLake.Query

open TimeLake.Library

section Quoted

theorem readQuoted_sound {acc cs text rest : List Char}
    (h : readQuoted acc cs = some (text, rest)) :
    ∃ body inner, cs = body ++ '"' :: rest ∧ Quotes body inner ∧ text = acc ++ inner := by
  induction acc, cs using readQuoted.induct with
  | case1 acc => cases h
  | case2 acc behind =>
      rw [readQuoted] at h
      obtain ⟨rfl, rfl⟩ := Prod.mk.inj (Option.some.inj h)
      exact ⟨[], [], rfl, .nil, (List.append_nil _).symm⟩
  | case3 acc c behind hc ih =>
      rw [readQuoted, if_pos hc] at h
      obtain ⟨body, inner, rfl, hquotes, rfl⟩ := ih h
      refine ⟨'\\' :: c :: body, c :: inner, rfl, .escaped (by simpa using hc) hquotes, ?_⟩
      rw [List.append_assoc, List.singleton_append]
  | case4 acc c behind hc =>
      rw [readQuoted, if_neg hc] at h
      cases h
  | case5 acc => cases h
  | case6 acc c behind hquote hslash hlast ih =>
      have hslash' : c ≠ '\\' := by
        intro heq
        cases behind with
        | nil => exact hlast heq rfl
        | cons d behind => exact hslash d behind heq rfl
      rw [readQuoted] at h
      · obtain ⟨body, inner, rfl, hquotes, rfl⟩ := ih h
        refine ⟨c :: body, c :: inner, rfl, .plain hquote hslash' hquotes, ?_⟩
        rw [List.append_assoc, List.singleton_append]
      · exact hquote
      · exact hslash
      · exact hlast

theorem readQuoted_complete {body inner : List Char} (h : Quotes body inner)
    (acc rest : List Char) : readQuoted acc (body ++ '"' :: rest) = some (acc ++ inner, rest) := by
  induction h generalizing acc with
  | nil => rw [List.nil_append, readQuoted, List.append_nil]
  | @plain c cs text hquote hslash _ ih =>
      rw [List.cons_append, readQuoted, ih, List.append_assoc, List.singleton_append]
      · exact hquote
      · exact fun _ _ heq _ => hslash heq
      · exact fun heq _ => hslash heq
  | @escaped c cs text hc _ ih =>
      rw [List.cons_append, List.cons_append, readQuoted, if_pos (by simpa using hc), ih,
        List.append_assoc, List.singleton_append]

end Quoted

section Sound

theorem blanks_takeWhile (cs : List Char) : Blanks (cs.takeWhile isBlank) :=
  fun _ hc => List.mem_takeWhile_imp hc

/-- What has been read of a chain: a term so far, or terms joined by one kind of
operator. -/
def ReadSoFar : Option LabelOp → List Char → LabelExpr → Prop
  | none => Derives .term
  | some op => Derives (.chain op)

theorem ReadSoFar.level {op : Option LabelOp} {body : List Char} {x : LabelExpr}
    (h : ReadSoFar op body x) : Derives .level body x := by
  cases op with
  | none => exact .single h
  | some op => exact .joined h

theorem ReadSoFar.join {op : Option LabelOp} {o : LabelOp} {pre ws body : List Char}
    {x y : LabelExpr} (h : ReadSoFar op pre x) (hop : ¬op.any (· ≠ o) = true) (hws : Blanks ws)
    (hterm : Derives .term body y) :
    ReadSoFar (some o) (pre ++ (ws ++ o.char :: body)) (.join o x y) := by
  cases op with
  | none => exact .two h hws hterm
  | some prev =>
      obtain rfl : prev = o := by simpa using hop
      exact .more h hws hterm

theorem readTerm_sound {fuel : Nat} {cs rest : List Char} {x : LabelExpr}
    (hlevel : ∀ cs x rest, readLevel fuel cs = some (x, rest) →
      ∃ body ws, cs = body ++ (ws ++ rest) ∧ Derives .level body x ∧ Blanks ws)
    (h : readTerm (fuel + 1) cs = some (x, rest)) :
    ∃ body, cs = body ++ rest ∧ Derives .term body x := by
  have hsplit : cs.takeWhile isBlank ++ cs.dropWhile isBlank = cs := List.takeWhile_append_dropWhile
  have hws := blanks_takeWhile cs
  generalize cs.takeWhile isBlank = ws at hsplit hws
  by_cases hparen : ∃ behind, cs.dropWhile isBlank = '(' :: behind
  · obtain ⟨behind, hskip⟩ := hparen
    rw [readTerm, hskip] at h
    simp only at h
    cases hread : readLevel fuel behind with
    | none =>
        rw [hread] at h
        cases h
    | some p =>
        obtain ⟨y, after⟩ := p
        rw [hread] at h
        simp only at h
        obtain ⟨inner, ws', rfl, hinner, hws'⟩ := hlevel _ _ _ hread
        split at h
        · next closed hclosed =>
            obtain ⟨rfl, rfl⟩ := Prod.mk.inj (Option.some.inj h)
            have hafter : after.takeWhile isBlank ++ ')' :: closed = after := by
              rw [← hclosed]
              exact List.takeWhile_append_dropWhile
            have hblanks := blanks_takeWhile after
            generalize after.takeWhile isBlank = blanks at hafter hblanks
            have hws'' : Blanks (ws' ++ blanks) :=
              fun c hc => (List.mem_append.mp hc).elim (hws' c) (hblanks c)
            refine ⟨_, ?_, .paren hws hinner hws''⟩
            rw [← hsplit, hskip, ← hafter]
            simp
        · cases h
  · by_cases hquote : ∃ behind, cs.dropWhile isBlank = '"' :: behind
    · obtain ⟨behind, hskip⟩ := hquote
      rw [readTerm, hskip] at h
      simp only at h
      cases hread : readQuoted [] behind with
      | none =>
          rw [hread] at h
          cases h
      | some p =>
          obtain ⟨text, after⟩ := p
          obtain ⟨body, inner, rfl, hquotes, htext⟩ := readQuoted_sound hread
          rw [List.nil_append] at htext
          subst htext
          rw [hread] at h
          cases text with
          | nil => cases h
          | cons c text =>
              obtain ⟨rfl, rfl⟩ := Prod.mk.inj (Option.some.inj h)
              refine ⟨_, ?_, .quoted hws hquotes (List.cons_ne_nil _ _)⟩
              rw [← hsplit, hskip]
              simp
    · rw [readTerm_token rfl (fun tail h => hparen ⟨tail, h⟩) fun tail h => hquote ⟨tail, h⟩] at h
      split at h
      · cases h
      · next hne =>
          obtain ⟨rfl, rfl⟩ := Prod.mk.inj (Option.some.inj h)
          refine ⟨_, ?_, .token hws hne fun c hc => List.mem_takeWhile_imp hc⟩
          rw [List.append_assoc, List.takeWhile_append_dropWhile, hsplit]

theorem reader_sound (fuel : Nat) :
    (∀ cs x rest, readTerm fuel cs = some (x, rest) →
      ∃ body, cs = body ++ rest ∧ Derives .term body x) ∧
    (∀ cs x rest, readLevel fuel cs = some (x, rest) →
      ∃ body ws, cs = body ++ (ws ++ rest) ∧ Derives .level body x ∧ Blanks ws) ∧
    ∀ op pre x cs y rest, ReadSoFar op pre x → readChain fuel op x cs = some (y, rest) →
      ∃ body ws, cs = body ++ (ws ++ rest) ∧ Derives .level (pre ++ body) y ∧ Blanks ws := by
  induction fuel with
  | zero => exact ⟨fun _ _ _ h => (by cases h), fun _ _ _ h => (by cases h),
      fun _ _ _ _ _ _ _ h => (by cases h)⟩
  | succ fuel ih =>
      obtain ⟨hterm, hlevel, hchain⟩ := ih
      refine ⟨fun cs x rest h => readTerm_sound hlevel h, ?_, ?_⟩
      · intro cs x rest h
        rw [readLevel] at h
        cases hread : readTerm fuel cs with
        | none =>
            rw [hread] at h
            cases h
        | some p =>
            obtain ⟨y, after⟩ := p
            rw [hread] at h
            obtain ⟨first, rfl, hfirst⟩ := hterm _ _ _ hread
            obtain ⟨body, ws, rfl, hbody, hws⟩ := hchain none first y after x rest hfirst h
            exact ⟨first ++ body, ws, by simp, hbody, hws⟩
      · intro op pre x cs y rest hpre h
        have hsplit : cs.takeWhile isBlank ++ cs.dropWhile isBlank = cs :=
          List.takeWhile_append_dropWhile
        have hws := blanks_takeWhile cs
        generalize cs.takeWhile isBlank = ws at hsplit hws
        rw [readChain] at h
        split at h
        · next hnil =>
            obtain ⟨rfl, rfl⟩ := Prod.mk.inj (Option.some.inj h)
            refine ⟨[], ws, ?_, by rw [List.append_nil]; exact hpre.level, hws⟩
            rw [← hsplit, hnil, List.nil_append]
        · next c behind hskip =>
            split at h
            · next hop =>
                obtain ⟨rfl, rfl⟩ := Prod.mk.inj (Option.some.inj h)
                refine ⟨[], ws, ?_, by rw [List.append_nil]; exact hpre.level, hws⟩
                rw [← hsplit, hskip, List.nil_append]
            · next o hop =>
                obtain rfl := char_of_opOf hop
                split at h
                · cases h
                · next hsame =>
                    cases hread : readTerm fuel behind with
                    | none =>
                        rw [hread] at h
                        cases h
                    | some p =>
                        obtain ⟨z, after⟩ := p
                        rw [hread] at h
                        obtain ⟨next, rfl, hnext⟩ := hterm _ _ _ hread
                        obtain ⟨body, ws', rfl, hbody, hws'⟩ :=
                          hchain (some o) _ _ after y rest (hpre.join hsame hws hnext) h
                        refine ⟨ws ++ o.char :: (next ++ body), ws', ?_, ?_, hws'⟩
                        · rw [← hsplit, hskip]
                          simp
                        · simpa using hbody

end Sound

section Complete

/-- What may follow a term: not a character of a token. -/
def Follows (rest : List Char) : Prop := ∀ c tail, rest = c :: tail → isTokenChar c = false

/-- What may follow a level: not an operator, after blanks. -/
def Ends (rest : List Char) : Prop := ∀ c tail, rest.dropWhile isBlank = c :: tail → opOf c = none

theorem not_blank_of_token {c : Char} (h : isTokenChar c = true) : isBlank c = false := by
  by_contra hblank
  rw [Bool.not_eq_false] at hblank
  simp only [isBlank, Bool.or_eq_true, decide_eq_true_eq] at hblank
  rcases hblank with (((rfl | rfl) | rfl) | rfl) | rfl <;> revert h <;> decide

theorem follows_of_blank {c : Char} {tail : List Char} (h : isBlank c = true) :
    Follows (c :: tail) := by
  rintro d tail' heq
  obtain ⟨rfl, rfl⟩ := List.cons.inj heq
  cases hd : isTokenChar c with
  | false => rfl
  | true =>
      rw [not_blank_of_token hd] at h
      cases h

theorem follows_blanks {ws : List Char} (hws : Blanks ws) {rest : List Char} (h : Follows rest) :
    Follows (ws ++ rest) := by
  cases ws with
  | nil => exact h
  | cons c ws => exact follows_of_blank (hws c List.mem_cons_self)

theorem dropWhile_blanks {ws : List Char} (hws : Blanks ws) (rest : List Char) :
    (ws ++ rest).dropWhile isBlank = rest.dropWhile isBlank := by
  induction ws with
  | nil => rfl
  | cons c ws ih =>
      rw [List.cons_append, List.dropWhile_cons_of_pos (hws c List.mem_cons_self),
        ih fun d hd => hws d (List.mem_cons_of_mem _ hd)]

theorem derives_ne_nil {part : LabelPart} {body : List Char} {x : LabelExpr}
    (h : Derives part body x) : 0 < body.length := by
  induction h with
  | token _ hne _ =>
      have := List.length_pos_of_ne_nil hne
      rw [List.length_append]
      omega
  | quoted | paren | two | more =>
      simp only [List.length_append, List.length_cons]
      omega
  | single _ ih | joined _ ih => exact ih

/-- A token in front of what may follow it. -/
theorem span_token {text rest : List Char} (htext : ∀ c ∈ text, isTokenChar c = true)
    (hrest : Follows rest) :
    (text ++ rest).takeWhile isTokenChar = text ∧ (text ++ rest).dropWhile isTokenChar = rest := by
  induction text with
  | nil =>
      cases rest with
      | nil => exact ⟨rfl, rfl⟩
      | cons c tail =>
          have hc := hrest c tail rfl
          exact ⟨List.takeWhile_cons_of_neg (by simp [hc]),
            List.dropWhile_cons_of_neg (by simp [hc])⟩
  | cons c text ih =>
      have hc := htext c List.mem_cons_self
      obtain ⟨htake, hdrop⟩ := ih fun d hd => htext d (List.mem_cons_of_mem _ hd)
      rw [List.cons_append, List.takeWhile_cons_of_pos hc, List.dropWhile_cons_of_pos hc, htake,
        hdrop]
      exact ⟨rfl, rfl⟩

/-- What the reader does with a part in front of what may follow it. Reading `k`
terms of a chain takes `k` of the fuel. -/
def Reads : LabelPart → List Char → LabelExpr → Prop
  | .term, body, x => ∀ rest fuel, Follows rest → 2 * body.length ≤ fuel →
      readTerm fuel (body ++ rest) = some (x, rest)
  | .chain op, body, x => ∃ k, 2 * k ≤ body.length + 1 ∧
      ∀ rest fuel, Follows rest → 2 * body.length + 1 ≤ fuel →
        readLevel fuel (body ++ rest) = readChain (fuel - k) (some op) x rest
  | .level, body, x => ∀ rest fuel, Follows rest → Ends rest → 2 * body.length + 1 ≤ fuel →
      readLevel fuel (body ++ rest) = some (x, rest.dropWhile isBlank)

theorem readChain_end {fuel : Nat} {op : Option LabelOp} {x : LabelExpr} {rest : List Char}
    (hends : Ends rest) : readChain (fuel + 1) op x rest = some (x, rest.dropWhile isBlank) := by
  rw [readChain]
  cases hrest : rest.dropWhile isBlank with
  | nil => rfl
  | cons c tail => simp only [hends c tail hrest]

theorem readChain_next {fuel : Nat} {prev : Option LabelOp} {op : LabelOp} {x y : LabelExpr}
    {ws body rest : List Char} (hws : Blanks ws) (hop : ¬prev.any (· ≠ op) = true)
    (hterm : readTerm fuel (body ++ rest) = some (y, rest)) :
    readChain (fuel + 1) prev x (ws ++ op.char :: (body ++ rest)) =
      readChain fuel (some op) (.join op x y) rest := by
  have hblank : isBlank op.char = false := by cases op <;> rfl
  rw [readChain, dropWhile_blanks hws, List.dropWhile_cons_of_neg (by simp [hblank])]
  simp only [opOf_char, if_neg hop, hterm]

theorem reads_token {ws text : List Char} (hws : Blanks ws) (hne : text ≠ [])
    (htext : ∀ c ∈ text, isTokenChar c = true) : Reads .term (ws ++ text) (.token text) := by
  intro rest fuel hrest hfuel
  have hpos := List.length_pos_of_ne_nil hne
  obtain ⟨fuel, rfl⟩ : ∃ n, fuel = n + 1 := ⟨fuel - 1, by
    rw [List.length_append] at hfuel
    omega⟩
  obtain ⟨htake, hdrop⟩ := span_token htext hrest
  have hskip : (ws ++ text ++ rest).dropWhile isBlank = text ++ rest := by
    rw [List.append_assoc, dropWhile_blanks hws]
    cases text with
    | nil => exact absurd rfl hne
    | cons c text =>
        rw [List.cons_append, List.dropWhile_cons_of_neg]
        simp [not_blank_of_token (htext c List.mem_cons_self)]
  have hhead : ∀ k, isTokenChar k = false → ∀ tail, text ++ rest ≠ k :: tail := by
    intro k hk tail heq
    cases text with
    | nil => exact hne rfl
    | cons c text =>
        obtain ⟨rfl, _⟩ := List.cons.inj heq
        rw [htext c List.mem_cons_self] at hk
        cases hk
  rw [readTerm_token hskip (hhead '(' (by decide)) (hhead '"' (by decide)), htake, hdrop,
    if_neg hne]

theorem reads_quoted {ws body text : List Char} (hws : Blanks ws) (hquotes : Quotes body text)
    (hne : text ≠ []) : Reads .term (ws ++ '"' :: (body ++ ['"'])) (.token text) := by
  intro rest fuel hrest hfuel
  obtain ⟨fuel, rfl⟩ : ∃ n, fuel = n + 1 := ⟨fuel - 1, by
    simp only [List.length_append, List.length_cons] at hfuel
    omega⟩
  have hskip : (ws ++ '"' :: (body ++ ['"']) ++ rest).dropWhile isBlank =
      '"' :: (body ++ '"' :: rest) := by
    rw [List.append_assoc, dropWhile_blanks hws, List.cons_append, List.append_assoc,
      List.dropWhile_cons_of_neg (by decide)]
    rfl
  rw [readTerm, hskip]
  simp only [readQuoted_complete hquotes, List.nil_append]

theorem reads_paren {ws inner ws' : List Char} {x : LabelExpr} (hws : Blanks ws)
    (hinner : Reads .level inner x) (hws' : Blanks ws') :
    Reads .term (ws ++ '(' :: (inner ++ (ws' ++ [')']))) x := by
  intro rest fuel hrest hfuel
  obtain ⟨fuel, rfl⟩ : ∃ n, fuel = n + 1 := ⟨fuel - 1, by
    simp only [List.length_append, List.length_cons] at hfuel
    omega⟩
  have hskip : (ws ++ '(' :: (inner ++ (ws' ++ [')'])) ++ rest).dropWhile isBlank =
      '(' :: (inner ++ (ws' ++ ')' :: rest)) := by
    rw [List.append_assoc, dropWhile_blanks hws, List.cons_append, List.append_assoc,
      List.append_assoc, List.dropWhile_cons_of_neg (by decide)]
    rfl
  have hparen : (')' :: rest).dropWhile isBlank = ')' :: rest :=
    List.dropWhile_cons_of_neg (by decide)
  have hclose : (ws' ++ ')' :: rest).dropWhile isBlank = ')' :: rest := by
    rw [dropWhile_blanks hws', hparen]
  have hfollows : Follows (ws' ++ ')' :: rest) := by
    apply follows_blanks hws'
    rintro c tail heq
    obtain ⟨rfl, _⟩ := List.cons.inj heq
    decide
  have hends : Ends (ws' ++ ')' :: rest) := by
    rintro c tail heq
    rw [hclose] at heq
    obtain ⟨rfl, _⟩ := List.cons.inj heq
    decide
  have hlevel := hinner (ws' ++ ')' :: rest) fuel hfollows hends (by
    simp only [List.length_append, List.length_cons] at hfuel
    omega)
  rw [readTerm, hskip]
  simp only [hlevel, hclose, hparen]

/-- An operator or a blank follows a term that another one follows. -/
theorem follows_op {ws rest : List Char} (op : LabelOp) (hws : Blanks ws) :
    Follows (ws ++ op.char :: rest) := by
  apply follows_blanks hws
  rintro c tail heq
  obtain ⟨rfl, _⟩ := List.cons.inj heq
  cases op <;> decide

theorem reads_two {op : LabelOp} {a ws b : List Char} {x y : LabelExpr}
    (hpos : 0 < a.length) (hpos' : 0 < b.length) (hx : Reads .term a x) (hws : Blanks ws)
    (hy : Reads .term b y) : Reads (.chain op) (a ++ (ws ++ op.char :: b)) (.join op x y) := by
  refine ⟨2, ?_, ?_⟩
  · simp only [List.length_append, List.length_cons]
    omega
  · intro rest fuel hrest hfuel
    simp only [List.length_append, List.length_cons] at hfuel
    obtain ⟨fuel, rfl⟩ : ∃ n, fuel = n + 2 := ⟨fuel - 2, by omega⟩
    have hread := hx (ws ++ op.char :: (b ++ rest)) (fuel + 1) (follows_op op hws) (by omega)
    have hsplit : a ++ (ws ++ op.char :: b) ++ rest = a ++ (ws ++ op.char :: (b ++ rest)) := by simp
    rw [hsplit, readLevel, hread]
    exact readChain_next hws (by simp) (hy rest fuel hrest (by omega))

theorem reads_more {op : LabelOp} {a ws b : List Char} {x y : LabelExpr}
    (hpos' : 0 < b.length) (hx : Reads (.chain op) a x) (hws : Blanks ws)
    (hy : Reads .term b y) : Reads (.chain op) (a ++ (ws ++ op.char :: b)) (.join op x y) := by
  obtain ⟨k, hk, hread⟩ := hx
  refine ⟨k + 1, ?_, ?_⟩
  · simp only [List.length_append, List.length_cons]
    omega
  · intro rest fuel hrest hfuel
    simp only [List.length_append, List.length_cons] at hfuel
    have hlevel := hread (ws ++ op.char :: (b ++ rest)) fuel (follows_op op hws) (by omega)
    have hsplit : a ++ (ws ++ op.char :: b) ++ rest = a ++ (ws ++ op.char :: (b ++ rest)) := by simp
    have hfuel' : fuel - k = fuel - (k + 1) + 1 := by omega
    rw [hsplit, hlevel, hfuel']
    exact readChain_next hws (by simp) (hy rest _ hrest (by omega))

theorem reader_complete {part : LabelPart} {body : List Char} {x : LabelExpr}
    (h : Derives part body x) : Reads part body x := by
  induction h with
  | token hws hne htext => exact reads_token hws hne htext
  | quoted hws hquotes hne => exact reads_quoted hws hquotes hne
  | paren hws _ hws' ih => exact reads_paren hws ih hws'
  | two hx hws hy ihx ihy => exact reads_two (derives_ne_nil hx) (derives_ne_nil hy) ihx hws ihy
  | more hx hws hy ihx ihy => exact reads_more (derives_ne_nil hy) ihx hws ihy
  | single hx ih =>
      intro rest fuel hrest hends hfuel
      have hpos := derives_ne_nil hx
      obtain ⟨fuel, rfl⟩ : ∃ n, fuel = n + 2 := ⟨fuel - 2, by omega⟩
      rw [readLevel, ih rest (fuel + 1) hrest (by omega)]
      exact readChain_end hends
  | joined hx ih =>
      intro rest fuel hrest hends hfuel
      obtain ⟨k, hk, hread⟩ := ih
      have hpos := derives_ne_nil hx
      have hfuel' : fuel - k = fuel - k - 1 + 1 := by omega
      rw [hread rest fuel hrest hfuel, hfuel']
      exact readChain_end hends

end Complete

/-- With enough fuel the reader gives the expression the grammar derives. -/
theorem readLabel_iff {fuel : Nat} {label : List Char} {x : LabelExpr}
    (hfuel : 2 * label.length + 1 ≤ fuel) :
    readLabel fuel label = some x ↔ DerivesLabel label x := by
  constructor
  · intro h
    rw [readLabel] at h
    cases hread : readLevel fuel label with
    | none =>
        rw [hread] at h
        cases h
    | some p =>
        obtain ⟨y, rest⟩ := p
        rw [hread] at h
        simp only at h
        split at h
        · next hnil =>
            obtain rfl := Option.some.inj h
            obtain ⟨body, ws, rfl, hbody, hws⟩ := (reader_sound fuel).2.1 _ _ _ hread
            have hrest : rest.takeWhile isBlank = rest := by
              have hsplit : rest.takeWhile isBlank ++ rest.dropWhile isBlank = rest :=
                List.takeWhile_append_dropWhile
              rwa [hnil, List.append_nil] at hsplit
            have hblanks : Blanks rest := hrest ▸ blanks_takeWhile rest
            exact ⟨body, ws ++ rest, rfl, hbody,
              fun c hc => (List.mem_append.mp hc).elim (hws c) (hblanks c)⟩
        · cases h
  · rintro ⟨body, ws, rfl, hbody, hws⟩
    have hdrop : ws.dropWhile isBlank = [] := by
      have := dropWhile_blanks hws []
      rwa [List.append_nil] at this
    have hnil : Follows [] := fun _ _ h => by cases h
    have hfollows : Follows ws := by
      have hfollows := follows_blanks hws hnil
      rwa [List.append_nil] at hfollows
    have hends : Ends ws := by
      intro c tail h
      rw [hdrop] at h
      cases h
    rw [List.length_append] at hfuel
    rw [readLabel, reader_complete hbody ws fuel hfollows hends (by omega)]
    simp [hdrop]

end TimeLake.Query
