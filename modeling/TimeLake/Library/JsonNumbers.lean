import TimeLake.Library.Json

/-!
JSON values with other numbers. A value is written through the texts of its numbers, and
what was written is read as tokens and then decoded; where every number is read as a
number of the same text, the decoded value has the same text.
-/

namespace TimeLake.Library

namespace Json

section Numbers

variable {ν μ κ : Type}

mutual

/-- The same value with other numbers. -/
def mapNum (f : ν → μ) : Json ν → Json μ
  | .null => .null
  | .bool b => .bool b
  | .num n => .num (f n)
  | .str s => .str s
  | .arr items => .arr (mapItems f items)
  | .obj members => .obj (mapMembers f members)

def mapItems (f : ν → μ) : List (Json ν) → List (Json μ)
  | [] => []
  | v :: items => mapNum f v :: mapItems f items

def mapMembers (f : ν → μ) : List (String × Json ν) → List (String × Json μ)
  | [] => []
  | (k, v) :: members => (k, mapNum f v) :: mapMembers f members

end

mutual

/-- The tokens as numbers, if they all are. Of two members with one name the later
value stands in the earlier place. -/
def decode (parse : ν → Option μ) : Json ν → Option (Json μ)
  | .null => some .null
  | .bool b => some (.bool b)
  | .num n => (parse n).map .num
  | .str s => some (.str s)
  | .arr items => (decodeItems parse items).map .arr
  | .obj members => (decodeMembers parse members).map fun ms =>
      .obj (ms.foldl (fun acc p => upsert p.1 (fun _ => p.2) acc) [])

def decodeItems (parse : ν → Option μ) : List (Json ν) → Option (List (Json μ))
  | [] => some []
  | v :: items => do
      let v ← decode parse v
      let vs ← decodeItems parse items
      some (v :: vs)

def decodeMembers (parse : ν → Option μ) : List (String × Json ν) → Option (List (String × Json μ))
  | [] => some []
  | (k, v) :: members => do
      let v ← decode parse v
      let vs ← decodeMembers parse members
      some ((k, v) :: vs)

end

mutual

theorem write_mapNum (text : ν → List Char) (f : μ → ν) (v : Json μ) :
    write text (v.mapNum f) = write (fun n => text (f n)) v := by
  match v with
  | .null | .bool true | .bool false | .num n | .str s | .arr [] | .obj [] => rfl
  | .arr (x :: items) =>
      simp only [mapNum, mapItems, write]
      rw [write_mapNum text f x, writeItems_mapItems text f items]
  | .obj ((k, x) :: members) =>
      simp only [mapNum, mapMembers, write]
      rw [write_mapNum text f x, writeMembers_mapMembers text f members]

theorem writeItems_mapItems (text : ν → List Char) (f : μ → ν) (items : List (Json μ)) :
    writeItems text (mapItems f items) = writeItems (fun n => text (f n)) items := by
  match items with
  | [] => rfl
  | x :: items =>
      simp only [mapItems, writeItems]
      rw [write_mapNum text f x, writeItems_mapItems text f items]

theorem writeMembers_mapMembers (text : ν → List Char) (f : μ → ν)
    (members : List (String × Json μ)) :
    writeMembers text (mapMembers f members) = writeMembers (fun n => text (f n)) members := by
  match members with
  | [] => rfl
  | (k, x) :: members =>
      simp only [mapMembers, writeMembers]
      rw [write_mapNum text f x, writeMembers_mapMembers text f members]

end

mutual

theorem depth_mapNum (f : μ → ν) (v : Json μ) : (v.mapNum f).depth = v.depth := by
  match v with
  | .null | .bool b | .num n | .str s => rfl
  | .arr items =>
      simp only [mapNum, depth]
      rw [depthItems_mapItems f items]
  | .obj members =>
      simp only [mapNum, depth]
      rw [depthMembers_mapMembers f members]

theorem depthItems_mapItems (f : μ → ν) (items : List (Json μ)) :
    depthItems (mapItems f items) = depthItems items := by
  match items with
  | [] => rfl
  | x :: items =>
      simp only [mapItems, depthItems]
      rw [depth_mapNum f x, depthItems_mapItems f items]

theorem depthMembers_mapMembers (f : μ → ν) (members : List (String × Json μ)) :
    depthMembers (mapMembers f members) = depthMembers members := by
  match members with
  | [] => rfl
  | (k, x) :: members =>
      simp only [mapMembers, depthMembers]
      rw [depth_mapNum f x, depthMembers_mapMembers f members]

end

/-- A member is nested no deeper than all of them. -/
theorem depth_le_depthMembers {key : String} {v : Json ν} {members : List (String × Json ν)}
    (h : (key, v) ∈ members) : v.depth ≤ depthMembers members := by
  induction h with
  | head members => exact Nat.le_max_left _ _
  | tail q _ ih => exact Nat.le_trans ih (Nat.le_max_right _ _)

theorem keys_mapMembers (f : μ → ν) (members : List (String × Json μ)) :
    (mapMembers f members).map Prod.fst = members.map Prod.fst := by
  induction members with
  | nil => rfl
  | cons p members ih =>
      obtain ⟨k, x⟩ := p
      rw [mapMembers, List.map_cons, List.map_cons, ih]

mutual

theorem Proper.mapNum {P : μ → Prop} {Q : ν → Prop} {f : μ → ν} (hf : ∀ n, P n → Q (f n))
    (v : Json μ) (h : v.Proper P) : (v.mapNum f).Proper Q := by
  match v with
  | .null | .bool b | .str s => exact trivial
  | .num n => exact hf n h
  | .arr items => exact ProperItems.mapItems hf items h
  | .obj members =>
      refine ⟨?_, ProperMembers.mapMembers hf members h.2⟩
      rw [keys_mapMembers]
      exact h.1

theorem ProperItems.mapItems {P : μ → Prop} {Q : ν → Prop} {f : μ → ν}
    (hf : ∀ n, P n → Q (f n)) (items : List (Json μ)) (h : ProperItems P items) :
    ProperItems Q (mapItems f items) := by
  match items with
  | [] => exact trivial
  | x :: items => exact ⟨Proper.mapNum hf x h.1, ProperItems.mapItems hf items h.2⟩

theorem ProperMembers.mapMembers {P : μ → Prop} {Q : ν → Prop} {f : μ → ν}
    (hf : ∀ n, P n → Q (f n)) (members : List (String × Json μ)) (h : ProperMembers P members) :
    ProperMembers Q (mapMembers f members) := by
  match members with
  | [] => exact trivial
  | (k, x) :: members => exact ⟨Proper.mapNum hf x h.1, ProperMembers.mapMembers hf members h.2⟩

end

theorem foldl_upsert_append {acc ms : List (String × Json ν)}
    (h : ((acc ++ ms).map Prod.fst).Nodup) :
    ms.foldl (fun acc p => upsert p.1 (fun _ => p.2) acc) acc = acc ++ ms := by
  induction ms generalizing acc with
  | nil => rw [List.foldl_nil, List.append_nil]
  | cons p ms ih =>
      have hnone : acc.lookup p.1 = none := by
        refine lookup_of_notMem_keys ?_
        intro hin
        rw [List.map_append, List.nodup_append] at h
        exact h.2.2 _ hin _ (by simp) rfl
      rw [List.foldl_cons, upsert_of_none hnone, ih (by simpa using h), List.append_assoc,
        List.singleton_append]

section Decode

variable {text : ν → List Char} {parse : List Char → Option ν} {P : ν → Prop}

mutual

/-- A value whose numbers are read as numbers of the same text is read as a value of
the same text. -/
theorem decode_write (hP : ∀ n, P n → ∃ m, parse (text n) = some m ∧ text m = text n)
    (v : Json ν) (h : v.Proper P) :
    ∃ w, decode parse (v.mapNum text) = some w ∧ write text w = write text v := by
  match v with
  | .null => exact ⟨.null, rfl, rfl⟩
  | .bool b => exact ⟨.bool b, rfl, rfl⟩
  | .str s => exact ⟨.str s, rfl, rfl⟩
  | .num n =>
      obtain ⟨m, hm, htext⟩ := hP n h
      exact ⟨.num m, by rw [mapNum, decode, hm]; rfl, htext⟩
  | .arr [] => exact ⟨.arr [], rfl, rfl⟩
  | .arr (x :: items) =>
      obtain ⟨w, hw, hx⟩ := decode_write hP x h.1
      obtain ⟨ws, hws, hitems⟩ := decodeItems_write hP items h.2
      refine ⟨.arr (w :: ws), ?_, ?_⟩
      · rw [mapNum, mapItems, decode, decodeItems, hw, hws]
        rfl
      · rw [write, write, hx, hitems]
  | .obj [] => exact ⟨.obj [], rfl, rfl⟩
  | .obj ((k, x) :: members) =>
      obtain ⟨hnodup, hproper⟩ := h
      obtain ⟨w, hw, hx⟩ := decode_write hP x hproper.1
      obtain ⟨ms, hms, hkeys, hmembers⟩ := decodeMembers_write hP members hproper.2
      refine ⟨.obj ((k, w) :: ms), ?_, ?_⟩
      · have hfold : ((k, w) :: ms).foldl (fun acc p => upsert p.1 (fun _ => p.2) acc) [] =
            (k, w) :: ms := by
          refine foldl_upsert_append ?_
          rw [List.nil_append, List.map_cons, hkeys]
          exact hnodup
        rw [mapNum, mapMembers, decode, decodeMembers, hw, hms]
        simp only [Option.bind_eq_bind, Option.bind_some, Option.map_some, hfold]
      · rw [write, write, hx, hmembers]

theorem decodeItems_write (hP : ∀ n, P n → ∃ m, parse (text n) = some m ∧ text m = text n)
    (items : List (Json ν)) (h : ProperItems P items) :
    ∃ ws, decodeItems parse (mapItems text items) = some ws ∧
      writeItems text ws = writeItems text items := by
  match items with
  | [] => exact ⟨[], rfl, rfl⟩
  | x :: items =>
      obtain ⟨w, hw, hx⟩ := decode_write hP x h.1
      obtain ⟨ws, hws, hitems⟩ := decodeItems_write hP items h.2
      refine ⟨w :: ws, ?_, ?_⟩
      · rw [mapItems, decodeItems, hw, hws]
        rfl
      · rw [writeItems, writeItems, hx, hitems]

theorem decodeMembers_write (hP : ∀ n, P n → ∃ m, parse (text n) = some m ∧ text m = text n)
    (members : List (String × Json ν)) (h : ProperMembers P members) :
    ∃ ms, decodeMembers parse (mapMembers text members) = some ms ∧
      ms.map Prod.fst = members.map Prod.fst ∧
      writeMembers text ms = writeMembers text members := by
  match members with
  | [] => exact ⟨[], rfl, rfl, rfl⟩
  | (k, x) :: members =>
      obtain ⟨w, hw, hx⟩ := decode_write hP x h.1
      obtain ⟨ms, hms, hkeys, hmembers⟩ := decodeMembers_write hP members h.2
      refine ⟨(k, w) :: ms, ?_, ?_, ?_⟩
      · rw [mapMembers, decodeMembers, hw, hms]
        rfl
      · rw [List.map_cons, List.map_cons, hkeys]
      · rw [writeMembers, writeMembers, hx, hmembers]

end

end Decode

section Decoded

variable {parse : ν → Option μ} {Q : μ → Prop}

theorem properMembers_iff {P : ν → Prop} {members : List (String × Json ν)} :
    ProperMembers P members ↔ ∀ p ∈ members, p.2.Proper P := by
  induction members with
  | nil => exact ⟨fun _ p hp => absurd hp List.not_mem_nil, fun _ => trivial⟩
  | cons p members ih =>
      obtain ⟨k, x⟩ := p
      rw [ProperMembers, ih, List.forall_mem_cons]

theorem Proper.of_append {P : ν → Prop} {ms tail : List (String × Json ν)}
    (h : (Json.obj (ms ++ tail)).Proper P) : (Json.obj ms).Proper P := by
  obtain ⟨hnodup, hmembers⟩ := h
  rw [List.map_append] at hnodup
  exact ⟨hnodup.of_append_left, properMembers_iff.mpr fun p hp =>
    properMembers_iff.mp hmembers p (List.mem_append_left _ hp)⟩

theorem proper_foldl_upsert {ms acc : List (String × Json μ)} (hms : ProperMembers Q ms)
    (hacc : (Json.obj acc).Proper Q) :
    (Json.obj (ms.foldl (fun acc p => upsert p.1 (fun _ => p.2) acc) acc)).Proper Q := by
  induction ms generalizing acc with
  | nil => exact hacc
  | cons p ms ih =>
      refine ih hms.2 ⟨nodup_keys_upsert hacc.1, properMembers_iff.mpr ?_⟩
      intro q hq
      rcases mem_upsert hq with hq | ⟨_, hq⟩
      · exact properMembers_iff.mp hacc.2 q hq
      · rw [hq]
        exact hms.1

mutual

/-- A decoded value is proper. -/
theorem decode_proper (hQ : ∀ n m, parse n = some m → Q m) (v : Json ν) {w : Json μ}
    (h : decode parse v = some w) : w.Proper Q := by
  match v with
  | .null | .bool b | .str s =>
      obtain rfl := Option.some.inj h
      exact trivial
  | .num n =>
      obtain ⟨m, hm, rfl⟩ := Option.map_eq_some_iff.mp h
      exact hQ n m hm
  | .arr items =>
      obtain ⟨ws, hws, rfl⟩ := Option.map_eq_some_iff.mp h
      exact decodeItems_proper hQ items hws
  | .obj members =>
      obtain ⟨ms, hms, rfl⟩ := Option.map_eq_some_iff.mp h
      exact proper_foldl_upsert (decodeMembers_proper hQ members hms) ⟨List.nodup_nil, trivial⟩

theorem decodeItems_proper (hQ : ∀ n m, parse n = some m → Q m) (items : List (Json ν))
    {ws : List (Json μ)} (h : decodeItems parse items = some ws) : ProperItems Q ws := by
  match items with
  | [] =>
      obtain rfl := Option.some.inj h
      exact trivial
  | x :: items =>
      obtain ⟨w, hw, h⟩ := Option.bind_eq_some_iff.mp h
      obtain ⟨ws, hws, h⟩ := Option.bind_eq_some_iff.mp h
      obtain rfl := Option.some.inj h
      exact ⟨decode_proper hQ x hw, decodeItems_proper hQ items hws⟩

theorem decodeMembers_proper (hQ : ∀ n m, parse n = some m → Q m)
    (members : List (String × Json ν)) {ms : List (String × Json μ)}
    (h : decodeMembers parse members = some ms) : ProperMembers Q ms := by
  match members with
  | [] =>
      obtain rfl := Option.some.inj h
      exact trivial
  | (k, x) :: members =>
      obtain ⟨w, hw, h⟩ := Option.bind_eq_some_iff.mp h
      obtain ⟨ms, hms, h⟩ := Option.bind_eq_some_iff.mp h
      obtain rfl := Option.some.inj h
      exact ⟨decode_proper hQ x hw, decodeMembers_proper hQ members hms⟩

end

end Decoded

end Numbers

section Integers

/-- A natural number of JSON has no leading zeros. -/
def natural (ds : List Char) : Option Nat :=
  if ds ≠ [] ∧ ds.all Char.isDigit = true ∧ (ds.head? ≠ some '0' ∨ ds = ['0']) then
    some (Nat.ofDigitChars 10 ds 0)
  else none

theorem toDigits_head (n : Nat) (h : (Nat.toDigits 10 n).head? = some '0') :
    Nat.toDigits 10 n = ['0'] := by
  induction n using Nat.strong_induction_on with
  | _ n ih =>
      by_cases hn : n < 10
      · rw [Nat.toDigits_of_lt_base hn] at h ⊢
        rw [Option.some.inj h]
      · have hdiv := Nat.toDigits_of_base_le (b := 10) (n := n) (by decide) (by omega)
        rw [hdiv, List.head?_append_of_ne_nil _ Nat.toDigits_ne_nil] at h
        have hzero := ih (n / 10) (by omega) h
        have hvalue : n / 10 = 0 := by
          rw [← Nat.ofDigitChars_ten_toDigits (n := n / 10), hzero]
          rfl
        omega

theorem natural_toDigits (n : Nat) : natural (Nat.toDigits 10 n) = some n := by
  have hdigits : (Nat.toDigits 10 n).all Char.isDigit = true :=
    List.all_eq_true.mpr fun c hc => Nat.isDigit_of_mem_toDigits (by decide) (by decide) hc
  rw [natural, if_pos ⟨Nat.toDigits_ne_nil, hdigits, Decidable.not_or_of_imp (toDigits_head n)⟩,
    Nat.ofDigitChars_ten_toDigits]

theorem natural_eq_none {ds : List Char} {c : Char} (hc : c ∈ ds) (h : c.isDigit = false) :
    natural ds = none := by
  refine if_neg ?_
  rintro ⟨_, hdigits, _⟩
  rw [List.all_eq_true.mp hdigits c hc] at h
  cases h

theorem isToken_toDigits (n : Nat) : IsToken (Nat.toDigits 10 n) := by
  have hdigits : ∀ c ∈ Nat.toDigits 10 n, c.isDigit = true := fun c hc =>
    Nat.isDigit_of_mem_toDigits (by decide) (by decide) hc
  refine ⟨fun c hc => by simp [isNumberChar, hdigits c hc], ?_⟩
  obtain ⟨c, rest, heq⟩ := List.exists_cons_of_ne_nil (Nat.toDigits_ne_nil (n := n) (b := 10))
  exact ⟨c, rest, heq, .inl (hdigits c (by rw [heq]; exact List.mem_cons_self))⟩

/-- A minus sign in front of digits. -/
theorem IsToken.neg {ds : List Char} (h : IsToken ds) : IsToken ('-' :: ds) := by
  refine ⟨?_, '-', ds, rfl, .inr rfl⟩
  intro c hc
  rcases List.mem_cons.mp hc with rfl | hc
  · rfl
  · exact h.1 c hc

end Integers

end Json

end TimeLake.Library
