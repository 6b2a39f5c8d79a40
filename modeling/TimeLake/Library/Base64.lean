import TimeLake.Library.Chunks
import Mathlib.Data.Nat.Bitwise

/-!
Base64 without its alphabet: bytes by threes and the six-bit values they make by
fours. A group of one, two or three bytes makes two, three or four values, and the
bytes come back from them; the bits of the last value that no byte has are zero when
they are written and not looked at when they are read.
-/

namespace TimeLake.Library

/-- The 24 bits of up to three bytes. -/
def packBytes (group : List UInt8) : Nat :=
  (group.getD 0 0).toNat <<< 16 ||| (group.getD 1 0).toNat <<< 8 ||| (group.getD 2 0).toNat

/-- The values of a group of bytes, one more than it has bytes. -/
def sextets (group : List UInt8) : List Nat :=
  (List.range (group.length + 1)).map fun i => (packBytes group >>> (18 - 6 * i)) &&& 0x3F

/-- The 24 bits of up to four values. -/
def packSextets (group : List Nat) : Nat :=
  (group.zipIdx).foldl (fun n v => n ||| v.1 <<< (18 - 6 * v.2)) 0

/-- The bytes of a group of values, one fewer than it has values. -/
def octets (group : List Nat) : List UInt8 :=
  (List.range (group.length - 1)).map fun i =>
    UInt8.ofNat ((packSextets group >>> (16 - 8 * i)) &&& 0xFF)

section Groups

private theorem or_eq_add {a b k : Nat} (hb : b < 2 ^ k) : a <<< k ||| b = a * 2 ^ k + b := by
  rw [Nat.shiftLeft_eq, Nat.mul_comm, ← Nat.two_pow_add_eq_or_of_lt hb]

theorem packBytes_three (a b c : UInt8) :
    packBytes [a, b, c] = a.toNat * 65536 + b.toNat * 256 + c.toNat := by
  have ha := a.toNat_lt
  have hb := b.toNat_lt
  have hc := c.toNat_lt
  have hlow : b.toNat <<< 8 ||| c.toNat = b.toNat * 256 + c.toNat := or_eq_add (k := 8) (by omega)
  have hall : a.toNat <<< 16 ||| (b.toNat * 256 + c.toNat) =
      a.toNat * 65536 + (b.toNat * 256 + c.toNat) := or_eq_add (k := 16) (by omega)
  simp only [packBytes, List.getD_cons_zero, List.getD_cons_succ, Nat.or_assoc, hlow, hall]
  omega

theorem packSextets_concat (group : List Nat) (v : Nat) :
    packSextets (group ++ [v]) = packSextets group ||| v <<< (18 - 6 * group.length) := by
  simp only [packSextets, List.zipIdx_append, List.foldl_append, List.zipIdx_cons,
    List.zipIdx_nil, List.foldl_cons, List.foldl_nil, Nat.zero_add]

private theorem packSextets_two {v w : Nat} (hw : w < 64) :
    packSextets [v, w] = (v * 64 + w) * 4096 := by
  have hone : packSextets [v] = v <<< 18 := Nat.zero_or _
  have hor : v <<< 18 ||| w * 4096 = v * 262144 + w * 4096 := or_eq_add (k := 18) (by omega)
  change packSextets ([v] ++ [w]) = _
  rw [packSextets_concat, hone]
  change v <<< 18 ||| w <<< 12 = _
  rw [Nat.shiftLeft_eq w 12, hor]
  omega

private theorem packSextets_three {v w x : Nat} (hw : w < 64) (hx : x < 64) :
    packSextets [v, w, x] = (v * 4096 + w * 64 + x) * 64 := by
  have hor : (v * 64 + w) <<< 12 ||| x * 64 = (v * 64 + w) * 4096 + x * 64 :=
    or_eq_add (k := 12) (by omega)
  change packSextets ([v, w] ++ [x]) = _
  rw [packSextets_concat, packSextets_two hw]
  change (v * 64 + w) * 2 ^ 12 ||| x <<< 6 = _
  rw [← Nat.shiftLeft_eq, Nat.shiftLeft_eq x 6, hor]
  omega

private theorem packSextets_four {v w x y : Nat} (hw : w < 64) (hx : x < 64) (hy : y < 64) :
    packSextets [v, w, x, y] = (v * 4096 + w * 64 + x) * 64 + y := by
  have hor : (v * 4096 + w * 64 + x) <<< 6 ||| y = (v * 4096 + w * 64 + x) * 64 + y :=
    or_eq_add (k := 6) (by omega)
  change packSextets ([v, w, x] ++ [y]) = _
  rw [packSextets_concat, packSextets_three hw hx]
  change (v * 4096 + w * 64 + x) * 2 ^ 6 ||| y <<< 0 = _
  rw [← Nat.shiftLeft_eq, Nat.shiftLeft_zero, hor, Nat.shiftLeft_eq]

theorem lt_of_mem_sextets {group : List UInt8} {v : Nat} (h : v ∈ sextets group) : v < 64 := by
  obtain ⟨i, _, rfl⟩ := List.mem_map.mp h
  exact lt_of_le_of_lt Nat.and_le_right (by decide)

theorem length_sextets (group : List UInt8) : (sextets group).length = group.length + 1 := by
  rw [sextets, List.length_map, List.length_range]

/-- The bytes of a group come back. -/
theorem octets_sextets {group : List UInt8} (hpos : 0 < group.length) (hle : group.length ≤ 3) :
    octets (sextets group) = group := by
  have hand : ∀ n k, (n >>> k) &&& 0x3F = n / 2 ^ k % 64 := fun n k => by
    rw [Nat.shiftRight_eq_div_pow, show (0x3F : Nat) = 2 ^ 6 - 1 from rfl,
      Nat.and_two_pow_sub_one_eq_mod]
  have hbyte : ∀ n k, (n >>> k) &&& 0xFF = n / 2 ^ k % 256 := fun n k => by
    rw [Nat.shiftRight_eq_div_pow, show (0xFF : Nat) = 2 ^ 8 - 1 from rfl,
      Nat.and_two_pow_sub_one_eq_mod]
  have hof : ∀ (b : UInt8) (n : Nat), n = b.toNat → UInt8.ofNat n = b := by
    rintro b n rfl
    exact UInt8.ofNat_toNat
  have hzero : (0 : UInt8).toNat = 0 := rfl
  match group, hpos, hle with
  | [a], _, _ =>
      have hpack : packBytes [a] = _ := packBytes_three a 0 0
      have ha := a.toNat_lt
      simp only [sextets, hpack, List.length_singleton, List.range_succ, List.range_zero,
        List.nil_append, List.cons_append, List.map_cons, List.map_nil, hand]
      rw [octets, packSextets_two (by omega)]
      simp only [List.length_cons, List.length_nil, List.range_succ, List.range_zero,
        List.nil_append, List.map_cons, List.map_nil, hbyte]
      rw [hof a]
      omega
  | [a, b], _, _ =>
      have hpack : packBytes [a, b] = _ := packBytes_three a b 0
      have ha := a.toNat_lt
      have hb := b.toNat_lt
      simp only [sextets, hpack, List.length_cons, List.length_nil, List.range_succ,
        List.range_zero, List.nil_append, List.cons_append, List.map_cons, List.map_nil, hand]
      rw [octets, packSextets_three (by omega) (by omega)]
      simp only [List.length_cons, List.length_nil, List.range_succ, List.range_zero,
        List.nil_append, List.cons_append, List.map_cons, List.map_nil, hbyte]
      rw [hof a, hof b]
      · omega
      · omega
  | [a, b, c], _, _ =>
      have hpack := packBytes_three a b c
      have ha := a.toNat_lt
      have hb := b.toNat_lt
      have hc := c.toNat_lt
      simp only [sextets, hpack, List.length_cons, List.length_nil, List.range_succ,
        List.range_zero, List.nil_append, List.cons_append, List.map_cons, List.map_nil, hand]
      rw [octets, packSextets_four (by omega) (by omega) (by omega)]
      simp only [List.length_cons, List.length_nil, List.range_succ, List.range_zero,
        List.nil_append, List.cons_append, List.map_cons, List.map_nil, hbyte]
      rw [hof a, hof b, hof c]
      · omega
      · omega
      · omega

end Groups

section Codec

/-- The text of some bytes, without padding. -/
def encodeBase64 (alphabet : Nat → UInt8) (bytes : List UInt8) : List UInt8 :=
  (chunks 3 bytes).flatMap fun group => (sextets group).map alphabet

/-- The values of a group; one alone stands for no byte. -/
def decodeGroup (value : UInt8 → Option Nat) (group : List UInt8) : Option (List UInt8) :=
  if group.length < 2 then none else (group.mapM value).map octets

def decodeGroups (value : UInt8 → Option Nat) : List (List UInt8) → Option (List UInt8)
  | [] => some []
  | group :: rest =>
      match decodeGroup value group with
      | none => none
      | some bytes => (decodeGroups value rest).map (bytes ++ ·)

def decodeBase64 (value : UInt8 → Option Nat) (text : List UInt8) : Option (List UInt8) :=
  decodeGroups value (chunks 4 text)

variable {alphabet : Nat → UInt8} {value : UInt8 → Option Nat}

theorem mapM_alphabet (h : ∀ v, v < 64 → value (alphabet v) = some v) {vs : List Nat}
    (hvs : ∀ v ∈ vs, v < 64) : (vs.map alphabet).mapM value = some vs := by
  induction vs with
  | nil => rfl
  | cons v rest ih =>
      rw [List.map_cons, List.mapM_cons, h v (hvs v List.mem_cons_self),
        ih fun w hw => hvs w (List.mem_cons_of_mem _ hw)]
      rfl

theorem decodeGroup_encode (h : ∀ v, v < 64 → value (alphabet v) = some v) {group : List UInt8}
    (hpos : 0 < group.length) (hle : group.length ≤ 3) :
    decodeGroup value ((sextets group).map alphabet) = some group := by
  have hlen : ¬ ((sextets group).map alphabet).length < 2 := by
    rw [List.length_map, length_sextets]
    omega
  rw [decodeGroup, if_neg hlen, mapM_alphabet h fun v hv => lt_of_mem_sextets hv, Option.map_some,
    octets_sextets hpos hle]

private theorem regular_sextets {groups : List (List UInt8)} (h : Regular 3 groups) :
    Regular 4 (groups.map fun group => (sextets group).map alphabet) := by
  induction groups with
  | nil => exact trivial
  | cons group rest ih =>
      cases rest with
      | nil =>
          obtain ⟨hpos, hle⟩ := h
          refine ⟨?_, ?_⟩ <;> (rw [List.length_map, length_sextets]; omega)
      | cons next rest =>
          refine ⟨?_, ih h.2⟩
          rw [List.length_map, length_sextets, h.1]

private theorem decodeGroups_encode (h : ∀ v, v < 64 → value (alphabet v) = some v)
    {groups : List (List UInt8)} (hreg : Regular 3 groups) :
    decodeGroups value (groups.map fun group => (sextets group).map alphabet) =
      some groups.flatten := by
  induction groups with
  | nil => rfl
  | cons group rest ih =>
      have hsize : 0 < group.length ∧ group.length ≤ 3 := by
        cases rest with
        | nil => exact hreg
        | cons next rest =>
            have := hreg.1
            omega
      rw [List.map_cons, decodeGroups, decodeGroup_encode h hsize.1 hsize.2, ih hreg.tail]
      rfl

/-- Whatever the alphabet, what was written is read back. -/
theorem decodeBase64_encodeBase64 (h : ∀ v, v < 64 → value (alphabet v) = some v)
    (bytes : List UInt8) : decodeBase64 value (encodeBase64 alphabet bytes) = some bytes := by
  have hreg : Regular 3 (chunks 3 bytes) := regular_chunks (by decide) bytes
  rw [decodeBase64, encodeBase64, List.flatMap_def,
      chunks_flatten (by decide) (regular_sextets hreg),
    decodeGroups_encode h hreg, flatten_chunks (by decide)]

end Codec

end TimeLake.Library
