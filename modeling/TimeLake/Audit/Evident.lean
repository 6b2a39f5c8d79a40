import TimeLake.Audit.Line

/-!
Tamper evidence. The JSON of a record is an object, so the bytes that are hashed give back
every field and the hash in front; from the last hash on, verified trails agree record by
record. `verify` compares texts, so the records are the same as they are written.
-/

namespace TimeLake.Audit

open TimeLake.Library

section Trees

variable {F : Type} (fmt : FloatFormat F)

/-- The value with the texts of its numbers, `null` for `None`. -/
def treeOf : Option (Value F) → Json (List Char)
  | none => .null
  | some v => v.json.mapNum (Number.text fmt)

@[simp] theorem treeOf_none : treeOf fmt (none : Option (Value F)) = .null := rfl

@[simp] theorem treeOf_some (v : Value F) :
    treeOf fmt (some v) = v.json.mapNum (Number.text fmt) := rfl

/-- The JSON of an entry but for its hash. -/
def Entry.members (e : Entry F) : List (String × Json (List Char)) :=
  fields (e.texts fmt).toHashInput (treeOf fmt e.before) (treeOf fmt e.after)

theorem write_treeOf (value : Option (Value F)) :
    (treeOf fmt value).write id = (embedded (value.map (Value.text fmt))).write id := by
  cases value with
  | none => rfl
  | some v =>
      rw [treeOf_some, Json.write_mapNum, Option.map_some, embedded, Json.write, Value.text,
        String.toList_ofList]
      rfl

theorem proper_treeOf (value : Option (Value F)) : (treeOf fmt value).Proper Json.IsToken := by
  cases value with
  | none => trivial
  | some v => exact Json.Proper.mapNum (fun n _ => Number.isToken fmt n) v.json v.named

/-- The text of a record depends on the values through their texts. -/
theorem write_fields (i : HashInput) {b b' a a' : Json (List Char)} (hb : b.write id = b'.write id)
    (ha : a.write id = a'.write id) (tail : List (String × Json (List Char))) :
    (Json.obj (fields i b a ++ tail)).write id = (Json.obj (fields i b' a' ++ tail)).write id := by
  simp only [fields, List.cons_append, List.nil_append, Json.write, Json.writeMembers, hb, ha]

theorem proper_optionText (s : Option String) : (optionText s).Proper Json.IsToken := by
  cases s <;> trivial

theorem proper_members (e : Entry F) :
    (Json.obj (e.members fmt ++ [("hash", .str e.hash)])).Proper Json.IsToken := by
  refine ⟨by simp [Entry.members, fields], ?_⟩
  simp only [Entry.members, fields, List.cons_append, List.nil_append, Json.ProperMembers,
    Json.Proper, and_true, true_and]
  exact ⟨Json.isToken_toDigits _, proper_optionText _, proper_optionText _, proper_optionText _,
    proper_optionText _, proper_treeOf fmt _, proper_treeOf fmt _⟩

theorem json_write (e : Entry F) :
    (e.texts fmt).toHashInput.json.write id = (Json.obj (e.members fmt)).write id := by
  have h := write_fields (e.texts fmt).toHashInput (write_treeOf fmt e.before)
    (write_treeOf fmt e.after) []
  rw [List.append_nil, List.append_nil] at h
  exact h.symm

theorem text_eq (e : Entry F) : (e.texts fmt).text =
    (Json.obj (e.members fmt ++ [("hash", .str e.hash)])).write id :=
  (write_fields (e.texts fmt).toHashInput (write_treeOf fmt e.before) (write_treeOf fmt e.after)
    [("hash", .str e.hash)]).symm

/-- The bytes that are hashed determine the fields: the JSON ends where the hash in front
of the record begins again. -/
theorem members_of_hashedBytes {x y : Entry F}
    (h : hashedBytes (x.texts fmt).toHashInput = hashedBytes (y.texts fmt).toHashInput) :
    x.members fmt = y.members fmt ∧ x.prevHash = y.prevHash := by
  have hchars := encodeChars_injective h
  rw [json_write, json_write] at hchars
  have hread (e : Entry F) := Json.read_write _ (proper_members fmt e).of_append
    (max (Json.obj (x.members fmt)).depth (Json.obj (y.members fmt)).depth)
    (e.texts fmt).prevHash.toList trivial
  have hx := hread x
  rw [hchars, hread y, if_pos (le_max_right _ _), if_pos (le_max_left _ _)] at hx
  obtain ⟨hobj, hprev⟩ := Prod.mk.inj (Option.some.inj hx)
  exact ⟨(Json.obj.inj hobj).symm, (String.toList_inj.mp hprev).symm⟩

end Trees

section Evidence

variable {F : Type} (fmt : FloatFormat F) (digest : Bytes → String)

/-- SHA-256 tells the bytes of these records apart and never gives the text of the
genesis hash. -/
structure Collisionless (records : List AuditRecord) : Prop where
  injective : ∀ r ∈ records, ∀ q ∈ records,
    digest (hashedBytes r.toHashInput) = digest (hashedBytes q.toHashInput) →
      hashedBytes r.toHashInput = hashedBytes q.toHashInput
  genesis_free : ∀ r ∈ records, digest (hashedBytes r.toHashInput) ≠ "genesis"

variable {digest} {fmt}

theorem Collisionless.mono {records more : List AuditRecord} (h : Collisionless digest more)
    (hsub : records ⊆ more) : Collisionless digest records :=
  ⟨fun r hr q hq => h.injective r (hsub hr) q (hsub hq), fun r hr => h.genesis_free r (hsub hr)⟩

theorem Collisionless.hash_ne_genesis {records : List AuditRecord}
    (h : Collisionless digest records) {r : AuditRecord} (hr : r ∈ records) :
    computeHash (sha256 digest) r ≠ genesis := by
  intro heq
  exact h.genesis_free r hr (String.append_right_inj "sha256:" |>.mp heq)

theorem Collisionless.bytes_eq {records : List AuditRecord} (h : Collisionless digest records)
    {r q : AuditRecord} (hr : r ∈ records) (hq : q ∈ records)
    (heq : computeHash (sha256 digest) r = computeHash (sha256 digest) q) :
    hashedBytes r.toHashInput = hashedBytes q.toHashInput :=
  h.injective r hr q hq (String.append_right_inj "sha256:" |>.mp heq)

/-- Two verified trails with one head are equal as they are written. Backwards from the
last records: their hashes give the bytes they are hashed over, and these give the records
and the hashes in front of them. -/
theorem texts_eq_of_head (xs ys : List (Entry F))
    (hfree : Collisionless digest ((xs ++ ys).map (Entry.texts fmt)))
    (hx : verifyRecords (sha256 digest) (xs.map (Entry.texts fmt)) = .ok ())
    (hy : verifyRecords (sha256 digest) (ys.map (Entry.texts fmt)) = .ok ())
    (hhead : (recover (xs.map (Entry.texts fmt))).2 = (recover (ys.map (Entry.texts fmt))).2) :
    xs.map (fun e => (e.texts fmt).text) = ys.map fun e => (e.texts fmt).text := by
  induction xs using List.reverseRecOn generalizing ys with
  | nil =>
      rcases List.eq_nil_or_concat ys with rfl | ⟨ys, y, rfl⟩
      · rfl
      · rw [List.concat_eq_append] at hfree hy hhead
        rw [List.map_append, List.map_singleton] at hy hhead
        obtain ⟨_, _, hhash⟩ := verifyRecords_concat hy
        rw [recover_concat] at hhead
        exact absurd (hhash.trans hhead.symm)
          (hfree.hash_ne_genesis (List.mem_map_of_mem (by simp)))
  | append_singleton xs x ih =>
      rw [List.map_append, List.map_singleton] at hx hhead
      obtain ⟨hxs, hxprev, hxhash⟩ := verifyRecords_concat hx
      rw [recover_concat] at hhead
      rcases List.eq_nil_or_concat ys with rfl | ⟨ys, y, rfl⟩
      · exact absurd (hxhash.trans hhead)
          (hfree.hash_ne_genesis (List.mem_map_of_mem (by simp)))
      · rw [List.concat_eq_append] at hfree hy hhead
        rw [List.map_append, List.map_singleton] at hy hhead
        obtain ⟨hys, hyprev, hyhash⟩ := verifyRecords_concat hy
        rw [recover_concat] at hhead
        have hbytes := hfree.bytes_eq (List.mem_map_of_mem (by simp))
          (List.mem_map_of_mem (by simp)) (hxhash.trans (hhead.trans hyhash.symm))
        obtain ⟨hmembers, hprev⟩ := members_of_hashedBytes fmt hbytes
        have htext : (x.texts fmt).text = (y.texts fmt).text := by
          have hhash : x.hash = y.hash := hhead
          rw [text_eq, text_eq, hmembers, hhash]
        have hsub : xs ++ ys ⊆ xs ++ [x] ++ (ys ++ [y]) := by
          intro e he
          rcases List.mem_append.mp he with he | he
          · simp [he]
          · simp [he]
        have hrest := ih ys (hfree.mono (List.map_subset _ hsub)) hxs hys
          (hxprev.symm.trans (hprev.trans hyprev))
        rw [List.concat_eq_append, List.map_append, List.map_append, hrest, List.map_singleton,
          List.map_singleton, htext]

end Evidence

end TimeLake.Audit
