import Mathlib.Data.String.Basic
import TimeLake.Library.Pairs

/-!
Data-plane tokens (`crates/auth/src/token.rs`). A record keeps the digest of its
secret, and the index finds records by digest. A record never changes but for
`revoked`, which is only ever set; `Grows` is that order, and a document covers
another when it has every record of the other, revoked where that one is.
-/

namespace TimeLake.Auth

open TimeLake.Library

inductive Scope where
  | read
  | write
  | readWrite
  deriving DecidableEq, Repr

structure TokenRecord where
  id : String
  description : String
  hash : String
  scope : Scope
  databases : List String
  authorizations : List String
  createdBy : String
  createdAtSecs : Nat
  expiresAtSecs : Option Nat
  revoked : Bool
  lastUsedSecs : Option Nat
  deriving DecidableEq, Repr

def TokenRecord.isValidAt (r : TokenRecord) (now : Nat) : Bool :=
  !r.revoked && r.expiresAtSecs.all fun e => now < e

structure TokenIdentity where
  id : String
  description : String
  scope : Scope
  databases : List String
  authorizations : List String
  deriving DecidableEq, Repr

inductive TokenError where
  | missing
  | invalid
  | forbidden
  deriving DecidableEq, Repr

/-- `BTreeMap<String, TokenRecord>`, a record under its own digest. -/
structure TokenIndex where
  byHash : List (String × TokenRecord)
  sorted : Increasing byHash
  keyed : ∀ p ∈ byHash, p.1 = p.2.hash
  deriving DecidableEq

namespace TokenIndex

def empty : TokenIndex := ⟨[], List.Pairwise.nil, by simp⟩

theorem keyed_insert (t : TokenIndex) (r : TokenRecord) :
    ∀ p ∈ insertPair r.hash r t.byHash, p.1 = p.2.hash := by
  intro p hp
  rcases mem_insertPair hp with rfl | hold
  · rfl
  · exact t.keyed p hold

def insert (t : TokenIndex) (r : TokenRecord) : TokenIndex :=
  ⟨insertPair r.hash r t.byHash, t.sorted.insertPair r.hash r, t.keyed_insert r⟩

def fromRecords (records : List TokenRecord) : TokenIndex := records.foldl insert empty

def records (t : TokenIndex) : List TokenRecord := t.byHash.map Prod.snd

/-- `by_id_mut`: the first record with the id, in the order of the digests. -/
def byId (t : TokenIndex) (id : String) : Option TokenRecord :=
  t.records.find? fun r => r.id = id

/-- The locked part of `revoke_token`; `none` where it answers `Ok(false)`. -/
def revoke (t : TokenIndex) (id : String) : Option TokenIndex :=
  match t.byId id with
  | some r => if r.revoked then none else some (t.insert { r with revoked := true })
  | none => none

/-- `verify`, on the digest of the presented secret. -/
def verify (t : TokenIndex) (digest : String) (now : Nat) : Except TokenError TokenIdentity :=
  match t.byHash.lookup digest with
  | some r =>
      if r.hash = digest && r.isValidAt now then
        .ok ⟨r.id, r.description, r.scope, r.databases, r.authorizations⟩
      else .error .invalid
  | none => .error .invalid

end TokenIndex

section Order

/-- The same record, revoked or not. -/
def TokenRecord.Grows (r r' : TokenRecord) : Prop :=
  { r' with revoked := r.revoked } = r ∧ (r.revoked = true → r'.revoked = true)

instance (r r' : TokenRecord) : Decidable (r.Grows r') :=
  inferInstanceAs (Decidable (_ ∧ (_ → _)))

/-- The document has the record, or the same one revoked. -/
def Has (d : List TokenRecord) (r : TokenRecord) : Prop := ∃ r' ∈ d, r.Grows r'

def Covers (d d' : List TokenRecord) : Prop := ∀ r ∈ d, Has d' r

instance (d : List TokenRecord) (r : TokenRecord) : Decidable (Has d r) :=
  inferInstanceAs (Decidable (∃ r' ∈ d, _))

instance (d d' : List TokenRecord) : Decidable (Covers d d') :=
  inferInstanceAs (Decidable (∀ r ∈ d, _))

def RevokedIn (d : List TokenRecord) (id : String) : Prop := ∃ r ∈ d, r.id = id ∧ r.revoked = true

variable {r r' r'' : TokenRecord} {d d' d'' : List TokenRecord}

theorem TokenRecord.Grows.refl (r : TokenRecord) : r.Grows r := ⟨rfl, fun h => h⟩

theorem TokenRecord.Grows.trans (h : r.Grows r') (h' : r'.Grows r'') : r.Grows r'' := by
  obtain ⟨hsame, hkept⟩ := h
  obtain ⟨hsame', hkept'⟩ := h'
  refine ⟨?_, fun hr => hkept' (hkept hr)⟩
  rw [← hsame'] at hsame
  exact hsame

theorem TokenRecord.Grows.id_eq (h : r.Grows r') : r'.id = r.id := by
  have hid := congrArg (fun q : TokenRecord => q.id) h.1
  exact hid

theorem Covers.refl (d : List TokenRecord) : Covers d d := fun r hr => ⟨r, hr, .refl r⟩

theorem Has.covers (h : Has d r) (hcovers : Covers d d') : Has d' r := by
  obtain ⟨r', hr', hgrows⟩ := h
  obtain ⟨r'', hr'', hgrows'⟩ := hcovers r' hr'
  exact ⟨r'', hr'', hgrows.trans hgrows'⟩

theorem Covers.trans (h : Covers d d') (h' : Covers d' d'') : Covers d d'' :=
  fun r hr => (h r hr).covers h'

theorem RevokedIn.covers {id : String} (h : RevokedIn d id) (hcovers : Covers d d') :
    RevokedIn d' id := by
  obtain ⟨r, hr, hid, hrevoked⟩ := h
  obtain ⟨r', hr', hgrows⟩ := hcovers r hr
  exact ⟨r', hr', hgrows.id_eq.trans hid, hgrows.2 hrevoked⟩

end Order

namespace TokenIndex

variable {t : TokenIndex} {r : TokenRecord}

theorem mem_records : r ∈ t.records ↔ (r.hash, r) ∈ t.byHash := by
  unfold records
  rw [List.mem_map]
  constructor
  · rintro ⟨p, hp, rfl⟩
    rw [← t.keyed p hp]
    exact hp
  · exact fun h => ⟨_, h, rfl⟩

theorem lookup_eq_some {digest : String} :
    t.byHash.lookup digest = some r ↔ r ∈ t.records ∧ r.hash = digest := by
  rw [t.sorted.lookup_eq_some, mem_records]
  constructor
  · intro h
    have hkey : digest = r.hash := t.keyed _ h
    exact ⟨hkey ▸ h, hkey.symm⟩
  · rintro ⟨h, rfl⟩
    exact h

/-- There is one record for a digest. -/
theorem eq_of_hash {r' : TokenRecord} (h : r ∈ t.records) (h' : r' ∈ t.records)
    (hhash : r.hash = r'.hash) : r = r' := by
  have hr := lookup_eq_some.mpr ⟨h, hhash⟩
  rw [lookup_eq_some.mpr ⟨h', rfl⟩] at hr
  exact (Option.some.inj hr).symm

theorem mem_insert {q : TokenRecord} :
    q ∈ (t.insert r).records ↔ q = r ∨ (q ∈ t.records ∧ q.hash ≠ r.hash) := by
  have hlookup : (t.insert r).byHash.lookup q.hash =
      if q.hash = r.hash then some r else t.byHash.lookup q.hash :=
    lookup_insertPair r.hash r t.byHash q.hash
  have hmem : q ∈ (t.insert r).records ↔ (t.insert r).byHash.lookup q.hash = some q :=
    ⟨fun h => lookup_eq_some.mpr ⟨h, rfl⟩, fun h => (lookup_eq_some.mp h).1⟩
  rw [hmem, hlookup]
  split
  · next heq =>
      constructor
      · exact fun h => .inl (Option.some.inj h).symm
      · rintro (rfl | ⟨_, hne⟩)
        · rfl
        · exact absurd heq hne
  · next hne =>
      rw [lookup_eq_some]
      constructor
      · exact fun h => .inr ⟨h.1, hne⟩
      · rintro (rfl | h)
        · exact absurd rfl hne
        · exact ⟨h.1, rfl⟩

/-- A record that grows one of the index, or one with a new digest. -/
theorem covers_insert (h : ∀ q ∈ t.records, q.hash = r.hash → q.Grows r) :
    Covers t.records (t.insert r).records := by
  intro q hq
  by_cases hhash : q.hash = r.hash
  · exact ⟨r, mem_insert.mpr (.inl rfl), h q hq hhash⟩
  · exact ⟨q, mem_insert.mpr (.inr ⟨hq, hhash⟩), .refl q⟩

theorem mem_fromRecords {d : List TokenRecord} (h : (d.map TokenRecord.hash).Nodup) :
    r ∈ (fromRecords d).records ↔ r ∈ d := by
  have hfold : ∀ (d : List TokenRecord) (t : TokenIndex), (d.map TokenRecord.hash).Nodup →
      (∀ q ∈ t.records, q.hash ∉ d.map TokenRecord.hash) →
        (r ∈ (d.foldl insert t).records ↔ r ∈ t.records ∨ r ∈ d) := by
    intro d
    induction d with
    | nil => simp
    | cons p rest ih =>
        intro t hnodup hnew
        obtain ⟨hout, hrest⟩ := List.nodup_cons.mp hnodup
        rw [List.foldl_cons, ih (t.insert p) hrest, mem_insert, List.mem_cons]
        · constructor
          · rintro ((rfl | ⟨hq, _⟩) | hq)
            · exact .inr (.inl rfl)
            · exact .inl hq
            · exact .inr (.inr hq)
          · rintro (hq | rfl | hq)
            · refine .inl (.inr ⟨hq, fun heq => hnew r hq ?_⟩)
              rw [heq]
              exact List.mem_cons_self
            · exact .inl (.inl rfl)
            · exact .inr hq
        · intro q hq
          rcases mem_insert.mp hq with rfl | ⟨hold, _⟩
          · exact hout
          · exact fun hin => hnew q hold (List.mem_cons_of_mem _ hin)
  rw [fromRecords, hfold d empty h (by simp [empty, records])]
  simp [empty, records]

theorem nodup_records (t : TokenIndex) : (t.records.map TokenRecord.hash).Nodup := by
  have hkeys : t.records.map TokenRecord.hash = t.byHash.map Prod.fst := by
    rw [records, List.map_map]
    exact List.map_congr_left fun p hp => (t.keyed p hp).symm
  rw [hkeys]
  exact List.pairwise_map.mpr (t.sorted.imp fun hlt => ne_of_lt hlt)

theorem mem_of_byId {id : String} (h : t.byId id = some r) : r ∈ t.records ∧ r.id = id :=
  ⟨List.mem_of_find?_eq_some h, by simpa using List.find?_some h⟩

/-- What a revocation leaves: everything there was, the token revoked. -/
theorem revoke_spec {id : String} {t' : TokenIndex} (h : t.revoke id = some t') :
    Covers t.records t'.records ∧ RevokedIn t'.records id ∧
      ∀ q ∈ t'.records, ∃ q' ∈ t.records, q'.id = q.id ∧ q'.hash = q.hash := by
  unfold revoke at h
  split at h
  · next r hfound =>
      split at h
      · cases h
      · next hlive =>
          obtain rfl := Option.some.inj h
          obtain ⟨hr, hid⟩ := mem_of_byId hfound
          refine ⟨covers_insert ?_, ⟨_, mem_insert.mpr (.inl rfl), hid, rfl⟩, ?_⟩
          · intro q hq hhash
            obtain rfl := eq_of_hash hq hr hhash
            exact ⟨rfl, fun _ => rfl⟩
          · intro q hq
            rcases mem_insert.mp hq with rfl | ⟨hold, _⟩
            · exact ⟨r, hr, rfl, rfl⟩
            · exact ⟨q, hold, rfl, rfl⟩
  · cases h

/-- A token that verifies is in the index and not revoked. -/
theorem verify_ok {digest : String} {now : Nat} {identity : TokenIdentity}
    (h : t.verify digest now = .ok identity) :
    ∃ r ∈ t.records, r.id = identity.id ∧ r.hash = digest ∧ r.revoked = false := by
  unfold verify at h
  split at h
  · next r hlookup =>
      split at h
      · next hvalid =>
          obtain rfl := Except.ok.inj h
          simp only [TokenRecord.isValidAt, Bool.and_eq_true, Bool.not_eq_true'] at hvalid
          exact ⟨r, (lookup_eq_some.mp hlookup).1, rfl, (lookup_eq_some.mp hlookup).2, hvalid.2.1⟩
      · cases h
  · cases h

end TokenIndex

end TimeLake.Auth
