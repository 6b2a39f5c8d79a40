import Mathlib.Data.List.Nodup

/-!
The records of `crates/audit` and their hash chain. SHA-256 over the JSON of a
record is a parameter, a function of every field but the hash; `before` and
`after` are the texts of their JSON values.
-/

namespace TimeLake.Audit

/-- `GENESIS` -/
def genesis : String := "sha256:genesis"

structure NewRecord where
  principal : String
  role : String
  session : Option String
  source : Option String
  requestId : Option String
  action : String
  target : Option String
  before : Option String
  after : Option String
  outcome : String
  deriving DecidableEq, Repr

/-- The fields a hash is computed over. -/
structure HashInput extends NewRecord where
  seq : Nat
  ts : String
  node : String
  prevHash : String
  deriving DecidableEq, Repr

structure AuditRecord extends HashInput where
  hash : String
  deriving DecidableEq, Repr

inductive BreakReason where
  | seq (want found : Nat)
  | prevHash
  | edited
  deriving DecidableEq, Repr

def BreakReason.text : BreakReason → String
  | .seq want found => "expected seq " ++ toString want ++ ", found " ++ toString found
  | .prevHash => "prev_hash does not match the previous record's hash"
  | .edited => "record hash does not match its contents (edited)"

structure AuditBreak where
  seq : Nat
  reason : BreakReason
  deriving DecidableEq, Repr

variable (sha : HashInput → String)

def computeHash (r : AuditRecord) : String := sha r.toHashInput

/-- The loop of `verify_records`. -/
def verifyFrom : String → Option Nat → List AuditRecord → Except AuditBreak Unit
  | _, _, [] => .ok ()
  | prev, expected, r :: rest =>
      match expected.filter (· ≠ r.seq) with
      | some want => .error ⟨r.seq, .seq want r.seq⟩
      | none =>
          if r.prevHash ≠ prev then .error ⟨r.seq, .prevHash⟩
          else if computeHash sha r ≠ r.hash then .error ⟨r.seq, .edited⟩
          else verifyFrom r.hash (some (r.seq + 1)) rest

def verifyRecords (records : List AuditRecord) : Except AuditBreak Unit :=
  verifyFrom sha genesis none records

/-- The `next_seq` and `head` that `open_with` recovers from the records. -/
def recover (records : List AuditRecord) : Nat × String :=
  records.foldl (fun _ r => (r.seq + 1, r.hash)) (1, genesis)

/-- The record `append` makes. -/
def newRecord (next : Nat × String) (node ts : String) (nr : NewRecord) : AuditRecord :=
  let input : HashInput := { nr with seq := next.1, ts := ts, node := node, prevHash := next.2 }
  { input with hash := sha input }

/-- A chain from a sequence number and a hash on. -/
def Chained : Nat × String → List AuditRecord → Prop
  | _, [] => True
  | next, r :: rest =>
      r.seq = next.1 ∧ r.prevHash = next.2 ∧ computeHash sha r = r.hash ∧
        Chained (r.seq + 1, r.hash) rest

section Lemmas

variable {sha} {next : Nat × String} {records : List AuditRecord}

@[simp] theorem recover_nil : recover [] = (1, genesis) := rfl

@[simp] theorem recover_concat (records : List AuditRecord) (r : AuditRecord) :
    recover (records ++ [r]) = (r.seq + 1, r.hash) := by
  simp [recover]

private theorem chained_concat_from {r : AuditRecord} (h : Chained sha next records)
    (hseq : r.seq = (records.foldl (fun _ r => (r.seq + 1, r.hash)) next).1)
    (hprev : r.prevHash = (records.foldl (fun _ r => (r.seq + 1, r.hash)) next).2)
    (hhash : computeHash sha r = r.hash) : Chained sha next (records ++ [r]) := by
  induction records generalizing next with
  | nil => exact ⟨hseq, hprev, hhash, trivial⟩
  | cons q rest ih =>
      obtain ⟨hq, hqprev, hqhash, hrest⟩ := h
      exact ⟨hq, hqprev, hqhash, ih hrest hseq hprev⟩

theorem Chained.snoc (h : Chained sha (1, genesis) records) {r : AuditRecord}
    (hnext : recover records = (r.seq, r.prevHash)) (hhash : computeHash sha r = r.hash) :
    Chained sha (1, genesis) (records ++ [r]) :=
  chained_concat_from h (congrArg Prod.fst hnext).symm (congrArg Prod.snd hnext).symm hhash

/-- The record made from what was recovered continues the chain. -/
theorem Chained.concat (h : Chained sha (1, genesis) records) {node ts : String}
    {nr : NewRecord} :
    Chained sha (1, genesis) (records ++ [newRecord sha (recover records) node ts nr]) :=
  chained_concat_from h rfl rfl rfl

theorem Chained.verify (h : Chained sha (1, genesis) records) :
    verifyRecords sha records = .ok () := by
  have hfrom : ∀ (records : List AuditRecord) (next : Nat × String) (expected : Option Nat),
      (expected = none ∨ expected = some next.1) → Chained sha next records →
        verifyFrom sha next.2 expected records = .ok () := by
    intro records
    induction records with
    | nil => exact fun _ _ _ _ => rfl
    | cons r rest ih =>
        rintro next expected hexpected ⟨hseq, hprev, hhash, hrest⟩
        have hnone : expected.filter (· ≠ r.seq) = none := by
          rcases hexpected with rfl | rfl
          · rfl
          · simp [Option.filter, hseq]
        simp only [verifyFrom, hnone, hprev, hhash, ne_eq, not_true_eq_false, if_false]
        exact ih (r.seq + 1, r.hash) _ (.inr rfl) hrest
  exact hfrom records (1, genesis) none (.inl rfl) h

theorem verifyFrom_cons {prev : String} {expected : Option Nat} {r : AuditRecord} :
    verifyFrom sha prev expected (r :: records) = .ok () ↔
      expected.filter (· ≠ r.seq) = none ∧ r.prevHash = prev ∧ computeHash sha r = r.hash ∧
        verifyFrom sha r.hash (some (r.seq + 1)) records = .ok () := by
  rw [verifyFrom]
  cases hseq : expected.filter (· ≠ r.seq) with
  | some want => simp
  | none =>
      by_cases hprev : r.prevHash = prev
      · by_cases hhash : computeHash sha r = r.hash
        · simp [hprev, hhash]
        · simp [hprev, hhash]
      · simp [hprev]

/-- A verified trail without its last record verifies, and the last record is chained to
what is left. -/
theorem verifyRecords_concat {r : AuditRecord} (h : verifyRecords sha (records ++ [r]) = .ok ()) :
    verifyRecords sha records = .ok () ∧ r.prevHash = (recover records).2 ∧
      computeHash sha r = r.hash := by
  have hfrom : ∀ (records : List AuditRecord) (next : Nat × String) (expected : Option Nat),
      verifyFrom sha next.2 expected (records ++ [r]) = .ok () →
        verifyFrom sha next.2 expected records = .ok () ∧
          r.prevHash = (records.foldl (fun _ r => (r.seq + 1, r.hash)) next).2 ∧
            computeHash sha r = r.hash := by
    intro records
    induction records with
    | nil =>
        intro next expected hr
        obtain ⟨_, hprev, hhash, _⟩ := verifyFrom_cons.mp hr
        exact ⟨rfl, hprev, hhash⟩
    | cons q rest ih =>
        intro next expected hq
        obtain ⟨hseq, hprev, hhash, hrest⟩ := verifyFrom_cons.mp hq
        obtain ⟨hverified, hlast⟩ := ih (q.seq + 1, q.hash) _ hrest
        exact ⟨verifyFrom_cons.mpr ⟨hseq, hprev, hhash, hverified⟩, hlast⟩
  exact hfrom records (1, genesis) none h

/-- The sequence numbers of a chain count up. -/
theorem Chained.seqs (h : Chained sha next records) :
    records.map (fun r => r.seq) = List.range' next.1 records.length := by
  induction records generalizing next with
  | nil => rfl
  | cons r rest ih =>
      obtain ⟨hseq, _, _, hrest⟩ := h
      rw [List.map_cons, List.length_cons, List.range'_succ, ih hrest, hseq]

theorem Chained.nodup (h : Chained sha next records) : records.Nodup := by
  refine List.Nodup.of_map (fun r => r.seq) ?_
  rw [h.seqs]
  exact List.nodup_range'

theorem Chained.recover_seq (h : Chained sha (1, genesis) records) :
    (recover records).1 = records.length + 1 := by
  have hfrom : ∀ (records : List AuditRecord) (next : Nat × String), Chained sha next records →
      (records.foldl (fun _ r => (r.seq + 1, r.hash)) next).1 = next.1 + records.length := by
    intro records
    induction records with
    | nil => exact fun _ _ => rfl
    | cons r rest ih =>
        rintro next ⟨hseq, _, _, hrest⟩
        rw [List.foldl_cons, ih _ hrest, List.length_cons, hseq]
        omega
  rw [recover, hfrom records (1, genesis) h]
  omega

end Lemmas

end TimeLake.Audit
