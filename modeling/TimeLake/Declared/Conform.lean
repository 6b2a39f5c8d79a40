import TimeLake.Declared.Machine
import TimeLake.Library.Run

/-!
When a declared table holds declared rows only. No lock spans the reads of a
write or of a create and what they end in, and a node's view of the log may be
old. `Careful` is the lock that is missing: of one table, a write past its look
at the declaration and a create past its look at the buffers are never under way
together, and each of the two sees what the log and the other nodes have.
-/

namespace TimeLake.Declared

open TimeLake.Library
open TimeLake.Catalog (TableKey TableSchema FileMeta FileIndex Index ManifestEntry DroppedTable
  applyEntry indexOf indexOf_snoc)
open TimeLake.Ingest (ParsedLine validateDeclared)

variable {ι : Type}

section Condition

/-- The table a write is about to look up. -/
def State.looksUp (s : State ι) (k : Nat) : Option (ι × TableKey) :=
  match s.calls.lookup k with
  | some (i, .write ⟨db, _, declared, .checking (line :: _)⟩) =>
      if (declared.lookup line.table).isNone then some (i, (db, line.table)) else none
  | _ => none

/-- The table a create is about to look for. -/
def State.looksFor (s : State ι) (k : Nat) : Option (ι × TableKey) :=
  match s.calls.lookup k with
  | some (i, .create schema .buffers) => some (i, schemaKey schema)
  | some (i, .create schema .files) => some (i, schemaKey schema)
  | _ => none

/-- A write that has looked up the declaration of the table. -/
def Call.writes (key : TableKey) : Call → Bool
  | .write w => w.db = key.1 && (w.declared.lookup key.2).isSome
  | _ => false

/-- A flush that has rows of the table on their way to the catalog. -/
def Call.carries (key : TableKey) : Call → Bool
  | .flush _ (.uploading _ todo metas _) =>
      (todo.any fun b => b.1 = key) || metas.any fun f => f.key = key
  | _ => false

/-- A create of the table that has not found it in the buffers. -/
def Call.mayDeclare (key : TableKey) : Call → Bool
  | .create schema .files => schemaKey schema = key
  | .create schema .commit => schemaKey schema = key
  | _ => false

def Node.HasNone (node : Node) (key : TableKey) : Prop :=
  (node.dbs.lookup key).getD [] = [] ∧ (node.flushing.lookup key).getD [] = []

instance (node : Node) (key : TableKey) : Decidable (node.HasNone key) :=
  inferInstanceAs (Decidable (_ ∧ _))

/-- No write or flush of the table is under way, and no memory has rows of it. -/
def State.Unused (s : State ι) (key : TableKey) : Prop :=
  (∀ c ∈ s.calls.values, c.2.writes key = false ∧ c.2.carries key = false) ∧
    ∀ j, (s.node j).HasNone key

def State.Undisputed (s : State ι) (key : TableKey) : Prop :=
  ∀ c ∈ s.calls.values, c.2.mayDeclare key = false

def filed (log : List ManifestEntry) (key : TableKey) : Bool :=
  ((indexOf log).files.map.lookup key).isSome

/-- A write looks up the declaration that the log has, while no create of the
table is past its look at the buffers. A create that finds no buffer of its table
is on the only node that has rows of it, if any, and no write or flush of the
table is under way; it knows of files of the table if the log does. -/
def Careful (s : State ι) : Action ι → Prop
  | .check k => ∀ p ∈ s.looksUp k,
      (s.node p.1).catalog.index.declared.lookup p.2 = declaredIn s.log p.2 ∧ s.Undisputed p.2
  | .lookBuffers k => ∀ p ∈ s.looksFor k,
      (s.node p.1).dbs.lookup p.2 = none → s.Unused p.2
  | .lookFiles k _ => ∀ p ∈ s.looksFor k,
      filed s.log p.2 → ((s.node p.1).catalog.index.files.map.lookup p.2).isSome
  | _ => True

section Decide

variable [Fintype ι]

instance (s : State ι) (key : TableKey) : Decidable (s.Unused key) :=
  inferInstanceAs (Decidable ((∀ c ∈ s.calls.values, _) ∧ ∀ j, (s.node j).HasNone key))

instance (s : State ι) (key : TableKey) : Decidable (s.Undisputed key) :=
  inferInstanceAs (Decidable (∀ c ∈ s.calls.values, _))

instance (s : State ι) : DecidablePred (Careful s)
  | .check k => inferInstanceAs (Decidable (∀ p ∈ s.looksUp k, _))
  | .lookBuffers k => inferInstanceAs (Decidable (∀ p ∈ s.looksFor k, _))
  | .lookFiles k _ => inferInstanceAs (Decidable (∀ p ∈ s.looksFor k, _))
  | .write _ _ _ => .isTrue trivial
  | .append _ => .isTrue trivial
  | .apply _ _ _ => .isTrue trivial
  | .ack _ => .isTrue trivial
  | .create _ _ => .isTrue trivial
  | .flush _ => .isTrue trivial
  | .drop _ _ => .isTrue trivial
  | .handover _ _ _ => .isTrue trivial
  | .upload _ _ => .isTrue trivial
  | .uploadFail _ => .isTrue trivial
  | .commit _ => .isTrue trivial
  | .commitLost _ => .isTrue trivial
  | .release _ => .isTrue trivial
  | .purge _ => .isTrue trivial
  | .catchUp _ => .isTrue trivial
  | .fail _ => .isTrue trivial

end Decide

end Condition

section Entries

/-! What one entry does to the declaration and to the files of one table. -/

variable {log : List ManifestEntry} {e : ManifestEntry} {key : TableKey}

private theorem lookup_foldl_declare (schemas : List TableSchema)
    (h : (schemas.any fun schema => schemaKey schema = key) = false)
    (declared : AssocMap TableKey TableSchema) :
    (schemas.foldl (fun d s => d.insert (s.db, s.table) s) declared).lookup key =
      declared.lookup key := by
  refine AssocMap.lookup_foldl_insert_of_notMem (fun s => (s.db, s.table)) id schemas declared ?_
  intro hmem
  obtain ⟨schema, hschema, heq⟩ := List.mem_map.mp hmem
  rw [List.any_eq_false] at h
  exact h schema hschema (decide_eq_true heq)

private theorem foldl_drop_lookup (drops : List DroppedTable) (c : Index) :
    (∀ schema, (drops.foldl Index.dropTable c).declared.lookup key = some schema →
      c.declared.lookup key = some schema) ∧
    (c.files.map.lookup key = none →
      (drops.foldl Index.dropTable c).files.map.lookup key = none) := by
  induction drops generalizing c with
  | nil => exact ⟨fun _ h => h, fun h => h⟩
  | cons d rest ih =>
      rw [List.foldl_cons]
      obtain ⟨hdeclared, hfiles⟩ := ih (c.dropTable d)
      constructor
      · intro schema h
        exact (AssocMap.of_lookup_erase (hdeclared schema h)).2
      · intro h
        apply hfiles
        by_cases hkey : key = (d.db, d.table)
        · subst hkey
          exact AList.lookup_erase (d.db, d.table) c.files.map
        · exact (AList.lookup_erase_ne hkey).trans h

private theorem foldl_push_lookup (adds : List FileMeta) (ix : FileIndex)
    (hadds : ∀ f ∈ adds, f.key ≠ key) (h : ix.map.lookup key = none) :
    (adds.foldl FileIndex.push ix).map.lookup key = none := by
  induction adds generalizing ix with
  | nil => exact h
  | cons f rest ih =>
      rw [List.foldl_cons]
      refine ih _ (fun g hg => hadds g (List.mem_cons_of_mem f hg)) ?_
      exact (AList.lookup_insert_ne (hadds f List.mem_cons_self).symm).trans h

theorem declaredIn_of_snoc (h : declares key e = false) {schema : TableSchema}
    (hafter : declaredIn (log ++ [e]) key = some schema) : declaredIn log key = some schema := by
  rw [declaredIn, indexOf_snoc] at hafter
  rw [declaredIn, ← lookup_foldl_declare e.schemaDecls h]
  exact (foldl_drop_lookup e.dropTables _).1 schema hafter

theorem filed_snoc (hadds : ∀ f ∈ e.addFiles, f.key ≠ key) (h : filed log key = false) :
    filed (log ++ [e]) key = false := by
  simp only [filed, Option.isSome_eq_false_iff, Option.isNone_iff_eq_none, indexOf_snoc] at h ⊢
  refine (foldl_drop_lookup e.dropTables _).2 (foldl_push_lookup e.addFiles _ hadds ?_)
  split
  · exact h
  · simp only [FileIndex.retain, AssocMap.lookup_mapVal, h, Option.map_none]

end Entries

section Invariant

/-- What a write has looked up is in force or has been dropped, and the lines it
has checked fit it. -/
structure WriteKept (log : List ManifestEntry) (w : Write) : Prop where
  current : ∀ table known, w.declared.lookup table = some known →
    declaredIn log (w.db, table) = none ∨ declaredIn log (w.db, table) = known
  valid : ∀ l ∈ w.lines, (∃ todo, w.stage = .checking todo ∧ l ∈ todo) ∨
    ∃ known, w.declared.lookup l.table = some known ∧ validate known l = .ok ()

def CallKept (s : State ι) : Call → Prop
  | .write w => WriteKept s.log w
  | .create schema stage => (stage = .buffers ∨ s.Unused (schemaKey schema)) ∧
      (stage = .commit → filed s.log (schemaKey schema) = false)
  | _ => True

structure Kept (s : State ι) : Prop where
  call : ∀ k i c, s.calls.lookup k = some (i, c) → CallKept s c
  conforms : s.Conforms
  bound : ∀ a ∈ s.acked, a.commits ≤ s.log.length

end Invariant

section Updates

variable {s : State ι} {k : Nat} {i : ι} {key : TableKey}

/-- A table that a create may declare is unused. -/
theorem Kept.unused (h : Kept s) (hmay : ¬ s.Undisputed key) : s.Unused key := by
  unfold State.Undisputed at hmay
  push Not at hmay
  obtain ⟨⟨i, c⟩, hc, hmay⟩ := hmay
  obtain ⟨k, hk⟩ := AssocMap.mem_values.mp hc
  have hkept := h.call k i c hk
  cases c with
  | create schema stage =>
      cases stage with
      | buffers => simp [Call.mayDeclare] at hmay
      | files =>
          obtain rfl : schemaKey schema = key := by simpa [Call.mayDeclare] using hmay
          exact hkept.1.resolve_left (by simp)
      | commit =>
          obtain rfl : schemaKey schema = key := by simpa [Call.mayDeclare] using hmay
          exact hkept.1.resolve_left (by simp)
  | write w => simp [Call.mayDeclare] at hmay
  | flush dropping stage => simp [Call.mayDeclare] at hmay
  | drop key stage => simp [Call.mayDeclare] at hmay

/-- A create past its look at the buffers disputes its table. -/
theorem not_undisputed {schema : TableSchema} {stage : CreateStage}
    (hc : s.calls.lookup k = some (i, .create schema stage)) (hstage : stage ≠ .buffers) :
    ¬ s.Undisputed (schemaKey schema) := by
  intro h
  have hfalse := h _ (AssocMap.mem_values.mpr ⟨k, hc⟩)
  cases stage with
  | buffers => exact hstage rfl
  | files => simp [Call.mayDeclare] at hfalse
  | commit => simp [Call.mayDeclare] at hfalse

/-- What a call may go on as. -/
def Admissible (s : State ι) (c : Call) : Prop :=
  CallKept s c ∧ ∀ key, ¬ s.Undisputed key → c.writes key = false ∧ c.carries key = false

theorem of_lookup_next {c : Option Call} {j : Nat} {x : ι × Call}
    (hx : (s.next k i c).calls.lookup j = some x) :
    s.calls.lookup j = some x ∨ ∃ c', c = some c' ∧ x = (i, c') := by
  cases c with
  | none => exact .inl (AssocMap.of_lookup_erase hx).2
  | some c' =>
      rcases AssocMap.of_lookup_insert hx with ⟨_, rfl⟩ | ⟨_, hold⟩
      · exact .inr ⟨c', rfl, rfl⟩
      · exact .inl hold

theorem State.Unused.next (h : s.Unused key) {c : Option Call}
    (hc : ∀ c' ∈ c, c'.writes key = false ∧ c'.carries key = false) :
    (s.next k i c).Unused key := by
  refine ⟨?_, h.2⟩
  intro x hx
  obtain ⟨j, hj⟩ := AssocMap.mem_values.mp hx
  rcases of_lookup_next hj with hold | ⟨c', hc', rfl⟩
  · exact h.1 x (AssocMap.mem_values.mpr ⟨j, hold⟩)
  · exact hc c' hc'

theorem Kept.next (h : Kept s) {c : Option Call} (hc : ∀ c' ∈ c, Admissible s c') :
    Kept (s.next k i c) := by
  refine ⟨?_, h.conforms, h.bound⟩
  intro j i' x hx
  rcases of_lookup_next hx with hold | ⟨c', hc', heq⟩
  · have hkept := h.call j i' x hold
    cases x with
    | create schema stage =>
        refine ⟨?_, hkept.2⟩
        by_cases hstage : stage = .buffers
        · exact .inl hstage
        · have hmay := not_undisputed hold hstage
          exact .inr ((h.unused hmay).next fun c' hc' => (hc c' hc').2 _ hmay)
    | write w => exact hkept
    | flush dropping stage => trivial
    | drop key stage => trivial
  · cases heq
    have hkept := (hc x hc').1
    cases x with
    | create schema stage =>
        refine ⟨hkept.1.imp_right fun hunused => hunused.next ?_, hkept.2⟩
        rintro c' hc''
        obtain rfl := Option.some.inj (hc'.symm.trans hc'')
        exact ⟨rfl, rfl⟩
    | write w => exact hkept
    | flush dropping stage => trivial
    | drop key stage => trivial

theorem Kept.set [DecidableEq ι] (h : Kept s) {node : Node}
    (hrows : ∀ key, s.Unused key → node.HasNone key) : Kept (s.set i node) := by
  refine ⟨?_, h.conforms, h.bound⟩
  intro k i' c hc
  have hkept := h.call k i' c hc
  cases c with
  | create schema stage =>
      refine ⟨hkept.1.imp_right fun hunused => ⟨hunused.1, ?_⟩, hkept.2⟩
      intro j
      by_cases hj : j = i
      · subst hj
        simpa [State.set] using hrows _ hunused
      · simpa [State.set, hj] using hunused.2 j
  | write w => exact hkept
  | flush dropping stage => trivial
  | drop key stage => trivial

/-- A commit declares the table of the create it ends, and adds files of tables
that its flush carries. -/
theorem commits_effect {c : Call} {args : Catalog.CommitArgs} (h : c.commits = some args)
    (n : Nat) :
    (∀ key, declares key (args.entry n) = true →
      ∃ schema, c = .create schema .commit ∧ schemaKey schema = key) ∧
    ∀ f ∈ (args.entry n).addFiles, c.carries f.key = true := by
  unfold Call.commits at h
  split at h
  · next schema =>
      obtain rfl := Option.some.inj h
      refine ⟨fun key hkey => ⟨schema, rfl, ?_⟩, ?_⟩
      · simpa [declares, Catalog.CommitArgs.entry] using hkey
      · intro f hf
        cases hf
  · next dropping failed metas done =>
      obtain rfl := Option.some.inj h
      refine ⟨fun key hkey => by simp [declares, Catalog.CommitArgs.entry] at hkey, ?_⟩
      intro f hf
      simp only [Call.carries, Bool.or_eq_true, List.any_eq_true, decide_eq_true_eq]
      exact .inr ⟨f, hf, rfl⟩
  · next key =>
      obtain rfl := Option.some.inj h
      refine ⟨fun key hkey => by simp [declares, Catalog.CommitArgs.entry] at hkey, ?_⟩
      intro f hf
      cases hf
  · cases h

theorem Kept.commit (h : Kept s) {c : Call} (hlookup : s.calls.lookup k = some (i, c))
    {args : Catalog.CommitArgs} (hcommits : c.commits = some args) (n : Nat) :
    Kept { s with log := s.log ++ [args.entry n] } := by
  obtain ⟨hdeclares, hfiles⟩ := commits_effect hcommits n
  have hmem : (i, c) ∈ s.calls.values := AssocMap.mem_values.mpr ⟨k, hlookup⟩
  have hdisputed : ∀ key, declares key (args.entry n) = true → ¬ s.Undisputed key := by
    intro key hkey
    obtain ⟨schema, rfl, rfl⟩ := hdeclares key hkey
    exact not_undisputed hlookup (by simp)
  refine ⟨?_, ?_, ?_⟩
  · intro j i' x hx
    have hkept := h.call j i' x hx
    cases x with
    | write w =>
        refine ⟨?_, hkept.valid⟩
        intro table known hknown
        by_cases hd : declares (w.db, table) (args.entry n) = true
        · have hwrites := ((h.unused (hdisputed _ hd)).1 _ (AssocMap.mem_values.mpr ⟨j, hx⟩)).1
          simp [Call.writes, hknown] at hwrites
        · rw [Bool.not_eq_true] at hd
          cases hafter : declaredIn (s.log ++ [args.entry n]) (w.db, table) with
          | none => exact .inl rfl
          | some schema =>
              have hbefore := declaredIn_of_snoc hd hafter
              have hcurrent := hkept.current table known hknown
              rw [hbefore] at hcurrent
              exact .inr (hcurrent.resolve_left (by simp))
    | create schema stage =>
        refine ⟨hkept.1, ?_⟩
        intro hstage
        refine filed_snoc ?_ (hkept.2 hstage)
        intro f hf heq
        have hunused := hkept.1.resolve_left (by simp [hstage])
        have := (hunused.1 _ hmem).2
        rw [← heq, hfiles f hf] at this
        cases this
    | flush dropping stage => trivial
    | drop key stage => trivial
  · intro a ha schema hschema hsince
    have hbound := h.bound a ha
    have hdrop : (s.log ++ [args.entry n]).drop a.commits =
        s.log.drop a.commits ++ [args.entry n] := List.drop_append_of_le_length hbound
    rw [hdrop] at hsince
    have hlast : declares a.key (args.entry n) = false := hsince _ (by simp)
    exact h.conforms a ha schema (declaredIn_of_snoc hlast hschema) fun e he =>
      hsince e (List.mem_append_left _ he)
  · intro a ha
    have := h.bound a ha
    simp only [List.length_append, List.length_singleton]
    omega

theorem Kept.acknowledge (h : Kept s) {db : String} {lines : List ParsedLine}
    {declared : AssocMap String (Option TableSchema)}
    (hlookup : s.calls.lookup k = some (i, .write ⟨db, lines, declared, .applied⟩)) :
    Kept { s with
      acked := s.acked ++ lines.map fun l => ⟨k, (db, l.table), l, s.log.length⟩ } := by
  have hwrite := h.call k i _ hlookup
  refine ⟨h.call, ?_, ?_⟩
  · intro a ha schema hschema hsince
    rcases List.mem_append.mp ha with hold | hnew
    · exact h.conforms a hold schema hschema hsince
    · obtain ⟨l, hl, rfl⟩ := List.mem_map.mp hnew
      rcases hwrite.valid l hl with ⟨todo, hstage, _⟩ | ⟨known, hknown, hvalid⟩
      · cases hstage
      · have hcurrent := hwrite.current l.table known hknown
        rw [show declaredIn s.log (db, l.table) = some schema from hschema] at hcurrent
        obtain rfl := hcurrent.resolve_left (by simp)
        exact hvalid
  · intro a ha
    rcases List.mem_append.mp ha with hold | hnew
    · exact h.bound a hold
    · obtain ⟨l, _, rfl⟩ := List.mem_map.mp hnew
      exact Nat.le_refl _

end Updates

section Calls

/-! What each step does to the invariant. -/

variable {s t : State ι} {k : Nat} {i : ι}

/-- A call ends. -/
theorem Kept.finish (h : Kept s) : Kept (s.next k i none) :=
  h.next fun _ hc => by cases hc

theorem Kept.goOn (h : Kept s) {c : Call} (hc : Admissible s c) : Kept (s.next k i (some c)) :=
  h.next fun c' hc' => by
    obtain rfl := Option.some.inj hc'
    exact hc

theorem Kept.start (h : Kept s) {c : Call} (hc : Admissible s c) : Kept (s.start i c) :=
  have hnext : Kept (s.next s.started i (some c)) := h.goOn hc
  ⟨hnext.call, hnext.conforms, hnext.bound⟩

/-- A write that has no more looked up than before. -/
theorem Kept.admissible_write (h : Kept s) {w w' : Write}
    (hlookup : s.calls.lookup k = some (i, .write w)) (hkept : WriteKept s.log w')
    (hdb : w'.db = w.db) (hdeclared : w'.declared = w.declared) : Admissible s (.write w') := by
  refine ⟨hkept, fun key hmay => ⟨?_, rfl⟩⟩
  have hold := ((h.unused hmay).1 _ (AssocMap.mem_values.mpr ⟨k, hlookup⟩)).1
  simpa only [Call.writes, hdb, hdeclared] using hold

theorem Kept.check (h : Kept s) (hok : Careful s (.check k))
    (hstep : Declared.check s k = some t) : Kept t := by
  unfold Declared.check at hstep
  split at hstep
  · next i db lines declared line todo hlookup =>
      have hkept : WriteKept s.log _ := h.call k i _ hlookup
      obtain ⟨known, hknown⟩ : ∃ known,
          known = knownFor (s.node i).catalog declared db line.table := ⟨_, rfl⟩
      rw [← hknown] at hstep
      dsimp only at hstep
      split at hstep
      · next hvalid =>
          obtain rfl := Option.some.inj hstep
          refine h.goOn ⟨⟨?_, ?_⟩, ?_⟩
          · intro table known' hlookup'
            rcases AssocMap.of_lookup_insert hlookup' with ⟨rfl, rfl⟩ | ⟨_, hold⟩
            · cases hcache : declared.lookup line.table with
              | some cached =>
                  rw [hknown, knownFor, hcache]
                  exact hkept.current line.table cached hcache
              | none =>
                  have hfresh := (hok (i, (db, line.table))
                    (by simp [State.looksUp, hlookup, hcache])).1
                  rw [hknown, knownFor, hcache]
                  exact .inr hfresh.symm
            · exact hkept.current table known' hold
          · intro l hl
            rcases hkept.valid l hl with ⟨todo', hstage, hmem⟩ | ⟨cached, hcache, hcached⟩
            · cases hstage
              rcases List.mem_cons.mp hmem with rfl | hrest
              · exact .inr ⟨known, AList.lookup_insert _, hvalid⟩
              · exact .inl ⟨todo, rfl, hrest⟩
            · refine .inr ⟨cached, ?_, hcached⟩
              by_cases htable : l.table = line.table
              · have : known = cached := by
                  rw [hknown, knownFor, ← htable, show declared.lookup l.table = _ from hcache]
                rw [htable, ← this]
                exact AList.lookup_insert _
              · exact (AList.lookup_insert_ne htable).trans hcache
          · intro key hmay
            refine ⟨?_, rfl⟩
            have hold := ((h.unused hmay).1 _ (AssocMap.mem_values.mpr ⟨k, hlookup⟩)).1
            by_cases hkey : key = (db, line.table)
            · subst hkey
              cases hcache : declared.lookup line.table with
              | some cached => simp [Call.writes, hcache] at hold
              | none =>
                  exact absurd (hok (i, (db, line.table))
                    (by simp [State.looksUp, hlookup, hcache])).2 hmay
            · by_cases htable : key.2 = line.table
              · have hdb : db ≠ key.1 := by
                  rintro rfl
                  exact hkey (Prod.ext rfl htable)
                simp [Call.writes, hdb]
              · simpa [Call.writes, AList.lookup_insert_ne htable] using hold
      · obtain rfl := Option.some.inj hstep
        exact h.finish
  · cases hstep

theorem Kept.append (h : Kept s) (hstep : Declared.append s k = some t) : Kept t := by
  unfold Declared.append at hstep
  split at hstep
  · next i db lines declared hlookup =>
      obtain rfl := Option.some.inj hstep
      have hkept : WriteKept s.log _ := h.call k i _ hlookup
      refine h.goOn (h.admissible_write hlookup ⟨hkept.current, ?_⟩ rfl rfl)
      intro l hl
      rcases hkept.valid l hl with ⟨todo, hstage, hmem⟩ | hvalid
      · cases hstage
        cases hmem
      · exact .inr hvalid
  · cases hstep

theorem lookup_foldl_addLine {db : String} {key : TableKey} (lines : List ParsedLine)
    (hlines : ∀ l ∈ lines, (db, l.table) ≠ key) (dbs : AssocMap TableKey (List Row)) :
    (lines.foldl (addLine db k) dbs).lookup key = dbs.lookup key := by
  induction lines generalizing dbs with
  | nil => rfl
  | cons l rest ih =>
      rw [List.foldl_cons, ih fun l' hl' => hlines l' (List.mem_cons_of_mem l hl')]
      exact AList.lookup_insert_ne (hlines l List.mem_cons_self).symm

theorem lookup_addTable {db : String} {key : TableKey} {line : Option ParsedLine}
    (hline : ∀ l ∈ line, (db, l.table) ≠ key) (dbs : AssocMap TableKey (List Row)) :
    (addTable db dbs line).lookup key = dbs.lookup key := by
  cases line with
  | none => rfl
  | some l => exact AList.lookup_insert_ne (hline l rfl).symm

/-- A write in the gate adds rows of tables it has looked up. -/
theorem Kept.apply [DecidableEq ι] (h : Kept s) {applied : Nat} {registered : Bool}
    (hstep : Declared.apply s k applied registered = some t) : Kept t := by
  unfold Declared.apply at hstep
  split at hstep
  · next i db lines declared hlookup =>
      obtain rfl := Option.some.inj hstep
      have hkept : WriteKept s.log _ := h.call k i _ hlookup
      have hlooked : ∀ l ∈ lines, ∃ known, declared.lookup l.table = some known := by
        intro l hl
        rcases hkept.valid l hl with ⟨todo, hstage, _⟩ | ⟨known, hknown, _⟩
        · cases hstage
        · exact ⟨known, hknown⟩
      have hrows : Kept (s.set i { s.node i with
          dbs := addTable db ((lines.take applied).foldl (addLine db k) (s.node i).dbs)
            (lines[applied]?) }) := by
        refine h.set fun key hunused => ?_
        have hother : ∀ l ∈ lines, (db, l.table) ≠ key := by
          rintro l hl rfl
          obtain ⟨known, hknown⟩ := hlooked l hl
          have := (hunused.1 _ (AssocMap.mem_values.mpr ⟨k, hlookup⟩)).1
          simp [Call.writes, hknown] at this
        refine ⟨?_, (hunused.2 i).2⟩
        rw [lookup_addTable fun l hl => hother l (List.mem_of_getElem? hl),
          lookup_foldl_addLine _ fun l hl => hother l (List.mem_of_mem_take hl)]
        exact (hunused.2 i).1
      split
      · refine hrows.goOn (hrows.admissible_write hlookup ⟨hkept.current, ?_⟩ rfl rfl)
        intro l hl
        rcases hkept.valid l hl with ⟨todo, hstage, _⟩ | hvalid
        · cases hstage
        · exact .inr hvalid
      · exact hrows.finish
  · cases hstep

theorem Kept.ack (h : Kept s) (hstep : Declared.ack s k = some t) : Kept t := by
  unfold Declared.ack at hstep
  split at hstep
  · next i db lines declared hlookup =>
      obtain rfl := Option.some.inj hstep
      exact Kept.finish (i := i) (h.acknowledge hlookup)
  · cases hstep

theorem Kept.create (h : Kept s) {schema : TableSchema}
    (hstep : Declared.create s i schema = some t) : Kept t := by
  unfold Declared.create at hstep
  split at hstep
  · obtain rfl := Option.some.inj hstep
    exact h.start ⟨⟨.inl rfl, fun hstage => by cases hstage⟩, fun _ _ => ⟨rfl, rfl⟩⟩
  · obtain rfl := Option.some.inj hstep
    exact h

theorem Kept.lookBuffers (h : Kept s) (hok : Careful s (.lookBuffers k))
    (hstep : Declared.lookBuffers s k = some t) : Kept t := by
  unfold Declared.lookBuffers at hstep
  split at hstep
  · next i schema hlookup =>
      split at hstep
      · obtain rfl := Option.some.inj hstep
        exact h.finish
      · next hnone =>
          obtain rfl := Option.some.inj hstep
          have hunused : s.Unused (schemaKey schema) :=
            hok (i, schemaKey schema) (by simp [State.looksFor, hlookup])
              (Option.not_isSome_iff_eq_none.mp hnone)
          exact h.goOn ⟨⟨.inr hunused, fun hstage => by cases hstage⟩, fun _ _ => ⟨rfl, rfl⟩⟩
  · cases hstep

theorem Kept.lookFiles (h : Kept s) {live : List TableKey} (hok : Careful s (.lookFiles k live))
    (hstep : Declared.lookFiles s k live = some t) : Kept t := by
  unfold Declared.lookFiles at hstep
  split at hstep
  · next i schema hlookup =>
      split at hstep
      · obtain rfl := Option.some.inj hstep
        exact h.finish
      · next hnames =>
          split at hstep
          · obtain rfl := Option.some.inj hstep
            have hkept := h.call k i _ hlookup
            have hunused := hkept.1.resolve_left (by simp)
            refine h.goOn ⟨⟨.inr hunused, fun _ => ?_⟩, fun _ _ => ⟨rfl, rfl⟩⟩
            have hfiled := hok (i, schemaKey schema) (by simp [State.looksFor, hlookup])
            by_contra hlisted
            rw [Bool.not_eq_false] at hlisted
            simp [catalogNames, hfiled hlisted] at hnames
          · obtain rfl := Option.some.inj hstep
            exact h.finish
  · cases hstep

theorem Kept.drop (h : Kept s) {key : TableKey} (hstep : Declared.drop s i key = some t) :
    Kept t := by
  unfold Declared.drop at hstep
  dsimp only at hstep
  split at hstep
  · obtain rfl := Option.some.inj hstep
    exact h.start ⟨trivial, fun _ _ => ⟨rfl, rfl⟩⟩
  · obtain rfl := Option.some.inj hstep
    exact h

theorem admissible_flushed {dropping : Option TableKey} {failed : Bool} :
    ∀ c ∈ flushed dropping failed, Admissible s c := by
  intro c hc
  unfold flushed at hc
  split at hc
  · cases hc
  · obtain ⟨key, _, rfl⟩ := Option.map_eq_some_iff.mp hc
    exact ⟨trivial, fun _ _ => ⟨rfl, rfl⟩⟩

theorem owned_ne {dbs : AssocMap TableKey (List Row)} {key : TableKey}
    (hnone : (dbs.lookup key).getD [] = []) : ∀ b ∈ owned dbs, b.1 ≠ key := by
  rintro b hb rfl
  obtain ⟨hmem, hrows⟩ := List.mem_filter.mp hb
  obtain ⟨e, he, rfl⟩ := List.mem_map.mp hmem
  have hlookup : dbs.lookup e.1 = some e.2 := AList.mem_lookup_iff.mpr he
  rw [hlookup] at hnone
  simp [show e.2 = [] from hnone] at hrows

theorem lookup_hold {flushing : AssocMap TableKey (List Row)} {key : TableKey}
    {held : List (TableKey × List Row)} (hheld : ∀ b ∈ held, b.1 ≠ key) :
    (hold flushing held).lookup key = flushing.lookup key := by
  refine AssocMap.lookup_foldl_insert_of_notMem Prod.fst Prod.snd held flushing ?_
  intro hmem
  obtain ⟨b, hb, heq⟩ := List.mem_map.mp hmem
  exact hheld b hb heq

theorem emptied_none (dbs : AssocMap TableKey (List Row)) (key : TableKey) :
    ((AssocMap.mapVal (fun _ => []) dbs).lookup key).getD [] = [] := by
  rw [AssocMap.lookup_mapVal]
  cases dbs.lookup key <;> rfl

theorem Kept.handover [DecidableEq ι] (h : Kept s) {rotated : Bool}
    {unreadable : TableKey → Bool}
    (hstep : Declared.handover s k rotated unreadable = some t) : Kept t := by
  unfold Declared.handover at hstep
  split at hstep
  · next i dropping hlookup =>
      split at hstep
      · cases hstep
      · dsimp only at hstep
        have hother : ∀ key, s.Unused key → ∀ b ∈ owned (s.node i).dbs, b.1 ≠ key :=
          fun key hunused => owned_ne (hunused.2 i).1
        split at hstep
        · obtain rfl := Option.some.inj hstep
          exact h.next admissible_flushed
        · split at hstep
          · obtain rfl := Option.some.inj hstep
            refine (h.set fun key hunused => ⟨emptied_none _ _, ?_⟩).goOn
              ⟨trivial, fun key hmay => ⟨rfl, ?_⟩⟩
            · rw [lookup_hold fun b hb => hother key hunused b (List.mem_of_mem_filter hb)]
              exact (hunused.2 i).2
            · simp only [Call.carries, List.any_nil, Bool.or_false, List.any_eq_false,
                decide_eq_true_eq]
              intro b hb
              exact hother key (h.unused hmay) b (List.mem_of_mem_filter hb)
          · obtain rfl := Option.some.inj hstep
            have hemptied : Kept (s.set i { s.node i with
                dbs := AssocMap.mapVal (fun _ => []) (s.node i).dbs }) :=
              h.set fun key hunused => ⟨emptied_none _ _, (hunused.2 i).2⟩
            exact hemptied.finish
  · cases hstep

/-- A flush that goes on with tables it carried before. -/
theorem Kept.admissible_flush (h : Kept s) {c c' : Call} (hlookup : s.calls.lookup k = some (i, c))
    (hkept : CallKept s c') (hwrites : ∀ key, c'.writes key = false)
    (hcarries : ∀ key, c'.carries key = true → c.carries key = true) : Admissible s c' := by
  refine ⟨hkept, fun key hmay => ⟨hwrites key, ?_⟩⟩
  have hold := ((h.unused hmay).1 _ (AssocMap.mem_values.mpr ⟨k, hlookup⟩)).2
  by_contra hcarried
  rw [Bool.not_eq_false] at hcarried
  rw [hcarries key hcarried] at hold
  cases hold

theorem Kept.upload (h : Kept s) {pieces : List (FileMeta × List Row)}
    (hstep : Declared.upload s k pieces = some t) : Kept t := by
  unfold Declared.upload at hstep
  split at hstep
  · next i dropping failed key rows todo metas done hlookup =>
      split at hstep
      · next hpieces =>
          obtain rfl := Option.some.inj hstep
          have hadmissible : Admissible s (.flush dropping (.uploading failed todo
              (metas ++ pieces.map Prod.fst) (done ++ [key]))) := by
            refine h.admissible_flush hlookup trivial (fun _ => rfl) fun other hcarries => ?_
            simp only [Call.carries, Bool.or_eq_true, List.any_eq_true, decide_eq_true_eq,
              List.mem_append, List.mem_map, List.mem_cons] at hcarries ⊢
            rcases hcarries with ⟨b, hb, hkey⟩ | ⟨f, hold | ⟨p, hp, rfl⟩, hkey⟩
            · exact .inl ⟨b, .inr hb, hkey⟩
            · exact .inr ⟨f, hold, hkey⟩
            · exact .inl ⟨(key, rows), .inl rfl, (hpieces p hp).1.symm.trans hkey⟩
          have hnext := h.goOn (k := k) (i := i) hadmissible
          exact ⟨hnext.call, hnext.conforms, hnext.bound⟩
      · cases hstep
  · cases hstep

theorem Kept.uploadFail (h : Kept s) (hstep : Declared.uploadFail s k = some t) : Kept t := by
  unfold Declared.uploadFail at hstep
  split at hstep
  · next i dropping failed b todo metas done hlookup =>
      obtain rfl := Option.some.inj hstep
      refine h.goOn (h.admissible_flush hlookup trivial (fun _ => rfl) ?_)
      intro key hcarries
      simp only [Call.carries, List.any_cons, Bool.or_eq_true] at hcarries ⊢
      exact hcarries.imp_left Or.inr
  · cases hstep

/-- The folding of the log into a view keeps the rows of the node. -/
theorem Kept.setCatalog [DecidableEq ι] (h : Kept s) (r : Catalog.Replica) :
    Kept (s.set i { s.node i with catalog := r }) :=
  h.set fun _ hunused => hunused.2 i

theorem admissible_committed {c : Call} {args : Catalog.CommitArgs}
    (hcommits : c.commits = some args) : ∀ c' ∈ c.committed, Admissible s c' := by
  intro c' hc'
  unfold Call.commits at hcommits
  split at hcommits
  · cases hc'
  · cases hc'
    exact ⟨trivial, fun _ _ => ⟨rfl, rfl⟩⟩
  · cases hc'
    exact ⟨trivial, fun _ _ => ⟨rfl, rfl⟩⟩
  · cases hcommits

theorem Kept.commitStep [DecidableEq ι] (h : Kept s) (hstep : Declared.commit s k = some t) :
    Kept t := by
  unfold Declared.commit at hstep
  split at hstep
  · next i c hlookup =>
      split at hstep
      · cases hstep
      · next args hcommits =>
          dsimp only at hstep
          split at hstep
          · obtain rfl := Option.some.inj hstep
            exact ((h.commit hlookup hcommits _).setCatalog _).next (admissible_committed hcommits)
          · obtain rfl := Option.some.inj hstep
            exact h.setCatalog _
  · cases hstep

theorem Kept.commitLost (h : Kept s) [DecidableEq ι] (hstep : Declared.commitLost s k = some t) :
    Kept t := by
  unfold Declared.commitLost at hstep
  split at hstep
  · next i c hlookup =>
      split at hstep
      · cases hstep
      · next args hcommits =>
          dsimp only at hstep
          split at hstep
          · obtain rfl := Option.some.inj hstep
            exact Kept.finish (i := i) (h.commit hlookup hcommits _)
          · cases hstep
  · cases hstep

theorem HasNone.erase_flushing {node : Node} {key : TableKey} (h : node.HasNone key)
    (keys : List TableKey) :
    Node.HasNone { node with flushing := keys.foldl (fun m key => m.erase key) node.flushing }
      key := by
  refine ⟨h.1, ?_⟩
  change ((keys.foldl (fun m key => m.erase (id key)) node.flushing).lookup key).getD [] = []
  rw [AssocMap.lookup_foldl_erase id]
  split
  · rfl
  · exact h.2

theorem Kept.release [DecidableEq ι] (h : Kept s) (hstep : Declared.release s k = some t) :
    Kept t := by
  unfold Declared.release at hstep
  split at hstep
  · next i dropping failed done hlookup =>
      obtain rfl := Option.some.inj hstep
      exact (h.set fun _ hunused => HasNone.erase_flushing (hunused.2 i) done).next
        admissible_flushed
  · cases hstep

theorem Kept.purge [DecidableEq ι] (h : Kept s) (hstep : Declared.purge s k = some t) :
    Kept t := by
  unfold Declared.purge at hstep
  split at hstep
  · next i key hlookup =>
      obtain rfl := Option.some.inj hstep
      exact (h.set fun _ hunused => HasNone.erase_flushing (hunused.2 i) [key]).goOn
        ⟨trivial, fun _ _ => ⟨rfl, rfl⟩⟩
  · next i key hlookup =>
      obtain rfl := Option.some.inj hstep
      have herased : Kept (s.set i { s.node i with dbs := (s.node i).dbs.erase key }) := by
        refine h.set fun other hunused => ⟨?_, (hunused.2 i).2⟩
        by_cases hkey : other = key
        · subst hkey
          simp [AList.lookup_erase]
        · simpa [AList.lookup_erase_ne hkey] using (hunused.2 i).1
      exact herased.finish
  · cases hstep

end Calls

section Runs

variable [DecidableEq ι] {s t : State ι}

theorem Kept.step (h : Kept s) {a : Action ι} (hok : Careful s a)
    (hstep : Declared.step s a = some t) : Kept t := by
  cases a with
  | write i db lines =>
      obtain rfl := Option.some.inj hstep
      refine h.start ⟨⟨?_, fun l hl => .inl ⟨lines, rfl, hl⟩⟩, ?_⟩
      · intro table known hnone
        cases hnone
      · intro key _
        exact ⟨by simp [Call.writes], rfl⟩
  | check k => exact h.check hok hstep
  | append k => exact h.append hstep
  | apply k applied registered => exact h.apply hstep
  | ack k => exact h.ack hstep
  | create i schema => exact h.create hstep
  | lookBuffers k => exact h.lookBuffers hok hstep
  | lookFiles k live => exact h.lookFiles hok hstep
  | flush i =>
      obtain rfl := Option.some.inj hstep
      exact h.start ⟨trivial, fun _ _ => ⟨rfl, rfl⟩⟩
  | drop i key => exact h.drop hstep
  | handover k rotated unreadable => exact h.handover hstep
  | upload k pieces => exact h.upload hstep
  | uploadFail k => exact h.uploadFail hstep
  | commit k => exact h.commitStep hstep
  | commitLost k => exact h.commitLost hstep
  | release k => exact h.release hstep
  | purge k => exact h.purge hstep
  | catchUp i =>
      obtain rfl := Option.some.inj hstep
      exact h.setCatalog _
  | fail k =>
      obtain ⟨c, _, rfl⟩ := Option.map_eq_some_iff.mp hstep
      exact h.finish

omit [DecidableEq ι] in
theorem kept_initial : Kept (initial : State ι) where
  call := by
    intro k i c h
    cases h
  conforms := by
    intro a ha
    cases ha
  bound := by
    intro a ha
    cases ha

/-- The log grows by commits only. -/
theorem log_of_step {a : Action ι} (hstep : step s a = some t) : t.log = s.log ∨
    ∃ k i c args n, s.calls.lookup k = some (i, c) ∧ c.commits = some args ∧
      t.log = s.log ++ [Catalog.CommitArgs.entry args n] := by
  cases a with
  | commit k =>
      simp only [step, commit] at hstep
      split at hstep
      · next i c hlookup =>
          split at hstep
          · cases hstep
          · next args hcommits =>
              split at hstep
              · obtain rfl := Option.some.inj hstep
                exact .inr ⟨k, i, c, args, _, hlookup, hcommits, rfl⟩
              · obtain rfl := Option.some.inj hstep
                exact .inl rfl
      · cases hstep
  | commitLost k =>
      simp only [step, commitLost] at hstep
      split at hstep
      · next i c hlookup =>
          split at hstep
          · cases hstep
          · next args hcommits =>
              split at hstep
              · obtain rfl := Option.some.inj hstep
                exact .inr ⟨k, i, c, args, _, hlookup, hcommits, rfl⟩
              · cases hstep
      · cases hstep
  | fail k =>
      obtain ⟨c, _, rfl⟩ := Option.map_eq_some_iff.mp hstep
      exact .inl rfl
  | _ =>
      left
      simp only [step, check, append, apply, ack, create, lookBuffers, lookFiles, drop, handover,
        upload, uploadFail, release, purge, catchUp] at hstep
      repeat' split at hstep
      all_goals cases hstep
      all_goals rfl

/-- A create that commits finds no row of its table, acknowledged or not. -/
theorem Kept.declares_unused (h : Kept s) {a : Action ι} (hstep : Declared.step s a = some t) :
    s.DeclaresUnused t := by
  intro e hlog key hkey
  rcases log_of_step hstep with hsame | ⟨k, i, c, args, n, hlookup, hcommits, hgrown⟩
  · have hlength := congrArg List.length (hsame.symm.trans hlog)
    simp at hlength
  · obtain rfl : args.entry n = e := by
      simpa using hgrown.symm.trans hlog
    obtain ⟨schema, rfl, rfl⟩ := (commits_effect hcommits n).1 key hkey
    have hkept := h.call k i _ hlookup
    have hunused := hkept.1.resolve_left (by simp)
    rintro ⟨r, (⟨j, hr | hr⟩ | ⟨f, hf, _⟩), _⟩
    · rw [(hunused.2 j).1] at hr
      cases hr
    · rw [(hunused.2 j).2] at hr
      cases hr
    · have hfiled := hkept.2 rfl
      simp only [filed, Option.isSome_eq_false_iff, Option.isNone_iff_eq_none] at hfiled
      simp [FileIndex.filesFor, hfiled] at hf

/-- In a run of careful steps every line acknowledged since the declaration in
force fits it, and no step declares a table that has acknowledged rows. -/
theorem declared_rows_conform {acts : List (Action ι)} (run : Run step Careful initial acts s) :
    s.Conforms ∧ ∀ a t, step s a = some t → s.DeclaresUnused t := by
  have h : Kept s := run.invariant (fun _ _ _ h hok hstep => h.step hok hstep) kept_initial
  exact ⟨h.conforms, fun a t hstep => h.declares_unused hstep⟩

end Runs

section Samples

def cpu : TableSchema := ⟨"db", "cpu", [⟨"host", .string, true⟩, ⟨"usage", .integer, false⟩]⟩

def fitting : ParsedLine := ⟨"cpu", [("host", "a")], [("usage", .int 1)], 0⟩

def misfit : ParsedLine := ⟨"cpu", [("host", "a")], [("usage", .str "high")], 0⟩

/-- The steps of a create and of a write that nothing gets in the way of. -/
def createSteps (k : Nat) (i : Bool) : List (Action Bool) :=
  [.create i cpu, .lookBuffers k, .lookFiles k [], .commit k]

def writeSteps (k : Nat) (i : Bool) (line : ParsedLine) : List (Action Bool) :=
  [.write i "db" [line], .check k, .append k, .apply k 1 true, .ack k]

/-- The other node folds the declaration in before it is written to; it refuses
the line that does not fit. -/
def caughtUp : List (Action Bool) :=
  createSteps 0 false ++ [.catchUp true, .write true "db" [misfit], .check 1] ++
    writeSteps 2 true fitting

theorem caughtUp_conforms : ∃ s, Run step Careful initial caughtUp s ∧
    s.acked.map Acked.line = [fitting] ∧ s.Conforms ∧
      ∀ a t, step s a = some t → s.DeclaresUnused t := by
  obtain ⟨s, run, hs⟩ := exists_run_with step Careful initial caughtUp
    (fun s => s.acked.map Acked.line = [fitting]) (by decide +kernel)
  obtain ⟨hconforms, hunused⟩ := declared_rows_conform run
  exact ⟨s, run, hs, hconforms, hunused⟩

def cpuEntry (seq : Nat) : ManifestEntry :=
  Catalog.CommitArgs.entry ⟨[], [], [], [cpu], [], false⟩ seq

/-- A node that has not folded the declaration in acknowledges a line that does
not fit it; and a create finds nothing of the rows another node has buffered. -/
theorem staleViews_break :
    (∃ s, Run step (fun _ _ => True) initial
      (createSteps 0 false ++ writeSteps 1 true misfit) s ∧ ¬ s.Conforms) ∧
    ∃ s t : State Bool, ∃ acts a, Run step (fun _ _ => True) initial acts s ∧
      step s a = some t ∧ ¬ s.DeclaresUnused t := by
  constructor
  · exact exists_run_with step (fun _ _ => True) initial _ (fun s => ¬ s.Conforms)
      (by decide +kernel)
  · obtain ⟨s, run, hlog, hrows, hacked⟩ := exists_run_with step (fun _ _ => True) initial
      (writeSteps 0 true fitting ++ (createSteps 1 false).dropLast)
      (fun s => (step s (.commit 1)).map State.log = some (s.log ++ [cpuEntry 1]) ∧
        (s.node true).dbs.lookup ("db", "cpu") = some [⟨0, fitting⟩] ∧
        s.acked = [⟨0, ("db", "cpu"), fitting, 0⟩]) (by decide +kernel)
    obtain ⟨t, hstep, hgrown⟩ := Option.map_eq_some_iff.mp hlog
    refine ⟨s, t, _, .commit 1, run, hstep, ?_⟩
    intro h
    refine h (cpuEntry 1) hgrown ("db", "cpu") (by decide) ⟨⟨0, fitting⟩, ?_, ?_⟩
    · exact .inl ⟨true, .inl (by simp [hrows])⟩
    · exact ⟨⟨0, ("db", "cpu"), fitting, 0⟩, by simp [hacked], rfl, rfl, rfl⟩

end Samples

end TimeLake.Declared
