import TimeLake.Auth.Passwords
import TimeLake.Library.Run

/-!
When a rotation is final. Two things undo it: a login that read its principal
before the rotation inserts its session after the sessions were dropped, and a
node that has not read the file since another changed it writes its memory.
`Careful` excludes both. The file then only ever loses a hash to a change, and a
session is only ever opened for a hash that no returned change has replaced.
-/

namespace TimeLake.Auth.Passwords

open TimeLake.Library TimeLake.Auth

variable {ι : Type}

section Condition

/-- `hash_password` has not made the hash before. -/
def Fresh (s : State ι) (hash : String) : Prop :=
  s.stored.contains hash = false ∧ (s.made.map Prod.snd).contains hash = false

instance (s : State ι) (hash : String) : Decidable (Fresh s hash) :=
  inferInstanceAs (Decidable (_ ∧ _))

variable [DecidableEq ι]

/-- The password is the one the login verified, or no change of it has returned
on this node since the login read it. -/
def NotOverrun (s : State ι) (i : ι) (node : Node) : Call → Prop
  | .loginVerified username _ p done =>
      (node.principals.get username).map Principal.passwordHash = some p.passwordHash ∨
        done = s.returned i username
  | _ => True

instance (s : State ι) (i : ι) (node : Node) : DecidablePred (NotOverrun s i node)
  | .loginVerified _ _ _ _ => inferInstanceAs (Decidable (_ ∨ _))
  | .seeding => .isTrue trivial
  | .loginRead _ _ _ _ => .isTrue trivial
  | .loginOpened _ => .isTrue trivial
  | .loginTouched => .isTrue trivial
  | .changed _ _ => .isTrue trivial
  | .changePut _ _ => .isTrue trivial

/-- Before a node writes the file it finds the passwords there that it last read
or wrote. -/
def Careful (s : State ι) : Action ι → Prop
  | .open _ _ _ hash _ => s.store.byName = [] → Fresh s hash
  | .change _ _ _ _ _ hash => ∀ h ∈ hash, Fresh s h
  | .insert k _ _ _ _ => ∀ c ∈ s.call k, NotOverrun s c.1 c.2.1 c.2.2
  | .persist k outcome =>
      outcome = .failed ∨ ∀ c ∈ s.call k, s.store.creds = c.2.1.base.creds
  | _ => True

instance (s : State ι) : DecidablePred (Careful s)
  | .open _ _ _ _ _ => inferInstanceAs (Decidable (_ → _))
  | .change _ _ _ _ _ hash => inferInstanceAs (Decidable (∀ h ∈ hash, _))
  | .insert k _ _ _ _ => inferInstanceAs (Decidable (∀ c ∈ s.call k, _))
  | .persist k _ => inferInstanceAs (Decidable (_ ∨ ∀ c ∈ s.call k, _))
  | .login _ _ _ _ => .isTrue trivial
  | .verify _ => .isTrue trivial
  | .touch _ _ => .isTrue trivial
  | .retain _ => .isTrue trivial
  | .session _ _ _ => .isTrue trivial
  | .logout _ _ => .isTrue trivial

end Condition

section Invariant

/-- The file has another password of the user, not the default one. -/
def Landed (store : Principals) (username old : String) : Prop :=
  ∃ h, store.cred username = some (h, false) ∧ h ≠ old

/-- A password of the memory that no file has had yet. -/
def Unput (s : State ι) (j : ι) (node : Node) (username : String) : Prop :=
  ∃ h d, node.principals.cred username = some (h, d) ∧
    (d = false ∨ ∀ other, node.base.cred other = none) ∧ h ∉ s.stored ∧ (j, h) ∈ s.made ∧
    ∀ e ∈ s.set, e.1.2 = username → e.2.old ≠ h

structure NodeKept (s : State ι) (j : ι) (node : Node) : Prop where
  base : ∀ username h d, node.base.cred username = some (h, d) → h ∈ s.stored
  memory : ∀ username, node.principals.cred username = node.base.cred username ∨
    Unput s j node username

/-- A change of the memory of a node, which still has the new password or a
later one. -/
structure SetKept (s : State ι) (e : (ι × String) × Change) : Prop where
  old : e.2.old ∈ s.stored ∨ e.2.old ∈ s.made.map Prod.snd
  new : e.2.new ∈ s.made.map Prod.snd
  memory : ∃ node h, s.nodes e.1.1 = some node ∧ node.principals.cred e.1.2 = some (h, false) ∧
    h ≠ e.2.old

def CallKept (s : State ι) (i : ι) : Call → Prop
  | .changed username c => ((i, username), c) ∈ s.set
  | .changePut username c => ((i, username), c) ∈ s.set ∧ Landed s.store username c.old
  | _ => True

structure Kept (s : State ι) : Prop where
  unique : (s.made.map Prod.snd).Nodup
  store : ∀ username h d, s.store.cred username = some (h, d) → h ∈ s.stored
  node : ∀ j node, s.nodes j = some node → NodeKept s j node
  set : ∀ e ∈ s.set, SetKept s e
  call : ∀ k i c, s.calls.lookup k = some (i, c) → CallKept s i c
  done : ∀ e ∈ s.changedOk, e ∈ s.set ∧ Landed s.store e.1.2 e.2.old

end Invariant

section Facts

variable {s : State ι} {i j : ι} {node : Node} {username : String}

theorem State.call_eq_some {k : Nat} {c : Call} (h : s.call k = some (i, node, c)) :
    s.calls.lookup k = some (i, c) ∧ s.nodes i = some node := by
  unfold State.call at h
  split at h
  · next j c' hlookup =>
      obtain ⟨node', hnode, heq⟩ := Option.map_eq_some_iff.mp h
      cases heq
      exact ⟨hlookup, hnode⟩
  · cases h

theorem Fresh.notMem {hash : String} (h : Fresh s hash) :
    hash ∉ s.stored ∧ hash ∉ s.made.map Prod.snd := by
  simpa [Fresh, List.contains_eq_mem] using h

/-- A hash was made by one node. -/
theorem Kept.owner (h : Kept s) {hash : String} (hi : (i, hash) ∈ s.made)
    (hj : (j, hash) ∈ s.made) : i = j :=
  congrArg Prod.fst (List.inj_on_of_nodup_map h.unique hi hj rfl)

/-- A password of a memory was stored once or was made by the node. -/
theorem Kept.origin (h : Kept s) (hnode : s.nodes i = some node) {hash : String} {d : Bool}
    (hcred : node.principals.cred username = some (hash, d)) :
    hash ∈ s.stored ∨ (i, hash) ∈ s.made := by
  have hkept := h.node i node hnode
  rcases hkept.memory username with heq | ⟨h', d', hcred', _, _, hmade, _⟩
  · exact .inl (hkept.base username hash d (heq.symm.trans hcred))
  · rw [hcred] at hcred'
    cases hcred'
    exact .inr hmade

theorem mem_hashes {ps : Principals} {hash : String} (h : hash ∈ hashes ps) :
    ∃ username d, ps.cred username = some (hash, d) := by
  obtain ⟨p, hp, rfl⟩ := List.mem_map.mp h
  exact ⟨p.1, p.2.isDefaultCredential,
    Principals.cred_of_get (ps.sorted.lookup_eq_some.mpr hp)⟩

theorem mem_hashes_of_cred {ps : Principals} {hash : String} {d : Bool}
    (h : ps.cred username = some (hash, d)) : hash ∈ hashes ps := by
  obtain ⟨p, hp, heq⟩ := Option.map_eq_some_iff.mp h
  cases heq
  exact List.mem_map.mpr ⟨_, mem_of_lookup hp, rfl⟩

/-- A state with more of everything that is not memory. -/
structure Grows (s t : State ι) : Prop where
  stored : s.stored ⊆ t.stored
  made : s.made ⊆ t.made
  set : s.set ⊆ t.set

theorem Grows.refl (s : State ι) : Grows s s := ⟨fun _ h => h, fun _ h => h, fun _ h => h⟩

theorem SetKept.grow {t : State ι} {e : (ι × String) × Change} (h : SetKept s e)
    (hgrow : Grows s t)
    (hmemory : ∀ node hash, s.nodes e.1.1 = some node →
      node.principals.cred e.1.2 = some (hash, false) → hash ≠ e.2.old →
      ∃ node' hash', t.nodes e.1.1 = some node' ∧
        node'.principals.cred e.1.2 = some (hash', false) ∧ hash' ≠ e.2.old) : SetKept t e := by
  have hmade := List.map_subset Prod.snd hgrow.made
  obtain ⟨node, hash, hnode, hcred, hne⟩ := h.memory
  refine ⟨?_, hmade h.new, hmemory node hash hnode hcred hne⟩
  rcases h.old with hold | hold
  · exact .inl (hgrow.stored hold)
  · exact .inr (hmade hold)

theorem CallKept.grow {t : State ι} {c : Call} (h : CallKept s i c) (hgrow : Grows s t)
    (hstore : ∀ e ∈ s.set, Landed s.store e.1.2 e.2.old → Landed t.store e.1.2 e.2.old) :
    CallKept t i c := by
  cases c with
  | changed username c => exact hgrow.set h
  | changePut username c => exact ⟨hgrow.set h.1, hstore _ h.1 h.2⟩
  | _ => trivial

end Facts

section Updates

variable {s : State ι} {i j : ι} {k : Nat} {node m : Node}

private theorem unchanged {t : State ι} (hstored : t.stored = s.stored) (hmade : t.made = s.made)
    (hset : t.set = s.set) : Grows s t := by
  refine ⟨?_, ?_, ?_⟩
  · rw [hstored]
    exact fun _ h => h
  · rw [hmade]
    exact fun _ h => h
  · rw [hset]
    exact fun _ h => h

theorem Kept.setCall (h : Kept s) {c : Call} (hcall : CallKept s i c) :
    Kept (s.setCall k i c) := by
  have hgrow : Grows s (s.setCall k i c) := unchanged rfl rfl rfl
  refine ⟨h.unique, h.store, fun j node hnode => ⟨(h.node j node hnode).base,
    (h.node j node hnode).memory⟩, fun e he => ⟨(h.set e he).old, (h.set e he).new,
    (h.set e he).memory⟩, ?_, h.done⟩
  intro k' j c' hc
  rcases AssocMap.of_lookup_insert hc with ⟨_, heq⟩ | ⟨_, hold⟩
  · cases heq
    exact hcall.grow hgrow fun _ _ hl => hl
  · exact (h.call k' j c' hold).grow hgrow fun _ _ hl => hl

theorem Kept.endCall (h : Kept s) : Kept (s.endCall k) := by
  have hgrow : Grows s (s.endCall k) := unchanged rfl rfl rfl
  refine ⟨h.unique, h.store, fun j node hnode => ⟨(h.node j node hnode).base,
    (h.node j node hnode).memory⟩, fun e he => ⟨(h.set e he).old, (h.set e he).new,
    (h.set e he).memory⟩, ?_, h.done⟩
  intro k' j c' hc
  exact (h.call k' j c' (AssocMap.of_lookup_erase hc).2).grow hgrow fun _ _ hl => hl

/-- A change returns. -/
theorem Kept.returns (h : Kept s) {e : (ι × String) × Change} (hset : e ∈ s.set)
    (hlanded : Landed s.store e.1.2 e.2.old) : Kept { s with changedOk := e :: s.changedOk } := by
  have hgrow : Grows s { s with changedOk := e :: s.changedOk } := unchanged rfl rfl rfl
  refine ⟨h.unique, h.store, fun j node hnode => ⟨(h.node j node hnode).base,
    (h.node j node hnode).memory⟩, fun e he => ⟨(h.set e he).old, (h.set e he).new,
    (h.set e he).memory⟩, ?_, ?_⟩
  · exact fun k i c hc => (h.call k i c hc).grow hgrow fun _ _ hl => hl
  · intro e' he'
    rcases List.mem_cons.mp he' with rfl | hold
    · exact ⟨hset, hlanded⟩
    · exact h.done e' hold

/-- `hash_password` makes a hash. -/
theorem Kept.makes (h : Kept s) {hash : String} (hfresh : Fresh s hash) :
    Kept { s with made := (i, hash) :: s.made } := by
  have hsub : s.made ⊆ (i, hash) :: s.made := List.subset_cons_self _ _
  have hgrow : Grows s { s with made := (i, hash) :: s.made } :=
    ⟨fun _ h => h, hsub, fun _ h => h⟩
  refine ⟨List.nodup_cons.mpr ⟨hfresh.notMem.2, h.unique⟩, h.store, ?_, ?_, ?_, h.done⟩
  · intro j node hnode
    refine ⟨(h.node j node hnode).base, fun username => ?_⟩
    rcases (h.node j node hnode).memory username with heq | ⟨h', d, hcred, hd, hout, hmade, hold⟩
    · exact .inl heq
    · exact .inr ⟨h', d, hcred, hd, hout, hsub hmade, hold⟩
  · exact fun e he => (h.set e he).grow hgrow fun node hash hnode hcred hne =>
      ⟨node, hash, hnode, hcred, hne⟩
  · exact fun k i c hc => (h.call k i c hc).grow hgrow fun _ _ hl => hl

/-- A change of a memory, where no other memory has an unwritten password that
it replaced. -/
theorem Kept.sets (h : Kept s) {e : (ι × String) × Change} (hset : SetKept s e)
    (hother : ∀ j node hash d, s.nodes j = some node →
      node.principals.cred e.1.2 = some (hash, d) → hash ∉ s.stored → (j, hash) ∈ s.made →
      e.2.old ≠ hash) : Kept { s with set := e :: s.set } := by
  have hsub : s.set ⊆ e :: s.set := List.subset_cons_self _ _
  have hgrow : Grows s { s with set := e :: s.set } := ⟨fun _ h => h, fun _ h => h, hsub⟩
  refine ⟨h.unique, h.store, ?_, ?_, ?_, fun e he => ⟨hsub (h.done e he).1, (h.done e he).2⟩⟩
  · intro j node hnode
    refine ⟨(h.node j node hnode).base, fun username => ?_⟩
    rcases (h.node j node hnode).memory username with heq | ⟨hash, d, hcred, hd, hout, hmade, hold⟩
    · exact .inl heq
    · refine .inr ⟨hash, d, hcred, hd, hout, hmade, fun e' he' hname => ?_⟩
      rcases List.mem_cons.mp he' with rfl | he'
      · subst hname
        exact hother j node hash d hnode hcred hout hmade
      · exact hold e' he' hname
  · intro e' he'
    have hkept : SetKept s e' := by
      rcases List.mem_cons.mp he' with rfl | he'
      · exact hset
      · exact h.set e' he'
    exact ⟨hkept.old, hkept.new, hkept.memory⟩
  · exact fun k i c hc => (h.call k i c hc).grow hgrow fun _ _ hl => hl

variable [DecidableEq ι]

theorem of_setNode {n : Node} (h : (s.setNode i m).nodes j = some n) :
    (j = i ∧ n = m) ∨ (j ≠ i ∧ s.nodes j = some n) := by
  by_cases hj : j = i
  · subst hj
    refine .inl ⟨rfl, ?_⟩
    exact (Option.some.inj ((Function.update_self j _ s.nodes).symm.trans h)).symm
  · exact .inr ⟨hj, (Function.update_of_ne hj ..).symm.trans h⟩

theorem Kept.withNode (h : Kept s) (hkept : NodeKept s i m)
    (hset : ∀ e ∈ s.set, e.1.1 = i → ∃ hash,
      m.principals.cred e.1.2 = some (hash, false) ∧ hash ≠ e.2.old) :
    Kept (s.setNode i m) := by
  have hgrow : Grows s (s.setNode i m) := unchanged rfl rfl rfl
  refine ⟨h.unique, h.store, ?_, ?_, ?_, h.done⟩
  · intro j node hnode
    rcases of_setNode hnode with ⟨rfl, rfl⟩ | ⟨_, hold⟩
    · exact ⟨hkept.base, hkept.memory⟩
    · exact ⟨(h.node j node hold).base, (h.node j node hold).memory⟩
  · intro e he
    refine (h.set e he).grow hgrow fun node hash hnode hcred hne => ?_
    by_cases hi : e.1.1 = i
    · obtain ⟨hash', hcred', hne'⟩ := hset e he hi
      refine ⟨m, hash', ?_, hcred', hne'⟩
      rw [hi]
      exact Function.update_self ..
    · exact ⟨node, hash, (Function.update_of_ne hi ..).trans hnode, hcred, hne⟩
  · exact fun k i c hc => (h.call k i c hc).grow hgrow fun _ _ hl => hl

/-- A node with the same passwords. -/
theorem Kept.setNode (h : Kept s) (hnode : s.nodes i = some node)
    (hmemory : ∀ username, m.principals.cred username = node.principals.cred username)
    (hbase : m.base = node.base) : Kept (s.setNode i m) := by
  have hold := h.node i node hnode
  refine h.withNode ⟨?_, fun username => ?_⟩ fun e he hi => ?_
  · rw [hbase]
    exact hold.base
  · rw [hmemory, hbase]
    rcases hold.memory username with heq | ⟨hash, d, hcred, hd, hrest⟩
    · exact .inl heq
    · refine .inr ⟨hash, d, (hmemory username).trans hcred, ?_, hrest⟩
      rw [hbase]
      exact hd
  · obtain ⟨n, hash, hn, hcred, hne⟩ := (h.set e he).memory
    rw [hi, hnode] at hn
    obtain rfl := Option.some.inj hn
    exact ⟨hash, (hmemory _).trans hcred, hne⟩

/-- `change_password` sets a new hash in the memory of a node. -/
theorem Kept.changes (h : Kept s) (hnode : s.nodes i = some node) {username : String}
    {c : Change} {d : Bool} (hfresh : Fresh s c.new)
    (hold : node.principals.cred username = some (c.old, d))
    (hcred : ∀ other, m.principals.cred other =
      if other = username then some (c.new, false) else node.principals.cred other)
    (hbase : m.base = node.base) :
    Kept { s.setNode i m with
      made := (i, c.new) :: s.made
      set := ((i, username), c) :: s.set } := by
  have horigin := h.origin hnode hold
  have hnotold : ∀ e ∈ s.set, e.2.old ≠ c.new := by
    intro e he heq
    rcases (h.set e he).old with hin | hin
    · exact hfresh.notMem.1 (heq ▸ hin)
    · exact hfresh.notMem.2 (heq ▸ hin)
  have hne : c.new ≠ c.old := by
    intro heq
    rcases horigin with hin | hin
    · exact hfresh.notMem.1 (heq ▸ hin)
    · exact hfresh.notMem.2 (List.mem_map.mpr ⟨_, hin, heq.symm⟩)
  have hmade := h.makes (i := i) hfresh
  have hwith := hmade.withNode (i := i) (m := m) ⟨?_, fun other => ?_⟩ ?_
  · refine hwith.sets (e := ((i, username), c)) ⟨?_, List.mem_cons_self,
      m, c.new, Function.update_self .., (hcred username).trans (if_pos rfl), hne⟩ ?_
    · rcases horigin with hin | hin
      · exact .inl hin
      · exact .inr (List.mem_cons_of_mem _ (List.mem_map.mpr ⟨_, hin, rfl⟩))
    · rintro j n hash d' hn hc hout hin rfl
      rcases of_setNode hn with ⟨rfl, rfl⟩ | ⟨hj, _⟩
      · have heq := (hcred username).symm.trans hc
        rw [if_pos rfl] at heq
        exact hne (congrArg Prod.fst (Option.some.inj heq))
      · rcases horigin with hstored | hown
        · exact hout hstored
        · rcases List.mem_cons.mp hin with heq | hin
          · exact hj (congrArg Prod.fst heq)
          · exact hj (h.owner hin hown)
  · rw [hbase]
    exact (h.node i node hnode).base
  · by_cases hname : other = username
    · refine .inr ⟨c.new, false, (hcred other).trans (if_pos hname), .inl rfl, hfresh.notMem.1,
        List.mem_cons_self, fun e he _ => hnotold e he⟩
    · have hsame := (hcred other).trans (if_neg hname)
      rcases (hmade.node i node hnode).memory other with heq | ⟨hash, d', hc, hd, hrest⟩
      · exact .inl (by rw [hsame, heq, hbase])
      · exact .inr ⟨hash, d', hsame.trans hc, hbase ▸ hd, hrest⟩
  · intro e he hi
    by_cases hname : e.1.2 = username
    · exact ⟨c.new, (hcred _).trans (if_pos hname), (hnotold e he).symm⟩
    · obtain ⟨n, hash, hn, hc, hdiff⟩ := (h.set e he).memory
      rw [hi, hnode] at hn
      obtain rfl := Option.some.inj hn
      exact ⟨hash, ((hcred _).trans (if_neg hname)).trans hc, hdiff⟩

omit [DecidableEq ι] in
/-- A file that has the passwords the node last read or wrote gets those of its
memory. -/
theorem Kept.landed (h : Kept s) (hnode : s.nodes i = some node)
    (hcreds : s.store.creds = node.base.creds) {e : (ι × String) × Change} (he : e ∈ s.set)
    (hlanded : Landed s.store e.1.2 e.2.old) : Landed node.principals e.1.2 e.2.old := by
  obtain ⟨hash, hcred, hne⟩ := hlanded
  have hbase := (Principals.cred_eq_of_creds hcreds e.1.2).symm.trans hcred
  rcases (h.node i node hnode).memory e.1.2 with heq | ⟨hash', d, hcred', hd, _, _, hold⟩
  · exact ⟨hash, heq.trans hbase, hne⟩
  · rcases hd with rfl | hnone
    · exact ⟨hash', hcred', (hold e he rfl).symm⟩
    · rw [hnone] at hbase
      cases hbase

theorem Kept.write (h : Kept s) (hnode : s.nodes i = some node)
    (hcreds : s.store.creds = node.base.creds) : Kept (s.write i node) := by
  have hsub : s.stored ⊆ hashes node.principals ++ s.stored := List.subset_append_right _ _
  have hgrow : Grows s (s.write i node) := ⟨hsub, fun _ h => h, fun _ h => h⟩
  have hown : ∀ username hash d, node.principals.cred username = some (hash, d) →
      hash ∈ hashes node.principals ++ s.stored :=
    fun _ _ _ hcred => List.mem_append_left _ (mem_hashes_of_cred hcred)
  refine ⟨h.unique, hown, ?_, ?_, ?_, ?_⟩
  · intro j n hn
    rcases of_setNode hn with ⟨rfl, rfl⟩ | ⟨hj, hold⟩
    · exact ⟨hown, fun username => .inl rfl⟩
    · have hkept := h.node j n hold
      refine ⟨fun u hash d hcred => hsub (hkept.base u hash d hcred), fun username => ?_⟩
      rcases hkept.memory username with heq | ⟨hash, d, hcred, hd, hout, hmade, hset⟩
      · exact .inl heq
      · refine .inr ⟨hash, d, hcred, hd, fun hin => ?_, hmade, hset⟩
        rcases List.mem_append.mp hin with hin | hin
        · obtain ⟨u, d', hcred'⟩ := mem_hashes hin
          rcases h.origin hnode hcred' with hstored | hmade'
          · exact hout hstored
          · exact hj (h.owner hmade hmade')
        · exact hout hin
  · intro e he
    refine (h.set e he).grow hgrow fun n hash hn hcred hne => ?_
    by_cases hi : e.1.1 = i
    · rw [hi, hnode] at hn
      obtain rfl := Option.some.inj hn
      refine ⟨{ node with base := node.principals }, hash, ?_, hcred, hne⟩
      rw [hi]
      exact Function.update_self ..
    · exact ⟨n, hash, (Function.update_of_ne hi ..).trans hn, hcred, hne⟩
  · exact fun k j c hc => (h.call k j c hc).grow hgrow fun e he => h.landed hnode hcreds he
  · exact fun e he => ⟨(h.done e he).1, h.landed hnode hcreds (h.done e he).1 (h.done e he).2⟩

end Updates

section Sessions

/-- The hash a change set, and those set after it. -/
def since (changes : List Change) (new : String) : List String :=
  (changes.map Change.new).takeWhile (· ≠ new) ++ [new]

theorem mem_since_head (c : Change) (changes : List Change) (new : String) :
    c.new ∈ since (c :: changes) new := by
  by_cases h : c.new = new
  · simp [since, h]
  · simp [since, h]

theorem mem_since_cons {c : Change} {changes : List Change} {new hash : String}
    (hne : c.new ≠ new) (h : hash ∈ since changes new) : hash ∈ since (c :: changes) new := by
  have hcons : since (c :: changes) new = c.new :: since changes new := by
    simp [since, hne]
  rw [hcons]
  exact List.mem_cons_of_mem _ h

variable [DecidableEq ι] {argon : Argon2} {s t : State ι} {i j : ι} {k : Nat}
  {node m : Node} {username hash : String}

/-- The hash is none that one of the changes has replaced. -/
def Current (s : State ι) (i : ι) (username : String) (done : List Change) (hash : String) :
    Prop :=
  ∀ c ∈ done, ((i, username), c) ∈ s.set ∧ hash ∈ since (valuesAt s.set (i, username)) c.new

def LiveKept (argon : Argon2) (s : State ι) (i : ι) (live : Live) : Prop :=
  argon.accepts live.password live.verified = true ∧
    Current s i live.session.username (s.returned i live.session.username) live.verified

def LoginKept (argon : Argon2) (s : State ι) (i : ι) : Call → Prop
  | .loginRead username _ principal done =>
      ∀ p ∈ principal, p.username = username ∧ Current s i username done p.passwordHash
  | .loginVerified username password p done =>
      p.username = username ∧ argon.accepts password p.passwordHash = true ∧
        Current s i username done p.passwordHash
  | _ => True

structure Sealed (argon : Argon2) (s : State ι) : Prop where
  memory : ∀ e ∈ s.set, ∀ node hash d, s.nodes e.1.1 = some node →
    node.principals.cred e.1.2 = some (hash, d) → hash ∈ since (valuesAt s.set e.1) e.2.new
  call : ∀ k i c, s.calls.lookup k = some (i, c) → LoginKept argon s i c
  session : ∀ i node, s.nodes i = some node → ∀ token live,
    node.sessions.lookup token = some live → LiveKept argon s i live

theorem Sealed.setCall (h : Sealed argon s) {c : Call} (hcall : LoginKept argon s i c) :
    Sealed argon (s.setCall k i c) := by
  refine ⟨h.memory, ?_, h.session⟩
  intro k' j c' hc
  rcases AssocMap.of_lookup_insert hc with ⟨_, heq⟩ | ⟨_, hold⟩
  · cases heq
    cases c with
    | loginRead | loginVerified => exact hcall
    | _ => trivial
  · have hold := h.call k' j c' hold
    cases c' with
    | loginRead | loginVerified => exact hold
    | _ => trivial

theorem Sealed.endCall (h : Sealed argon s) : Sealed argon (s.endCall k) := by
  refine ⟨h.memory, ?_, h.session⟩
  intro k' j c' hc
  have hold := h.call k' j c' (AssocMap.of_lookup_erase hc).2
  cases c' with
  | loginRead | loginVerified => exact hold
  | _ => trivial

theorem Sealed.withNode (h : Sealed argon s)
    (hmemory : ∀ e ∈ s.set, e.1.1 = i → ∀ hash d, m.principals.cred e.1.2 = some (hash, d) →
      hash ∈ since (valuesAt s.set e.1) e.2.new)
    (hsession : ∀ token live, m.sessions.lookup token = some live → LiveKept argon s i live) :
    Sealed argon (s.setNode i m) := by
  refine ⟨?_, ?_, ?_⟩
  · intro e he n hash d hn hcred
    rcases of_setNode hn with ⟨hi, rfl⟩ | ⟨_, hold⟩
    · exact hmemory e he hi hash d hcred
    · exact h.memory e he n hash d hold hcred
  · intro k j c hc
    have hold := h.call k j c hc
    cases c with
    | loginRead | loginVerified => exact hold
    | _ => trivial
  · intro j n hn token live hlive
    rcases of_setNode hn with ⟨rfl, rfl⟩ | ⟨_, hold⟩
    · exact hsession token live hlive
    · exact h.session j n hold token live hlive

/-- A node with the same passwords. -/
theorem Sealed.setNode (h : Sealed argon s) (hnode : s.nodes i = some node)
    (hmemory : ∀ username, m.principals.cred username = node.principals.cred username)
    (hsession : ∀ token live, m.sessions.lookup token = some live → LiveKept argon s i live) :
    Sealed argon (s.setNode i m) := by
  refine h.withNode ?_ hsession
  rintro e he rfl hash d hcred
  exact h.memory e he node hash d hnode ((hmemory _).symm.trans hcred)

theorem Sealed.write (h : Sealed argon s) (hnode : s.nodes i = some node) :
    Sealed argon (s.write i node) := by
  have hset := h.setNode (m := { node with base := node.principals }) hnode (fun _ => rfl)
    (h.session i node hnode)
  exact ⟨hset.memory, hset.call, hset.session⟩

/-- What the memory of a node has is what a login of that moment verifies. -/
theorem Sealed.current (h : Sealed argon s) (hkept : Kept s) (hnode : s.nodes i = some node)
    {d : Bool} (hcred : node.principals.cred username = some (hash, d)) :
    Current s i username (s.returned i username) hash := by
  intro c hc
  have hdone : ((i, username), c) ∈ s.changedOk := by
    obtain ⟨⟨key, c'⟩, he, rfl⟩ := List.mem_map.mp hc
    obtain ⟨he, hkey⟩ := List.mem_filter.mp he
    obtain rfl : key = (i, username) := of_decide_eq_true hkey
    exact he
  have hset := (hkept.done _ hdone).1
  exact ⟨hset, h.memory _ hset node hash d hnode hcred⟩

theorem Current.cons {e : (ι × String) × Change} {done : List Change}
    (h : Current s i username done hash) (hset : t.set = e :: s.set)
    (hnew : ∀ e' ∈ s.set, e.2.new ≠ e'.2.new) : Current t i username done hash := by
  intro c hc
  obtain ⟨hmem, hsince⟩ := h c hc
  rw [hset, valuesAt_cons]
  refine ⟨List.mem_cons_of_mem _ hmem, ?_⟩
  split
  · exact mem_since_cons (hnew _ hmem) hsince
  · exact hsince

theorem Sealed.changes (h : Sealed argon s) (hkept : Kept s) (hnode : s.nodes i = some node)
    {c : Change} (hfresh : Fresh s c.new)
    (hcred : ∀ other, m.principals.cred other =
      if other = username then some (c.new, false) else node.principals.cred other)
    (hsessions : m.sessions = node.sessions) :
    Sealed argon { s.setNode i m with set := ((i, username), c) :: s.set } := by
  have hnew : ∀ e ∈ s.set, c.new ≠ e.2.new := fun e he heq =>
    hfresh.notMem.2 (heq ▸ (hkept.set e he).new)
  refine ⟨?_, ?_, ?_⟩
  · intro e he n hash d hn hc
    change hash ∈ since (valuesAt (((i, username), c) :: s.set) e.1) e.2.new
    rw [valuesAt_cons]
    split
    · next hkey =>
        have hhash : hash = c.new := by
          rw [← hkey] at hn hc
          rcases of_setNode hn with ⟨_, rfl⟩ | ⟨hi, _⟩
          · rw [hcred, if_pos rfl] at hc
            cases hc
            rfl
          · exact absurd rfl hi
        rw [hhash]
        exact mem_since_head c _ _
    · next hkey =>
        rcases List.mem_cons.mp he with rfl | hin
        · exact absurd rfl hkey
        · rcases of_setNode hn with ⟨hi, rfl⟩ | ⟨_, hold⟩
          · have hother : e.1.2 ≠ username := fun hname => hkey (Prod.ext hi.symm hname.symm)
            rw [hcred, if_neg hother] at hc
            exact h.memory e hin node hash d (hi ▸ hnode) hc
          · exact h.memory e hin n hash d hold hc
  · intro k j call hcall
    have hold := h.call k j call hcall
    cases call with
    | loginRead u pw p done =>
        exact fun q hq => ⟨(hold q hq).1, (hold q hq).2.cons rfl hnew⟩
    | loginVerified u pw p done => exact ⟨hold.1, hold.2.1, hold.2.2.cons rfl hnew⟩
    | _ => trivial
  · intro j n hn token live hlive
    have hold : LiveKept argon s j live := by
      rcases of_setNode hn with ⟨rfl, rfl⟩ | ⟨_, hold⟩
      · rw [hsessions] at hlive
        exact h.session j node hnode token live hlive
      · exact h.session j n hold token live hlive
    exact ⟨hold.1, hold.2.cons rfl hnew⟩

/-- The sessions of a user are dropped as the change of the password returns. -/
theorem Sealed.retain (h : Sealed argon s) (hnode : s.nodes i = some node) (c : Change) :
    Sealed argon { s.setNode i (node.retain username) with
      changedOk := ((i, username), c) :: s.changedOk } := by
  have hkeep : ∀ j name live, (j, name) ≠ (i, username) → live.session.username = name →
      LiveKept argon s j live → LiveKept argon { s.setNode i (node.retain username) with
        changedOk := ((i, username), c) :: s.changedOk } j live := by
    rintro j name live hne rfl ⟨haccepts, hcurrent⟩
    refine ⟨haccepts, ?_⟩
    have hreturned : valuesAt (((i, username), c) :: s.changedOk) (j, live.session.username) =
        s.returned j live.session.username := by
      rw [valuesAt_cons, if_neg hne.symm]
      rfl
    change Current s j live.session.username
      (valuesAt (((i, username), c) :: s.changedOk) (j, live.session.username)) live.verified
    rw [hreturned]
    exact hcurrent
  have hset := h.setNode (m := node.retain username) hnode (fun _ => rfl) fun token live hl =>
    h.session i node hnode token live (AssocMap.of_lookup_keep hl).1
  refine ⟨hset.memory, ?_, ?_⟩
  · intro k j call hcall
    have hold := h.call k j call hcall
    cases call with
    | loginRead | loginVerified => exact hold
    | _ => trivial
  · intro j n hn token live hlive
    rcases of_setNode hn with ⟨rfl, rfl⟩ | ⟨hj, hold⟩
    · obtain ⟨hl, hq⟩ := AssocMap.of_lookup_keep hlive
      refine hkeep j _ live ?_ rfl (h.session j node hnode token live hl)
      intro heq
      exact (of_decide_eq_true hq) (congrArg Prod.snd heq)
    · exact hkeep j _ live (fun heq => hj (congrArg Prod.fst heq)) rfl
        (h.session j n hold token live hlive)

end Sessions

section Steps

variable [DecidableEq ι] {argon : Argon2} {s t : State ι} {i : ι} {k : Nat} {node : Node}

/-- Both invariants. -/
abbrev Inv (argon : Argon2) (s : State ι) : Prop := Kept s ∧ Sealed argon s

omit [DecidableEq ι] in
theorem opened_eq_some (h : s.opened i = some node) : s.nodes i = some node := by
  obtain ⟨hnode, _⟩ := Option.filter_eq_some_iff.mp h
  exact hnode

/-- A node whose sessions are some of those it had, with the same passwords. -/
theorem Inv.setNode (h : Inv argon s) {m : Node} (hnode : s.nodes i = some node)
    (hmemory : ∀ username, m.principals.cred username = node.principals.cred username)
    (hbase : m.base = node.base)
    (hsession : ∀ token live, m.sessions.lookup token = some live → LiveKept argon s i live) :
    Inv argon (s.setNode i m) :=
  ⟨h.1.setNode hnode hmemory hbase, h.2.setNode hnode hmemory hsession⟩

theorem Inv.openNode (h : Inv argon s) {bootstrapPassword : Option String} {hash : String}
    {now : Nat} (hfresh : s.store.byName = [] → Fresh s hash)
    (hstep : openNode s k i bootstrapPassword hash now = some t) : Inv argon t := by
  have hnoset : s.nodes i = none → ∀ e ∈ s.set, e.1.1 ≠ i := by
    rintro hnone e he rfl
    obtain ⟨n, _, hn, _⟩ := (h.1.set e he).memory
    rw [hnone] at hn
    cases hn
  unfold Passwords.openNode at hstep
  split at hstep
  · next hnone _ =>
      split at hstep
      · next hempty =>
          obtain rfl := Option.some.inj hstep
          have hnil : s.store.byName = [] := List.isEmpty_iff.mp hempty
          have hfresh := hfresh hnil
          have hbase : ∀ other, s.store.cred other = none := by
            intro other
            simp [Principals.cred, Principals.get, hnil]
          have hmade := h.1.makes (i := i) hfresh
          have hnode : NodeKept { s with made := (i, hash) :: s.made } i
              ⟨s.store.set (seed bootstrapPassword hash now), ∅, s.store, false⟩ := by
            refine ⟨hmade.store, fun username => ?_⟩
            by_cases hname : username = defaultUser
            · refine .inr ⟨hash, (seed bootstrapPassword hash now).isDefaultCredential, ?_,
                .inr hbase, hfresh.notMem.1, List.mem_cons_self, ?_⟩
              · exact (Principals.cred_set ..).trans (if_pos hname)
              · rintro e he _ rfl
                rcases (h.1.set e he).old with hold | hold
                · exact hfresh.notMem.1 hold
                · exact hfresh.notMem.2 hold
            · exact .inl ((Principals.cred_set ..).trans (if_neg hname))
          have hkept := (hmade.withNode hnode fun e he hi => absurd hi (hnoset hnone e he)).setCall
            (k := k) (i := i) (c := .seeding) trivial
          have hsealed := (h.2.withNode (m := ⟨s.store.set (seed bootstrapPassword hash now), ∅,
            s.store, false⟩) (fun e he hi => absurd hi (hnoset hnone e he))
            (by simp)).setCall (k := k) (i := i) (c := .seeding) trivial
          exact ⟨hkept, hsealed.memory, hsealed.call, hsealed.session⟩
      · obtain rfl := Option.some.inj hstep
        exact ⟨h.1.withNode ⟨h.1.store, fun _ => .inl rfl⟩
            fun e he hi => absurd hi (hnoset hnone e he),
          h.2.withNode (fun e he hi => absurd hi (hnoset hnone e he)) (by simp)⟩
  · cases hstep

theorem Inv.login (h : Inv argon s) {username password : String}
    (hstep : login s k i username password = some t) : Inv argon t := by
  unfold Passwords.login at hstep
  split at hstep
  · next node hopened _ =>
      obtain rfl := Option.some.inj hstep
      refine ⟨h.1.setCall trivial, h.2.setCall fun p hp => ⟨Principals.username_of_get hp, ?_⟩⟩
      exact h.2.current h.1 (opened_eq_some hopened) (Principals.cred_of_get hp)
  · cases hstep

theorem Inv.verify (h : Inv argon s) (hstep : verify argon s k = some t) : Inv argon t := by
  unfold Passwords.verify at hstep
  split at hstep
  · next i node username password principal done hcall =>
      have hlogin := h.2.call k _ _ (State.call_eq_some hcall).1
      split at hstep
      · next p hp =>
          obtain rfl := Option.some.inj hstep
          obtain ⟨hp, haccepts⟩ := Option.filter_eq_some_iff.mp hp
          obtain ⟨hname, hcurrent⟩ := hlogin p hp
          exact ⟨h.1.setCall trivial, h.2.setCall ⟨hname, haccepts, hcurrent⟩⟩
      · obtain rfl := Option.some.inj hstep
        exact ⟨h.1.endCall, h.2.endCall⟩
  · cases hstep

/-- The session of a login that was not overrun. -/
theorem Inv.insert (h : Inv argon s) {token csrf id : String} {now : Nat}
    (hok : ∀ c ∈ s.call k, NotOverrun s c.1 c.2.1 c.2.2)
    (hstep : insert s k token csrf id now = some t) : Inv argon t := by
  unfold Passwords.insert at hstep
  split at hstep
  · next i node username password p done hcall =>
      obtain rfl := Option.some.inj hstep
      obtain ⟨hlookup, hnode⟩ := State.call_eq_some hcall
      obtain ⟨rfl, haccepts, hcurrent⟩ := h.2.call k _ _ hlookup
      have hreturned : Current s i p.username (s.returned i p.username) p.passwordHash := by
        rcases hok _ hcall with hsame | hsame
        · obtain ⟨q, hq, heq⟩ := Option.map_eq_some_iff.mp hsame
          rw [← heq]
          exact h.2.current h.1 hnode (Principals.cred_of_get hq)
        · exact hsame ▸ hcurrent
      have hset := h.setNode (m := { node with
        sessions := node.sessions.insert token
          ⟨⟨p.username, p.role, p.mustChangePassword, csrf, id, now, now⟩, password,
            p.passwordHash⟩ }) hnode (fun _ => rfl) rfl fun token' live hlive => ?_
      · exact ⟨hset.1.setCall trivial, hset.2.setCall trivial⟩
      · rcases AssocMap.of_lookup_insert hlive with ⟨_, rfl⟩ | ⟨_, hold⟩
        · exact ⟨haccepts, hreturned⟩
        · exact h.2.session i node hnode token' live hold
  · cases hstep

theorem Inv.touched (h : Inv argon s) {now : Nat} (hstep : touched s k now = some t) :
    Inv argon t := by
  unfold Passwords.touched at hstep
  split at hstep
  · next i node username hcall =>
      obtain rfl := Option.some.inj hstep
      obtain ⟨_, hnode⟩ := State.call_eq_some hcall
      have hset := h.setNode (m := { node with
        principals := touch node.principals username now }) hnode
        (cred_touch node.principals username now) rfl (h.2.session i node hnode)
      exact ⟨hset.1.setCall trivial, hset.2.setCall trivial⟩
  · cases hstep

theorem Inv.change (h : Inv argon s) {username old new : String} {hash : Option String}
    (hfresh : ∀ h ∈ hash, Fresh s h)
    (hstep : change argon s k i username old new hash = some t) : Inv argon t := by
  unfold Passwords.change at hstep
  split at hstep
  · next node hopened _ =>
      have hnode := opened_eq_some hopened
      split at hstep
      · next principals c hchange =>
          obtain rfl := Option.some.inj hstep
          obtain ⟨p, rfl, hp, hold, _, rfl⟩ := changePassword_ok hchange
          have hfresh : Fresh s c.new := hfresh _ rfl
          have hname := Principals.username_of_get hp
          have hcred : ∀ other, (node.principals.set { p with
              passwordHash := c.new
              mustChangePassword := false
              isDefaultCredential := false }).cred other =
                if other = username then some (c.new, false) else node.principals.cred other :=
            fun other => by rw [Principals.cred_set, ← hname]
          have hkept := (h.1.changes (m := { node with
            principals := node.principals.set { p with
              passwordHash := c.new
              mustChangePassword := false
              isDefaultCredential := false } }) hnode hfresh
            (hold ▸ Principals.cred_of_get hp) hcred rfl).setCall (k := k) (i := i)
            (c := .changed username c) List.mem_cons_self
          have hsealed := (h.2.changes (m := { node with
            principals := node.principals.set { p with
              passwordHash := c.new
              mustChangePassword := false
              isDefaultCredential := false } }) h.1 hnode hfresh hcred rfl).setCall (k := k)
            (i := i) (c := .changed username c) trivial
          exact ⟨hkept, hsealed.memory, hsealed.call, hsealed.session⟩
      · obtain rfl := Option.some.inj hstep
        exact h
  · cases hstep

theorem Inv.write (h : Inv argon s) (hnode : s.nodes i = some node)
    (hcreds : s.store.creds = node.base.creds) : Inv argon (s.write i node) :=
  ⟨h.1.write hnode hcreds, h.2.write hnode⟩

theorem Inv.endCall (h : Inv argon s) : Inv argon (s.endCall k) := ⟨h.1.endCall, h.2.endCall⟩

/-- What `persist` leaves once its put has succeeded. -/
theorem Inv.wrote (h : Inv argon s) {c : Call} (hcall : s.call k = some (i, node, c))
    (hcreds : s.store.creds = node.base.creds) (hstep : wrote s k i node c = some t) :
    Inv argon t := by
  obtain ⟨hlookup, hnode⟩ := State.call_eq_some hcall
  have hwrite := h.write hnode hcreds
  unfold Passwords.wrote at hstep
  split at hstep
  · obtain rfl := Option.some.inj hstep
    have hready := h.setNode (m := { node with ready := true }) hnode (fun _ => rfl) rfl
      (h.2.session i node hnode)
    have hagain := hready.write (i := i) (Function.update_self ..) hcreds
    have hsame : (s.setNode i { node with ready := true }).write i { node with ready := true } =
        s.write i { node with ready := true } := by
      simp [State.write, State.setNode]
    exact (hsame ▸ hagain).endCall
  · obtain rfl := Option.some.inj hstep
    exact hwrite.endCall
  · next username c =>
      obtain rfl := Option.some.inj hstep
      have hset : ((i, username), c) ∈ s.set := h.1.call k i _ hlookup
      obtain ⟨n, hash, hn, hcred, hne⟩ := (h.1.set _ hset).memory
      obtain rfl := Option.some.inj (hnode.symm.trans hn)
      exact ⟨hwrite.1.setCall ⟨hset, hash, hcred, hne⟩, hwrite.2.setCall trivial⟩
  · cases hstep

theorem Inv.persist (h : Inv argon s) {outcome : PutOutcome}
    (hok : outcome = .failed ∨ ∀ c ∈ s.call k, s.store.creds = c.2.1.base.creds)
    (hstep : persist s k outcome = some t) : Inv argon t := by
  unfold Passwords.persist at hstep
  split at hstep
  · next i node c hcall =>
      have hnode := (State.call_eq_some hcall).2
      cases outcome with
      | ok => exact h.wrote hcall ((hok.resolve_left (by decide)) _ hcall) hstep
      | failed =>
          obtain ⟨_, _, rfl⟩ := Option.map_eq_some_iff.mp hstep
          exact h.endCall
      | failedWritten =>
          obtain ⟨_, _, rfl⟩ := Option.map_eq_some_iff.mp hstep
          exact (h.write hnode ((hok.resolve_left (by decide)) _ hcall)).endCall
  · cases hstep

theorem Inv.retain (h : Inv argon s) (hstep : retain s k = some t) : Inv argon t := by
  unfold Passwords.retain at hstep
  split at hstep
  · next i node username c hcall =>
      obtain rfl := Option.some.inj hstep
      obtain ⟨hlookup, hnode⟩ := State.call_eq_some hcall
      obtain ⟨hset, hlanded⟩ := h.1.call k i _ hlookup
      have hkept := h.1.setNode (m := node.retain username) hnode (fun _ => rfl) rfl
      exact ⟨(hkept.returns (e := ((i, username), c)) hset hlanded).endCall,
        (h.2.retain hnode c).endCall⟩
  · cases hstep

theorem Inv.session (h : Inv argon s) {token : String} {now : Nat}
    (hstep : session s i token now = some t) : Inv argon t := by
  obtain ⟨node, hopened, rfl⟩ := Option.map_eq_some_iff.mp hstep
  have hnode := opened_eq_some hopened
  have hold := h.2.session i node hnode
  unfold Node.session
  split
  · exact h.setNode hnode (fun _ => rfl) rfl hold
  · next live hlive =>
      split
      · exact h.setNode hnode (fun _ => rfl) rfl fun token' live' hlive' =>
          hold token' live' (AssocMap.of_lookup_erase hlive').2
      · refine h.setNode hnode (fun _ => rfl) rfl fun token' live' hlive' => ?_
        rcases AssocMap.of_lookup_insert hlive' with ⟨_, rfl⟩ | ⟨_, hlive'⟩
        · exact hold token live hlive
        · exact hold token' live' hlive'

theorem Inv.logout (h : Inv argon s) {token : String} (hstep : logout s i token = some t) :
    Inv argon t := by
  obtain ⟨node, hopened, rfl⟩ := Option.map_eq_some_iff.mp hstep
  have hnode := opened_eq_some hopened
  exact h.setNode hnode (fun _ => rfl) rfl fun token' live hlive =>
    h.2.session i node hnode token' live (AssocMap.of_lookup_erase hlive).2

theorem Inv.step {a : Action ι} (h : Inv argon s) (hok : Careful s a)
    (hstep : step argon s a = some t) : Inv argon t := by
  cases a with
  | «open» k i bootstrapPassword hash now => exact h.openNode hok hstep
  | login k i username password => exact h.login hstep
  | verify k => exact h.verify hstep
  | insert k token csrf id now => exact h.insert hok hstep
  | touch k now => exact h.touched hstep
  | change k i username old new hash =>
      have hchange : Passwords.change argon s k i username old new hash = some t := hstep
      exact h.change hok hchange
  | persist k outcome => exact h.persist hok hstep
  | retain k => exact h.retain hstep
  | session i token now => exact h.session hstep
  | logout i token => exact h.logout hstep

theorem Inv.initial (content : Principals) : Inv argon (initial content : State ι) := by
  refine ⟨⟨List.Pairwise.nil, ?_, ?_, ?_, ?_, ?_⟩, ?_, ?_, ?_⟩
  · exact fun username hash d hcred => mem_hashes_of_cred hcred
  all_goals simp [Passwords.initial]

end Steps

/-- In a run of careful steps a rotation is final: once `change_password` has
returned on a node, every session of the user that the node accepts is of a
login that verified the hash this change set or one that a later change set
there, and the file has neither the old hash nor the default-credential flag. -/
theorem rotation_is_final [DecidableEq ι] (argon : Argon2) (content : Principals)
    {acts : List (Action ι)} {s : State ι}
    (hrun : Run (step argon) Careful (initial content) acts s) :
    ∀ i username c, ((i, username), c) ∈ s.changedOk →
      (∀ node, s.nodes i = some node → ∀ token now info,
        (node.session token now).2 = some info → info.username = username →
        ∃ live, node.sessions.lookup token = some live ∧
          argon.accepts live.password live.verified = true ∧
          live.verified ∈ since (valuesAt s.set (i, username)) c.new) ∧
      ∀ p, s.store.get username = some p →
        p.passwordHash ≠ c.old ∧ p.isDefaultCredential = false := by
  obtain ⟨hkept, hsealed⟩ : Inv argon s :=
    hrun.invariant (fun _ _ _ h hok hstep => h.step hok hstep) (Inv.initial content)
  intro i username c hdone
  refine ⟨?_, ?_⟩
  · intro node hnode token now info hinfo hname
    unfold Node.session at hinfo
    split at hinfo
    · cases hinfo
    · next live hlive =>
        split at hinfo
        · cases hinfo
        · cases hinfo
          subst hname
          obtain ⟨haccepts, hcurrent⟩ := hsealed.session i node hnode token live hlive
          have hreturned : c ∈ s.returned i live.session.username :=
            List.mem_map.mpr ⟨_, List.mem_filter.mpr ⟨hdone, by simp [Session.info]⟩, rfl⟩
          exact ⟨live, hlive, haccepts, (hcurrent c hreturned).2⟩
  · intro p hp
    obtain ⟨_, hash, hcred, hne⟩ := hkept.done _ hdone
    have heq := Option.some.inj ((Principals.cred_of_get hp).symm.trans hcred)
    obtain ⟨hhash, hflag⟩ := Prod.mk.injEq .. ▸ heq
    exact ⟨hhash ▸ hne, hflag⟩

section Runs

/-- A hash that is the password after a salt of two characters. -/
def plainArgon : Argon2 where
  parses hash := 2 ≤ hash.length
  verifies password hash := hash.toList.drop 2 = password.toList

/-- A node is seeded and its password is changed; a login with the new password,
and another node opens and changes it once more. -/
def changedTwice : List (Action Bool) :=
  [.open 0 false none "00admin" 100, .persist 0 .ok,
    .change 1 false "admin" "admin" "first-secret" (some "01first-secret"), .persist 1 .ok,
    .retain 1,
    .login 2 false "admin" "first-secret", .verify 2, .insert 2 "t2" "c2" "i2" 5, .touch 2 101,
    .persist 2 .ok, .session false "t2" 6,
    .open 3 true none "" 102,
    .change 4 true "admin" "first-secret" "second-secret" (some "02second-secret"),
    .persist 4 .ok, .retain 4]

theorem changedTwice_final : ∃ s,
    Run (step plainArgon) Careful (initial .empty) changedTwice s ∧
      ((true, "admin"), ⟨"01first-secret", "02second-secret"⟩) ∈ s.changedOk ∧
      ∀ p, s.store.get "admin" = some p →
        p.passwordHash ≠ "01first-secret" ∧ p.isDefaultCredential = false := by
  obtain ⟨s, run, hdone⟩ := exists_run_with (step plainArgon) Careful
    (initial .empty : State Bool) changedTwice
    (fun s => ((true, "admin"), ⟨"01first-secret", "02second-secret"⟩) ∈ s.changedOk)
    (by decide +kernel)
  exact ⟨s, run, hdone, (rotation_is_final _ _ run _ _ _ hdone).2⟩

/-- A login on each of two nodes verifies the default password. The password is
changed on one of them, and then both logins go on. -/
def loginsOverrun : List (Action Bool) :=
  [.open 0 false none "00admin" 100, .persist 0 .ok, .open 1 true none "" 100,
    .login 2 false "admin" "admin", .verify 2,
    .login 3 true "admin" "admin", .verify 3,
    .change 4 false "admin" "admin" "first-secret" (some "01first-secret"), .persist 4 .ok,
    .retain 4,
    .insert 2 "t2" "c2" "i2" 5, .insert 3 "t3" "c3" "i3" 5, .touch 3 101, .persist 3 .ok]

theorem loginsOverrun_undo : ∃ s,
    Run (step plainArgon) (fun _ _ => True) (initial .empty) loginsOverrun s ∧
      ((false, "admin"), ⟨"00admin", "01first-secret"⟩) ∈ s.changedOk ∧
      (s.nodes false).map (fun node => ((node.session "t2" 6).2.map SessionInfo.username,
        (node.sessions.lookup "t2").map Live.verified)) = some (some "admin", some "00admin") ∧
      s.store.cred "admin" = some ("00admin", true) :=
  exists_run_with _ _ _ _ _ (by decide +kernel)

end Runs

end TimeLake.Auth.Passwords
