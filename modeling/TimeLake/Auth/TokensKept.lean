import TimeLake.Auth.TokenCalls
import TimeLake.Library.Run

/-!
When token changes are kept. A node writes the whole document from its own
memory, so a change another node has stored since that memory was read is
overwritten; and a reload replaces the memory by what it read earlier, so a
change made meanwhile is forgotten. `Careful` excludes the two, two tokens with
one id or digest, and two documents with one hash. Then the stored document and
the memory of every node only grow, and everything else follows from that.
-/

namespace TimeLake.Auth.Tokens

open TimeLake.Library TimeLake.Auth

variable {ι : Type} {H : Type}

section Condition

variable [DecidableEq H]

/-- Before a node puts its memory that memory has all of the stored document,
before it swaps its memory the document read has all of the memory, and
documents it compares by their hashes are equal if these are. -/
def UpToDate (digest : Content → H) (store : Content) (node : Node) : Call → Prop
  | .changed _ => Covers store.records node.tokens.records
  | .got _ content => digest content = digest node.loaded → content = node.loaded
  | .differs _ content => Covers node.tokens.records content.records
  | _ => True

instance (digest : Content → H) (store : Content) (node : Node) :
    DecidablePred (UpToDate digest store node)
  | .changed _ => inferInstanceAs (Decidable (Covers _ _))
  | .got _ _ => inferInstanceAs (Decidable (_ → _))
  | .differs _ _ => inferInstanceAs (Decidable (Covers _ _))
  | .putting _ _ => .isTrue trivial
  | .swapped _ _ => .isTrue trivial

def Careful (digest : Content → H) (s : State ι) : Action ι → Prop
  | .issue _ _ r => ∀ q ∈ s.issued, q.id ≠ r.id ∧ q.hash ≠ r.hash
  | .put k | .compare k | .swap k => ∀ c ∈ s.call k, UpToDate digest s.store c.2.1 c.2.2
  | _ => True

instance (digest : Content → H) (s : State ι) : DecidablePred (Careful digest s)
  | .issue _ _ _ => inferInstanceAs (Decidable (∀ q ∈ s.issued, _))
  | .put k => inferInstanceAs (Decidable (∀ c ∈ s.call k, _))
  | .compare k => inferInstanceAs (Decidable (∀ c ∈ s.call k, _))
  | .swap k => inferInstanceAs (Decidable (∀ c ∈ s.call k, _))
  | .open _ => .isTrue trivial
  | .revoke _ _ _ => .isTrue trivial
  | .wrote _ => .isTrue trivial
  | .reload _ _ => .isTrue trivial
  | .reloaded _ => .isTrue trivial

end Condition

section Invariant

/-- Every record is of a token that was issued. -/
def Known (issued d : List TokenRecord) : Prop :=
  ∀ r ∈ d, ∃ q ∈ issued, q.id = r.id ∧ q.hash = r.hash

/-- The document has what the call changed. -/
def Change.Done (d : List TokenRecord) : Change → Prop
  | .issue r => Has d r
  | .revoke id => RevokedIn d id

/-- A document a reload has read. -/
structure Read (issued : List TokenRecord) (known : List String) (content : Content) : Prop where
  nodup : (content.records.map TokenRecord.hash).Nodup
  issued : Known issued content.records
  revoked : ∀ id ∈ known, RevokedIn content.records id

def CallInv (s : State ι) (node : Node) : Call → Prop
  | .changed c => c.Done node.tokens.records
  | .putting c doc => c.Done s.store.records ∧ Covers doc node.tokens.records
  | .got known content | .differs known content => Read s.issued known content
  | .swapped known content =>
      Read s.issued known content ∧ Covers content.records node.tokens.records

def NodeInv (issued : List TokenRecord) (node : Node) : Prop :=
  Known issued node.tokens.records ∧ Covers node.loaded.records node.tokens.records

structure Inv (s : State ι) : Prop where
  distinct : (s.issued.map TokenRecord.id).Nodup
  nodup : (s.store.records.map TokenRecord.hash).Nodup
  stored : Known s.issued s.store.records
  node : ∀ i node, s.nodes i = some node → NodeInv s.issued node
  call : ∀ k i c, s.calls.lookup k = some (i, c) →
    ∃ node, s.nodes i = some node ∧ CallInv s node c
  issuedOk : ∀ r ∈ s.issuedOk, Has s.store.records r
  revokedOk : ∀ id ∈ s.revokedOk, RevokedIn s.store.records id
  informed : ∀ p ∈ s.informed, ∃ node, s.nodes p.1 = some node ∧
    RevokedIn node.tokens.records p.2

end Invariant

section Grow

variable {issued issued' d d' : List TokenRecord} {known : List String} {content : Content}

theorem Known.mono (h : Known issued d) (hsub : issued ⊆ issued') : Known issued' d := by
  intro r hr
  obtain ⟨q, hq, hsame⟩ := h r hr
  exact ⟨q, hsub hq, hsame⟩

theorem Change.Done.covers {c : Change} (h : c.Done d) (hcovers : Covers d d') : c.Done d' := by
  cases c with
  | issue r => exact Has.covers h hcovers
  | revoke id => exact RevokedIn.covers h hcovers

theorem Read.mono (h : Read issued known content) (hsub : issued ⊆ issued') :
    Read issued' known content :=
  ⟨h.nodup, h.issued.mono hsub, h.revoked⟩

theorem Read.mem (h : Read issued known content) {r : TokenRecord} :
    r ∈ (TokenIndex.fromRecords content.records).records ↔ r ∈ content.records :=
  TokenIndex.mem_fromRecords h.nodup

theorem covers_of_mem (h : ∀ r ∈ d, r ∈ d') : Covers d d' := fun r hr => ⟨r, h r hr, .refl r⟩

/-- What a call relies on is kept while memory, store and issued tokens grow. -/
theorem CallInv.grow {s t : State ι} {node node' : Node} {c : Call} (h : CallInv s node c)
    (hissued : s.issued ⊆ t.issued) (hstore : Covers s.store.records t.store.records)
    (htokens : Covers node.tokens.records node'.tokens.records) : CallInv t node' c := by
  cases c with
  | changed c => exact Change.Done.covers h htokens
  | putting c doc => exact ⟨h.1.covers hstore, h.2.trans htokens⟩
  | got known content => exact Read.mono h hissued
  | differs known content => exact Read.mono h hissued
  | swapped known content => exact ⟨h.1.mono hissued, h.2.trans htokens⟩

/-- Two records of one document with one id are one record. -/
theorem Inv.eq_of_id {s : State ι} (h : Inv s) (hnodup : (d.map TokenRecord.hash).Nodup)
    (hknown : Known s.issued d) {r r' : TokenRecord} (hr : r ∈ d) (hr' : r' ∈ d)
    (hid : r.id = r'.id) : r = r' := by
  obtain ⟨q, hq, hqid, hqhash⟩ := hknown r hr
  obtain ⟨q', hq', hqid', hqhash'⟩ := hknown r' hr'
  have hsame : q = q' :=
    List.inj_on_of_nodup_map h.distinct hq hq' (by rw [hqid, hqid', hid])
  refine List.inj_on_of_nodup_map hnodup hr hr' ?_
  rw [← hqhash, ← hqhash', hsame]

theorem Inv.revoked_of_id {s : State ι} (h : Inv s) (hnodup : (d.map TokenRecord.hash).Nodup)
    (hknown : Known s.issued d) {id : String} (hrevoked : RevokedIn d id) {r : TokenRecord}
    (hr : r ∈ d) (hid : r.id = id) : r.revoked = true := by
  obtain ⟨r', hr', hid', hset⟩ := hrevoked
  obtain rfl := h.eq_of_id hnodup hknown hr hr' (hid.trans hid'.symm)
  exact hset

end Grow

section Updates

variable {s : State ι} {i : ι} {k : Nat} {node node' : Node}

theorem State.call_eq_some {c : Call} (h : s.call k = some (i, node, c)) :
    s.calls.lookup k = some (i, c) ∧ s.nodes i = some node := by
  unfold State.call at h
  split at h
  · next j c' hlookup =>
      obtain ⟨node', hnode, heq⟩ := Option.map_eq_some_iff.mp h
      cases heq
      exact ⟨hlookup, hnode⟩
  · cases h

theorem Inv.of_call (h : Inv s) {c : Call} (hcall : s.call k = some (i, node, c)) :
    s.nodes i = some node ∧ NodeInv s.issued node ∧ CallInv s node c := by
  obtain ⟨hlookup, hnode⟩ := State.call_eq_some hcall
  obtain ⟨node', hnode', hinv⟩ := h.call k i c hlookup
  obtain rfl := Option.some.inj (hnode.symm.trans hnode')
  exact ⟨hnode, h.node i node hnode, hinv⟩

/-- A node's memory grows. -/
theorem Inv.setNode [DecidableEq ι] (h : Inv s) (hinv : NodeInv s.issued node')
    (hgrow : ∀ node, s.nodes i = some node →
      Covers node.tokens.records node'.tokens.records) : Inv (s.setNode i node') := by
  have hnodes : ∀ j node, s.nodes j = some node → ∃ node'',
      (s.setNode i node').nodes j = some node'' ∧
        Covers node.tokens.records node''.tokens.records := by
    intro j node hnode
    by_cases hj : j = i
    · subst hj
      exact ⟨node', Function.update_self .., hgrow node hnode⟩
    · exact ⟨node, (Function.update_of_ne hj ..).trans hnode, .refl _⟩
  refine ⟨h.distinct, h.nodup, h.stored, ?_, ?_, h.issuedOk, h.revokedOk, ?_⟩
  · intro j node hnode
    by_cases hj : j = i
    · subst hj
      obtain rfl := Option.some.inj ((Function.update_self j _ s.nodes).symm.trans hnode)
      exact hinv
    · exact h.node j node ((Function.update_of_ne hj ..).symm.trans hnode)
  · intro k j c hc
    obtain ⟨node, hnode, hcall⟩ := h.call k j c hc
    obtain ⟨node'', hnode'', hcovers⟩ := hnodes j node hnode
    exact ⟨node'', hnode'', hcall.grow (fun _ hq => hq) (.refl _) hcovers⟩
  · intro p hp
    obtain ⟨node, hnode, hrevoked⟩ := h.informed p hp
    obtain ⟨node'', hnode'', hcovers⟩ := hnodes p.1 node hnode
    exact ⟨node'', hnode'', hrevoked.covers hcovers⟩

theorem Inv.setCall (h : Inv s) {c : Call} (hnode : s.nodes i = some node)
    (hcall : CallInv s node c) : Inv (s.setCall k i c) := by
  refine ⟨h.distinct, h.nodup, h.stored, h.node, ?_, h.issuedOk, h.revokedOk, h.informed⟩
  intro k' j c' hc
  change (s.calls.insert k (i, c)).lookup k' = some (j, c') at hc
  by_cases hk : k' = k
  · subst hk
    rw [AList.lookup_insert] at hc
    cases hc
    exact ⟨node, hnode, hcall⟩
  · rw [AList.lookup_insert_ne hk] at hc
    exact h.call k' j c' hc

theorem Inv.endCall (h : Inv s) : Inv (s.endCall k) := by
  refine ⟨h.distinct, h.nodup, h.stored, h.node, ?_, h.issuedOk, h.revokedOk, h.informed⟩
  intro k' j c' hc
  change (s.calls.erase k).lookup k' = some (j, c') at hc
  by_cases hk : k' = k
  · subst hk
    rw [AList.lookup_erase] at hc
    cases hc
  · rw [AList.lookup_erase_ne hk] at hc
    exact h.call k' j c' hc

theorem Inv.inform (h : Inv s) {known : List String} (hnode : s.nodes i = some node)
    (hrevoked : ∀ id ∈ known, RevokedIn node.tokens.records id) : Inv (s.inform i known) := by
  refine ⟨h.distinct, h.nodup, h.stored, h.node, h.call, h.issuedOk, h.revokedOk, ?_⟩
  intro p hp
  rcases List.mem_append.mp hp with hnew | hold
  · obtain ⟨id, hid, rfl⟩ := List.mem_map.mp hnew
    exact ⟨node, hnode, hrevoked id hid⟩
  · exact h.informed p hold

theorem Inv.returned (h : Inv s) {c : Change} (hdone : c.Done s.store.records) :
    Inv (s.returned c) := by
  cases c with
  | issue r =>
      refine ⟨h.distinct, h.nodup, h.stored, h.node, h.call, ?_, h.revokedOk, h.informed⟩
      intro q hq
      rcases List.mem_cons.mp hq with rfl | hold
      · exact hdone
      · exact h.issuedOk q hold
  | revoke id =>
      refine ⟨h.distinct, h.nodup, h.stored, h.node, h.call, h.issuedOk, ?_, h.informed⟩
      intro q hq
      rcases List.mem_cons.mp hq with rfl | hold
      · exact hdone
      · exact h.revokedOk q hold

/-- The memory of a node that has all of the stored document becomes the stored
document. -/
theorem Inv.stores (h : Inv s) (hnode : s.nodes i = some node)
    (hcovers : Covers s.store.records node.tokens.records) :
    Inv { s with store := some node.tokens.records } := by
  refine ⟨h.distinct, node.tokens.nodup_records, (h.node i node hnode).1, h.node, ?_, ?_, ?_,
    h.informed⟩
  · intro k j c hc
    obtain ⟨node', hnode', hcall⟩ := h.call k j c hc
    exact ⟨node', hnode', hcall.grow (fun _ hq => hq) hcovers (.refl _)⟩
  · exact fun r hr => (h.issuedOk r hr).covers hcovers
  · exact fun id hid => (h.revokedOk id hid).covers hcovers

theorem Inv.issues (h : Inv s) {r : TokenRecord}
    (hnew : ∀ q ∈ s.issued, q.id ≠ r.id ∧ q.hash ≠ r.hash) :
    Inv { s with issued := r :: s.issued } := by
  have hsub : s.issued ⊆ r :: s.issued := List.subset_cons_self r s.issued
  refine ⟨List.nodup_cons.mpr ⟨?_, h.distinct⟩, h.nodup, h.stored.mono hsub, ?_, ?_,
    h.issuedOk, h.revokedOk, h.informed⟩
  · intro hin
    obtain ⟨q, hq, hid⟩ := List.mem_map.mp hin
    exact (hnew q hq).1 hid
  · exact fun j node hnode => ⟨(h.node j node hnode).1.mono hsub, (h.node j node hnode).2⟩
  · intro k j c hc
    obtain ⟨node, hnode, hcall⟩ := h.call k j c hc
    exact ⟨node, hnode, hcall.grow hsub (.refl _) (.refl _)⟩

theorem Inv.read (h : Inv s) : Read s.issued s.revokedOk s.store :=
  ⟨h.nodup, h.stored, h.revokedOk⟩

end Updates

section Steps

variable [DecidableEq ι] {s t : State ι} {i : ι} {k : Nat} {digest : Content → H}

private theorem nodeInv_read {content : Content} {known : List String} {issued : List TokenRecord}
    (h : Read issued known content) :
    Known issued (TokenIndex.fromRecords content.records).records ∧
      Covers content.records (TokenIndex.fromRecords content.records).records :=
  ⟨fun r hr => h.issued r (h.mem.mp hr), covers_of_mem fun _ hr => h.mem.mpr hr⟩

theorem Inv.openNode (h : Inv s) (hstep : openNode s i = some t) : Inv t := by
  unfold Tokens.openNode at hstep
  split at hstep
  · next hnone =>
      obtain rfl := Option.some.inj hstep
      refine h.setNode (nodeInv_read h.read) ?_
      intro node hnode
      rw [hnone] at hnode
      cases hnode
  · cases hstep

theorem Inv.issue (h : Inv s) {r : TokenRecord} (hstep : issue s k i r = some t)
    (hnew : ∀ q ∈ s.issued, q.id ≠ r.id ∧ q.hash ≠ r.hash) : Inv t := by
  unfold Tokens.issue at hstep
  split at hstep
  · next node hnode _ =>
      split at hstep
      · cases hstep
      · obtain rfl := Option.some.inj hstep
        have hold := h.node i node hnode
        have hcovers : Covers node.tokens.records (node.tokens.insert r).records := by
          refine TokenIndex.covers_insert fun q hq hhash => ?_
          obtain ⟨q', hq', _, hqhash⟩ := hold.1 q hq
          exact absurd (hqhash.trans hhash) (hnew q' hq').2
        have hinv : NodeInv (r :: s.issued) { node with tokens := node.tokens.insert r } := by
          refine ⟨fun q hq => ?_, hold.2.trans hcovers⟩
          rcases TokenIndex.mem_insert.mp hq with rfl | ⟨hq, _⟩
          · exact ⟨q, List.mem_cons_self, rfl, rfl⟩
          · exact hold.1.mono (List.subset_cons_self r s.issued) q hq
        refine ((h.issues hnew).setNode (i := i) hinv ?_).setCall (k := k)
          (Function.update_self ..) ⟨r, TokenIndex.mem_insert.mpr (.inl rfl), .refl r⟩
        intro node' hnode'
        obtain rfl := Option.some.inj (hnode.symm.trans hnode')
        exact hcovers
  · cases hstep

theorem Inv.revoke (h : Inv s) {id : String} (hstep : revoke s k i id = some t) : Inv t := by
  unfold Tokens.revoke at hstep
  split at hstep
  · next node hnode _ =>
      split at hstep
      · cases hstep
      · split at hstep
        · next tokens htokens =>
            obtain rfl := Option.some.inj hstep
            obtain ⟨hcovers, hrevoked, hfrom⟩ := TokenIndex.revoke_spec htokens
            have hold := h.node i node hnode
            have hinv : NodeInv s.issued { node with tokens := tokens } := by
              refine ⟨fun q hq => ?_, hold.2.trans hcovers⟩
              obtain ⟨q', hq', hid, hhash⟩ := hfrom q hq
              obtain ⟨p, hp, hpid, hphash⟩ := hold.1 q' hq'
              exact ⟨p, hp, hpid.trans hid, hphash.trans hhash⟩
            refine (h.setNode (i := i) hinv ?_).setCall (k := k) (Function.update_self ..) hrevoked
            intro node' hnode'
            obtain rfl := Option.some.inj (hnode.symm.trans hnode')
            exact hcovers
        · obtain rfl := Option.some.inj hstep
          exact h
  · cases hstep

omit [DecidableEq ι] in
theorem Inv.put (h : Inv s) (hstep : put s k = some t)
    (hok : ∀ c ∈ s.call k, UpToDate digest s.store c.2.1 c.2.2) : Inv t := by
  unfold Tokens.put at hstep
  split at hstep
  · next i node c hcall =>
      obtain rfl := Option.some.inj hstep
      obtain ⟨hnode, _, hdone⟩ := h.of_call hcall
      exact (h.stores hnode (hok _ hcall)).setCall hnode ⟨hdone, .refl _⟩
  · cases hstep

theorem Inv.wrote (h : Inv s) (hstep : wrote s k = some t) : Inv t := by
  unfold Tokens.wrote at hstep
  split at hstep
  · next i node c doc hcall =>
      obtain rfl := Option.some.inj hstep
      obtain ⟨hnode, hold, hdone, hdoc⟩ := h.of_call hcall
      have hinv : NodeInv s.issued { node with loaded := some doc } := ⟨hold.1, hdoc⟩
      refine (h.setNode hinv ?_).endCall.returned hdone
      intro node' hnode'
      obtain rfl := Option.some.inj (hnode.symm.trans hnode')
      exact .refl _
  · cases hstep

omit [DecidableEq ι] in
theorem Inv.reload (h : Inv s) (hstep : reload s k i = some t) : Inv t := by
  unfold Tokens.reload at hstep
  split at hstep
  · next node hnode _ =>
      obtain rfl := Option.some.inj hstep
      exact h.setCall hnode h.read
  · cases hstep

variable [DecidableEq H]

omit [DecidableEq ι] in
/-- A reload that finds the content it has loaded already. -/
theorem Inv.compare (h : Inv s) (hstep : compare digest s k = some t)
    (hok : ∀ c ∈ s.call k, UpToDate digest s.store c.2.1 c.2.2) : Inv t := by
  unfold Tokens.compare at hstep
  split at hstep
  · next i node known content hcall =>
      obtain ⟨hnode, hold, hread⟩ := h.of_call hcall
      split at hstep
      · next hsame =>
          obtain rfl := Option.some.inj hstep
          obtain rfl : content = node.loaded := hok _ hcall hsame
          exact h.endCall.inform hnode fun id hid => (hread.revoked id hid).covers hold.2
      · obtain rfl := Option.some.inj hstep
        exact h.setCall hnode hread
  · cases hstep

omit [DecidableEq H] in
theorem Inv.swap (h : Inv s) (hstep : swap s k = some t)
    (hok : ∀ c ∈ s.call k, UpToDate digest s.store c.2.1 c.2.2) : Inv t := by
  unfold Tokens.swap at hstep
  split at hstep
  · next i node known content hcall =>
      obtain ⟨hnode, hold, hread⟩ := h.of_call hcall
      split at hstep
      · cases hstep
      · obtain rfl := Option.some.inj hstep
        have hnew := nodeInv_read hread
        have hgrow : Covers node.tokens.records
            (TokenIndex.fromRecords content.records).records :=
          (show Covers node.tokens.records content.records from hok _ hcall).trans hnew.2
        have hinv : NodeInv s.issued
            { node with tokens := .fromRecords content.records } :=
          ⟨hnew.1, hold.2.trans hgrow⟩
        refine (h.setNode (i := i) hinv ?_).setCall (k := k) (Function.update_self ..)
          ⟨hread, hnew.2⟩
        intro node' hnode'
        obtain rfl := Option.some.inj (hnode.symm.trans hnode')
        exact hgrow
  · cases hstep

theorem Inv.reloaded (h : Inv s) (hstep : reloaded s k = some t) : Inv t := by
  unfold Tokens.reloaded at hstep
  split at hstep
  · next i node known content hcall =>
      obtain rfl := Option.some.inj hstep
      obtain ⟨hnode, hold, hread, hcovers⟩ := h.of_call hcall
      have hinv : NodeInv s.issued { node with loaded := content } := ⟨hold.1, hcovers⟩
      refine (h.setNode (i := i) hinv ?_).endCall.inform (Function.update_self ..)
        fun id hid => (hread.revoked id hid).covers hcovers
      intro node' hnode'
      obtain rfl := Option.some.inj (hnode.symm.trans hnode')
      exact .refl _
  · cases hstep

theorem Inv.step {a : Action ι} (h : Inv s) (hok : Careful digest s a)
    (hstep : step digest s a = some t) : Inv t := by
  cases a with
  | «open» i => exact h.openNode hstep
  | issue k i r => exact h.issue hstep hok
  | revoke k i id => exact h.revoke hstep
  | put k => exact h.put hstep hok
  | wrote k => exact h.wrote hstep
  | reload k i => exact h.reload hstep
  | compare k => exact h.compare hstep hok
  | swap k => exact h.swap hstep hok
  | reloaded k => exact h.reloaded hstep

omit [DecidableEq ι] [DecidableEq H] in
theorem Inv.initial : Inv (initial : State ι) where
  distinct := List.Pairwise.nil
  nodup := List.Pairwise.nil
  stored := by simp [Known, Tokens.initial]
  node := by simp [Tokens.initial]
  call := by simp [Tokens.initial]
  issuedOk := by simp [Tokens.initial]
  revokedOk := by simp [Tokens.initial]
  informed := by simp [Tokens.initial]

end Steps

/-- In a run of careful steps no token change is lost: the stored document has
every token whose issue has returned, has every token whose revocation has
returned as revoked only, and a node that has finished a reload begun after a
revocation refuses the token. -/
theorem token_changes_kept [DecidableEq ι] [DecidableEq H] (digest : Content → H)
    {acts : List (Action ι)} {s : State ι}
    (hrun : Run (step digest) (Careful digest) initial acts s) :
    (∀ id ∈ s.revokedOk, ∀ r ∈ s.store.records, r.id = id → r.revoked = true) ∧
      (∀ r ∈ s.issuedOk, Has s.store.records r) ∧
      ∀ p ∈ s.informed, ∀ node, s.nodes p.1 = some node → ∀ secret now identity,
        node.tokens.verify secret now = .ok identity → identity.id ≠ p.2 := by
  have hinv : Inv s := 
    hrun.invariant (fun _ _ _ h hok hstep => h.step hok hstep) Inv.initial
  refine ⟨?_, hinv.issuedOk, ?_⟩
  · intro id hid r hr heq
    exact hinv.revoked_of_id hinv.nodup hinv.stored (hinv.revokedOk id hid) hr heq
  · intro p hp node hnode secret now identity hverify hid
    obtain ⟨node', hnode', hrevoked⟩ := hinv.informed p hp
    obtain rfl := Option.some.inj (hnode.symm.trans hnode')
    obtain ⟨r, hr, hrid, _, hlive⟩ := TokenIndex.verify_ok hverify
    have hset := hinv.revoked_of_id node.tokens.nodup_records (hinv.node _ _ hnode).1 hrevoked hr
      (hrid.trans hid)
    rw [hlive] at hset
    cases hset

section Runs

def tokenOf (id hash : String) : TokenRecord :=
  ⟨id, "collector", hash, .readWrite, [], [], "admin", 100, none, false, none⟩

/-- A token is issued on one node and revoked on another, and the first reloads. -/
def revokedElsewhere : List (Action Bool) :=
  [.open false, .issue 0 false (tokenOf "tok-100-aaaaaaaa" "aaaaaaaa"), .put 0, .wrote 0,
    .open true, .revoke 1 true "tok-100-aaaaaaaa", .put 1, .wrote 1,
    .reload 2 false, .compare 2, .swap 2, .reloaded 2]

theorem revokedElsewhere_refused : ∃ s,
    Run (step fun content => content) (Careful fun content => content) initial
      revokedElsewhere s ∧
    (false, "tok-100-aaaaaaaa") ∈ s.informed ∧
    ∀ node, s.nodes false = some node → ∀ secret now identity,
      node.tokens.verify secret now = .ok identity → identity.id ≠ "tok-100-aaaaaaaa" := by
  obtain ⟨s, run, hinformed⟩ := exists_run_with (step fun content : Content => content)
    (Careful fun content => content) (initial : State Bool) revokedElsewhere
    (fun s => (false, "tok-100-aaaaaaaa") ∈ s.informed) (by decide +kernel)
  exact ⟨s, run, hinformed, (token_changes_kept _ run).2.2 _ hinformed⟩

/-- Two nodes know a token. One revokes it, the other issues another and writes
its memory, where the first is not revoked. -/
def issuedFromStaleMemory : List (Action Bool) :=
  [.open false, .issue 0 false (tokenOf "tok-100-aaaaaaaa" "aaaaaaaa"), .put 0, .wrote 0,
    .open true, .revoke 1 false "tok-100-aaaaaaaa", .put 1, .wrote 1,
    .issue 2 true (tokenOf "tok-101-bbbbbbbb" "bbbbbbbb"), .put 2, .wrote 2]

theorem issuedFromStaleMemory_unrevokes : ∃ s,
    Run (step fun content => content) (fun _ _ => True) initial issuedFromStaleMemory s ∧
      "tok-100-aaaaaaaa" ∈ s.revokedOk ∧
      tokenOf "tok-100-aaaaaaaa" "aaaaaaaa" ∈ s.store.records :=
  exists_run_with _ _ _ _ _ (by decide +kernel)

end Runs

end TimeLake.Auth.Tokens
