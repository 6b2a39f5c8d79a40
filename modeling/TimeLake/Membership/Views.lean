import TimeLake.Membership.Consul

/-!
What the nodes know of one another. Whatever fails and in whatever order the calls fall, a
node only ever knows others as they registered themselves, each once and in the order of
their ids, as long as it is Consul that answers.
-/

namespace TimeLake.Membership

open TimeLake.Library TimeLake.Library.AssocMap

section Entries

variable (api : ConsulApi)

/-- A node is read as it registered itself. -/
theorem memberOf_registration {this : NodeInfo} (hid : this.id ≠ "") (selfId : String) :
    memberOf selfId (api.entry (registration this)) =
      if this.id = selfId then none else some this := by
  have hname : (registration this).field "ID" = .str this.id := rfl
  have hdata : (registration this).field "Meta" = .obj [("role", .str this.role.asStr),
      ("cluster_addr", .str this.address), ("data_addr", .str this.dataAddress)] := rfl
  have hrole : (Role.parse this.role.asStr).toOption = some this.role := by
    rw [Role.parse_asStr]
    rfl
  simp only [memberOf, api.entry_id, api.entry_meta, hname, hdata]
  by_cases hself : this.id = selfId
  · rw [if_pos hself]
    exact if_pos (.inr hself)
  · rw [if_neg hself]
    refine (if_neg (not_or.mpr ⟨hid, hself⟩)).trans ?_
    have hread : ((Json.obj [("role", Json.str this.role.asStr),
        ("cluster_addr", .str this.address), ("data_addr", .str this.dataAddress)] :
          Json Nat).field "role").asStr = some this.role.asStr := rfl
    rw [hread, Option.bind_some, hrole]
    rfl

theorem memberOf_garbled {selfId : String} {entry : Json Nat} (h : memberOf "" entry = none) :
    memberOf selfId entry = none := by
  unfold memberOf at h ⊢
  simp only at h ⊢
  split at h
  · next hid =>
      rw [or_self] at hid
      exact if_pos (.inl hid)
  · split at h
    · cases h
    · next hrole =>
        split
        · rfl
        · rfl

/-- What the node of this id is told. -/
def view (consul : AssocMap String Registration) (selfId : String) : List NodeInfo :=
  fetchMembers (some (health api consul)) selfId

def shown (selfId : String) (reg : Registration) : Option NodeInfo :=
  if reg.passing then memberOf selfId (api.entry reg.payload) else none

theorem view_perm (consul : AssocMap String Registration) (selfId : String) :
    (view api consul selfId).Perm (consul.gather (shown api selfId)) := by
  have hsort := List.perm_insertionSort (fun a b : NodeInfo => a.id ≤ b.id)
    (parseMembers (some (health api consul)) selfId)
  refine hsort.trans ?_
  have harrange := (api.perm (consul.gather fun reg =>
    if reg.passing then some reg.payload else none)).map api.entry
  refine (harrange.filterMap (memberOf selfId)).trans ?_
  rw [List.filterMap_map, gather, gather, List.filterMap_filterMap]
  refine .of_eq (congrFun (congrArg List.filterMap ?_) _)
  funext reg
  rw [shown]
  split
  · rfl
  · rfl

theorem mem_view {consul : AssocMap String Registration} {selfId : String} {x : NodeInfo} :
    x ∈ view api consul selfId ↔ ∃ id reg, consul.lookup id = some reg ∧ reg.passing = true ∧
      memberOf selfId (api.entry reg.payload) = some x := by
  rw [(view_perm api consul selfId).mem_iff, mem_gather]
  refine exists_congr fun id => exists_congr fun reg => and_congr_right fun _ => ?_
  rw [shown]
  split
  · next hpassing => exact ⟨fun h => ⟨hpassing, h⟩, fun h => h.2⟩
  · next hcritical => simp [hcritical]

/-- A view is in the order of the ids and has no id twice, if every entry shows its own. -/
theorem view_sorted {consul : AssocMap String Registration} {selfId : String}
    (h : ∀ id reg x, consul.lookup id = some reg → reg.passing = true →
      memberOf selfId (api.entry reg.payload) = some x → x.id = id) :
    (view api consul selfId).Pairwise fun a b => a.id < b.id := by
  have hnodup : ((view api consul selfId).map (·.id)).Nodup := by
    refine ((view_perm api consul selfId).map (·.id)).nodup_iff.mpr (nodup_gather ?_)
    intro id reg x hreg hshown
    rw [shown] at hshown
    split at hshown
    · next hpassing => exact h id reg x hreg hpassing hshown
    · cases hshown
  have : Std.Total fun a b : NodeInfo => a.id ≤ b.id := ⟨fun a b => le_total _ _⟩
  have : IsTrans NodeInfo fun a b => a.id ≤ b.id := ⟨fun a b c => le_trans⟩
  have hsorted : (view api consul selfId).Pairwise fun a b => a.id ≤ b.id :=
    List.pairwise_insertionSort (fun a b : NodeInfo => a.id ≤ b.id) _
  rw [List.Nodup, List.pairwise_map] at hnodup
  exact (hsorted.and hnodup).imp fun h => lt_of_le_of_ne h.1 h.2

end Entries

section Runs

variable {api : ConsulApi} {s t : State} {done : List Action}

theorem joined_append {x : NodeInfo} (h : x ∈ joined done) (more : List Action) :
    x ∈ joined (done ++ more) := by
  induction done with
  | nil => cases h
  | cons a rest ih =>
      cases a with
      | join this =>
          rcases List.mem_cons.mp h with rfl | h
          · exact List.mem_cons_self
          · exact List.mem_cons_of_mem _ (ih h)
      | _ => exact ih h

theorem join_mem_joined (this : NodeInfo) : this ∈ joined (done ++ [.join this]) := by
  induction done with
  | nil => exact List.mem_singleton.mpr rfl
  | cons a rest ih =>
      cases a with
      | join this => exact List.mem_cons_of_mem _ ih
      | _ => exact ih

/-- It is Consul that answers. -/
def Action.honest : Action → Bool
  | .fetch _ (.other _) => false
  | _ => true

/-- Members as one node may know them: others that joined, each once, by id. -/
structure Genuine (done : List Action) (id : String) (members : List NodeInfo) : Prop where
  sorted : members.Pairwise fun a b => a.id < b.id
  others : ∀ x ∈ members, x.id ≠ id ∧ x ∈ joined done

/-- What Consul holds under an id is a node that joined under it, or nothing that can be read;
every node stands under its id, and knows others as they joined. -/
structure Truthful (api : ConsulApi) (s : State) (done : List Action) : Prop where
  consul : ∀ id reg, s.consul.lookup id = some reg →
    (∃ this ∈ joined done, this.id = id ∧ id ≠ "" ∧ reg.payload = registration this) ∨
      memberOf "" (api.entry reg.payload) = none
  nodes : ∀ id n, s.nodes.lookup id = some n →
    n.info.id = id ∧ id ≠ "" ∧ n.info ∈ joined done ∧ Genuine done id n.members

theorem truthful_start : Truthful api start [] where
  consul := by
    intro id reg h
    cases h
  nodes := by
    intro id n h
    cases h

theorem Genuine.later {id : String} {members : List NodeInfo} (h : Genuine done id members)
    (more : List Action) : Genuine (done ++ more) id members where
  sorted := h.sorted
  others := fun x hx => ⟨(h.others x hx).1, joined_append (h.others x hx).2 more⟩

theorem Truthful.later (h : Truthful api s done) (more : List Action) :
    Truthful api s (done ++ more) where
  consul := by
    intro id reg hreg
    rcases h.consul id reg hreg with ⟨this, hthis, hrest⟩ | hgarbled
    · exact .inl ⟨this, joined_append hthis more, hrest⟩
    · exact .inr hgarbled
  nodes := by
    intro id n hn
    obtain ⟨hid, hne, hjoined, hmembers⟩ := h.nodes id n hn
    exact ⟨hid, hne, joined_append hjoined more, hmembers.later more⟩

/-- A registration of this kind may stand under this id. -/
theorem Truthful.setConsul (h : Truthful api s done) {id : String} {reg : Registration}
    (hreg : (∃ this ∈ joined done, this.id = id ∧ id ≠ "" ∧ reg.payload = registration this) ∨
      memberOf "" (api.entry reg.payload) = none) :
    Truthful api { s with consul := s.consul.insert id reg } done where
  consul := by
    intro j other hj
    rcases of_lookup_insert hj with ⟨rfl, rfl⟩ | ⟨-, hother⟩
    · exact hreg
    · exact h.consul j other hother
  nodes := h.nodes

theorem Truthful.put (h : Truthful api s done) {id : String} {n n' : Node}
    (hn : s.nodes.lookup id = some n) (hinfo : n'.info = n.info)
    (hmembers : Genuine done id n'.members) : Truthful api (s.put id n') done where
  consul := h.consul
  nodes := by
    intro j other hj
    rcases of_lookup_insert hj with ⟨rfl, rfl⟩ | ⟨-, hother⟩
    · obtain ⟨hid, hne, hjoined, -⟩ := h.nodes j n hn
      exact ⟨hinfo ▸ hid, hne, hinfo ▸ hjoined, hmembers⟩
    · exact h.nodes j other hother

/-- What a node is told is genuine. -/
theorem Truthful.view (h : Truthful api s done) (id : String) :
    Genuine done id (view api s.consul id) := by
  have hread : ∀ j reg x, s.consul.lookup j = some reg →
      memberOf id (api.entry reg.payload) = some x → x.id = j ∧ j ≠ id ∧ x ∈ joined done := by
    intro j reg x hreg hx
    rcases h.consul j reg hreg with ⟨this, hthis, rfl, hne, hpayload⟩ | hgarbled
    · rw [hpayload, memberOf_registration api hne] at hx
      split at hx
      · cases hx
      · next hother =>
          cases hx
          exact ⟨rfl, hother, hthis⟩
    · rw [memberOf_garbled hgarbled] at hx
      cases hx
  refine ⟨view_sorted api fun j reg x hreg _ hx => (hread j reg x hreg hx).1, ?_⟩
  intro x hx
  obtain ⟨j, reg, hreg, -, hmember⟩ := (mem_view api).mp hx
  obtain ⟨hid, hne, hjoined⟩ := hread j reg x hreg hmember
  exact ⟨hid ▸ hne, hjoined⟩

theorem register_truthful (h : Truthful api s done) {id : String} {n : Node}
    (hn : s.nodes.lookup id = some n) {reached answered kept : Bool}
    (hstep : register s id n reached answered kept = some t) : Truthful api t done := by
  obtain ⟨hid, hne, hjoined, hmembers⟩ := h.nodes id n hn
  unfold register at hstep
  split at hstep
  · cases hstep
    have hconsul : ∀ passing, Truthful api
        { s with consul := s.consul.insert id (⟨registration n.info, passing⟩ : Registration) }
        done := fun passing => h.setConsul (.inl ⟨n.info, hjoined, hid, hne, rfl⟩)
    cases reached with
    | false => exact h.put hn rfl hmembers
    | true =>
        cases answered with
        | false => exact (hconsul _).put hn rfl hmembers
        | true => exact (hconsul _).put hn rfl hmembers
  · cases hstep

theorem pass_truthful (h : Truthful api s done) {id : String} {n : Node}
    (hn : s.nodes.lookup id = some n) {reached answered : Bool}
    (hstep : pass s id n reached answered = some t) : Truthful api t done := by
  obtain ⟨-, -, -, hmembers⟩ := h.nodes id n hn
  unfold pass at hstep
  split at hstep
  · split at hstep
    · next reg hreg =>
        cases hstep
        have hconsul : Truthful api
            { s with consul := s.consul.insert id { reg with passing := true } } done :=
          h.setConsul (h.consul id reg hreg)
        cases reached with
        | false => exact h.put hn rfl hmembers
        | true =>
            cases answered with
            | false => exact hconsul.put hn rfl hmembers
            | true => exact hconsul.put hn rfl hmembers
    · cases hstep
      exact h.put hn rfl hmembers
  · cases hstep

theorem step_truthful (h : Truthful api s done) {a : Action} (ha : a.honest = true)
    (hstep : step api s a = some t) : Truthful api t (done ++ [a]) := by
  have hlater := h.later [a]
  cases a with
  | join this =>
      rw [step] at hstep
      split at hstep
      · cases hstep
      · split at hstep
        · cases hstep
        · next hne =>
            cases hstep
            refine ⟨hlater.consul, ?_⟩
            intro j other hj
            rcases of_lookup_insert hj with ⟨rfl, rfl⟩ | ⟨-, hother⟩
            · exact ⟨rfl, hne, join_mem_joined this, .nil, fun x hx => absurd hx List.not_mem_nil⟩
            · exact hlater.nodes j other hother
  | leave id =>
      cases hstep
      exact ⟨hlater.consul, fun j other hj => hlater.nodes j other (of_lookup_erase hj).2⟩
  | register id reached answered kept =>
      obtain ⟨n, hn, hstep⟩ := Option.bind_eq_some_iff.mp hstep
      exact register_truthful hlater hn hstep
  | pass id reached answered =>
      obtain ⟨n, hn, hstep⟩ := Option.bind_eq_some_iff.mp hstep
      exact pass_truthful hlater hn hstep
  | fetch id reply =>
      obtain ⟨n, hn, hstep⟩ := Option.bind_eq_some_iff.mp hstep
      obtain ⟨-, -, -, hmembers⟩ := hlater.nodes id n hn
      unfold fetch at hstep
      split at hstep
      · cases reply with
        | lost =>
            cases hstep
            exact hlater.put hn rfl hmembers
        | consul =>
            cases hstep
            exact hlater.put hn rfl (hlater.view id)
        | other body => cases ha
      · cases hstep
  | expire id =>
      obtain ⟨reg, hreg, hstep⟩ := Option.map_eq_some_iff.mp hstep
      subst hstep
      exact hlater.setConsul (hlater.consul id reg hreg)
  | deregister id =>
      cases hstep
      exact ⟨fun j reg hj => hlater.consul j reg (of_lookup_erase hj).2, hlater.nodes⟩
  | forget =>
      cases hstep
      exact ⟨fun j reg hj => absurd hj (by simp), hlater.nodes⟩
  | foreign id payload =>
      rw [step] at hstep
      split at hstep
      · next hguard =>
          cases hstep
          rw [Bool.and_eq_true, Option.isNone_iff_eq_none, Option.isNone_iff_eq_none] at hguard
          exact hlater.setConsul (.inr hguard.2)
      · cases hstep

/-- Whatever calls fail, with nodes coming and going and Consul losing what it was told: what a
node knows are other nodes, exactly as they joined, each id once and in order. -/
theorem members_genuine {acts : List Action}
    (run : Run (step api) (fun _ a => a.honest = true) start acts t) {id : String} {n : Node}
    (hn : t.nodes.lookup id = some n) :
    n.members.Pairwise (fun a b => a.id < b.id) ∧
      ∀ x ∈ n.members, x.id ≠ id ∧ x ∈ joined acts := by
  have h : Truthful api t acts := run.invariant_trace (P := Truthful api)
    (fun _ _ _ _ hs ha hstep => step_truthful hs ha hstep) truthful_start
  obtain ⟨-, -, -, hmembers⟩ := h.nodes id n hn
  exact ⟨hmembers.sorted, hmembers.others⟩

/-- An API that answers with what was registered, in the order of the map. -/
def plainApi : ConsulApi where
  entry payload := .obj [("Service", .obj [("ID", payload.field "ID"),
    ("Meta", payload.field "Meta")])]
  entry_id _ := rfl
  entry_meta _ := rfl
  arrange payloads := payloads
  perm _ := .refl _

def nodeA : NodeInfo := ⟨"a", .compactor, "a:1965", "a:1963"⟩

def nodeB : NodeInfo := ⟨"b", .compactor, "b:1965", ""⟩

/-- The second node hears of the first; the first loses the answer to its own check. -/
theorem lateAnswer_genuine :
    ∃ t n, Run (step plainApi) (fun _ a => a.honest = true) start
        [.join nodeA, .join nodeB, .register "a" true true true, .pass "a" true false,
          .register "b" true true true, .pass "b" true true, .fetch "b" .consul] t ∧
      t.nodes.lookup "b" = some n ∧ n.members = [nodeA] ∧ ∀ x ∈ n.members, x.id ≠ "b" := by
  obtain ⟨t, run, hmembers⟩ := exists_run_of_checkedRun (step plainApi)
    (fun _ a => a.honest = true) start
    [.join nodeA, .join nodeB, .register "a" true true true, .pass "a" true false,
      .register "b" true true true, .pass "b" true true, .fetch "b" .consul]
    (fun t => (t.nodes.lookup "b").map Node.members) (some [nodeA]) (by decide)
  obtain ⟨n, hn, hmembers⟩ := Option.map_eq_some_iff.mp hmembers
  exact ⟨t, n, run, hn, hmembers, fun x hx => ((members_genuine run hn).2 x hx).1⟩

end Runs

end TimeLake.Membership
