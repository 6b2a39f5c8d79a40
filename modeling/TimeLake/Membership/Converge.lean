import TimeLake.Cluster.Settle
import TimeLake.Membership.Views

/-!
When it becomes quiet: no node comes or goes, no check runs out and every call is answered.
Once every node that is up has registered, then passed its check, then asked, in any order
among the nodes and with any further calls in between, each of them knows exactly the others.
That is what the operator's list would have told them, and the compactors among them divide
the work.
-/

namespace TimeLake.Membership

open TimeLake.Library TimeLake.Library.AssocMap

section Quiet

variable {api : ConsulApi} {nodes : List NodeInfo} {s t : State}

/-- A call that succeeds, unless Consul refuses it. -/
def Action.quiet : Action → Bool
  | .register _ true true true | .pass _ true true | .fetch _ .consul => true
  | _ => false

/-- These nodes are up, under their ids, and Consul takes no one else for healthy. -/
structure Calm (nodes : List NodeInfo) (s : State) : Prop where
  named : ∀ id n, s.nodes.lookup id = some n → n.info.id = id ∧ id ≠ ""
  up : ∀ this, this ∈ nodes ↔ ∃ n, s.nodes.lookup this.id = some n ∧ n.info = this
  alive : ∀ id reg, s.consul.lookup id = some reg → reg.passing = true →
    ∃ this ∈ nodes, this.id = id

/-- Consul holds the node as it is. -/
def Known (this : NodeInfo) (s : State) : Prop :=
  ∃ reg, s.consul.lookup this.id = some reg ∧ reg.payload = registration this

/-- And takes it for healthy. -/
def Ready (this : NodeInfo) (s : State) : Prop :=
  ∃ reg, s.consul.lookup this.id = some reg ∧ reg.payload = registration this ∧
    reg.passing = true

/-- The node knows exactly the others. -/
def Informed (nodes : List NodeInfo) (this : NodeInfo) (s : State) : Prop :=
  ∃ n, s.nodes.lookup this.id = some n ∧ n.members.Pairwise (fun a b => a.id < b.id) ∧
    ∀ x, x ∈ n.members ↔ x ∈ nodes ∧ x ≠ this

/-- What a quiet step does. The caller's entry, if it is right, stays so and stays passing, and
the caller's members are what they were or what Consul has to say. -/
structure Effect (api : ConsulApi) (s t : State) (id : String) (n n' : Node) : Prop where
  caller : s.nodes.lookup id = some n
  nodes : t.nodes = s.nodes.insert id n'
  info : n'.info = n.info
  others : ∀ j, j ≠ id → t.consul.lookup j = s.consul.lookup j
  kept : ∀ reg, s.consul.lookup id = some reg → reg.payload = registration n.info →
    ∃ reg', t.consul.lookup id = some reg' ∧ reg'.payload = registration n.info ∧
      (reg.passing = true → reg'.passing = true)
  members : n'.members = n.members ∨ n'.members = view api s.consul id

theorem register_effect {id : String}
    (hstep : step api s (.register id true true true) = some t) :
    ∃ n n', Effect api s t id n n' ∧
      ∃ reg, t.consul.lookup id = some reg ∧ reg.payload = registration n.info := by
  obtain ⟨n, hn, hstep⟩ := Option.bind_eq_some_iff.mp hstep
  unfold register at hstep
  split at hstep
  · cases hstep
    refine ⟨n, { n with progress := .registered }, ?_, _, AList.lookup_insert _, rfl⟩
    refine ⟨hn, rfl, rfl, fun j hj => AList.lookup_insert_ne hj, ?_, .inl rfl⟩
    intro reg hreg _
    refine ⟨_, AList.lookup_insert _, rfl, fun hpassing => ?_⟩
    simpa [hreg] using hpassing
  · cases hstep

theorem pass_effect {id : String} (hstep : step api s (.pass id true true) = some t) :
    ∃ n n', Effect api s t id n n' ∧ ∀ reg, s.consul.lookup id = some reg →
      ∃ reg', t.consul.lookup id = some reg' ∧ reg'.payload = reg.payload ∧
        reg'.passing = true := by
  obtain ⟨n, hn, hstep⟩ := Option.bind_eq_some_iff.mp hstep
  unfold pass at hstep
  split at hstep
  · split at hstep
    · next reg hreg =>
        cases hstep
        refine ⟨n, { n with progress := .passed }, ?_, ?_⟩
        · refine ⟨hn, rfl, rfl, fun j hj => AList.lookup_insert_ne hj, ?_, .inl rfl⟩
          intro reg' hreg' hpayload
          obtain rfl := Option.some.inj (hreg.symm.trans hreg')
          exact ⟨_, AList.lookup_insert _, hpayload, fun _ => rfl⟩
        · intro reg' hreg'
          obtain rfl := Option.some.inj (hreg.symm.trans hreg')
          exact ⟨_, AList.lookup_insert _, rfl, rfl⟩
    · next hunknown =>
        cases hstep
        refine ⟨n, n.fail, ⟨hn, rfl, rfl, fun _ _ => rfl, ?_, .inl rfl⟩, ?_⟩
        · intro reg hreg
          rw [hunknown] at hreg
          cases hreg
        · intro reg hreg
          rw [hunknown] at hreg
          cases hreg
  · cases hstep

theorem fetch_effect {id : String} (hstep : step api s (.fetch id .consul) = some t) :
    ∃ n n', Effect api s t id n n' ∧ n'.members = view api s.consul id := by
  obtain ⟨n, hn, hstep⟩ := Option.bind_eq_some_iff.mp hstep
  unfold fetch at hstep
  split at hstep
  · cases hstep
    refine ⟨n, n.refreshed (view api s.consul id), ?_, rfl⟩
    exact ⟨hn, rfl, rfl, fun _ _ => rfl, fun reg hreg h => ⟨reg, hreg, h, fun hp => hp⟩,
      .inr rfl⟩
  · cases hstep

theorem quiet_effect {a : Action} (ha : a.quiet = true) (hstep : step api s a = some t) :
    ∃ id n n', Effect api s t id n n' := by
  match a with
  | .register id true true true =>
      obtain ⟨n, n', heffect, -⟩ := register_effect hstep
      exact ⟨id, n, n', heffect⟩
  | .pass id true true =>
      obtain ⟨n, n', heffect, -⟩ := pass_effect hstep
      exact ⟨id, n, n', heffect⟩
  | .fetch id .consul =>
      obtain ⟨n, n', heffect, -⟩ := fetch_effect hstep
      exact ⟨id, n, n', heffect⟩

variable {id : String} {n n' : Node}

/-- The caller of a step is one of the nodes, the one of its id. -/
theorem Calm.caller (h : Calm nodes s) (hn : s.nodes.lookup id = some n) :
    n.info ∈ nodes ∧ n.info.id = id ∧ id ≠ "" := by
  obtain ⟨hid, hne⟩ := h.named id n hn
  exact ⟨(h.up n.info).mpr ⟨n, hid ▸ hn, rfl⟩, hid, hne⟩

theorem Calm.eq_of_id (h : Calm nodes s) {x y : NodeInfo} (hx : x ∈ nodes) (hy : y ∈ nodes)
    (hid : x.id = y.id) : x = y := by
  obtain ⟨n, hn, rfl⟩ := (h.up x).mp hx
  obtain ⟨n', hn', rfl⟩ := (h.up y).mp hy
  rw [hid] at hn
  rw [Option.some.inj (hn.symm.trans hn')]

theorem Effect.calm (e : Effect api s t id n n') (h : Calm nodes s) : Calm nodes t := by
  obtain ⟨hmem, hid, hne⟩ := h.caller e.caller
  refine ⟨?_, ?_, ?_⟩
  · intro j other hj
    rw [e.nodes] at hj
    rcases of_lookup_insert hj with ⟨rfl, rfl⟩ | ⟨-, hother⟩
    · exact ⟨e.info ▸ hid, hne⟩
    · exact h.named j other hother
  · intro this
    rw [h.up this, e.nodes]
    by_cases hthis : this.id = id
    · rw [hthis, AList.lookup_insert, e.caller]
      simp [e.info]
    · rw [AList.lookup_insert_ne hthis]
  · intro j reg hreg hpassing
    by_cases hj : j = id
    · subst hj
      exact ⟨n.info, hmem, hid⟩
    · rw [e.others j hj] at hreg
      exact h.alive j reg hreg hpassing

theorem Effect.own (e : Effect api s t id n n') (h : Calm nodes s) {this : NodeInfo}
    (hthis : this ∈ nodes) (hid : this.id = id) : n.info = this := by
  obtain ⟨hmem, hid', -⟩ := h.caller e.caller
  exact h.eq_of_id hmem hthis (hid'.trans hid.symm)

theorem Effect.known (e : Effect api s t id n n') (h : Calm nodes s) {this : NodeInfo}
    (hthis : this ∈ nodes) (hknown : Known this s) : Known this t := by
  obtain ⟨reg, hreg, hpayload⟩ := hknown
  by_cases hid : this.id = id
  · have hown := e.own h hthis hid
    subst hid
    obtain ⟨reg', hreg', hpayload', -⟩ := e.kept reg hreg (hown.symm ▸ hpayload)
    exact ⟨reg', hreg', hown ▸ hpayload'⟩
  · exact ⟨reg, (e.others _ hid).trans hreg, hpayload⟩

theorem Effect.ready (e : Effect api s t id n n') (h : Calm nodes s) {this : NodeInfo}
    (hthis : this ∈ nodes) (hready : Ready this s) : Ready this t := by
  obtain ⟨reg, hreg, hpayload, hpassing⟩ := hready
  by_cases hid : this.id = id
  · have hown := e.own h hthis hid
    subst hid
    obtain ⟨reg', hreg', hpayload', hstays⟩ := e.kept reg hreg (hown.symm ▸ hpayload)
    exact ⟨reg', hreg', hown ▸ hpayload', hstays hpassing⟩
  · exact ⟨reg, (e.others _ hid).trans hreg, hpayload, hpassing⟩

/-- Where all nodes are ready, each is told of exactly the others. -/
theorem Calm.view (h : Calm nodes s) (hready : ∀ this ∈ nodes, Ready this s) {this : NodeInfo}
    (hthis : this ∈ nodes) :
    (view api s.consul this.id).Pairwise (fun a b => a.id < b.id) ∧
      ∀ x, x ∈ view api s.consul this.id ↔ x ∈ nodes ∧ x ≠ this := by
  have hnamed : ∀ x ∈ nodes, x.id ≠ "" := by
    intro x hx
    obtain ⟨n, hn, rfl⟩ := (h.up x).mp hx
    exact (h.named _ n hn).2
  have hread : ∀ j reg, s.consul.lookup j = some reg → reg.passing = true →
      ∃ y ∈ nodes, y.id = j ∧ memberOf this.id (api.entry reg.payload) =
        if y.id = this.id then none else some y := by
    intro j reg hreg hpassing
    obtain ⟨y, hy, rfl⟩ := h.alive j reg hreg hpassing
    obtain ⟨reg', hreg', hpayload, -⟩ := hready y hy
    obtain rfl := Option.some.inj (hreg.symm.trans hreg')
    exact ⟨y, hy, rfl, hpayload ▸ memberOf_registration api (hnamed y hy) this.id⟩
  refine ⟨view_sorted api ?_, ?_⟩
  · intro j reg x hreg hpassing hx
    obtain ⟨y, hy, rfl, hmember⟩ := hread j reg hreg hpassing
    rw [hmember] at hx
    split at hx
    · cases hx
    · cases hx
      rfl
  · intro x
    rw [mem_view]
    constructor
    · rintro ⟨j, reg, hreg, hpassing, hx⟩
      obtain ⟨y, hy, rfl, hmember⟩ := hread j reg hreg hpassing
      rw [hmember] at hx
      split at hx
      · cases hx
      · next hother =>
          cases hx
          exact ⟨hy, fun heq => hother (congrArg NodeInfo.id heq)⟩
    · rintro ⟨hx, hother⟩
      obtain ⟨reg, hreg, hpayload, hpassing⟩ := hready x hx
      refine ⟨x.id, reg, hreg, hpassing, ?_⟩
      rw [hpayload, memberOf_registration api (hnamed x hx), if_neg]
      exact fun hid => hother (h.eq_of_id hx hthis hid)

theorem Effect.informed (e : Effect api s t id n n') (h : Calm nodes s)
    (hready : ∀ this ∈ nodes, Ready this s) {this : NodeInfo} (hthis : this ∈ nodes)
    (hinformed : Informed nodes this s ∨ this.id = id ∧ n'.members = view api s.consul id) :
    Informed nodes this t := by
  have hview : (view api s.consul this.id).Pairwise (fun a b => a.id < b.id) ∧
      ∀ x, x ∈ view api s.consul this.id ↔ x ∈ nodes ∧ x ≠ this := h.view hready hthis
  by_cases hid : this.id = id
  · subst hid
    refine ⟨n', by rw [e.nodes, AList.lookup_insert], ?_⟩
    rcases hinformed with ⟨old, hold, hmembers⟩ | ⟨-, hmembers⟩
    · obtain rfl := Option.some.inj (e.caller.symm.trans hold)
      rcases e.members with hsame | hnew
      · rw [hsame]
        exact hmembers
      · rw [hnew]
        exact hview
    · rw [hmembers]
      exact hview
  · rcases hinformed with ⟨old, hold, hmembers⟩ | ⟨hcaller, -⟩
    · exact ⟨old, by rw [e.nodes, AList.lookup_insert_ne hid, hold], hmembers⟩
    · exact absurd hcaller hid

end Quiet

section Phases

variable {api : ConsulApi} {nodes : List NodeInfo} {s t : State} {acts : List Action}

theorem calm_run (run : Run (step api) (fun _ a => a.quiet = true) s acts t)
    (h : Calm nodes s) : Calm nodes t := by
  refine run.invariant (P := Calm nodes) ?_ h
  intro u a v hu ha hstep
  obtain ⟨id, n, n', heffect⟩ := quiet_effect ha hstep
  exact heffect.calm hu

theorem known_run (run : Run (step api) (fun _ a => a.quiet = true) s acts t)
    (h : Calm nodes s) (hacts : ∀ this ∈ nodes, .register this.id true true true ∈ acts) :
    ∀ this ∈ nodes, Known this t := by
  intro this hthis
  refine run.established (P := Calm nodes) (Q := Known this) ?_ ?_ ?_ h (hacts this hthis)
  · intro u a v hu ha hstep
    obtain ⟨id, n, n', heffect⟩ := quiet_effect ha hstep
    exact heffect.calm hu
  · intro u a v hu ha hstep hknown
    obtain ⟨id, n, n', heffect⟩ := quiet_effect ha hstep
    exact heffect.known hu hthis hknown
  · intro u v hu _ hstep
    obtain ⟨n, n', heffect, reg, hreg, hpayload⟩ := register_effect hstep
    exact ⟨reg, hreg, heffect.own hu hthis rfl ▸ hpayload⟩

theorem ready_run (run : Run (step api) (fun _ a => a.quiet = true) s acts t)
    (h : Calm nodes s) (hknown : ∀ this ∈ nodes, Known this s)
    (hacts : ∀ this ∈ nodes, .pass this.id true true ∈ acts) : ∀ this ∈ nodes, Ready this t := by
  intro this hthis
  refine run.established (P := fun u => Calm nodes u ∧ Known this u) (Q := Ready this) ?_ ?_ ?_
    ⟨h, hknown this hthis⟩ (hacts this hthis)
  · rintro u a v ⟨hu, hu'⟩ ha hstep
    obtain ⟨id, n, n', heffect⟩ := quiet_effect ha hstep
    exact ⟨heffect.calm hu, heffect.known hu hthis hu'⟩
  · rintro u a v ⟨hu, -⟩ ha hstep hready
    obtain ⟨id, n, n', heffect⟩ := quiet_effect ha hstep
    exact heffect.ready hu hthis hready
  · rintro u v ⟨hu, reg, hreg, hpayload⟩ _ hstep
    obtain ⟨n, n', -, hpassed⟩ := pass_effect hstep
    obtain ⟨reg', hreg', hpayload', hpassing⟩ := hpassed reg hreg
    exact ⟨reg', hreg', hpayload'.trans hpayload, hpassing⟩

theorem informed_run (run : Run (step api) (fun _ a => a.quiet = true) s acts t)
    (h : Calm nodes s) (hready : ∀ this ∈ nodes, Ready this s)
    (hacts : ∀ this ∈ nodes, .fetch this.id .consul ∈ acts) :
    ∀ this ∈ nodes, Informed nodes this t := by
  intro this hthis
  refine run.established (P := fun u => Calm nodes u ∧ ∀ this ∈ nodes, Ready this u)
    (Q := Informed nodes this) ?_ ?_ ?_ ⟨h, hready⟩ (hacts this hthis)
  · rintro u a v ⟨hu, hu'⟩ ha hstep
    obtain ⟨id, n, n', heffect⟩ := quiet_effect ha hstep
    exact ⟨heffect.calm hu, fun x hx => heffect.ready hu hx (hu' x hx)⟩
  · rintro u a v ⟨hu, hu'⟩ ha hstep hinformed
    obtain ⟨id, n, n', heffect⟩ := quiet_effect ha hstep
    exact heffect.informed hu hu' hthis (.inl hinformed)
  · rintro u v ⟨hu, hu'⟩ _ hstep
    obtain ⟨n, n', heffect, hmembers⟩ := fetch_effect hstep
    exact heffect.informed hu hu' hthis (.inr ⟨rfl, hmembers⟩)

end Phases

section Main

variable {api : ConsulApi} {nodes : List NodeInfo} {s m₁ m₂ t : State}

/-- A process stands under its id, in any run. -/
def Named (s : State) : Prop :=
  ∀ id n, s.nodes.lookup id = some n → n.info.id = id ∧ id ≠ ""

theorem Named.put (h : Named s) {id : String} {n n' : Node} (hn : s.nodes.lookup id = some n)
    (hinfo : n'.info = n.info) : Named (s.put id n') := by
  intro j other hj
  rcases of_lookup_insert hj with ⟨rfl, rfl⟩ | ⟨-, hother⟩
  · exact hinfo ▸ h j n hn
  · exact h j other hother

theorem step_named (h : Named s) {a : Action} (hstep : step api s a = some t) : Named t := by
  cases a with
  | join this =>
      rw [step] at hstep
      split at hstep
      · cases hstep
      · split at hstep
        · cases hstep
        · next hne =>
            cases hstep
            intro j other hj
            rcases of_lookup_insert hj with ⟨rfl, rfl⟩ | ⟨-, hother⟩
            · exact ⟨rfl, hne⟩
            · exact h j other hother
  | leave id =>
      cases hstep
      exact fun j other hj => h j other (of_lookup_erase hj).2
  | register id reached answered kept =>
      obtain ⟨n, hn, hstep⟩ := Option.bind_eq_some_iff.mp hstep
      unfold register at hstep
      split at hstep
      · cases hstep
        cases reached <;> cases answered <;> exact Named.put h hn rfl
      · cases hstep
  | pass id reached answered =>
      obtain ⟨n, hn, hstep⟩ := Option.bind_eq_some_iff.mp hstep
      unfold pass at hstep
      split at hstep
      · split at hstep
        · cases hstep
          cases reached <;> cases answered <;> exact Named.put h hn rfl
        · cases hstep
          exact Named.put h hn rfl
      · cases hstep
  | fetch id reply =>
      obtain ⟨n, hn, hstep⟩ := Option.bind_eq_some_iff.mp hstep
      unfold fetch at hstep
      split at hstep
      · cases reply <;> cases hstep <;> exact Named.put h hn rfl
      · cases hstep
  | expire id =>
      obtain ⟨reg, -, hstep⟩ := Option.map_eq_some_iff.mp hstep
      subst hstep
      exact h
  | deregister id =>
      cases hstep
      exact h
  | forget =>
      cases hstep
      exact h
  | foreign id payload =>
      rw [step] at hstep
      split at hstep
      · cases hstep
        exact h
      · cases hstep

/-- The ids of the compactors among the members. -/
def compactorPeers (members : List NodeInfo) : List String :=
  (members.filter fun x => x.role = .compactor).map (·.id)

def State.peersOf (s : State) (id : String) : List String :=
  (s.nodes.lookup id).elim [] fun n => compactorPeers n.members

/-- `compactor_shard` of a node, as it sees the cluster. -/
def State.shard (s : State) (this : NodeInfo) : Nat × Nat :=
  Cluster.compactorShard this.id (s.peersOf this.id)

theorem mem_peersOf (h : ∀ this ∈ nodes, Informed nodes this t) {this : NodeInfo}
    (hthis : this ∈ nodes) {x : String} :
    x ∈ t.peersOf this.id ↔ ∃ y ∈ nodes, y ≠ this ∧ y.role = .compactor ∧ y.id = x := by
  obtain ⟨n, hn, -, hmembers⟩ := h this hthis
  rw [State.peersOf, hn, Option.elim_some, compactorPeers, List.mem_map]
  constructor
  · rintro ⟨y, hy, rfl⟩
    obtain ⟨hmem, hrole⟩ := List.mem_filter.mp hy
    obtain ⟨hnodes, hne⟩ := (hmembers y).mp hmem
    exact ⟨y, hnodes, hne, of_decide_eq_true hrole, rfl⟩
  · rintro ⟨y, hnodes, hne, hrole, rfl⟩
    exact ⟨y, List.mem_filter.mpr ⟨(hmembers y).mpr ⟨hnodes, hne⟩, decide_eq_true hrole⟩, rfl⟩

/-- The compactors among nodes that know one another are a fleet. -/
def fleet (h : ∀ this ∈ nodes, Informed nodes this t)
    (hsome : compactorPeers nodes ≠ []) : Cluster.Fleet where
  members := compactorPeers nodes
  inhabited := hsome
  peers := t.peersOf
  known := by
    intro self hself x
    obtain ⟨this, hthis, rfl⟩ := List.mem_map.mp hself
    obtain ⟨hnodes, hrole⟩ := List.mem_filter.mp hthis
    rw [List.mem_append, List.mem_singleton, mem_peersOf h hnodes, compactorPeers, List.mem_map]
    constructor
    · rintro (⟨y, hy, -, hyrole, rfl⟩ | rfl)
      · exact ⟨y, List.mem_filter.mpr ⟨hy, decide_eq_true hyrole⟩, rfl⟩
      · exact ⟨this, hthis, rfl⟩
    · rintro ⟨y, hy, rfl⟩
      obtain ⟨hynodes, hyrole⟩ := List.mem_filter.mp hy
      by_cases heq : y = this
      · exact .inr (congrArg NodeInfo.id heq)
      · exact .inl ⟨y, hynodes, heq, of_decide_eq_true hyrole, rfl⟩

/-- Two lists in the order of their ids with the same nodes are one list. -/
theorem eq_of_sorted {xs ys : List NodeInfo} (hx : xs.Pairwise fun a b => a.id < b.id)
    (hy : ys.Pairwise fun a b => a.id < b.id) (hmem : ∀ x, x ∈ xs ↔ x ∈ ys) : xs = ys := by
  have hnodup : ∀ {zs : List NodeInfo}, zs.Pairwise (fun a b => a.id < b.id) → zs.Nodup :=
    fun h => h.imp fun hlt heq => absurd (heq ▸ hlt) (lt_irrefl _)
  have hperm := (List.perm_ext_iff_of_nodup (hnodup hx) (hnodup hy)).mpr hmem
  refine hperm.eq_of_pairwise ?_ hx hy
  intro a b _ _ hab hba
  exact absurd hba (lt_asymm hab)

/-- A list in which nodes of one id are one node is read as its nodes by id. -/
theorem mem_sortKeepLast {others : List NodeInfo}
    (hids : ∀ x ∈ others, ∀ y ∈ others, x.id = y.id → x = y) (x : NodeInfo) :
    x ∈ sortKeepLast (·.id) others ↔ x ∈ others := by
  refine ⟨mem_of_mem_sortKeepLast, fun hx => ?_⟩
  have hkept : lastOf NodeInfo.id x.id (sortKeepLast NodeInfo.id others) =
      lastOf NodeInfo.id x.id others := lastOf_sortKeepLast inferInstance others
  cases hlast : lastOf NodeInfo.id x.id others with
  | none => exact absurd rfl (lastOf_eq_none.mp hlast x hx)
  | some y =>
      obtain ⟨hy, hid⟩ := lastOf_mem hlast
      rw [hlast] at hkept
      rw [← hids y hy x hx hid]
      exact (lastOf_mem hkept).1

theorem sorted_sortKeepLast (others : List NodeInfo) :
    (sortKeepLast (·.id) others).Pairwise fun a b => a.id < b.id := by
  have : Std.Total fun a b : NodeInfo => a.id ≤ b.id := ⟨fun a b => le_total _ _⟩
  have : IsTrans NodeInfo fun a b => a.id ≤ b.id := ⟨fun a b c => le_trans⟩
  exact pairwise_keepLast (List.pairwise_insertionSort (fun a b => a.id ≤ b.id) others)

/-- From any state, once no node comes or goes, no one but the nodes that are up is taken for
healthy, and all of them have registered, then passed, then asked: each knows exactly the others,
as the operator's list of them is read, and every partition has one owner among the compactors. -/
theorem membership_converges {past first second third : List Action}
    (history : Run (step api) (fun _ _ => True) start past s)
    (hup : ∀ this, this ∈ nodes ↔ ∃ n, s.nodes.lookup this.id = some n ∧ n.info = this)
    (halive : ∀ id reg, s.consul.lookup id = some reg → reg.passing = true →
      ∃ this ∈ nodes, this.id = id)
    (registering : Run (step api) (fun _ a => a.quiet = true) s first m₁)
    (hfirst : ∀ this ∈ nodes, .register this.id true true true ∈ first)
    (passing : Run (step api) (fun _ a => a.quiet = true) m₁ second m₂)
    (hsecond : ∀ this ∈ nodes, .pass this.id true true ∈ second)
    (asking : Run (step api) (fun _ a => a.quiet = true) m₂ third t)
    (hthird : ∀ this ∈ nodes, .fetch this.id .consul ∈ third) :
    (∀ this ∈ nodes, Informed nodes this t) ∧
      (∀ this ∈ nodes, ∀ others : List NodeInfo, (∀ x, x ∈ others ↔ x ∈ nodes ∧ x ≠ this) →
        (∀ x ∈ others, Listable x) →
        ∃ n, t.nodes.lookup this.id = some n ∧ parsePeers (listing others) = .ok n.members) ∧
      ((∃ c ∈ nodes, c.role = .compactor) → ∀ db table partition,
        ∃! this, (this ∈ nodes ∧ this.role = .compactor) ∧
          Cluster.ownsPartition db table partition (t.shard this).1 (t.shard this).2 = true) := by
  have hnamed : Named s := history.invariant (P := Named)
    (fun _ _ _ hs _ hstep => step_named hs hstep) (fun id n hn => absurd hn (by simp [start]))
  have hcalm : Calm nodes s := ⟨hnamed, hup, halive⟩
  have hcalm₁ := calm_run registering hcalm
  have hready := ready_run passing hcalm₁ (known_run registering hcalm hfirst) hsecond
  have hcalm₂ := calm_run passing hcalm₁
  have hinformed := informed_run asking hcalm₂ hready hthird
  have hids : ∀ x ∈ nodes, ∀ y ∈ nodes, x.id = y.id → x = y :=
    fun x hx y hy => hcalm.eq_of_id hx hy
  refine ⟨hinformed, ?_, ?_⟩
  · intro this hthis others hothers hlistable
    obtain ⟨n, hn, hsorted, hmembers⟩ := hinformed this hthis
    refine ⟨n, hn, ?_⟩
    rw [parsePeers_listing hlistable]
    refine congrArg Except.ok (eq_of_sorted (sorted_sortKeepLast others) hsorted ?_)
    intro x
    rw [mem_sortKeepLast, hothers, hmembers]
    intro y hy z hz
    exact hids y ((hothers y).mp hy).1 z ((hothers z).mp hz).1
  · rintro ⟨c, hc, hrole⟩ db table partition
    have hin : ∀ x ∈ nodes, x.role = .compactor → x.id ∈ compactorPeers nodes := fun x hx hx' =>
      List.mem_map.mpr ⟨x, List.mem_filter.mpr ⟨hx, decide_eq_true hx'⟩, rfl⟩
    have hsome : compactorPeers nodes ≠ [] := List.ne_nil_of_mem (hin c hc hrole)
    obtain ⟨self, ⟨hself, howns⟩, honly⟩ := (fleet hinformed hsome).one_owner
      [Wal.utf8 db, Wal.utf8 table, Wal.utf8 partition]
    obtain ⟨this, hthis, rfl⟩ := List.mem_map.mp hself
    obtain ⟨hnodes, hcompactor⟩ := List.mem_filter.mp hthis
    refine ⟨this, ⟨⟨hnodes, of_decide_eq_true hcompactor⟩, howns⟩, ?_⟩
    rintro other ⟨⟨hother, hother'⟩, howns'⟩
    exact hids other hother this hnodes (honly other.id ⟨hin other hother hother', howns'⟩)

/-- The state after these steps, where they can be taken. -/
def after (s : State) (acts : List Action) : State :=
  acts.foldl (fun s a => (step plainApi s a).getD s) s

def bothUp : State := after start [.join nodeA, .join nodeB]

def bothRegistered : State :=
  after bothUp [.register "a" true true true, .register "b" true true true]

def bothPassed : State := after bothRegistered [.pass "a" true true, .pass "b" true true]

/-- Two compactors that come up together. -/
theorem twoCompactors_converge :
    ∃ t : State, t.peersOf "a" = ["b"] ∧
      ∀ this ∈ [nodeA, nodeB], Informed [nodeA, nodeB] this t := by
  have history : Run (step plainApi) (fun _ _ => True) start [.join nodeA, .join nodeB] bothUp :=
    .cons trivial rfl (.cons trivial rfl (.nil _))
  have registering : Run (step plainApi) (fun _ a => a.quiet = true) bothUp
      [.register "a" true true true, .register "b" true true true] bothRegistered :=
    .cons rfl rfl (.cons rfl rfl (.nil _))
  have passing : Run (step plainApi) (fun _ a => a.quiet = true) bothRegistered
      [.pass "a" true true, .pass "b" true true] bothPassed :=
    .cons rfl rfl (.cons rfl rfl (.nil _))
  have asking : Run (step plainApi) (fun _ a => a.quiet = true) bothPassed
      [.fetch "b" .consul, .fetch "a" .consul]
      (after bothPassed [.fetch "b" .consul, .fetch "a" .consul]) :=
    .cons rfl rfl (.cons rfl rfl (.nil _))
  have hup : ∀ this, this ∈ [nodeA, nodeB] ↔
      ∃ n, bothUp.nodes.lookup this.id = some n ∧ n.info = this := by
    intro this
    constructor
    · intro hthis
      simp only [List.mem_cons, List.not_mem_nil, or_false] at hthis
      rcases hthis with rfl | rfl
      · exact ⟨_, rfl, rfl⟩
      · exact ⟨_, rfl, rfl⟩
    · rintro ⟨n, hn, rfl⟩
      rcases of_lookup_insert hn with ⟨-, rfl⟩ | ⟨-, hn⟩
      · exact List.mem_cons_of_mem _ List.mem_cons_self
      · rcases of_lookup_insert hn with ⟨-, rfl⟩ | ⟨-, hn⟩
        · exact List.mem_cons_self
        · cases hn
  have halive : ∀ id reg, bothUp.consul.lookup id = some reg → reg.passing = true →
      ∃ this ∈ [nodeA, nodeB], this.id = id := by
    intro id reg hreg
    cases hreg
  exact ⟨_, by decide, (membership_converges history hup halive registering
    (by simp [nodeA, nodeB]) passing (by simp [nodeA, nodeB]) asking (by simp [nodeA, nodeB])).1⟩

end Main

end TimeLake.Membership
