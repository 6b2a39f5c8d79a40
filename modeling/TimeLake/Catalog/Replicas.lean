import TimeLake.Catalog.Commit
import Mathlib.Data.List.Induction

/-!
Every replica is a prefix of one log. `Inv` ties the store to a log whose
entry at position `k` sits under the key of `k + 1`, every instance's index to
the fold of the prefix up to its head, and the entries a half-finished
`catch_up` has read and still has to read to the part of the log it saw when
it listed the store. `step_effect` says once what a step can do to the log.
-/

namespace TimeLake.Catalog

open TimeLake.Library

variable {ι : Type} [DecidableEq ι]

/-- Entry `k` of the log is the object at the key of sequence number `k + 1`,
and there is no other object. -/
def Holds (store : ManifestStore) (log : List ManifestEntry) : Prop :=
  ∀ path e, store.lookup path = some e ↔
    ∃ k, log[k]? = some e ∧ path = manifestPath (k + 1)

def Numbered (log : List ManifestEntry) : Prop :=
  ∀ k e, log[k]? = some e → e.seq = k + 1 ∧ e.format = manifestFormatVersion

/-- What a `catch_up` at `head` will still keep of the paths it has to read. -/
def unread (store : ManifestStore) (head : Nat) (todo : List String) : List ManifestEntry :=
  todo.filterMap fun path => (store.lookup path).filter fun e => head < e.seq

def ReadProgress (store : ManifestStore) (log : List ManifestEntry) (head : Nat)
    (todo : List String) (newer : List ManifestEntry) : Prop :=
  ∃ m, head ≤ m ∧ m ≤ log.length ∧
    (newer ++ unread store head todo).Perm ((log.take m).drop head) ∧
    ∀ path ∈ todo, (store.lookup path).isSome

/-- The commit a stage works for is the one its call asked for. -/
def Op.MatchesCall (op : Op) : Prop :=
  match op.stage with
  | .put args _ => op.call.args = some args
  | .list retry | .read _ _ retry => op.call.args = retry.map Prod.fst

structure NodeInv (store : ManifestStore) (log : List ManifestEntry) (n : Node) : Prop where
  head_le : n.replica.seq ≤ log.length
  folded : n.replica.index = indexOf (log.take n.replica.seq)
  reading : ∀ op todo newer retry, n.pending = some op →
    op.stage = .read todo newer retry →
      ReadProgress store log n.replica.seq todo newer
  staged : ∀ op, n.pending = some op → op.MatchesCall

structure Inv (s : Cluster ι) (log : List ManifestEntry) : Prop where
  holds : Holds s.store log
  numbered : Numbered log
  nodes : ∀ i, NodeInv s.store log (s.node i)

omit [DecidableEq ι] in
theorem inv_initial : Inv (initial : Cluster ι) [] where
  holds := by intro path e; simp [initial]
  numbered := by intro k e h; simp at h
  nodes := by
    intro i
    refine ⟨Nat.le_refl _, rfl, ?_, ?_⟩
    · intro op todo newer retry h
      cases h
    · intro op h
      cases h

section Log

variable {store : ManifestStore} {log : List ManifestEntry}

theorem Holds.lookup (h : Holds store log) {k : Nat} {e : ManifestEntry}
    (hk : log[k]? = some e) : store.lookup (manifestPath (k + 1)) = some e :=
  (h _ _).mpr ⟨k, hk, rfl⟩

theorem Holds.lookup_eq_none (h : Holds store log) :
    store.lookup (manifestPath (log.length + 1)) = none := by
  cases hl : store.lookup (manifestPath (log.length + 1)) with
  | none => rfl
  | some e =>
      obtain ⟨k, hk, hpath⟩ := (h _ _).mp hl
      have : k = log.length := by
        have := manifestPath_injective hpath
        omega
      simp [this] at hk

/-- The next sequence key is free exactly at the end of the log. -/
theorem Holds.free_iff (h : Holds store log) {head : Nat} (hle : head ≤ log.length) :
    store.lookup (manifestPath (head + 1)) = none ↔ head = log.length := by
  constructor
  · intro hnone
    by_contra hne
    have hlt : head < log.length := by omega
    rw [h.lookup (List.getElem?_eq_getElem hlt)] at hnone
    cases hnone
  · rintro rfl
    exact h.lookup_eq_none

theorem Holds.snoc (h : Holds store log) (e : ManifestEntry) :
    Holds (store.insert (manifestPath (log.length + 1)) e) (log ++ [e]) := by
  intro path e'
  by_cases hpath : path = manifestPath (log.length + 1)
  · subst hpath
    rw [AList.lookup_insert]
    constructor
    · intro heq
      obtain rfl := Option.some.inj heq
      exact ⟨log.length, by simp, rfl⟩
    · rintro ⟨k, hk, heq⟩
      have : k = log.length := by
        have := manifestPath_injective heq
        omega
      simpa [this] using hk
  · rw [AList.lookup_insert_ne hpath, h path e']
    constructor
    · rintro ⟨k, hk, rfl⟩
      exact ⟨k, by rw [List.getElem?_append_left (List.getElem?_eq_some_iff.mp hk).1]; exact hk,
        rfl⟩
    · rintro ⟨k, hk, rfl⟩
      have hlt : k < log.length := by
        have hbound := (List.getElem?_eq_some_iff.mp hk).1
        simp only [List.length_append, List.length_singleton] at hbound
        have : k ≠ log.length := fun hkl => hpath (by rw [hkl])
        omega
      exact ⟨k, by rw [List.getElem?_append_left hlt] at hk; exact hk, rfl⟩

theorem Numbered.snoc (h : Numbered log) {e : ManifestEntry}
    (hseq : e.seq = log.length + 1) (hformat : e.format = manifestFormatVersion) :
    Numbered (log ++ [e]) := by
  intro k e' hk
  by_cases hlt : k < log.length
  · rw [List.getElem?_append_left hlt] at hk
    exact h k e' hk
  · have hbound := (List.getElem?_eq_some_iff.mp hk).1
    simp only [List.length_append, List.length_singleton] at hbound
    have hkl : k = log.length := by omega
    subst hkl
    simp only [List.getElem?_concat_length, Option.some.injEq] at hk
    subst hk
    exact ⟨hseq, hformat⟩

theorem Numbered.of_append (rest : List ManifestEntry) (h : Numbered (log ++ rest)) :
    Numbered log := by
  intro k e hk
  refine h k e ?_
  rw [List.getElem?_append_left (List.getElem?_eq_some_iff.mp hk).1]
  exact hk

theorem Numbered.filter_gt (h : Numbered log) (head : Nat) :
    log.filter (fun e => head < e.seq) = log.drop head := by
  induction log using List.reverseRecOn with
  | nil => simp
  | append_singleton rest e ih =>
      have hseq : e.seq = rest.length + 1 := (h rest.length e (by simp)).1
      rw [List.filter_append, ih (h.of_append _), List.drop_append]
      by_cases hle : head ≤ rest.length
      · simp [hseq, Nat.sub_eq_zero_of_le hle, Nat.lt_succ_of_le hle]
      · have : head - rest.length ≠ 0 := by omega
        have hlt : ¬ head < rest.length + 1 := by omega
        obtain ⟨d, hd⟩ := Nat.exists_eq_succ_of_ne_zero this
        simp [hseq, hlt, hd]

theorem Numbered.pairwise (h : Numbered log) : log.Pairwise fun a b => a.seq ≤ b.seq := by
  rw [List.pairwise_iff_getElem]
  intro i j hi hj hij
  rw [(h i _ (List.getElem?_eq_getElem hi)).1, (h j _ (List.getElem?_eq_getElem hj)).1]
  omega

theorem Numbered.injective (h : Numbered log) {a b : ManifestEntry} (ha : a ∈ log)
    (hb : b ∈ log) (hseq : a.seq = b.seq) : a = b := by
  obtain ⟨i, hi, rfl⟩ := List.mem_iff_getElem.mp ha
  obtain ⟨j, hj, rfl⟩ := List.mem_iff_getElem.mp hb
  have hi' := (h i _ (List.getElem?_eq_getElem hi)).1
  have hj' := (h j _ (List.getElem?_eq_getElem hj)).1
  obtain rfl : i = j := by omega
  rfl

/-- Sorting any reordering of a part of the log by sequence number gives that
part back. -/
theorem Numbered.sort_eq (h : Numbered log) {newer part : List ManifestEntry}
    (hpart : part.Sublist log) (hperm : newer.Perm part) :
    (newer.insertionSort fun a b => a.seq ≤ b.seq) = part := by
  let r : ManifestEntry → ManifestEntry → Prop := fun a b => a.seq ≤ b.seq
  have : Std.Total r := ⟨fun a b => Nat.le_total _ _⟩
  have : IsTrans ManifestEntry r := ⟨fun a b c => Nat.le_trans⟩
  have hsorted : (newer.insertionSort r).Pairwise r := List.pairwise_insertionSort r newer
  have hperm' : (newer.insertionSort r).Perm part := (List.perm_insertionSort r newer).trans hperm
  refine hperm'.eq_of_pairwise ?_ hsorted (h.pairwise.sublist hpart)
  intro a b ha hb hab hba
  exact h.injective (hpart.subset (hperm'.subset ha)) (hpart.subset hb) (Nat.le_antisymm hab hba)

theorem Holds.keys_perm (h : Holds store log) :
    store.keys.Perm ((List.range log.length).map fun k => manifestPath (k + 1)) := by
  refine (List.perm_ext_iff_of_nodup store.keys_nodup ?_).mpr ?_
  · refine List.nodup_range.map ?_
    intro a b hab
    have := manifestPath_injective hab
    omega
  · intro path
    rw [← AList.mem_keys, ← AList.lookup_isSome, Option.isSome_iff_exists, List.mem_map]
    constructor
    · rintro ⟨e, he⟩
      obtain ⟨k, hk, rfl⟩ := (h path e).mp he
      exact ⟨k, List.mem_range.mpr (List.getElem?_eq_some_iff.mp hk).1, rfl⟩
    · rintro ⟨k, hk, rfl⟩
      exact ⟨_, h.lookup (List.getElem?_eq_getElem (List.mem_range.mp hk))⟩

private theorem filterMap_range_getElem? (log : List ManifestEntry) :
    (List.range log.length).filterMap (fun k => log[k]?) = log := by
  induction log with
  | nil => rfl
  | cons e rest ih =>
      simp only [List.length_cons, List.range_succ_eq_map, List.filterMap_cons,
        List.getElem?_cons_zero, List.filterMap_map]
      exact congrArg (e :: ·) ih

theorem Holds.filterMap_range (h : Holds store log) :
    ((List.range log.length).map fun k => manifestPath (k + 1)).filterMap store.lookup = log := by
  rw [List.filterMap_map]
  have hcongr : (List.range log.length).filterMap (store.lookup ∘ fun k => manifestPath (k + 1)) =
      (List.range log.length).filterMap fun k => log[k]? := by
    apply List.filterMap_congr
    intro k hk
    have hlt := List.mem_range.mp hk
    rw [List.getElem?_eq_getElem hlt]
    exact h.lookup (List.getElem?_eq_getElem hlt)
  rw [hcongr, filterMap_range_getElem?]

theorem Holds.list_perm (h : Holds store log) :
    ((ManifestStore.list store).filterMap store.lookup).Perm log := by
  have hperm := (List.perm_insertionSort (· ≤ ·) store.keys).trans h.keys_perm
  have := hperm.filterMap store.lookup
  rwa [h.filterMap_range] at this

/-- A fresh listing leaves exactly the entries past the head to be kept. -/
theorem unread_list (h : Holds store log) (hn : Numbered log) (head : Nat) :
    (unread store head (ManifestStore.list store)).Perm (log.drop head) := by
  have hsplit : unread store head (ManifestStore.list store) =
      ((ManifestStore.list store).filterMap store.lookup).filter fun e => head < e.seq := by
    rw [unread, List.filter_filterMap]
  rw [hsplit, ← hn.filter_gt head]
  exact h.list_perm.filter _

/-- A listing in progress does not see an entry committed after it. -/
theorem ReadProgress.snoc {head : Nat} {todo : List String} {newer : List ManifestEntry}
    (h : ReadProgress store log head todo newer) (hholds : Holds store log)
    (e : ManifestEntry) :
    ReadProgress (store.insert (manifestPath (log.length + 1)) e) (log ++ [e]) head todo newer := by
  obtain ⟨m, hhead, hm, hperm, hsome⟩ := h
  have hne : ∀ path ∈ todo, path ≠ manifestPath (log.length + 1) := by
    rintro path hpath rfl
    have := hsome _ hpath
    rw [hholds.lookup_eq_none] at this
    cases this
  refine ⟨m, hhead, by simp; omega, ?_, ?_⟩
  · have hunread : unread (store.insert (manifestPath (log.length + 1)) e) head todo =
        unread store head todo := by
      apply List.filterMap_congr
      intro path hpath
      rw [AList.lookup_insert_ne (hne path hpath)]
    rw [hunread, List.take_append_of_le_length hm]
    exact hperm
  · intro path hpath
    rw [AList.lookup_insert_ne (hne path hpath)]
    exact hsome path hpath

theorem NodeInv.snoc {n : Node} (h : NodeInv store log n) (hholds : Holds store log)
    (e : ManifestEntry) :
    NodeInv (store.insert (manifestPath (log.length + 1)) e) (log ++ [e]) n where
  head_le := by simpa using Nat.le_succ_of_le h.head_le
  folded := by rw [List.take_append_of_le_length h.head_le]; exact h.folded
  reading := fun op todo newer retry hop hstage =>
    (h.reading op todo newer retry hop hstage).snoc hholds e
  staged := h.staged

/-- The end of `catch_up_locked` moves a replica to the length the log had when
it was listed. -/
theorem catchUp_eq {r : Replica} {newer : List ManifestEntry} (hn : Numbered log)
    (hfold : r.index = indexOf (log.take r.seq))
    (h : ReadProgress store log r.seq [] newer) :
    ∃ m, r.seq ≤ m ∧ m ≤ log.length ∧
        r.catchUp newer = ⟨m, indexOf (log.take m), r.commitConflicts⟩ := by
  obtain ⟨m, hhead, hm, hperm, _⟩ := h
  have hperm' : newer.Perm ((log.take m).drop r.seq) := by simpa [unread] using hperm
  have hsub : ((log.take m).drop r.seq).Sublist log :=
    (List.drop_sublist _ _).trans (List.take_sublist _ _)
  have hsort := hn.sort_eq hsub hperm'
  refine ⟨m, hhead, hm, ?_⟩
  have hsplit : log.take m = log.take r.seq ++ (log.take m).drop r.seq := by
    conv_lhs => rw [← List.take_append_drop r.seq (log.take m), List.take_take,
      Nat.min_eq_left hhead]
  have hindex : ((log.take m).drop r.seq).foldl applyEntry r.index = indexOf (log.take m) := by
    rw [hfold]
    conv_rhs => rw [hsplit, indexOf, List.foldl_append]
    rfl
  have hmax : ∀ k, r.seq + k ≤ m →
      ((log.take (r.seq + k)).drop r.seq).foldl (fun head e => max head e.seq) r.seq =
          r.seq + k := by
    intro k
    induction k with
    | zero => intro _; simp
    | succ k ih =>
        intro hk
        have hlt : r.seq + k < log.length := by omega
        rw [← Nat.add_assoc, List.take_succ_eq_append_getElem hlt, List.drop_append_of_le_length
          (by simp; omega), List.foldl_append, ih (by omega)]
        have := (hn _ _ (List.getElem?_eq_getElem hlt)).1
        simp only [List.foldl_cons, List.foldl_nil, this]
        omega
  have hseq := hmax (m - r.seq) (by omega)
  rw [Nat.add_sub_cancel' hhead] at hseq
  simp only [Replica.catchUp, hsort, hindex, hseq]

end Log

/-- The sequence number the put a node is about to make would claim. -/
def Node.claims (n : Node) : Option Nat :=
  match n.pending with
  | some ⟨_, _, .put _ _⟩ => some (n.replica.seq + 1)
  | _ => none

/-- What one step of instance `i` can do to the shared log. -/
inductive Effect (s : Cluster ι) (a : Action ι) (t : Cluster ι) (log : List ManifestEntry)
    (i : ι) : List ManifestEntry → Prop where
  | started (call : Call) (hact : a = .start i call) (hidle : (s.node i).pending = none)
      (hpending : (t.node i).pending = some ⟨s.nextId, call, call.firstStage⟩)
      (hnext : t.nextId = s.nextId + 1) (hwriter : t.writer = s.writer)
      (hreturned : t.returned = s.returned) : Effect s a t log i log
  | progressed (op : Op) (stage : Stage) (hop : (s.node i).pending = some op)
      (hpending : (t.node i).pending = some { op with stage := stage })
      (hnext : t.nextId = s.nextId) (hwriter : t.writer = s.writer)
      (hreturned : t.returned = s.returned) : Effect s a t log i log
  | returned (op : Op) (result : Except IoError Nat) (hop : (s.node i).pending = some op)
      (hpending : (t.node i).pending = none) (hnext : t.nextId = s.nextId)
      (hwriter : t.writer = s.writer)
      (hreturned : t.returned = s.returned ++ [⟨op.id, op.call, result⟩])
      (hresult : ∀ seq, result = .ok seq → op.call.args = none) : Effect s a t log i log
  | committed (op : Op) (args : CommitArgs) (hact : a = .resume i)
      (hop : (s.node i).pending = some op) (hclaims : (s.node i).claims = some (log.length + 1))
      (hargs : op.call.args = some args)
      (hfence : args.missing (indexOf log).files = none)
      (hpending : (t.node i).pending = none) (hnext : t.nextId = s.nextId)
      (hwriter : t.writer = s.writer ++ [op.id])
      (hreturned : t.returned = s.returned ++ [⟨op.id, op.call, .ok (log.length + 1)⟩]) :
      Effect s a t log i (log ++ [args.entry (log.length + 1)])

section Steps

variable {s : Cluster ι} {log : List ManifestEntry} {i : ι}

theorem NodeInv.idle {store : ManifestStore} {r : Replica} (hle : r.seq ≤ log.length)
    (hfold : r.index = indexOf (log.take r.seq)) : NodeInv store log ⟨r, none⟩ :=
  ⟨hle, hfold, fun _ _ _ _ h => (by cases h), fun _ h => (by cases h)⟩

@[simp] theorem set_node_self (n : Node) : (s.set i n).node i = n := by
  simp [Cluster.set]

@[simp] theorem set_node_ne (n : Node) {k : ι} (hk : k ≠ i) : (s.set i n).node k = s.node k := by
  simp [Cluster.set, hk]

@[simp] theorem finish_node_self (r : Replica) (op : Op) (result : Except IoError Nat) :
    (s.finish i r op result).node i = ⟨r, none⟩ := by
  simp [Cluster.finish]

@[simp] theorem finish_node_ne (r : Replica) (op : Op) (result : Except IoError Nat) {k : ι}
    (hk : k ≠ i) : (s.finish i r op result).node k = s.node k := by
  simp [Cluster.finish, hk]

/-- A step of one instance leaves every other instance alone. -/
theorem advance_node_ne (op : Op) {k : ι} (hk : k ≠ i) :
    (s.advance i op).node k = s.node k := by
  unfold Cluster.advance
  dsimp only
  split
  · unfold Cluster.attempt
    split
    · exact finish_node_ne _ _ _ hk
    · dsimp only
      split
      · simp [Cluster.finish, hk]
      · exact set_node_ne _ hk
  · exact set_node_ne _ hk
  · unfold Cluster.readNext
    split
    · exact finish_node_ne _ _ _ hk
    · exact set_node_ne _ hk
  · unfold Cluster.caughtUp
    dsimp only
    split
    · exact finish_node_ne _ _ _ hk
    · split
      · exact set_node_ne _ hk
      · exact finish_node_ne _ _ _ hk

theorem Inv.set (h : Inv s log) {n : Node} (hn : NodeInv s.store log n) :
    Inv (s.set i n) log where
  holds := h.holds
  numbered := h.numbered
  nodes := by
    intro j
    by_cases hj : j = i
    · subst hj
      rw [set_node_self]
      exact hn
    · rw [set_node_ne _ hj]
      exact h.nodes j

theorem Inv.finish (h : Inv s log) {r : Replica} {op : Op} {result : Except IoError Nat}
    (hr : NodeInv s.store log ⟨r, none⟩) : Inv (s.finish i r op result) log :=
  ⟨h.holds, h.numbered, (h.set (i := i) hr).nodes⟩

theorem Inv.commit (h : Inv s log) {r : Replica} (op : Op) (args : CommitArgs)
    (hr : NodeInv s.store log ⟨r, none⟩) (hcurrent : r.seq = log.length) :
    Inv { s.finish i
            { r with seq := r.seq + 1, index := applyEntry r.index (args.entry (r.seq + 1)) }
            op (.ok (r.seq + 1)) with
          store := s.store.insert (manifestPath (r.seq + 1)) (args.entry (r.seq + 1))
          writer := s.writer ++ [op.id] }
      (log ++ [args.entry (log.length + 1)]) := by
  rw [hcurrent]
  refine ⟨h.holds.snoc _, h.numbered.snoc rfl rfl, ?_⟩
  intro j
  by_cases hj : j = i
  · subst hj
    simp only [Cluster.finish, Cluster.set, Function.update_self]
    refine NodeInv.idle (by simp) ?_
    have hfold := hr.folded
    simp only [hcurrent, List.take_length] at hfold
    have htake : (log ++ [args.entry (log.length + 1)]).take (log.length + 1) =
        log ++ [args.entry (log.length + 1)] := List.take_of_length_le (by simp)
    rw [htake, indexOf_snoc, hfold]
  · simp only [Cluster.finish, Cluster.set, Function.update_of_ne hj]
    exact (h.nodes j).snoc h.holds _

theorem attempt_effect (h : Inv s log) {op : Op} {args : CommitArgs} {lost : Nat}
    (hop : (s.node i).pending = some op) (hstage : op.stage = .put args lost) :
    ∃ log', Inv (s.attempt i (s.node i).replica op args lost) log' ∧
      Effect s (.resume i) (s.attempt i (s.node i).replica op args lost) log i log' := by
  have hnode := h.nodes i
  have hidle : NodeInv s.store log ⟨(s.node i).replica, none⟩ :=
    .idle hnode.head_le hnode.folded
  have hargs : op.call.args = some args := by
    have := hnode.staged op hop
    simpa [Op.MatchesCall, hstage] using this
  cases hmissing : args.missing (s.node i).replica.index.files with
  | some path =>
      simp only [Cluster.attempt, hmissing]
      exact ⟨log, h.finish hidle, .returned op _ hop (by simp) rfl rfl
        rfl (fun _ hres => by cases hres)⟩
  | none =>
      cases hlookup : s.store.lookup (manifestPath ((s.node i).replica.seq + 1)) with
      | none =>
          have hcurrent := (h.holds.free_iff hnode.head_le).mp hlookup
          have hindex : (s.node i).replica.index = indexOf log := by
            rw [hnode.folded, hcurrent, List.take_length]
          rw [hindex] at hmissing
          simp only [Cluster.attempt, hindex, hmissing, hlookup]
          refine ⟨_, by simpa only [hindex] using h.commit op args hidle hcurrent,
            .committed op args rfl hop ?_ hargs hmissing (by simp) rfl rfl ?_⟩
          · obtain ⟨id, call, stage⟩ := op
            cases hstage
            simp only [Node.claims, hop, hcurrent]
          ·           simp only [Cluster.finish, Cluster.set, hcurrent]
      | some e =>
          simp only [Cluster.attempt, hmissing, hlookup]
          refine ⟨log, h.set ⟨hnode.head_le, hnode.folded, ?_, ?_⟩,
            .progressed op _ hop (by rw [set_node_self]) rfl rfl rfl⟩
          · rintro op' todo newer retry heq hst
            obtain rfl := Option.some.inj heq
            cases hst
          · rintro op' heq
            obtain rfl := Option.some.inj heq
            simp [Op.MatchesCall, hargs]

theorem readNext_effect (h : Inv s log) {op : Op} {path : String} {todo : List String}
    {newer : List ManifestEntry} {retry : Retry} (hop : (s.node i).pending = some op)
    (hstage : op.stage = .read (path :: todo) newer retry) :
    ∃ log', Inv (s.readNext i (s.node i).replica op path todo newer retry) log' ∧
      Effect s (.resume i) (s.readNext i (s.node i).replica op path todo newer retry)
        log i log' := by
  have hnode := h.nodes i
  obtain ⟨m, hhead, hm, hperm, hsome⟩ := hnode.reading op _ _ _ hop hstage
  have hargs : op.call.args = retry.map Prod.fst := by
    have := hnode.staged op hop
    simpa [Op.MatchesCall, hstage] using this
  obtain ⟨e, he⟩ := Option.isSome_iff_exists.mp (hsome path (by simp))
  obtain ⟨k, hk, _⟩ := (h.holds path e).mp he
  have hread : readEntry s.store path = .ok e := by
    simp [readEntry, he, (h.numbered k e hk).2]
  simp only [Cluster.readNext, hread]
  refine ⟨log, h.set ⟨hnode.head_le, hnode.folded, ?_, ?_⟩,
    .progressed op _ hop (by rw [set_node_self]) rfl rfl rfl⟩
  · rintro op' todo' newer' retry' heq hst
    obtain rfl := Option.some.inj heq
    simp only [Stage.read.injEq] at hst
    obtain ⟨rfl, rfl, rfl⟩ := hst
    refine ⟨m, hhead, hm, ?_, fun p hp => hsome p (by simp [hp])⟩
    by_cases hgt : (s.node i).replica.seq < e.seq
    · have hcons : unread s.store (s.node i).replica.seq (path :: todo) =
          e :: unread s.store (s.node i).replica.seq todo :=
        List.filterMap_cons_some (by rw [he]; simp [hgt])
      rw [hcons] at hperm
      simpa [hgt] using hperm
    · have hskip : unread s.store (s.node i).replica.seq (path :: todo) =
          unread s.store (s.node i).replica.seq todo :=
        List.filterMap_cons_none (by rw [he]; simpa using hgt)
      rw [hskip] at hperm
      simpa [hgt] using hperm
  · rintro op' heq
    obtain rfl := Option.some.inj heq
    simp [Op.MatchesCall, hargs]

theorem caughtUp_effect (h : Inv s log) {op : Op} {newer : List ManifestEntry} {retry : Retry}
    (hop : (s.node i).pending = some op) (hstage : op.stage = .read [] newer retry) :
    ∃ log', Inv (s.caughtUp i (s.node i).replica op newer retry) log' ∧
      Effect s (.resume i) (s.caughtUp i (s.node i).replica op newer retry) log i log' := by
  have hnode := h.nodes i
  have hargs : op.call.args = retry.map Prod.fst := by
    have := hnode.staged op hop
    simpa [Op.MatchesCall, hstage] using this
  obtain ⟨m, _, hm, hcatch⟩ := catchUp_eq h.numbered hnode.folded
    (hnode.reading op _ _ _ hop hstage)
  have hidle : NodeInv s.store log
      ⟨⟨m, indexOf (log.take m), (s.node i).replica.commitConflicts⟩, none⟩ := .idle hm rfl
  simp only [Cluster.caughtUp, hcatch]
  cases retry with
  | none =>
      exact ⟨log, h.finish hidle, .returned op _ hop (by simp) rfl rfl
        rfl (fun _ _ => hargs)⟩
  | some pair =>
      obtain ⟨args, lost⟩ := pair
      dsimp only
      split
      · refine ⟨log, h.set ⟨hm, rfl, ?_, ?_⟩,
          .progressed op _ hop (by rw [set_node_self]) rfl rfl rfl⟩
        · rintro op' todo newer' retry heq hst
          obtain rfl := Option.some.inj heq
          cases hst
        · rintro op' heq
          obtain rfl := Option.some.inj heq
          simpa [Op.MatchesCall] using hargs
      · exact ⟨log, h.finish hidle, .returned op _ hop (by simp) rfl
          rfl rfl (fun _ hres => by cases hres)⟩

theorem list_effect (h : Inv s log) {op : Op} {retry : Retry}
    (hop : (s.node i).pending = some op) (hstage : op.stage = .list retry) :
    Inv (s.set i ⟨(s.node i).replica,
        some { op with stage := .read (ManifestStore.list s.store) [] retry }⟩) log := by
  have hnode := h.nodes i
  refine h.set ⟨hnode.head_le, hnode.folded, ?_, ?_⟩
  · rintro op' todo newer retry' heq hst
    obtain rfl := Option.some.inj heq
    simp only [Stage.read.injEq] at hst
    obtain ⟨rfl, rfl, rfl⟩ := hst
    refine ⟨log.length, hnode.head_le, Nat.le_refl _, ?_, ?_⟩
    · simpa using unread_list h.holds h.numbered _
    · intro path hpath
      rw [ManifestStore.list, List.mem_insertionSort] at hpath
      exact AList.lookup_isSome.mpr hpath
  · rintro op' heq
    obtain rfl := Option.some.inj heq
    have := hnode.staged op hop
    simpa [Op.MatchesCall, hstage] using this

/-- One step of any instance keeps the invariant, for the same log or for the
log with that instance's own entry appended. -/
theorem step_effect {t : Cluster ι} {a : Action ι} (h : Inv s log) (hs : step s a = some t) :
    ∃ j log', Inv t log' ∧ Effect s a t log j log' ∧ ∀ k, k ≠ j → t.node k = s.node k := by
  cases a with
  | start j call =>
      simp only [step] at hs
      split at hs
      · cases hs
      · next hidle =>
          obtain rfl := Option.some.inj hs
          have hnode := h.nodes j
          have hinv : Inv (s.set j ⟨(s.node j).replica, some ⟨s.nextId, call, call.firstStage⟩⟩)
              log := by
            refine h.set ⟨hnode.head_le, hnode.folded, ?_, ?_⟩
            · rintro op todo newer retry heq hst
              obtain rfl := Option.some.inj heq
              cases call <;> cases hst
            · rintro op heq
              obtain rfl := Option.some.inj heq
              cases call <;> simp [Op.MatchesCall, Call.firstStage, Call.args]
          exact ⟨j, log, ⟨hinv.holds, hinv.numbered, hinv.nodes⟩,
            .started call rfl hidle (by simp [Cluster.set]) rfl rfl rfl,
            fun k hk => by simp [Cluster.set, hk]⟩
  | resume j =>
      simp only [step, Option.map_eq_some_iff] at hs
      obtain ⟨op, hop, rfl⟩ := hs
      refine ⟨j, ?_⟩
      have hothers : ∀ k, k ≠ j → (s.advance j op).node k = s.node k :=
        fun k hk => advance_node_ne op hk
      cases hstage : op.stage with
      | put args lost =>
          obtain ⟨log', hinv, heff⟩ := attempt_effect h hop hstage
          have heq : s.advance j op = s.attempt j (s.node j).replica op args lost := by
            simp [Cluster.advance, hstage]
          exact ⟨log', heq ▸ hinv, heq ▸ heff, hothers⟩
      | list retry =>
          have heq : s.advance j op = s.set j ⟨(s.node j).replica,
              some { op with stage := .read (ManifestStore.list s.store) [] retry }⟩ := by
            simp [Cluster.advance, hstage]
          exact ⟨log, heq ▸ list_effect h hop hstage,
            heq ▸ .progressed op _ hop (by rw [set_node_self]) rfl rfl rfl, hothers⟩
      | read todo newer retry =>
          cases todo with
          | nil =>
              obtain ⟨log', hinv, heff⟩ := caughtUp_effect h hop hstage
              have heq : s.advance j op = s.caughtUp j (s.node j).replica op newer retry := by
                simp [Cluster.advance, hstage]
              exact ⟨log', heq ▸ hinv, heq ▸ heff, hothers⟩
          | cons path todo =>
              obtain ⟨log', hinv, heff⟩ := readNext_effect h hop hstage
              have heq : s.advance j op =
                  s.readNext j (s.node j).replica op path todo newer retry := by
                simp [Cluster.advance, hstage]
              exact ⟨log', heq ▸ hinv, heq ▸ heff, hothers⟩
  | fail j =>
      simp only [step, Option.map_eq_some_iff] at hs
      obtain ⟨op, hop, rfl⟩ := hs
      have hnode := h.nodes j
      exact ⟨j, log, h.finish (.idle hnode.head_le hnode.folded),
        .returned op _ hop (by simp) rfl rfl rfl (fun _ hres => by cases hres),
        fun k hk => finish_node_ne _ _ _ hk⟩

end Steps

end TimeLake.Catalog
