import TimeLake.Cluster.Overlap
import TimeLake.Library.Groups
import TimeLake.Router.Shards
import Mathlib.Data.Finset.Card

/-!
Compactors that share the partitions among them. Each takes its place in the
sorted list of compactor ids and passes over the partitions that hash to it,
the overlapping ones first and at most eight in a pass. While nothing is
written, the passes of one compactor count down the triggered partitions it
owns and leave all others alone.

A pass sees the groups in the order of its hash map. What a merge makes of its
inputs is a parameter; the output file takes database, table and partition from
the first of them.
-/

namespace TimeLake.Cluster

open TimeLake.Library TimeLake.Catalog
open TimeLake.Wal (utf8)

section Ownership

/-- FNV-1a over the chunks, joined by a zero byte. -/
def fnv1a : List Bytes → UInt64
  | [] => 0xcbf29ce484222325
  | chunk :: rest =>
      rest.foldl (fun h c => Router.mix (Router.mix h [0]) c)
        (Router.mix 0xcbf29ce484222325 chunk)

/-- The hash of an identity names its owner, unless the owner is alone. -/
def ownsHash (chunks : List Bytes) (ordinal count : Nat) : Bool :=
  if count ≤ 1 then true else (fnv1a chunks).toNat % count = ordinal

def ownsPartition (db table partition : String) (ordinal count : Nat) : Bool :=
  ownsHash [utf8 db, utf8 table, utf8 partition] ordinal count

def ownsRollup (db name : String) (ordinal count : Nat) : Bool :=
  ownsHash [utf8 db, utf8 name] ordinal count

/-- The sorted ids, of which equal neighbours are one. -/
def compactorIds (self : String) (peers : List String) : List String :=
  keepLast id ((peers ++ [self]).insertionSort (· ≤ ·))

/-- `compactor_shard`: the node's ordinal and the number of compactors. -/
def compactorShard (self : String) (peers : List String) : Nat × Nat :=
  ((compactorIds self peers).idxOf self, (compactorIds self peers).length)

theorem mem_compactorIds {self x : String} {peers : List String} :
    x ∈ compactorIds self peers ↔ x ∈ peers ++ [self] := by
  have hsorted : ((peers ++ [self]).insertionSort (· ≤ ·)).Pairwise fun a b => id a ≤ id b :=
    List.pairwise_insertionSort _ _
  constructor
  · intro hx
    obtain ⟨hmem, _⟩ := lastOf_mem ((mem_keepLast hsorted).mp hx)
    exact (List.mem_insertionSort _).mp hmem
  · intro hx
    have hin := (List.mem_insertionSort (· ≤ ·)).mpr hx
    cases hlast : lastOf id x ((peers ++ [self]).insertionSort (· ≤ ·)) with
    | none => exact absurd rfl (lastOf_eq_none.mp hlast x hin)
    | some y =>
        obtain rfl : y = x := (lastOf_mem hlast).2
        exact (mem_keepLast hsorted).mpr hlast

theorem compactorIds_pairwise (self : String) (peers : List String) :
    (compactorIds self peers).Pairwise (· < ·) :=
  pairwise_keepLast (List.pairwise_insertionSort (· ≤ ·) (peers ++ [self]))

/-- The compactors that discovery knows. Every one is told of all others, in any
order and any number of times. -/
structure Fleet where
  members : List String
  inhabited : members ≠ []
  peers : String → List String
  known : ∀ self ∈ members, ∀ x, x ∈ peers self ++ [self] ↔ x ∈ members

namespace Fleet

variable (fleet : Fleet)

def shard (self : String) : Nat × Nat := compactorShard self (fleet.peers self)

def ids (self : String) : List String := compactorIds self (fleet.peers self)

variable {fleet}

/-- All of them sort the same list. -/
theorem ids_eq {a b : String} (ha : a ∈ fleet.members) (hb : b ∈ fleet.members) :
    fleet.ids a = fleet.ids b := by
  have hnodup : ∀ x, (fleet.ids x).Nodup := fun x =>
    (compactorIds_pairwise x (fleet.peers x)).imp fun h => ne_of_lt h
  have hperm : (fleet.ids a).Perm (fleet.ids b) := by
    refine (List.perm_ext_iff_of_nodup (hnodup a) (hnodup b)).mpr ?_
    intro x
    rw [ids, ids, mem_compactorIds, mem_compactorIds, fleet.known a ha, fleet.known b hb]
  refine hperm.eq_of_pairwise ?_ (compactorIds_pairwise a _) (compactorIds_pairwise b _)
  intro x y _ _ hxy hyx
  exact absurd hyx (lt_asymm hxy)

theorem mem_ids {self x : String} (h : self ∈ fleet.members) :
    x ∈ fleet.ids self ↔ x ∈ fleet.members := by
  rw [ids, mem_compactorIds, fleet.known self h]

theorem shard_eq {a self : String} (ha : a ∈ fleet.members) (hself : self ∈ fleet.members) :
    fleet.shard self = ((fleet.ids a).idxOf self, (fleet.ids a).length) := by
  rw [ids_eq ha hself]
  rfl

/-- What is hashed has one owner among the compactors. -/
theorem one_owner (fleet : Fleet) (chunks : List Bytes) :
    ∃! self, self ∈ fleet.members ∧
      ownsHash chunks (fleet.shard self).1 (fleet.shard self).2 = true := by
  obtain ⟨a, ha⟩ := List.exists_mem_of_ne_nil _ fleet.inhabited
  have hin : a ∈ fleet.ids a := (mem_ids ha).mpr ha
  by_cases hone : (fleet.ids a).length ≤ 1
  · have honly : ∀ self ∈ fleet.members, self = a := by
      intro self hself
      obtain ⟨x, hx⟩ : ∃ x, fleet.ids a = [x] := by
        have hpos := List.length_pos_of_mem hin
        exact List.length_eq_one_iff.mp (by omega)
      have hself' := (mem_ids ha).mpr hself
      rw [hx, List.mem_singleton] at hself' hin
      rw [hself', hin]
    refine ⟨a, ⟨ha, ?_⟩, fun self h => honly self h.1⟩
    rw [shard_eq ha ha, ownsHash, if_pos hone]
  · have hlt : (fnv1a chunks).toNat % (fleet.ids a).length < (fleet.ids a).length :=
      Nat.mod_lt _ (by omega)
    have hnodup : (fleet.ids a).Nodup :=
      (compactorIds_pairwise a (fleet.peers a)).imp fun h => ne_of_lt h
    have howns : ∀ self ∈ fleet.members,
        (ownsHash chunks (fleet.shard self).1 (fleet.shard self).2 = true ↔
          (fnv1a chunks).toNat % (fleet.ids a).length = (fleet.ids a).idxOf self) := by
      intro self hself
      rw [shard_eq ha hself, ownsHash, if_neg hone, decide_eq_true_eq]
    have hmem := (mem_ids ha).mp (List.getElem_mem hlt)
    refine ⟨(fleet.ids a)[(fnv1a chunks).toNat % (fleet.ids a).length], ⟨hmem, ?_⟩, ?_⟩
    · exact (howns _ hmem).mpr (hnodup.idxOf_getElem _ hlt).symm
    · rintro self ⟨hself, hown⟩
      have hself' : self ∈ fleet.ids a := (mem_ids ha).mpr hself
      simp only [(howns self hself).mp hown]
      exact (List.getElem_idxOf (List.idxOf_lt_length_iff.mpr hself')).symm

end Fleet

/-- Every partition and every rollup has one owner, as the compactors themselves
work it out from the ids they are told. -/
theorem work_divided (fleet : Fleet) :
    (∀ db table partition, ∃! self, self ∈ fleet.members ∧
      ownsPartition db table partition (fleet.shard self).1 (fleet.shard self).2 = true) ∧
    ∀ db name, ∃! self, self ∈ fleet.members ∧
      ownsRollup db name (fleet.shard self).1 (fleet.shard self).2 = true :=
  ⟨fun db table partition => fleet.one_owner [utf8 db, utf8 table, utf8 partition],
    fun db name => fleet.one_owner [utf8 db, utf8 name]⟩

def twoCompactors : Fleet where
  members := ["c1", "c2"]
  inhabited := by simp
  peers self := if self = "c1" then ["c2"] else ["c1"]
  known := by
    intro self hself x
    rcases List.mem_pair.mp hself with rfl | rfl
    · simp [or_comm]
    · simp

/-- An hour and a rollup have one owner each. -/
theorem twoCompactors_divide :
    (∃! self, self ∈ twoCompactors.members ∧
      ownsPartition "poc" "t" "h1" (twoCompactors.shard self).1 (twoCompactors.shard self).2) ∧
    ∃! self, self ∈ twoCompactors.members ∧
      ownsRollup "poc" "hourly" (twoCompactors.shard self).1 (twoCompactors.shard self).2 :=
  ⟨(work_divided twoCompactors).1 "poc" "t" "h1", (work_divided twoCompactors).2 "poc" "hourly"⟩

end Ownership

section Passes

/-- The order in which a hash map gives its keys. -/
structure MapOrder where
  arrange : List GroupKey → List GroupKey
  perm : ∀ keys, (arrange keys).Perm keys

def partitions (files : List FileMeta) : List GroupKey := (files.map groupKey).dedup

def groupOf (files : List FileMeta) (key : GroupKey) : List FileMeta :=
  files.filter fun f => groupKey f = key

def triggerOf (files : List FileMeta) (minFiles : Nat) (key : GroupKey) : Option Trigger :=
  triggerFor (groupOf files key) minFiles

/-- Overlap first, then most files. -/
def Sooner (a b : Trigger × List FileMeta) : Prop :=
  (a.1 = .overlap ∧ b.1 ≠ .overlap) ∨
    ((a.1 = .overlap ↔ b.1 = .overlap) ∧ b.2.length ≤ a.2.length)

instance : DecidableRel Sooner := fun a b =>
  inferInstanceAs (Decidable ((a.1 = .overlap ∧ b.1 ≠ .overlap) ∨
    ((a.1 = .overlap ↔ b.1 = .overlap) ∧ b.2.length ≤ a.2.length)))

/-- What a merge says of the file it wrote. -/
structure Merged where
  path : String
  rows : Nat
  sizeBytes : Nat
  minTsNs : Int
  maxTsNs : Int

def Merged.output (m : Merged) (f₀ : FileMeta) : FileMeta :=
  ⟨f₀.db, f₀.table, f₀.partition, m.path, m.rows, m.sizeBytes, m.minTsNs, m.maxTsNs⟩

/-- The catalog after a `commit_replace`. -/
def replaceFiles (files inputs : List FileMeta) (output : FileMeta) : List FileMeta :=
  (files.filter fun f => !(inputs.map FileMeta.path).contains f.path) ++ [output]

/-- The loop of `compact_once`: the catalog and the number of merges, or no number
where a merge failed. -/
def compactGroups (merge : List FileMeta → Option Merged) :
    List (Trigger × List FileMeta) → List FileMeta → Nat → List FileMeta × Option Nat
  | [], files, done => (files, some done)
  | (_, group) :: rest, files, done =>
      let inputs := sortByPath group
      match inputs with
      | [] => (files, none)
      | f₀ :: _ =>
          match merge inputs with
          | none => (files, none)
          | some m => compactGroups merge rest (replaceFiles files inputs (m.output f₀)) (done + 1)

/-- The groups a pass takes on. -/
def todo (order : MapOrder) (minFiles : Nat) (shard : Nat × Nat) (files : List FileMeta) :
    List (Trigger × List FileMeta) :=
  (((((order.arrange (partitions files)).filter fun key =>
      ownsPartition key.1 key.2.1 key.2.2 shard.1 shard.2).filterMap fun key =>
        (triggerOf files minFiles key).map fun t => (t, groupOf files key)).insertionSort
          Sooner).take maxGroupsPerTick)

def compactOnce (merge : List FileMeta → Option Merged) (order : MapOrder) (minFiles : Nat)
    (shard : Nat × Nat) (files : List FileMeta) : List FileMeta × Option Nat :=
  compactGroups merge (todo order minFiles shard files) files 0

end Passes

section Groups

variable {files : List FileMeta} {key : GroupKey}

theorem mem_partitions : key ∈ partitions files ↔ groupOf files key ≠ [] := by
  rw [partitions, List.mem_dedup, List.mem_map, groupOf, Ne, List.filter_eq_nil_iff]
  simp

/-- Where nothing is, nothing triggers, and neither does a single file. -/
theorem triggerFor_of_length {group : List FileMeta} (minFiles : Nat) (h : group.length < 2) :
    triggerFor group minFiles = none := by
  have hlen : ¬ max minFiles 2 ≤ group.length := by omega
  have hscan : hasOverlap group = false := by
    cases group with
    | nil => rfl
    | cons f rest =>
        obtain rfl : rest = [] := by
          rw [List.length_cons] at h
          exact List.eq_nil_of_length_eq_zero (by omega)
        rfl
  rw [triggerFor, if_neg hlen, hscan]
  rfl

/-- The files are of these partitions, and a path tells the partition. -/
def Homed (keys : Set GroupKey) (home : String → GroupKey) (files : List FileMeta) : Prop :=
  ∀ f ∈ files, groupKey f ∈ keys ∧ home f.path = groupKey f

variable {keys : Set GroupKey} {home : String → GroupKey} {inputs : List FileMeta}
  {output : FileMeta}

theorem replaceFiles_eq (hhome : Homed keys home files) (hin : inputs.Perm (groupOf files key)) :
    replaceFiles files inputs output = (files.filter fun f => groupKey f ≠ key) ++ [output] := by
  rw [replaceFiles]
  congr 1
  apply List.filter_congr
  intro f hf
  have hiff : f.path ∈ inputs.map FileMeta.path ↔ groupKey f = key := by
    constructor
    · intro hpath
      obtain ⟨g, hg, heq⟩ := List.mem_map.mp hpath
      obtain ⟨hgin, hgkey⟩ := List.mem_filter.mp (hin.mem_iff.mp hg)
      rw [← (hhome f hf).2, ← heq, (hhome g hgin).2]
      exact of_decide_eq_true hgkey
    · intro hkey
      refine List.mem_map_of_mem ?_
      exact hin.mem_iff.mpr (List.mem_filter.mpr ⟨hf, decide_eq_true hkey⟩)
  by_cases hkey : groupKey f = key
  · simp [hkey, hiff.mpr hkey]
  · have hnot : f.path ∉ inputs.map FileMeta.path := fun h => hkey (hiff.mp h)
    simp [hkey, hnot]

theorem groupOf_replaceFiles (hhome : Homed keys home files) (hin : inputs.Perm (groupOf files key))
    (hout : groupKey output = key) (k : GroupKey) :
    groupOf (replaceFiles files inputs output) k =
      if k = key then [output] else groupOf files k := by
  rw [replaceFiles_eq hhome hin, groupOf, List.filter_append, List.filter_filter]
  split
  · next heq =>
      subst heq
      have hnone :
          (files.filter fun f => decide (groupKey f = k) && decide (groupKey f ≠ k)) = [] := by
        refine List.filter_eq_nil_iff.mpr ?_
        intro f _
        simp
      rw [hnone]
      simp [hout]
  · next hne =>
      have hold : (files.filter fun f => decide (groupKey f = k) && decide (groupKey f ≠ key)) =
          groupOf files k := by
        refine List.filter_congr ?_
        intro f _
        by_cases hk : groupKey f = k
        · simp [hk, hne]
        · simp [hk]
      have hnew : ¬ groupKey output = k := fun h => hne (h.symm.trans hout)
      rw [hold]
      simp [hnew]

theorem homed_replaceFiles (hhome : Homed keys home files)
    (hin : groupKey output ∈ keys)
    (hout : home output.path = groupKey output) :
    Homed keys home (replaceFiles files inputs output) := by
  intro f hf
  rcases List.mem_append.mp hf with hf | hf
  · exact hhome f (List.mem_filter.mp hf).1
  · rw [List.mem_singleton.mp hf]
    exact ⟨hin, hout⟩

end Groups

section Step

variable {keys : Set GroupKey} {home : String → GroupKey}
  {merge : List FileMeta → Option Merged}

/-- A merge that works names a path of the partition it merges. -/
def Names (keys : Set GroupKey) (home : String → GroupKey)
    (merge : List FileMeta → Option Merged) : Prop :=
  ∀ f₀ rest m, groupKey f₀ ∈ keys → merge (f₀ :: rest) = some m → home m.path = groupKey f₀

/-- A loop over the groups of a snapshot has merged each of the first ones to one file
and left the others alone; there are others only where a merge failed. -/
structure MergedTo (keys : Set GroupKey) (home : String → GroupKey) (minFiles : Nat)
    (files : List FileMeta) (done : Nat) (merged left : List GroupKey)
    (result : List FileMeta × Option Nat) : Prop where
  homed : Homed keys home result.1
  quiet : ∀ key ∈ merged, triggerOf result.1 minFiles key = none
  kept : ∀ key, key ∉ merged → groupOf result.1 key = groupOf files key
  finished : ∀ n, result.2 = some n → left = [] ∧ n = done + merged.length

theorem compactGroups_spec (hnames : Names keys home merge) (minFiles : Nat)
    (snap : List FileMeta) :
    ∀ (todo : List (Trigger × GroupKey)) (files : List FileMeta) (done : Nat),
      Homed keys home files → (todo.map Prod.snd).Nodup →
      (∀ p ∈ todo, groupOf files p.2 = groupOf snap p.2 ∧ groupOf snap p.2 ≠ []) →
      ∃ merged left, todo = merged ++ left ∧
        MergedTo keys home minFiles files done (merged.map Prod.snd) (left.map Prod.snd)
          (compactGroups merge (todo.map fun p => (p.1, groupOf snap p.2)) files done) := by
  intro todo
  induction todo with
  | nil =>
      intro files done hhome _ _
      refine ⟨[], [], rfl, hhome, by simp, fun _ _ => rfl, ?_⟩
      intro n hn
      exact ⟨rfl, (Option.some.inj hn).symm⟩
  | cons p rest ih =>
      obtain ⟨t, key⟩ := p
      intro files done hhome hnodup hgroups
      obtain ⟨hfresh, hrest⟩ := List.nodup_cons.mp hnodup
      obtain ⟨hsame, hne⟩ := hgroups (t, key) List.mem_cons_self
      have hperm : (sortByPath (groupOf snap key)).Perm (groupOf files key) := by
        rw [hsame]
        exact List.perm_insertionSort _ _
      obtain ⟨f₀, inputs, hinputs⟩ : ∃ f₀ inputs, sortByPath (groupOf snap key) = f₀ :: inputs := by
        refine List.exists_cons_of_ne_nil ?_
        intro hnil
        rw [hnil, hsame] at hperm
        exact hne hperm.symm.eq_nil
      have hmem : f₀ ∈ groupOf files key := hperm.mem_iff.mp (by rw [hinputs]; simp)
      obtain ⟨hin, hkey⟩ := List.mem_filter.mp hmem
      have hkey : groupKey f₀ = key := of_decide_eq_true hkey
      rw [List.map_cons, compactGroups, hinputs]
      cases hm : merge (f₀ :: inputs) with
      | none =>
          exact ⟨[], (t, key) :: rest, rfl, hhome, by simp, fun _ _ => rfl, nofun⟩
      | some m =>
          have hout : groupKey (m.output f₀) = key := hkey
          have hreplaced := groupOf_replaceFiles hhome hperm hout
          have hhome' : Homed keys home
              (replaceFiles files (sortByPath (groupOf snap key)) (m.output f₀)) :=
            homed_replaceFiles hhome (hhome f₀ hin).1 (hnames f₀ inputs m (hhome f₀ hin).1 hm)
          have hlater : ∀ q ∈ rest,
              groupOf (replaceFiles files (sortByPath (groupOf snap key)) (m.output f₀)) q.2 =
                groupOf snap q.2 ∧ groupOf snap q.2 ≠ [] := by
            intro q hq
            have hother : q.2 ≠ key := by
              rintro heq
              exact hfresh (List.mem_map.mpr ⟨q, hq, heq⟩)
            rw [hreplaced, if_neg hother]
            exact hgroups q (List.mem_cons_of_mem _ hq)
          obtain ⟨merged, left, rfl, hspec⟩ := ih _ (done + 1) hhome' hrest hlater
          dsimp only
          rw [← hinputs]
          refine ⟨(t, key) :: merged, left, rfl, hspec.homed, ?_, ?_, ?_⟩
          · intro k hk
            by_cases hin : k ∈ merged.map Prod.snd
            · exact hspec.quiet k hin
            · obtain rfl : k = key := (List.mem_cons.mp hk).resolve_right hin
              rw [triggerOf, hspec.kept k hin, hreplaced, if_pos rfl]
              exact triggerFor_of_length _ (by simp)
          · intro k hk
            obtain ⟨hne', hin⟩ := not_or.mp (fun h => hk (List.mem_cons.mpr h))
            rw [hspec.kept k hin, hreplaced, if_neg hne']
          · intro n hn
            obtain ⟨hleft, hcount⟩ := hspec.finished n hn
            refine ⟨hleft, ?_⟩
            rw [List.map_cons, List.length_cons]
            omega

/-- The partitions of a shard that trigger for a reason of this kind. -/
def due (files : List FileMeta) (minFiles : Nat) (shard : Nat × Nat) (p : Trigger → Bool) :
    Finset GroupKey :=
  ((partitions files).filter fun key =>
    ownsPartition key.1 key.2.1 key.2.2 shard.1 shard.2 &&
      (triggerOf files minFiles key).any p).toFinset

theorem mem_partitions_of_trigger {files : List FileMeta} {minFiles : Nat} {key : GroupKey}
    {t : Trigger} (h : triggerOf files minFiles key = some t) : key ∈ partitions files := by
  refine mem_partitions.mpr ?_
  intro hnil
  rw [triggerOf, hnil, triggerFor_of_length _ (by simp)] at h
  cases h

theorem mem_due {files : List FileMeta} {minFiles : Nat} {shard : Nat × Nat} {p : Trigger → Bool}
    {key : GroupKey} : key ∈ due files minFiles shard p ↔
      ownsPartition key.1 key.2.1 key.2.2 shard.1 shard.2 = true ∧
        ∃ t, triggerOf files minFiles key = some t ∧ p t = true := by
  rw [due, List.mem_toFinset, List.mem_filter, Bool.and_eq_true, Option.any_eq_true]
  constructor
  · rintro ⟨_, hown, t, ht, hp⟩
    exact ⟨hown, t, ht, hp⟩
  · rintro ⟨hown, t, ht, hp⟩
    exact ⟨mem_partitions_of_trigger ht, hown, t, ht, hp⟩

instance : Std.Total Sooner where
  total a b := by
    unfold Sooner
    by_cases ha : a.1 = .overlap <;> by_cases hb : b.1 = .overlap <;>
      simp [ha, hb, Nat.le_total]

instance : IsTrans (Trigger × List FileMeta) Sooner where
  trans a b c hab hbc := by
    unfold Sooner at *
    by_cases ha : a.1 = .overlap <;> by_cases hb : b.1 = .overlap <;>
      by_cases hc : c.1 = .overlap <;> simp_all <;> omega

/-- What comes first in a sorted list is taken first. -/
theorem length_filter_take {α : Type} {r : α → α → Prop} (p : α → Bool) {l : List α}
    (hsorted : l.Pairwise r) (hp : ∀ a b, r a b → p b = true → p a = true) (n : Nat) :
    ((l.take n).filter p).length = min n (l.filter p).length := by
  induction l generalizing n with
  | nil => simp
  | cons a rest ih =>
      obtain ⟨hhead, htail⟩ := List.pairwise_cons.mp hsorted
      cases n with
      | zero => simp
      | succ n =>
          rw [List.take_succ_cons]
          by_cases hpa : p a = true
          · rw [List.filter_cons_of_pos hpa, List.filter_cons_of_pos hpa, List.length_cons,
              List.length_cons, ih htail]
            omega
          · have hnone : ∀ l' : List α, l'.Sublist rest → l'.filter p = [] := by
              intro l' hsub
              refine List.filter_eq_nil_iff.mpr ?_
              intro b hb hpb
              exact hpa (hp a b (hhead b (hsub.subset hb)) hpb)
            rw [List.filter_cons_of_neg hpa, List.filter_cons_of_neg hpa,
              hnone _ (List.take_sublist n rest), hnone _ (List.Sublist.refl rest)]
            simp

/-- The triggered partitions of a shard as a pass comes to them. -/
def found (order : MapOrder) (minFiles : Nat) (shard : Nat × Nat) (files : List FileMeta) :
    List (Trigger × GroupKey) :=
  ((order.arrange (partitions files)).filter fun key =>
    ownsPartition key.1 key.2.1 key.2.2 shard.1 shard.2).filterMap fun key =>
      (triggerOf files minFiles key).map fun t => (t, key)

def withFiles (files : List FileMeta) (c : Trigger × GroupKey) : Trigger × List FileMeta :=
  (c.1, groupOf files c.2)

variable {order : MapOrder} {minFiles : Nat} {shard : Nat × Nat} {files : List FileMeta}

theorem mem_found {c : Trigger × GroupKey} : c ∈ found order minFiles shard files ↔
    triggerOf files minFiles c.2 = some c.1 ∧
      ownsPartition c.2.1 c.2.2.1 c.2.2.2 shard.1 shard.2 = true := by
  obtain ⟨t, key⟩ := c
  simp only [found, List.mem_filterMap, List.mem_filter, Option.map_eq_some_iff, Prod.mk.injEq]
  constructor
  · rintro ⟨k, ⟨_, hown⟩, t', ht, rfl, rfl⟩
    exact ⟨ht, hown⟩
  · rintro ⟨ht, hown⟩
    have hmem := (order.perm _).mem_iff.mpr (mem_partitions_of_trigger ht)
    exact ⟨key, ⟨hmem, hown⟩, t, ht, rfl, rfl⟩

theorem nodup_found : ((found order minFiles shard files).map Prod.snd).Nodup := by
  have hkeys : (order.arrange (partitions files)).Nodup :=
    (order.perm _).nodup_iff.mpr (List.nodup_dedup _)
  have hmap : (found order minFiles shard files).map Prod.snd =
      ((order.arrange (partitions files)).filter fun key =>
        ownsPartition key.1 key.2.1 key.2.2 shard.1 shard.2).filter fun key =>
          (triggerOf files minFiles key).isSome := by
    rw [found, List.map_filterMap]
    refine Eq.trans (List.filterMap_congr ?_)
      (congrFun List.filterMap_eq_filter _)
    intro key _
    cases h : triggerOf files minFiles key with
    | none => simp [Option.guard, h]
    | some t => simp [Option.guard, h]
  rw [hmap]
  exact (hkeys.filter _).filter _

/-- What is due for a kind of reason, counted. -/
theorem card_due (order : MapOrder) (p : Trigger → Bool) : (due files minFiles shard p).card =
    ((found order minFiles shard files).filter fun c => p c.1).length := by
  have hset : due files minFiles shard p =
      (((found order minFiles shard files).filter fun c => p c.1).map Prod.snd).toFinset := by
    ext key
    rw [mem_due, List.mem_toFinset, List.mem_map]
    constructor
    · rintro ⟨hown, t, ht, hpt⟩
      exact ⟨(t, key), List.mem_filter.mpr ⟨mem_found.mpr ⟨ht, hown⟩, hpt⟩, rfl⟩
    · rintro ⟨⟨t, k⟩, hin, rfl⟩
      obtain ⟨hmem, hpt⟩ := List.mem_filter.mp hin
      obtain ⟨ht, hown⟩ := mem_found.mp hmem
      exact ⟨hown, t, ht, hpt⟩
  have hnodup : (((found order minFiles shard files).filter fun c => p c.1).map Prod.snd).Nodup :=
    (List.filter_sublist.map Prod.snd).nodup nodup_found
  rw [hset, List.toFinset_card_of_nodup hnodup, List.length_map]

def SoonerKey (files : List FileMeta) (a b : Trigger × GroupKey) : Prop :=
  Sooner (withFiles files a) (withFiles files b)

instance : DecidableRel (SoonerKey files) := fun a b =>
  inferInstanceAs (Decidable (Sooner (withFiles files a) (withFiles files b)))

instance : Std.Total (SoonerKey files) := ⟨fun _ _ => Std.Total.total (r := Sooner) _ _⟩

instance : IsTrans (Trigger × GroupKey) (SoonerKey files) :=
  ⟨fun _ _ _ => IsTrans.trans (r := Sooner) _ _ _⟩

/-- The partitions a pass takes on. -/
def chosen (order : MapOrder) (minFiles : Nat) (shard : Nat × Nat) (files : List FileMeta) :
    List (Trigger × GroupKey) :=
  ((found order minFiles shard files).insertionSort (SoonerKey files)).take maxGroupsPerTick

theorem todo_eq : todo order minFiles shard files =
    (chosen order minFiles shard files).map (withFiles files) := by
  have hmap : (((order.arrange (partitions files)).filter fun key =>
      ownsPartition key.1 key.2.1 key.2.2 shard.1 shard.2).filterMap fun key =>
        (triggerOf files minFiles key).map fun t => (t, groupOf files key)) =
      (found order minFiles shard files).map (withFiles files) := by
    rw [found, List.map_filterMap]
    refine List.filterMap_congr ?_
    intro key _
    cases triggerOf files minFiles key <;> rfl
  rw [todo, hmap, chosen, List.map_take,
    List.map_insertionSort (SoonerKey files) Sooner (withFiles files) _ fun _ _ _ _ => Iff.rfl]

theorem mem_chosen {c : Trigger × GroupKey} (h : c ∈ chosen order minFiles shard files) :
    triggerOf files minFiles c.2 = some c.1 ∧
      ownsPartition c.2.1 c.2.2.1 c.2.2.2 shard.1 shard.2 = true :=
  mem_found.mp ((List.mem_insertionSort _).mp (List.mem_of_mem_take h))

theorem nodup_chosen : ((chosen order minFiles shard files).map Prod.snd).Nodup := by
  have hperm := List.perm_insertionSort (SoonerKey files) (found order minFiles shard files)
  have hsub := (List.take_sublist maxGroupsPerTick
    ((found order minFiles shard files).insertionSort (SoonerKey files))).map Prod.snd
  exact hsub.nodup ((hperm.map Prod.snd).nodup_iff.mpr nodup_found)

/-- Of the reasons that come first, a pass takes on as many as it can. -/
theorem length_chosen {p : Trigger → Bool}
    (hp : ∀ a b, Sooner a b → p b.1 = true → p a.1 = true) :
    ((chosen order minFiles shard files).filter fun c => p c.1).length =
      min maxGroupsPerTick (due files minFiles shard p).card := by
  have hperm := List.perm_insertionSort (SoonerKey files) (found order minFiles shard files)
  have hcount := length_filter_take (fun c => p c.1)
    (List.pairwise_insertionSort (SoonerKey files) (found order minFiles shard files))
    (fun _ _ hab => hp _ _ hab) maxGroupsPerTick
  rw [chosen, hcount, card_due order p, (hperm.filter _).length_eq]

/-- A pass over a homed catalog merges the first of what it has chosen, all of it unless
a merge fails, and nothing else. -/
theorem compactOnce_spec (order : MapOrder) (minFiles : Nat) (shard : Nat × Nat)
    (hnames : Names keys home merge) (hhome : Homed keys home files) :
    ∃ merged left, chosen order minFiles shard files = merged ++ left ∧
      MergedTo keys home minFiles files 0 (merged.map Prod.snd) (left.map Prod.snd)
        (compactOnce merge order minFiles shard files) := by
  have hgroups : ∀ c ∈ chosen order minFiles shard files,
      groupOf files c.2 = groupOf files c.2 ∧ groupOf files c.2 ≠ [] := by
    intro c hc
    exact ⟨rfl, mem_partitions.mp (mem_partitions_of_trigger (mem_chosen hc).1)⟩
  have hspec := compactGroups_spec hnames minFiles files
    (chosen order minFiles shard files) files 0 hhome nodup_chosen hgroups
  rw [compactOnce, todo_eq]
  exact hspec

/-- What of some chosen groups has a reason of this kind. -/
def dueOf (merged : List (Trigger × GroupKey)) (p : Trigger → Bool) : List GroupKey :=
  (merged.filter fun c => p c.1).map Prod.snd

theorem mem_dueOf {merged left : List (Trigger × GroupKey)}
    (hchosen : chosen order minFiles shard files = merged ++ left) {p : Trigger → Bool}
    {key : GroupKey} :
    key ∈ dueOf merged p ↔ key ∈ merged.map Prod.snd ∧ key ∈ due files minFiles shard p := by
  have hin : ∀ c ∈ merged, triggerOf files minFiles c.2 = some c.1 ∧
      ownsPartition c.2.1 c.2.2.1 c.2.2.2 shard.1 shard.2 = true :=
    fun c hc => mem_chosen (by rw [hchosen]; exact List.mem_append_left _ hc)
  rw [dueOf, List.mem_map, List.mem_map, mem_due]
  constructor
  · rintro ⟨⟨t, k⟩, hmem, rfl⟩
    obtain ⟨hc, hpt⟩ := List.mem_filter.mp hmem
    exact ⟨⟨(t, k), hc, rfl⟩, (hin _ hc).2, t, (hin _ hc).1, hpt⟩
  · rintro ⟨⟨⟨t, k⟩, hc, rfl⟩, _, t', ht', hpt⟩
    obtain rfl : t = t' := Option.some.inj ((hin _ hc).1.symm.trans ht')
    exact ⟨(t, k), List.mem_filter.mpr ⟨hc, hpt⟩, rfl⟩

/-- A pass takes what it merges off what is due to its shard: eight at most, and that
many, as long as there are, unless it fails. -/
theorem due_compactOnce (order : MapOrder) (minFiles : Nat) (shard : Nat × Nat)
    (hnames : Names keys home merge) (hhome : Homed keys home files) {p : Trigger → Bool}
    (hp : ∀ a b, Sooner a b → p b.1 = true → p a.1 = true) :
    let result := compactOnce merge order minFiles shard files
    (due files minFiles shard p).card - maxGroupsPerTick ≤ (due result.1 minFiles shard p).card ∧
    (due result.1 minFiles shard p).card ≤
      (due files minFiles shard p).card - if result.2.isSome then maxGroupsPerTick else 0 := by
  obtain ⟨merged, left, hchosen, hspec⟩ := compactOnce_spec order minFiles shard hnames hhome
  have hdue : due (compactOnce merge order minFiles shard files).1 minFiles shard p =
      due files minFiles shard p \ (dueOf merged p).toFinset := by
    ext key
    rw [Finset.mem_sdiff, List.mem_toFinset, mem_dueOf hchosen]
    by_cases hin : key ∈ merged.map Prod.snd
    · simp only [mem_due, hspec.quiet key hin, hin, true_and]
      simp
    · simp only [mem_due, triggerOf, hspec.kept key hin, hin, false_and, not_false_eq_true,
        and_true]
  have hsub : (dueOf merged p).toFinset ⊆ due files minFiles shard p :=
    fun key hkey => ((mem_dueOf hchosen).mp (List.mem_toFinset.mp hkey)).2
  have hpart : (merged.filter fun c => p c.1).Sublist
      ((chosen order minFiles shard files).filter fun c => p c.1) := by
    rw [hchosen]
    exact (List.sublist_append_left merged left).filter _
  have hnodup : (dueOf merged p).Nodup :=
    ((hpart.trans List.filter_sublist).map Prod.snd).nodup nodup_chosen
  have hlen : (dueOf merged p).length ≤ min maxGroupsPerTick (due files minFiles shard p).card := by
    rw [dueOf, List.length_map, ← length_chosen hp]
    exact hpart.length_le
  dsimp only
  rw [hdue, Finset.card_sdiff_of_subset hsub, List.toFinset_card_of_nodup hnodup]
  refine ⟨by omega, ?_⟩
  split
  · next hsome =>
      obtain ⟨n, hn⟩ := Option.isSome_iff_exists.mp hsome
      obtain ⟨hleft, _⟩ := hspec.finished n hn
      rw [List.map_eq_nil_iff.mp hleft, List.append_nil] at hchosen
      have hall : (dueOf merged p).length =
          min maxGroupsPerTick (due files minFiles shard p).card := by
        rw [dueOf, List.length_map, ← hchosen, length_chosen hp]
      omega
  · omega

end Step

section Settling

/-- A pass of one of the compactors, and what its merges come to. -/
structure Turn where
  node : String
  order : MapOrder
  merge : List FileMeta → Option Merged

variable (fleet : Fleet) (minFiles : Nat)

def Turn.pass (turn : Turn) (files : List FileMeta) : List FileMeta × Option Nat :=
  compactOnce turn.merge turn.order minFiles (fleet.shard turn.node) files

def compactInTurn : List Turn → List FileMeta → List FileMeta
  | [], files => files
  | turn :: rest, files => compactInTurn rest (turn.pass fleet minFiles files).1

def turnsOf (turns : List Turn) (self : String) : Nat :=
  (turns.filter fun turn => turn.node = self).length

/-- The passes of a compactor that no merge fails in. -/
def finishedOf (self : String) : List Turn → List FileMeta → Nat
  | [], _ => 0
  | turn :: rest, files =>
      finishedOf self rest (turn.pass fleet minFiles files).1 +
        if turn.node = self ∧ (turn.pass fleet minFiles files).2.isSome then 1 else 0

theorem turnsOf_cons (turn : Turn) (turns : List Turn) (self : String) :
    turnsOf (turn :: turns) self = turnsOf turns self + if turn.node = self then 1 else 0 := by
  by_cases h : turn.node = self <;> simp [turnsOf, h]

variable {fleet : Fleet} {keys : Set GroupKey} {home : String → GroupKey} {minFiles : Nat}
  {files : List FileMeta} {turn : Turn}

theorem homed_pass (hnames : Names keys home turn.merge) (hhome : Homed keys home files) :
    Homed keys home (turn.pass fleet minFiles files).1 := by
  obtain ⟨_, _, _, hspec⟩ := compactOnce_spec turn.order minFiles (fleet.shard turn.node) hnames
    hhome
  exact hspec.homed

/-- A pass takes nothing off what is due to another compactor. -/
theorem due_other {self : String} (hnames : Names keys home turn.merge)
    (hhome : Homed keys home files) (hself : self ∈ fleet.members)
    (hturn : turn.node ∈ fleet.members) (hne : turn.node ≠ self) (p : Trigger → Bool) :
    due (turn.pass fleet minFiles files).1 minFiles (fleet.shard self) p =
      due files minFiles (fleet.shard self) p := by
  obtain ⟨merged, left, hchosen, hspec⟩ := compactOnce_spec turn.order minFiles
    (fleet.shard turn.node) hnames hhome
  ext key
  rw [mem_due, mem_due]
  refine and_congr_right ?_
  intro hown
  have hnot : key ∉ merged.map Prod.snd := by
    intro hin
    obtain ⟨c, hc, rfl⟩ := List.mem_map.mp hin
    have hc' : c ∈ chosen turn.order minFiles (fleet.shard turn.node) files := by
      rw [hchosen]
      exact List.mem_append_left _ hc
    exact hne ((fleet.one_owner _).unique ⟨hturn, (mem_chosen hc').2⟩ ⟨hself, hown⟩)
  rw [Turn.pass, triggerOf, triggerOf, hspec.kept key hnot]

/-- Over the passes of a fleet. -/
theorem due_compactInTurn {self : String} (hself : self ∈ fleet.members) {p : Trigger → Bool}
    (hp : ∀ a b, Sooner a b → p b.1 = true → p a.1 = true) (turns : List Turn)
    (hturns : ∀ turn ∈ turns, turn.node ∈ fleet.members ∧ Names keys home turn.merge)
    (hhome : Homed keys home files) :
    let last := compactInTurn fleet minFiles turns files
    (due files minFiles (fleet.shard self) p).card - maxGroupsPerTick * turnsOf turns self ≤
      (due last minFiles (fleet.shard self) p).card ∧
    (due last minFiles (fleet.shard self) p).card ≤
      (due files minFiles (fleet.shard self) p).card -
        maxGroupsPerTick * finishedOf fleet minFiles self turns files := by
  induction turns generalizing files with
  | nil => exact ⟨Nat.sub_le _ _, by simp [compactInTurn, finishedOf]⟩
  | cons turn rest ih =>
      obtain ⟨⟨hturn, hnames⟩, hrest⟩ := List.forall_mem_cons.mp hturns
      have hhome' : Homed keys home (turn.pass fleet minFiles files).1 := homed_pass hnames hhome
      obtain ⟨hlower, hupper⟩ := ih hrest hhome'
      rw [turnsOf_cons]
      dsimp only [compactInTurn, finishedOf] at hlower hupper ⊢
      by_cases hnode : turn.node = self
      · subst hnode
        have hpass := due_compactOnce turn.order minFiles (fleet.shard turn.node) hnames hhome hp
        change _ ≤ (due (turn.pass fleet minFiles files).1 minFiles _ p).card ∧
          (due (turn.pass fleet minFiles files).1 minFiles _ p).card ≤ _ - ite
            ((turn.pass fleet minFiles files).2.isSome) _ _ at hpass
        obtain ⟨hleast, hmost⟩ := hpass
        rw [if_pos rfl, Nat.mul_add, Nat.mul_add]
        by_cases hsome : (turn.pass fleet minFiles files).2.isSome = true
        · rw [if_pos hsome] at hmost
          rw [if_pos ⟨rfl, hsome⟩]
          omega
        · rw [if_neg hsome] at hmost
          rw [if_neg fun h => hsome h.2]
          omega
      · rw [due_other hnames hhome hself hturn hnode] at hlower hupper
        rw [if_neg hnode, if_neg fun h => hnode h.1, Nat.add_zero, Nat.add_zero]
        exact ⟨hlower, hupper⟩

/-- What does not trigger is left alone. -/
theorem groupOf_compactInTurn {key : GroupKey} (turns : List Turn)
    (hturns : ∀ turn ∈ turns, Names keys home turn.merge) (hhome : Homed keys home files)
    (hquiet : triggerOf files minFiles key = none) :
    groupOf (compactInTurn fleet minFiles turns files) key = groupOf files key := by
  induction turns generalizing files with
  | nil => rfl
  | cons turn rest ih =>
      obtain ⟨hnames, hrest⟩ := List.forall_mem_cons.mp hturns
      obtain ⟨merged, left, hchosen, hspec⟩ := compactOnce_spec turn.order minFiles
        (fleet.shard turn.node) hnames hhome
      have hnot : key ∉ merged.map Prod.snd := by
        intro hin
        obtain ⟨c, hc, rfl⟩ := List.mem_map.mp hin
        have hc' : c ∈ chosen turn.order minFiles (fleet.shard turn.node) files := by
          rw [hchosen]
          exact List.mem_append_left _ hc
        rw [(mem_chosen hc').1] at hquiet
        cases hquiet
      have hsame : groupOf (turn.pass fleet minFiles files).1 key = groupOf files key :=
        hspec.kept key hnot
      rw [compactInTurn, ih hrest (homed_pass hnames hhome)
          (by rw [triggerOf, hsame]; exact hquiet),
        hsame]

/-- While nothing is written, a pass of a compactor takes at most eight partitions off
what is due to it, and eight of them as long as there are, overlapping ones first,
unless one of its merges fails; the passes of the others take none, in whatever order
their maps give them and whatever their merges come to. What does not trigger keeps its
files. And when every compactor has had its passes without a failing merge, nothing
triggers any more. -/
theorem compactors_settle (fleet : Fleet) (keys : Set GroupKey) (home : String → GroupKey)
    (minFiles : Nat) (turns : List Turn)
    (hturns : ∀ turn ∈ turns, turn.node ∈ fleet.members ∧ Names keys home turn.merge)
    (files : List FileMeta) (hhome : Homed keys home files) :
    let last := compactInTurn fleet minFiles turns files
    (∀ self ∈ fleet.members, ∀ p : Trigger → Bool, p .overlap = true →
      (due files minFiles (fleet.shard self) p).card - 8 * turnsOf turns self ≤
          (due last minFiles (fleet.shard self) p).card ∧
        (due last minFiles (fleet.shard self) p).card ≤
          (due files minFiles (fleet.shard self) p).card -
            8 * finishedOf fleet minFiles self turns files) ∧
    (∀ key, triggerOf files minFiles key = none → groupOf last key = groupOf files key) ∧
    ((∀ self ∈ fleet.members, (due files minFiles (fleet.shard self) fun _ => true).card ≤
        8 * finishedOf fleet minFiles self turns files) →
      ∀ key, triggerOf last minFiles key = none) := by
  have hcount : ∀ self ∈ fleet.members, ∀ p : Trigger → Bool, p .overlap = true →
      (due files minFiles (fleet.shard self) p).card - 8 * turnsOf turns self ≤
          (due (compactInTurn fleet minFiles turns files) minFiles (fleet.shard self) p).card ∧
        (due (compactInTurn fleet minFiles turns files) minFiles (fleet.shard self) p).card ≤
          (due files minFiles (fleet.shard self) p).card -
            8 * finishedOf fleet minFiles self turns files := by
    intro self hself p hoverlap
    refine due_compactInTurn hself ?_ turns hturns hhome
    rintro ⟨a, _⟩ ⟨b, _⟩ hab hb
    cases a with
    | overlap => exact hoverlap
    | fileCount =>
        cases b with
        | fileCount => exact hb
        | overlap => simp [Sooner] at hab
  refine ⟨hcount, fun key => groupOf_compactInTurn turns (fun t ht => (hturns t ht).2) hhome, ?_⟩
  intro henough key
  obtain ⟨self, ⟨hself, hown⟩, _⟩ :=
    fleet.one_owner [utf8 key.1, utf8 key.2.1, utf8 key.2.2]
  have hnone := (hcount self hself (fun _ => true) rfl).2
  rw [Nat.sub_eq_zero_of_le (henough self hself), Nat.le_zero, Finset.card_eq_zero] at hnone
  cases htrigger : triggerOf (compactInTurn fleet minFiles turns files) minFiles key with
  | none => rfl
  | some t =>
      have hin : key ∈ due (compactInTurn fleet minFiles turns files) minFiles
          (fleet.shard self) fun _ => true := mem_due.mpr ⟨hown, t, htrigger, rfl⟩
      rw [hnone] at hin
      cases hin

def asGiven : MapOrder := ⟨id, fun _ => .refl _⟩

def fileIn (partition path : String) (minTsNs maxTsNs : Int) : FileMeta :=
  ⟨"poc", "t", partition, path, 1, 1, minTsNs, maxTsNs⟩

/-- Two overlapping files of one hour, one file of another. -/
def overlappingHour : List FileMeta :=
  [fileIn "h1" "a" 0 10, fileIn "h1" "b" 5 20, fileIn "h2" "c" 0 10]

def hours : Set GroupKey := {("poc", "t", "h1"), ("poc", "t", "h2")}

def hourOf (path : String) : GroupKey :=
  if path = "a" ∨ path = "b" ∨ path = "m" then ("poc", "t", "h1") else ("poc", "t", "h2")

def mergeHour (inputs : List FileMeta) : Option Merged :=
  inputs.head?.map fun f => ⟨if f.partition = "h1" then "m" else "n", 2, 2, 0, 20⟩

/-- A pass that fails, and one of each compactor that does not. -/
def hourTurns : List Turn :=
  [⟨"c1", asGiven, fun _ => none⟩, ⟨"c1", asGiven, mergeHour⟩, ⟨"c2", asGiven, mergeHour⟩]

theorem overlappingHour_settles :
    triggerOf (compactInTurn twoCompactors 4 hourTurns overlappingHour) 4 ("poc", "t", "h1") =
      none := by
  have hnames : Names hours hourOf mergeHour := by
    intro f₀ rest m hkey hm
    obtain rfl : ⟨if f₀.partition = "h1" then "m" else "n", 2, 2, 0, 20⟩ = m :=
      Option.some.inj hm
    rcases hkey with heq | heq
    · rw [heq, show f₀.partition = "h1" from congrArg (fun key => key.2.2) heq]
      decide
    · rw [heq, show f₀.partition = "h2" from congrArg (fun key => key.2.2) heq]
      decide
  have hturns : ∀ turn ∈ hourTurns,
      turn.node ∈ twoCompactors.members ∧ Names hours hourOf turn.merge := by
    intro turn hturn
    simp only [hourTurns, List.mem_cons, List.not_mem_nil, or_false] at hturn
    rcases hturn with rfl | rfl | rfl
    · refine ⟨by simp [twoCompactors], ?_⟩
      intro f₀ rest m _ hm
      cases hm
    · exact ⟨by simp [twoCompactors], hnames⟩
    · exact ⟨by simp [twoCompactors], hnames⟩
  have hhome : Homed hours hourOf overlappingHour := by
    intro f hf
    simp only [overlappingHour, List.mem_cons, List.not_mem_nil, or_false] at hf
    rcases hf with rfl | rfl | rfl <;> exact ⟨by simp [hours, groupKey, fileIn], by decide⟩
  have hsettle := compactors_settle twoCompactors hours hourOf 4 hourTurns hturns overlappingHour
    hhome
  refine hsettle.2.2 ?_ ("poc", "t", "h1")
  intro self hself
  have hdue : (due overlappingHour 4 (twoCompactors.shard self) fun _ => true).card ≤ 2 :=
    (List.toFinset_card_le _).trans ((List.length_filter_le _ _).trans (by decide))
  have hfinished : 1 ≤ finishedOf twoCompactors 4 self hourTurns overlappingHour := by
    rcases List.mem_pair.mp hself with rfl | rfl <;> decide +kernel
  omega

end Settling

end TimeLake.Cluster
