import TimeLake.Registry.Machine
import TimeLake.Ingest.Refusal
import TimeLake.Library.Run
import TimeLake.Library.Fallible

/-!
What the steps of the registry's machine do to the data files. A property of
the footer of a file, given its table, holds of all files a node lists or has
uploaded as long as it holds of what a flush encodes, is kept by a merge, and
holds of what other nodes add; no put may land on a file of another table.
-/

namespace TimeLake.Registry

open TimeLake.Library TimeLake.Catalog TimeLake.Rows TimeLake.Ingest TimeLake.Wal
open TimeLake.Store TimeLake.Cluster

section Unions

/-- The columns of a union come from its parts, and no name of a part is lost. -/
theorem unionInto_spec {a b merged : Schema} (h : unionInto a b = .ok merged) :
    (∀ c ∈ a, c ∈ merged) ∧ (∀ c ∈ merged, c ∈ a ∨ c ∈ b) ∧
      ∀ c ∈ b, c.1 ∈ merged.map Prod.fst := by
  induction b generalizing a with
  | nil =>
      obtain rfl := Except.ok.inj h
      exact ⟨fun _ hc => hc, fun _ hc => .inl hc, by simp⟩
  | cons p rest ih =>
      obtain ⟨name, dt⟩ := p
      simp only [unionInto] at h
      split at h
      · obtain ⟨hleft, hfrom, hright⟩ := ih h
        have hnew : (name, dt) ∈ merged := hleft _ (by simp)
        refine ⟨fun c hc => hleft c (List.mem_append_left _ hc), ?_, ?_⟩
        · intro c hc
          rcases hfrom c hc with hc | hc
          · rcases List.mem_append.mp hc with hc | hc
            · exact .inl hc
            · exact .inr (List.mem_cons.mpr (.inl (List.mem_singleton.mp hc)))
          · exact .inr (List.mem_cons_of_mem _ hc)
        · intro c hc
          rcases List.mem_cons.mp hc with rfl | hc
          · exact List.mem_map_of_mem hnew
          · exact hright c hc
      · next known hknown =>
          split at h
          · obtain ⟨hleft, hfrom, hright⟩ := ih h
            refine ⟨hleft, fun c hc => (hfrom c hc).imp_right (List.mem_cons_of_mem _), ?_⟩
            intro c hc
            rcases List.mem_cons.mp hc with rfl | hc
            · exact List.mem_map.mpr ⟨(name, known), hleft _ (mem_of_types hknown), rfl⟩
            · exact hright c hc
          · cases h

theorem mem_of_mem_settle {s : Schema} {c : String × DataType} (h : c ∈ s.settle) : c ∈ s := by
  obtain ⟨p, hp, rfl⟩ := List.mem_map.mp h
  obtain ⟨dt, hdt⟩ := types_isSome_of_mem hp
  rw [hdt, Option.getD_some]
  exact mem_of_types hdt

theorem names_settle (s : Schema) : s.settle.map Prod.fst = s.map Prod.fst := by
  simp [Schema.settle, Function.comp_def]

theorem schemaUnion_spec {a : Option Schema} {b merged : Schema}
    (h : schemaUnion a b = .ok merged) :
    (∀ c ∈ merged, c ∈ a.getD [] ∨ c ∈ b) ∧
      (∀ name ∈ (a.getD []).map Prod.fst, name ∈ merged.map Prod.fst) ∧
      ∀ c ∈ b, c.1 ∈ merged.map Prod.fst := by
  cases a with
  | none =>
      obtain rfl := Except.ok.inj h
      exact ⟨fun _ hc => .inr hc, by simp, fun _ hc => List.mem_map_of_mem hc⟩
  | some a =>
      obtain ⟨hleft, hfrom, hright⟩ := unionInto_spec h
      refine ⟨fun c hc => (hfrom c hc).imp_left mem_of_mem_settle, ?_, hright⟩
      intro name hname
      rw [Option.getD_some, ← names_settle] at hname
      obtain ⟨c, hc, rfl⟩ := List.mem_map.mp hname
      exact List.mem_map_of_mem (hleft c hc)

/-- A merged file has the columns of its inputs and no others. -/
theorem mem_alignSchema {schemas : List Schema} {merged : Schema}
    (h : alignSchema schemas = .ok merged) {c : String × DataType} (hc : c ∈ merged) :
    ∃ schema ∈ schemas, c ∈ schema := by
  have hfold : ∀ (l : List Schema) (a m : Schema), l.foldlM unionInto a = .ok m →
      ∀ d ∈ m, d ∈ a ∨ ∃ schema ∈ l, d ∈ schema := by
    intro l
    induction l with
    | nil =>
        intro a m hok d hd
        obtain rfl := Except.ok.inj hok
        exact .inl hd
    | cons b rest ih =>
        intro a m hok d hd
        rw [List.foldlM_cons] at hok
        obtain ⟨u, hu, hrest⟩ := bind_eq_ok.mp hok
        rcases ih u m hrest d hd with hd | ⟨schema, hmem, hd⟩
        · rcases (unionInto_spec hu).2.1 d hd with hd | hd
          · exact .inl hd
          · exact .inr ⟨b, by simp, hd⟩
        · exact .inr ⟨schema, List.mem_cons_of_mem _ hmem, hd⟩
  rcases hfold schemas [] merged h c hc with hc | hc
  · cases hc
  · exact hc

end Unions

section Files

namespace State

/-- The files this node lists and those its flushes have uploaded. -/
def held (s : State) : List FileMeta :=
  s.files ++ (AssocMap.values s.flights).flatMap Flight.metas

/-- What other nodes have listed since this one last looked. -/
def incoming (s : State) : List FileMeta := (listed s.log).filter fun f => !s.files.contains f

/-- A put to `path` replaces no file of a table other than `key`. -/
def OwnPath (s : State) (key : TableKey) (path : String) : Prop :=
  ∀ f ∈ s.held ++ s.incoming, f.path = path → f.key = key

instance (s : State) (key : TableKey) (path : String) : Decidable (s.OwnPath key path) :=
  inferInstanceAs (Decidable (∀ f ∈ s.held ++ s.incoming, _))

end State

/-- Whether a commit folds in what others have appended. -/
def CommitEnd.folds : CommitEnd → Bool
  | .landed => true
  | .failed folded => folded

/-- The footer of a file has a property. -/
def Has (P : TableKey → Schema → Prop) (footers : AssocMap String Schema) (f : FileMeta) : Prop :=
  ∀ footer ∈ footers.lookup f.path, P f.key footer

/-- The footers of all files listed or uploaded have it. -/
def AllHave (P : TableKey → Schema → Prop) (s : State) : Prop :=
  ∀ f ∈ s.held, Has P s.footers f

variable {P : TableKey → Schema → Prop} {s t : State}

theorem mem_incoming {f : FileMeta} : f ∈ s.incoming ↔ f ∈ listed s.log ∧ f ∉ s.files := by
  simp [State.incoming]

theorem mem_held {f : FileMeta} :
    f ∈ s.held ↔ f ∈ s.files ∨ ∃ k flight, s.flights.lookup k = some flight ∧ f ∈ flight.metas := by
  simp only [State.held, List.mem_append, List.mem_flatMap, AssocMap.mem_values]
  refine or_congr Iff.rfl ?_
  constructor
  · rintro ⟨flight, ⟨k, hk⟩, hf⟩
    exact ⟨k, flight, hk, hf⟩
  · rintro ⟨k, flight, hk, hf⟩
    exact ⟨flight, ⟨k, hk⟩, hf⟩

theorem AllHave.mono {Q : TableKey → Schema → Prop} (h : AllHave P s)
    (himp : ∀ key footer, P key footer → Q key footer) : AllHave Q s :=
  fun f hf footer hfooter => himp _ _ (h f hf footer hfooter)

/-- A step that leaves the catalog, the footers and the flights alone. -/
theorem AllHave.beside (h : AllHave P s) (hlog : t.log = s.log) (hhead : t.head = s.head)
    (hfooters : t.footers = s.footers) (hflights : t.flights = s.flights) : AllHave P t := by
  intro f hf footer hfooter
  simp only [State.held, State.files, hlog, hhead, hflights] at hf
  rw [hfooters] at hfooter
  exact h f hf footer hfooter

/-- The files of the whole log: those listed before, and those just come in. -/
theorem AllHave.listed (h : AllHave P s) (hin : ∀ f ∈ s.incoming, Has P s.footers f) {f : FileMeta}
    (hf : f ∈ listed s.log) : Has P s.footers f := by
  by_cases hold : f ∈ s.files
  · exact h f (mem_held.mpr (.inl hold))
  · exact hin f (mem_incoming.mpr ⟨hf, hold⟩)

theorem AllHave.fold (h : AllHave P s) {folded : Bool}
    (hin : folded = true → ∀ f ∈ s.incoming, Has P s.footers f) : AllHave P (s.fold folded) := by
  unfold State.fold
  split
  · next hfolded =>
      intro f hf
      rcases mem_held.mp hf with hf | hf
      · rw [State.files, List.take_length] at hf
        exact h.listed (hin hfolded) hf
      · exact h f (mem_held.mpr (.inr hf))
  · exact h

/-- An entry of this node behind those of the others. -/
theorem AllHave.land (h : AllHave P s) (hin : ∀ f ∈ s.incoming, Has P s.footers f)
    {args : CommitArgs}
    (hadds : ∀ f ∈ args.addFiles, Has P s.footers f) :
    AllHave P { s with
      log := s.log ++ [args.entry (s.log.length + 1)]
      head := s.log.length + 1 } := by
  intro f hf
  rcases mem_held.mp hf with hf | hf
  · rw [State.files, List.take_of_length_le (by simp), mem_listed_snoc] at hf
    rcases hf.1 with ⟨hf, _⟩ | hf
    · exact h.listed hin hf
    · exact hadds f hf
  · exact h f (mem_held.mpr (.inr hf))

theorem AllHave.eraseFlight (h : AllHave P s) (k : Nat) :
    AllHave P { s with flights := s.flights.erase k } := by
  intro f hf
  refine h f (mem_held.mpr ((mem_held.mp hf).imp_right ?_))
  rintro ⟨j, flight, hj, hmeta⟩
  exact ⟨j, flight, (AssocMap.of_lookup_erase hj).2, hmeta⟩

theorem AllHave.handover (h : AllHave P s) {k : Nat} {rotated : Bool}
    (hstep : Registry.handover s k rotated = some t) : AllHave P t := by
  unfold Registry.handover at hstep
  split at hstep
  · obtain rfl := Option.some.inj hstep
    intro f hf
    refine h f (mem_held.mpr ((mem_held.mp hf).imp_right ?_))
    rintro ⟨j, flight, hj, hmeta⟩
    cases rotated with
    | false => exact ⟨j, flight, hj, hmeta⟩
    | true =>
        rcases AssocMap.of_lookup_insert hj with ⟨rfl, rfl⟩ | ⟨_, hold⟩
        · cases hmeta
        · exact ⟨j, flight, hold, hmeta⟩
  · cases hstep

theorem AllHave.commit (h : AllHave P s) {k : Nat} {result : CommitEnd}
    (hin : result.folds = true → ∀ f ∈ s.incoming, Has P s.footers f)
    (hstep : Registry.commit s k result = some t) : AllHave P t := by
  unfold Registry.commit at hstep
  split at hstep
  · next metas hflight =>
      cases result with
      | landed =>
          obtain rfl := Option.some.inj hstep
          refine AllHave.eraseFlight (h.land (hin rfl) ?_) k
          exact fun f hf => h f (mem_held.mpr (.inr ⟨k, _, hflight, hf⟩))
      | failed folded =>
          obtain rfl := Option.some.inj hstep
          cases folded with
          | true => exact AllHave.eraseFlight (h.fold hin) k
          | false => exact h.eraseFlight k
  · cases hstep

theorem lookup_putAll (footers : AssocMap String Schema) (files : List FileMeta) (schema : Schema)
    (path : String) : (State.putAll footers files schema).lookup path =
      if path ∈ files.map FileMeta.path then some schema else footers.lookup path := by
  induction files generalizing footers with
  | nil => rfl
  | cons f rest ih =>
      rw [State.putAll, List.foldl_cons, ← State.putAll, ih]
      by_cases hpath : path = f.path
      · subst hpath
        simp
      · simp [hpath, AList.lookup_insert_ne hpath]

theorem key_outputs {key : TableKey} {b : TableBuffer} {size : Nat → Nat} {f : FileMeta}
    (hf : f ∈ s.outputs key b size) : f.key = key := by
  obtain ⟨p, _, rfl⟩ := List.mem_map.mp hf
  rfl

/-- A put of a footer that has the property for the table whose files it may
replace. -/
theorem Has.putAll {footers : AssocMap String Schema} {key : TableKey} {files : List FileMeta}
    {schema : Schema} {f : FileMeta} (h : Has P footers f) (hschema : P key schema)
    (hown : ∀ g ∈ files, f.path = g.path → f.key = key) :
    Has P (State.putAll footers files schema) f := by
  intro found hfound
  rw [lookup_putAll] at hfound
  split at hfound
  · next hmem =>
      obtain ⟨g, hg, hpath⟩ := List.mem_map.mp hmem
      obtain rfl := Option.some.inj hfound
      rw [hown g hg hpath.symm]
      exact hschema
  · exact h found hfound

theorem AllHave.flushOne (h : AllHave P s) {k : Nat} {size : Nat → Nat} {puts : Option Nat}
    (hown : ∀ flight ∈ s.flights.lookup k, ∀ p ∈ flight.todo.head?, ∀ f ∈ s.outputs p.1 p.2 size,
      s.OwnPath p.1 f.path)
    (hnew : ∀ flight ∈ s.flights.lookup k, ∀ p ∈ flight.todo.head?, P p.1 p.2.schemaOnly)
    (hstep : Registry.flushOne s k size puts = some t) : AllHave P t := by
  unfold Registry.flushOne at hstep
  split at hstep
  · next key b todo metas hflight =>
      have hcurrent : ∀ f ∈ metas, f ∈ s.held := fun f hmeta =>
        mem_held.mpr (.inr ⟨k, _, hflight, hmeta⟩)
      have hschema := hnew _ hflight (key, b) rfl
      split at hstep
      · obtain rfl := Option.some.inj hstep
        intro f hf
        rcases mem_held.mp hf with hlisted | ⟨j, flight, hj, hmeta⟩
        · exact h f (mem_held.mpr (.inl hlisted))
        · rcases AssocMap.of_lookup_insert hj with ⟨rfl, rfl⟩ | ⟨_, hold⟩
          · exact h f (hcurrent f hmeta)
          · exact h f (mem_held.mpr (.inr ⟨j, flight, hold, hmeta⟩))
      · next merged hunion =>
          obtain rfl := Option.some.inj hstep
          have hkept : ∀ g ∈ s.held, Has P (State.putAll s.footers
              ((s.outputs key b size).take (puts.getD (s.outputs key b size).length))
              b.schemaOnly) g := fun g hg =>
            (h g hg).putAll hschema fun o ho =>
              hown _ hflight (key, b) rfl o (List.mem_of_mem_take ho) g (List.mem_append_left _ hg)
          intro f hf
          rcases mem_held.mp hf with hlisted | ⟨j, flight, hj, hmeta⟩
          · exact hkept f (mem_held.mpr (.inl hlisted))
          · rcases AssocMap.of_lookup_insert hj with ⟨rfl, rfl⟩ | ⟨_, hold⟩
            · cases puts with
              | some n => exact hkept f (hcurrent f hmeta)
              | none =>
                  rcases List.mem_append.mp hmeta with hmeta | hmeta
                  · exact hkept f (hcurrent f hmeta)
                  · intro found hfound
                    rw [Option.getD_none, List.take_length, lookup_putAll,
                      if_pos (List.mem_map_of_mem hmeta)] at hfound
                    obtain rfl := Option.some.inj hfound
                    rw [key_outputs hmeta]
                    exact hschema
            · exact hkept f (mem_held.mpr (.inr ⟨j, flight, hold, hmeta⟩))
  · cases hstep

theorem mem_inputs {group : GroupKey} {f : FileMeta} (hf : f ∈ s.inputs group) :
    f ∈ s.files ∧ groupKey f = group := by
  rw [State.inputs, sortByPath, List.mem_insertionSort, List.mem_filter] at hf
  exact ⟨hf.1, of_decide_eq_true hf.2⟩

theorem key_of_groupKey {f g : FileMeta} (h : groupKey f = groupKey g) : f.key = g.key := by
  simp only [groupKey, Prod.mk.injEq] at h
  exact Prod.ext h.1 h.2.1

theorem AllHave.compact (h : AllHave P s) {group : GroupKey} {maxTs : Int} {size : Nat}
    {result : CommitEnd} (hin : result.folds = true → ∀ f ∈ s.incoming, Has P s.footers f)
    (hown : ∀ f0 ∈ (s.inputs group).head?,
      s.OwnPath f0.key (outputMeta .compacted f0.key f0.partition [] maxTs s.fileSeq size).path)
    (hmerge : ∀ key schemas merged, (∀ schema ∈ schemas, P key schema) →
      alignSchema schemas = .ok merged → P key merged)
    (hstep : Registry.compact s group maxTs size result = some t) : AllHave P t := by
  unfold Registry.compact at hstep
  split at hstep
  · next f0 rest schemas _ hinputs hread =>
      split at hstep
      · obtain rfl := Option.some.inj hstep
        exact h
      · next schema halign =>
          have hschema : P f0.key schema := by
            refine hmerge f0.key schemas schema (fun part hpart => ?_) halign
            obtain ⟨f, hf, hfooter⟩ := mem_of_mapM_eq_some hread hpart
            have hfirst := mem_inputs (hinputs ▸ List.mem_cons_self : f0 ∈ s.inputs group)
            obtain ⟨hlisted, hgroup⟩ := mem_inputs hf
            rw [← key_of_groupKey (hgroup.trans hfirst.2.symm)]
            exact h f (mem_held.mpr (.inl hlisted)) part hfooter
          have hkeep : ∀ f ∈ s.held ++ s.incoming, Has P s.footers f →
              Has P (State.putAll s.footers [outputMeta .compacted f0.key f0.partition [] maxTs
                s.fileSeq size] schema) f := by
            refine fun f hf hhas => hhas.putAll hschema fun g hg hpath => ?_
            rw [List.mem_singleton.mp hg] at hpath
            exact hown f0 (by rw [hinputs]; rfl) f hf hpath
          have hput : AllHave P { s with
              footers := s.footers.insert (outputMeta .compacted f0.key f0.partition [] maxTs
                s.fileSeq size).path schema
              fileSeq := s.fileSeq + 1 } := fun f hf =>
            hkeep f (List.mem_append_left _ hf) (h f hf)
          have harrive := fun hfolds f hf => hkeep f (List.mem_append_right _ hf) (hin hfolds f hf)
          cases result with
          | failed folded =>
              obtain rfl := Option.some.inj hstep
              exact hput.fold harrive
          | landed =>
              simp only at hstep
              split at hstep
              · obtain rfl := Option.some.inj hstep
                refine hput.land (harrive rfl) ?_
                intro f hf found hfound
                obtain rfl := List.mem_singleton.mp hf
                rw [AList.lookup_insert] at hfound
                obtain rfl := Option.some.inj hfound
                exact hschema
              · obtain rfl := Option.some.inj hstep
                exact hput.fold fun _ => harrive rfl
  · cases hstep

theorem commit_node {k : Nat} {result : CommitEnd} (hstep : commit s k result = some t) :
    t.node = s.node := by
  unfold commit at hstep
  split at hstep
  · cases result with
    | landed =>
        obtain rfl := Option.some.inj hstep
        rfl
    | failed folded =>
        obtain rfl := Option.some.inj hstep
        cases folded <;> rfl
  · cases hstep

theorem compact_node {group : GroupKey} {maxTs : Int} {size : Nat} {result : CommitEnd}
    (hstep : compact s group maxTs size result = some t) : t.node = s.node := by
  unfold compact at hstep
  split at hstep
  · split at hstep
    · obtain rfl := Option.some.inj hstep
      rfl
    · cases result with
      | failed folded =>
          obtain rfl := Option.some.inj hstep
          cases folded <;> rfl
      | landed =>
          simp only at hstep
          split at hstep
          · obtain rfl := Option.some.inj hstep
            rfl
          · obtain rfl := Option.some.inj hstep
            rfl
  · cases hstep

end Files

end TimeLake.Registry
