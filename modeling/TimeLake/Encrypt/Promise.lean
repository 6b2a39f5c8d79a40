import TimeLake.Encrypt.Contract
import Mathlib.Data.Set.Function

/-!
What `trait Store` promises, as histories of a map from paths to objects. A write
replaces one object, whole and at once, or comes to nothing; and what is answered is so.
A write that has lost an answer may land again at any later time.

`LocalStore` keeps the promise for paths that are apart; none of its writes lands
again.
-/

namespace TimeLake.Encrypt

open TimeLake.Library TimeLake.Store
open TimeLake.Catalog (IoError)

section Histories

abbrev Objects := String → Option Bytes

/-- What a call makes of the objects. -/
def Call.apply (m : Objects) : Call → Objects
  | .put path bytes => Function.update m path (some bytes)
  | .putIfAbsent path bytes => if (m path).isSome then m else Function.update m path (some bytes)
  | .delete path => Function.update m path none
  | .get _ | .getRange .. | .size _ | .list _ => m

def Below (dir path : String) : Prop := abs dir <+: abs path ∧ abs dir ≠ abs path

/-- A call is carried out, or comes to nothing. -/
def Changes (P : Set String) (m : Objects) (c : Call) (m' : Objects) : Prop :=
  Set.EqOn m' m P ∨ Set.EqOn m' (c.apply m) P

/-- What an answer says of the objects before and after the call. A conditional write
that finds an object may have put it there itself. -/
def Tells (P : Set String) (m m' : Objects) (c : Call) : Reply → Prop
  | .error e => e = .notFound → ∀ path, c = .get path → m path = none
  | .ok answer =>
      match c, answer with
      | .put .., .done | .delete _, .done => Set.EqOn m' (c.apply m) P
      | .putIfAbsent path _, .created true => m path = none ∧ Set.EqOn m' (c.apply m) P
      | .putIfAbsent path _, .created false => (m' path).isSome = true
      | .get path, .bytes bytes => m path = some bytes
      | .getRange path offset len, .bytes bytes =>
          len = 0 ∧ bytes = [] ∨ ∃ object, m path = some object ∧
            bytes = (object.drop offset).take len
      | .size path, .size n => (m path).map List.length = some n
      | .list dir, .paths paths => paths.Pairwise (· ≤ ·) ∧
          ∀ path ∈ P, path ∈ paths ↔ (m path).isSome ∧ Below dir path
      | _, _ => False

inductive Happening where
  | call (c : Call) (reply : Option Reply) (lost : Bool)
  | late (c : Call)

def Happening.of : Happening → Call
  | .call c _ _ | .late c => c

/-- From objects and the calls that may still land to others; a listing that does not
end has no reply. -/
inductive History (P : Set String) :
    Objects → List Call → List Happening → Objects → List Call → Prop where
  | nil (m : Objects) (doubtful : List Call) : History P m doubtful [] m doubtful
  | call {m m' last : Objects} {doubtful doubtful' : List Call} {c : Call}
      {reply : Option Reply} {lost : Bool} {rest : List Happening}
      (changes : Changes P m c m') (tells : ∀ r ∈ reply, Tells P m m' c r)
      (tail : History P m' (if lost then c :: doubtful else doubtful) rest last doubtful') :
      History P m doubtful (.call c reply lost :: rest) last doubtful'
  | late {m m' last : Objects} {doubtful doubtful' : List Call} {c : Call} {rest : List Happening}
      (underWay : c ∈ doubtful) (changes : Changes P m c m')
      (tail : History P m' doubtful rest last doubtful') :
      History P m doubtful (.late c :: rest) last doubtful'

def Call.Puts (c : Call) (path : String) (bytes : Bytes) : Prop :=
  c = .put path bytes ∨ c = .putIfAbsent path bytes

/-- The path whose object a call may change. -/
def Call.target : Call → Option String
  | .put path _ | .putIfAbsent path _ | .delete path => some path
  | .get _ | .getRange .. | .size _ | .list _ => none

/-- The paths of a call are in the set, a directory is spelt as it is listed, and a range
ends within 64 bits. -/
def Call.Proper (P : Set String) : Call → Prop
  | .put path _ | .putIfAbsent path _ | .get path | .size path | .delete path => path ∈ P
  | .getRange path offset len => path ∈ P ∧ offset + len ≤ 2 ^ 64
  | .list dir => joined (abs dir) = dir

variable {P : Set String} {m m' last : Objects} {doubtful doubtful' : List Call}
  {events before later : List Happening} {c : Call} {path : String} {bytes : Bytes}

theorem Call.apply_eq_some (h : c.apply m path = some bytes) :
    m path = some bytes ∨ c.Puts path bytes := by
  have hupdate : ∀ q (x : Option Bytes), Function.update m q x path = some bytes →
      m path = some bytes ∨ path = q ∧ x = some bytes := by
    intro q x hx
    by_cases hq : path = q
    · subst hq
      exact .inr ⟨rfl, by simpa using hx⟩
    · exact .inl (by simpa [hq] using hx)
  cases c with
  | put q x =>
      obtain hold | ⟨rfl, hx⟩ := hupdate q _ h
      · exact .inl hold
      · exact .inr (.inl (by rw [Option.some.inj hx]))
  | putIfAbsent q x =>
      rw [Call.apply] at h
      split at h
      · exact .inl h
      · obtain hold | ⟨rfl, hx⟩ := hupdate q _ h
        · exact .inl hold
        · exact .inr (.inr (by rw [Option.some.inj hx]))
  | delete q =>
      obtain hold | ⟨_, hx⟩ := hupdate q _ h
      · exact .inl hold
      · cases hx
  | get | getRange | size | list => exact .inl h

theorem Call.apply_apply (c : Call) (m : Objects) : c.apply (c.apply m) = c.apply m := by
  cases c with
  | put path bytes => exact Function.update_idem ..
  | putIfAbsent path bytes =>
      cases hthere : (m path).isSome with
      | true => simp [Call.apply, hthere]
      | false => simp [Call.apply, hthere]
  | delete path => exact Function.update_idem ..
  | get | getRange | size | list => rfl

theorem Call.apply_of_target_ne (h : c.target ≠ some path) : c.apply m path = m path := by
  have hne : ∀ q, some q ≠ some path → path ≠ q := fun q hq heq => hq (by rw [heq])
  cases c with
  | put q x => exact Function.update_of_ne (hne q h) _ _
  | putIfAbsent q x =>
      rw [Call.apply]
      split
      · rfl
      · exact Function.update_of_ne (hne q h) _ _
  | delete q => exact Function.update_of_ne (hne q h) _ _
  | get | getRange | size | list => rfl

theorem Changes.eq_some (h : Changes P m c m') (hpath : path ∈ P) (hm : m' path = some bytes) :
    m path = some bytes ∨ c.Puts path bytes := by
  rcases h with h | h
  · exact .inl (by rw [← h hpath, hm])
  · exact Call.apply_eq_some (by rw [← h hpath, hm])

theorem Changes.kept (h : Changes P m c m') (hpath : path ∈ P) (hc : c.target ≠ some path) :
    m' path = m path := by
  rcases h with h | h
  · exact h hpath
  · rw [h hpath, Call.apply_of_target_ne hc]

theorem eqOn_update {q : String} {x : Option Bytes}
    (h : ∀ path ∈ P, m' path = if path = q then x else m path) :
    Set.EqOn m' (Function.update m q x) P := by
  intro path hpath
  rw [h path hpath]
  split
  · next heq => rw [heq, Function.update_self]
  · next hne => rw [Function.update_of_ne hne]

theorem History.split (h : History P m doubtful (before ++ later) last doubtful') :
    ∃ between pending, History P m doubtful before between pending ∧
      History P between pending later last doubtful' := by
  induction before generalizing m doubtful with
  | nil => exact ⟨m, doubtful, .nil m doubtful, h⟩
  | cons e before ih =>
      cases h with
      | call changes tells tail =>
          obtain ⟨between, pending, hbefore, hlater⟩ := ih tail
          exact ⟨between, pending, .call changes tells hbefore, hlater⟩
      | late underWay changes tail =>
          obtain ⟨between, pending, hbefore, hlater⟩ := ih tail
          exact ⟨between, pending, .late underWay changes hbefore, hlater⟩

theorem History.append {between : Objects} {pending : List Call}
    (h : History P m doubtful before between pending)
    (h' : History P between pending later last doubtful') :
    History P m doubtful (before ++ later) last doubtful' := by
  induction h with
  | nil => exact h'
  | call changes tells _ ih => exact .call changes tells (ih h')
  | late underWay changes _ ih => exact .late underWay changes (ih h')

/-- An object is one of the first ones, or the bytes of a put to its path, whole. -/
theorem History.object_put (h : History P m doubtful events last doubtful') (hpath : path ∈ P)
    (hlast : last path = some bytes) :
    m path = some bytes ∨ (∃ c ∈ doubtful, c.Puts path bytes) ∨
      ∃ e ∈ events, e.of.Puts path bytes := by
  induction h with
  | nil => exact .inl hlast
  | @call m m' last doubtful doubtful' c reply lost rest changes tells tail ih =>
      obtain hm | ⟨d, hd, hputs⟩ | ⟨e, he, hputs⟩ := ih hlast
      · exact (changes.eq_some hpath hm).imp_right fun hputs => .inr ⟨_, .head _, hputs⟩
      · cases lost with
        | false => exact .inr (.inl ⟨d, hd, hputs⟩)
        | true =>
            rcases List.mem_cons.mp hd with rfl | hd
            · exact .inr (.inr ⟨_, .head _, hputs⟩)
            · exact .inr (.inl ⟨d, hd, hputs⟩)
      · exact .inr (.inr ⟨e, .tail _ he, hputs⟩)
  | late underWay changes tail ih =>
      obtain hm | hdoubtful | ⟨e, he, hputs⟩ := ih hlast
      · exact (changes.eq_some hpath hm).imp_right fun hputs => .inl ⟨_, underWay, hputs⟩
      · exact .inr (.inl hdoubtful)
      · exact .inr (.inr ⟨e, .tail _ he, hputs⟩)

/-- An object that no call writes, and none that may still land, stays as it is. -/
theorem History.kept (h : History P m doubtful events last doubtful') (hpath : path ∈ P)
    (hdoubtful : ∀ c ∈ doubtful, c.target ≠ some path)
    (hevents : ∀ e ∈ events, e.of.target ≠ some path) : last path = m path := by
  induction h with
  | nil => rfl
  | @call m m' last doubtful doubtful' c reply lost rest changes tells tail ih =>
      have hc : c.target ≠ some path := hevents _ (.head _)
      rw [ih ?_ fun e he => hevents e (.tail _ he), changes.kept hpath hc]
      intro d hd
      cases lost with
      | false => exact hdoubtful d hd
      | true =>
          rcases List.mem_cons.mp hd with rfl | hd
          · exact hc
          · exact hdoubtful d hd
  | late underWay changes tail ih =>
      rw [ih hdoubtful fun e he => hevents e (.tail _ he),
        changes.kept hpath (hdoubtful _ underWay)]

/-- A call that may still land has lost an answer. -/
theorem History.doubtful_lost (h : History P m doubtful events last doubtful')
    (hc : c ∈ doubtful') : c ∈ doubtful ∨ ∃ reply, .call c reply true ∈ events := by
  induction h with
  | nil => exact .inl hc
  | @call m m' last doubtful doubtful' d reply lost rest changes tells tail ih =>
      obtain hin | ⟨reply', hin⟩ := ih hc
      · cases lost with
        | false => exact .inl hin
        | true =>
            rcases List.mem_cons.mp hin with rfl | hin
            · exact .inr ⟨reply, .head _⟩
            · exact .inl hin
      · exact .inr ⟨reply', .tail _ hin⟩
  | late underWay changes tail ih =>
      obtain hin | ⟨reply, hin⟩ := ih hc
      · exact .inl hin
      · exact .inr ⟨reply, .tail _ hin⟩

/-- What is read was there at first or was given to a put of the path; and what was put is
read until the path is written again, if no write of the path has lost an answer. -/
structure Reliable (P : Set String) (m : Objects) (events : List Happening) : Prop where
  written : ∀ before later path bytes lost,
    events = before ++ .call (.get path) (some (.ok (.bytes bytes))) lost :: later →
      path ∈ P → m path = some bytes ∨ ∃ e ∈ before, e.of.Puts path bytes
  own : ∀ first between later path stored bytes lost,
    events = first ++ .call (.put path stored) (some (.ok .done)) false :: between ++
      .call (.get path) (some (.ok (.bytes bytes))) lost :: later →
      path ∈ P → (∀ c reply, .call c reply true ∈ first → c.target ≠ some path) →
        (∀ e ∈ between, e.of.target ≠ some path) → bytes = stored

theorem History.reliable (h : History P m [] events last doubtful') : Reliable P m events where
  written := by
    rintro before later path bytes lost rfl hpath
    obtain ⟨between, pending, hbefore, hget⟩ := h.split
    cases hget with
    | call changes tells tail =>
        have hread : between path = some bytes := tells _ rfl
        rcases hbefore.object_put hpath hread with hm | ⟨c, hc, _⟩ | hevent
        · exact .inl hm
        · cases hc
        · exact .inr hevent
  own := by
    rintro first quiet later path stored bytes lost rfl hpath hfirst hquiet
    rw [List.append_assoc] at h
    obtain ⟨atPut, pending, hbefore, hput⟩ := h.split
    cases hput with
    | @call _ m' _ _ _ _ _ _ _ changes tells tail =>
        obtain ⟨atGet, pending', hbetween, hget⟩ := tail.split
        have hstored : m' path = some stored := by
          rw [(tells _ rfl : Set.EqOn m' _ P) hpath]
          exact Function.update_self ..
        have hdoubtful : ∀ c ∈ pending, c.target ≠ some path := by
          intro c hc
          obtain hnone | ⟨reply, hlost⟩ := hbefore.doubtful_lost hc
          · cases hnone
          · exact hfirst c reply hlost
        have hkept := hbetween.kept hpath hdoubtful hquiet
        cases hget with
        | call changes tells tail =>
            have hread : atGet path = some bytes := tells _ rfl
            rw [hkept, hstored] at hread
            exact (Option.some.inj hread).symm

end Histories

section Local

variable {P : Set String} {pid : Nat} {t u : Tree} {p : String} {c : Call}

namespace Tree

def objects (t : Tree) : Objects := fun path => t.files.lookup (abs path)

/-- Files have the names of paths, in directories that are there. -/
structure Housed (t : Tree) : Prop where
  clean : ∀ file ∈ t.files, Clean file
  housed : ∀ file ∈ t.files, ∀ dir, dir <+: file → dir ≠ file → t.isDir dir = true

theorem Housed.mono (h : t.Housed) (hfiles : ∀ file ∈ u.files, file ∈ t.files)
    (hdirs : ∀ dir, t.isDir dir = true → u.isDir dir = true) : u.Housed where
  clean file hfile := h.clean file (hfiles file hfile)
  housed file hfile dir hbelow hne := hdirs dir (h.housed file (hfiles file hfile) dir hbelow hne)

/-- A write houses its own file. -/
theorem Housed.write (h : t.Housed) (hfiles : ∀ file ∈ u.files, file ∈ t.files ∨ file = abs p)
    (hdirs : ∀ dir, u.isDir dir = (t.createParents (abs p)).isDir dir) : u.Housed where
  clean file hfile := by
    rcases hfiles file hfile with hold | rfl
    · exact h.clean file hold
    · exact clean_abs p
  housed file hfile dir hbelow hne := by
    rw [hdirs, isDir_createParents]
    rcases hfiles file hfile with hold | rfl
    · exact .inl (h.housed file hold dir hbelow hne)
    · exact .inr ⟨hbelow, hne⟩

/-- What is listed is what is below the directory. -/
theorem Housed.mem_list (h : t.Housed) {dir path : String} (hpath : joined (abs path) = path) :
    path ∈ t.list dir ↔ (t.objects path).isSome ∧ Below dir path := by
  have hfile : path ∈ (t.files.keys.filter fun file => abs dir <+: file ∧ abs dir ≠ file).map
      joined ↔ (t.objects path).isSome ∧ Below dir path := by
    rw [List.mem_map]
    constructor
    · rintro ⟨file, hfile, rfl⟩
      obtain ⟨hkey, hbelow⟩ := List.mem_filter.mp hfile
      have hin : file ∈ t.files := AList.mem_keys.mpr hkey
      rw [objects, Below, abs_joined (h.clean file hin)]
      exact ⟨AList.lookup_isSome.mpr hin, by simpa using hbelow⟩
    · rintro ⟨hsome, hbelow⟩
      refine ⟨abs path, List.mem_filter.mpr ⟨?_, by simpa [Below] using hbelow⟩, hpath⟩
      exact AList.mem_keys.mp (AList.lookup_isSome.mp hsome)
  rw [Tree.list]
  split
  · rw [List.mem_insertionSort, hfile]
  · next hdir =>
      rw [← hfile]
      constructor
      · intro hin
        cases hin
      · intro hin
        obtain ⟨hsome, hbelow, hne⟩ := hfile.mp hin
        exact absurd (h.housed _ (AList.lookup_isSome.mp hsome) _ hbelow hne) hdir

theorem pairwise_list (t : Tree) (dir : String) : (t.list dir).Pairwise (· ≤ ·) := by
  rw [Tree.list]
  split
  · exact List.pairwise_insertionSort _ _
  · exact .nil

/-- The state of a tree that the calls go over. -/
structure Kept (pid : Nat) (P : Set String) (t : Tree) : Prop where
  good : Good pid P t
  housed : t.Housed

/-- An empty root. -/
def fresh : Tree := ⟨∅, [], 0⟩

theorem kept_fresh (hnamed : ∀ p ∈ P, abs p ≠ []) : Kept pid P fresh := by
  have hdir : ∀ key : AbsPath, key ≠ [] → fresh.isDir key = false := by
    intro key hkey
    simp [isDir, fresh, hkey]
  refine ⟨⟨fun p hp => hdir _ (hnamed p hp), ?_, ?_, ?_⟩, ⟨?_, ?_⟩⟩
  · exact fun p hp file hfile => absurd hfile (AList.notMem_empty file)
  · exact fun p hp => hdir _ (by simp [tmpWrite, withExtension, hnamed p hp])
  · exact fun p hp n => hdir _ (by simp [tmpCas, withExtension, hnamed p hp])
  · exact fun file hfile => absurd hfile (AList.notMem_empty file)
  · exact fun file hfile => absurd hfile (AList.notMem_empty file)

theorem Kept.put (hapart : Apart pid P) (h : Kept pid P t) (hp : p ∈ P) (x : Bytes) :
    Kept pid P (t.put p x).1 ∧ (t.put p x).2 = .ok () ∧
      Set.EqOn (t.put p x).1.objects (Call.apply t.objects (.put p x)) P := by
  have heq := h.good.put_eq hapart hp x
  refine ⟨⟨h.good.put hapart hp x, ?_⟩, by rw [heq], ?_⟩
  · rw [heq]
    refine h.housed.write (p := p) ?_ fun _ => rfl
    intro file hfile
    rcases (AList.mem_insert _).mp hfile with rfl | hfile
    · exact .inr rfl
    · obtain ⟨hne, hfile⟩ := AList.mem_erase.mp hfile
      exact .inl (((AList.mem_insert _).mp hfile).resolve_left hne)
  · refine eqOn_update fun q hq => ?_
    have hlookup := h.good.lookup_put hapart hp hq x
    rw [heq] at hlookup ⊢
    simpa [objects, Except.isOk, Except.toBool] using hlookup

theorem Kept.putIfAbsent (hapart : Apart pid P) (h : Kept pid P t) (hp : p ∈ P) (x : Bytes) :
    Kept pid P (t.putIfAbsent pid p x).1 ∧
      (t.putIfAbsent pid p x).2 = .ok !(t.objects p).isSome ∧
      Set.EqOn (t.putIfAbsent pid p x).1.objects (Call.apply t.objects (.putIfAbsent p x)) P := by
  have heq := h.good.putIfAbsent_eq hapart hp x
  refine ⟨⟨h.good.putIfAbsent hapart hp x, ?_⟩, by rw [heq]; rfl, ?_⟩
  · rw [heq]
    refine h.housed.write (p := p) ?_ fun _ => rfl
    intro file hfile
    dsimp only at hfile
    split at hfile
    · obtain ⟨hne, hfile⟩ := AList.mem_erase.mp hfile
      exact .inl (((AList.mem_insert _).mp hfile).resolve_left hne)
    · obtain ⟨hne, hfile⟩ := AList.mem_erase.mp hfile
      rcases (AList.mem_insert _).mp hfile with rfl | hfile
      · exact .inr rfl
      · exact .inl (((AList.mem_insert _).mp hfile).resolve_left hne)
  · have hlookup : ∀ q ∈ P, (t.putIfAbsent pid p x).1.objects q =
        if q = p ∧ (t.objects p).isSome = false then some x else t.objects q := by
      intro q hq
      have hwritten := h.good.lookup_putIfAbsent hapart hp hq x
      rw [objects, hwritten, heq]
      simp [created, objects]
    rw [Call.apply]
    cases hthere : (t.objects p).isSome with
    | true =>
        intro q hq
        rw [hlookup q hq, hthere]
        simp
    | false =>
        refine eqOn_update fun q hq => ?_
        rw [hlookup q hq, hthere]
        simp

theorem Kept.delete (hapart : Apart pid P) (h : Kept pid P t) (hp : p ∈ P) :
    Kept pid P (t.delete p).1 ∧ (t.delete p).2 = .ok () ∧
      Set.EqOn (t.delete p).1.objects (Call.apply t.objects (.delete p)) P := by
  have heq := h.good.delete_eq hp
  refine ⟨⟨?_, ?_⟩, by rw [heq], ?_⟩
  · exact (Alike.delete hapart ⟨h.good, h.good, rfl, rfl, rfl⟩ hp).1.left
  · rw [heq]
    exact h.housed.mono (fun file hfile => (AList.mem_erase.mp hfile).2) fun _ hdir => hdir
  · refine eqOn_update fun q hq => ?_
    have hlookup := h.good.lookup_delete hapart hp hq
    rw [heq] at hlookup ⊢
    simpa [objects, Except.isOk, Except.toBool] using hlookup

end Tree

/-- One call of `LocalStore`. -/
theorem Tree.Kept.call (dirLength : Nat) (hapart : Apart pid P) (hP : ∀ p ∈ P, joined (abs p) = p)
    (h : Tree.Kept pid P t) (hc : c.Proper P) :
    Tree.Kept pid P ((localStore pid dirLength).call t c).1 ∧
      Changes P t.objects c ((localStore pid dirLength).call t c).1.objects ∧
      Tells P t.objects ((localStore pid dirLength).call t c).1.objects c
        ((localStore pid dirLength).call t c).2 := by
  cases c with
  | put p x =>
      obtain ⟨hkept, hreply, hset⟩ := h.put hapart hc x
      refine ⟨hkept, .inr hset, ?_⟩
      simp only [Backend.call, localStore, hreply]
      exact hset
  | putIfAbsent p x =>
      obtain ⟨hkept, hreply, hset⟩ := h.putIfAbsent hapart hc x
      refine ⟨hkept, .inr hset, ?_⟩
      simp only [Backend.call, localStore, hreply]
      cases hthere : t.objects p with
      | none => exact ⟨hthere, hset⟩
      | some old =>
          rw [Call.apply, hthere] at hset
          exact (congrArg Option.isSome ((hset hc).trans hthere)).trans rfl
  | delete p =>
      obtain ⟨hkept, hreply, hset⟩ := h.delete hapart hc
      refine ⟨hkept, .inr hset, ?_⟩
      simp only [Backend.call, localStore, hreply]
      exact hset
  | get p =>
      refine ⟨h, .inl fun _ _ => rfl, ?_⟩
      simp only [Backend.call, localStore, h.good.get_eq hc]
      cases hread : t.files.lookup (abs p) with
      | none =>
          rintro - path hpath
          obtain rfl := Call.get.inj hpath
          exact hread
      | some object => exact hread
  | getRange p offset len =>
      refine ⟨h, .inl fun _ _ => rfl, ?_⟩
      simp only [Backend.call, localStore, Tree.getRange, h.good.free p hc.1, Bool.false_eq_true,
        if_false, h.good.get_eq hc.1]
      cases hread : t.files.lookup (abs p) with
      | none => exact fun _ _ hpath => by cases hpath
      | some object =>
          simp only [Option.elim, Except.bind]
          split
          · exact .inr ⟨object, hread, rfl⟩
          · exact fun _ _ hpath => by cases hpath
  | size p =>
      refine ⟨h, .inl fun _ _ => rfl, ?_⟩
      simp only [Backend.call, localStore, Tree.size, h.good.free p hc, Bool.false_eq_true,
        if_false, h.good.get_eq hc]
      cases hread : t.files.lookup (abs p) with
      | none => exact fun _ _ hpath => by cases hpath
      | some object => exact congrArg (Option.map List.length) hread
  | list dir =>
      refine ⟨h, .inl fun _ _ => rfl, t.pairwise_list dir, ?_⟩
      exact fun p hp => h.housed.mem_list (hP p hp)

/-- What happens while calls are made one after the other. -/
def eventsOf {σ : Type} (call : σ → Call → σ × Reply) (s : σ) : List Call → List Happening
  | [] => []
  | c :: rest => .call c (some (call s c).2) false :: eventsOf call (call s c).1 rest

/-- Over paths that are apart and spelt as they are listed, each run of `LocalStore` is a
history of its objects. -/
theorem local_keeps_promise (dirLength : Nat) (hapart : Apart pid P)
    (hP : ∀ p ∈ P, joined (abs p) = p) (h : Tree.Kept pid P t) (calls : List Call)
    (hcalls : ∀ c ∈ calls, c.Proper P) :
    History P t.objects [] (eventsOf (localStore pid dirLength).call t calls)
      (after (localStore pid dirLength).call t calls).objects [] := by
  induction calls generalizing t with
  | nil => exact .nil _ _
  | cons c calls ih =>
      obtain ⟨hkept, hchanges, htells⟩ :=
        h.call dirLength hapart hP (hcalls c (.head _))
      refine .call hchanges ?_ (ih hkept fun d hd => hcalls d (.tail _ hd))
      rintro r ⟨⟩
      exact htells

end Local

end TimeLake.Encrypt
