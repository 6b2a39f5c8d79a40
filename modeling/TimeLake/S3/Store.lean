import TimeLake.Encrypt.Store
import TimeLake.Library.Cursor
import Mathlib.Data.List.DropRight

/-!
`S3Store` of `crates/store-s3`: a store in a bucket that others may use too.
A path is kept under a prefix; a directory is listed a page at a time by the keys
that begin with it and a slash.

S3 and its SDK are not part of the repository. A service answers requests as it
likes, by a weather that stands for all that is not in the bucket: a request may be
refused or stay without an answer, whatever has become of it, a page may be short.
What is relied on of a service is said by laws, one group for each use.
-/

namespace TimeLake.S3

open TimeLake.Library TimeLake.Encrypt
open TimeLake.Catalog (IoError)

abbrev Bucket := AssocMap String Bytes

section Service

inductive Write where
  | putObject (key : String) (bytes : Bytes)
  /-- `If-None-Match: *` -/
  | putIfNoneMatch (key : String) (bytes : Bytes)
  | deleteObject (key : String)

def Write.key : Write → String
  | .putObject key _ | .putIfNoneMatch key _ | .deleteObject key => key

inductive S3Error where
  | noSuchKey
  | invalidRange
  | preconditionFailed
  | conditionalConflict
  | unanswered
  | other
  deriving DecidableEq

/-- What becomes of the requests, and their answers. -/
structure Service (ω τ : Type) where
  write : ω → Bucket → Write → Bucket × Except S3Error Unit
  getObject : ω → Bucket → String → Option (Nat × Nat) → Except S3Error Bytes
  headObject : ω → Bucket → String → Except S3Error (Option Nat)
  listObjects : ω → Bucket → String → Option τ → Except S3Error (List String × Option τ)

variable {ω τ : Type}

/-- A request sees and changes the objects it is about and no others. -/
structure Service.Separate (S : Service ω τ) : Prop where
  elsewhere : ∀ w b r k, k ≠ r.key → (S.write w b r).1.lookup k = b.lookup k
  write : ∀ w a b r, a.lookup r.key = b.lookup r.key →
    (S.write w a r).2 = (S.write w b r).2 ∧
      (S.write w a r).1.lookup r.key = (S.write w b r).1.lookup r.key
  get : ∀ w a b key range, a.lookup key = b.lookup key →
    S.getObject w a key range = S.getObject w b key range
  head : ∀ w a b key, a.lookup key = b.lookup key → S.headObject w a key = S.headObject w b key
  list : ∀ w a b front token, (∀ k, front.toList <+: k.toList → a.lookup k = b.lookup k) →
    S.listObjects w a front token = S.listObjects w b front token

/-- The keys `list_objects_v2` looks through for a prefix. -/
def keysUnder (bucket : Bucket) (front : String) : List String :=
  bucket.keys.filter fun key => front.toList.isPrefixOf key.toList

/-- The pages of a listing are those of the keys below its prefix; a token stands at
a place among them. -/
structure Service.Listing (S : Service ω τ) (place : τ → String) : Prop where
  page : ∀ w b front token keys next, S.listObjects w b front token = .ok (keys, next) →
    PageOf place (keysUnder b front) token keys next

/-- A conditional write creates its object where there is none, or changes nothing.
One that stays without an answer may have done either. -/
structure Service.Conditional (S : Service ω τ) : Prop where
  effect : ∀ w b key bytes,
    (S.write w b (.putIfNoneMatch key bytes)).1.lookup key = b.lookup key ∨
      b.lookup key = none ∧
        (S.write w b (.putIfNoneMatch key bytes)).1.lookup key = some bytes ∧
        (S.write w b (.putIfNoneMatch key bytes)).2 ∈ [.ok (), .error .unanswered]
  created : ∀ w b key bytes, (S.write w b (.putIfNoneMatch key bytes)).2 = .ok () →
    b.lookup key = none ∧ (S.write w b (.putIfNoneMatch key bytes)).1.lookup key = some bytes
  refused : ∀ w b key bytes,
    (S.write w b (.putIfNoneMatch key bytes)).2 = .error .preconditionFailed →
      (b.lookup key).isSome

/-- What is answered of an object is so, and a write is done or not. -/
structure Service.Truthful (S : Service ω τ) : Prop where
  put : ∀ w b key bytes, (S.write w b (.putObject key bytes)).1.lookup key = b.lookup key ∨
    (S.write w b (.putObject key bytes)).1.lookup key = some bytes
  stored : ∀ w b key bytes, (S.write w b (.putObject key bytes)).2 = .ok () →
    (S.write w b (.putObject key bytes)).1.lookup key = some bytes
  delete : ∀ w b key, (S.write w b (.deleteObject key)).1.lookup key = b.lookup key ∨
    (S.write w b (.deleteObject key)).1.lookup key = none
  deleted : ∀ w b key, (S.write w b (.deleteObject key)).2 = .ok () →
    (S.write w b (.deleteObject key)).1.lookup key = none
  get : ∀ w b key bytes, S.getObject w b key none = .ok bytes → b.lookup key = some bytes
  missing : ∀ w b key, S.getObject w b key none = .error .noSuchKey → b.lookup key = none
  range : ∀ w b key start stop bytes, start ≤ stop →
    S.getObject w b key (some (start, stop)) = .ok bytes →
      ∃ object, b.lookup key = some object ∧ bytes = (object.drop start).take (stop + 1 - start)
  beyond : ∀ w b key start stop, start ≤ stop →
    S.getObject w b key (some (start, stop)) = .error .invalidRange →
      ∃ object, b.lookup key = some object ∧ object.length ≤ start
  head : ∀ w b key n, S.headObject w b key = .ok (some n) →
    (b.lookup key).map List.length = some n

/-- `send` of the SDK, which repeats a request that is not answered; the weathers are
those of its attempts. -/
def Service.sendWrite (S : Service ω τ) (r : Write) : List ω → Bucket → Bucket × Except S3Error Unit
  | [], bucket => (bucket, .error .unanswered)
  | w :: ws, bucket =>
      match S.write w bucket r with
      | (bucket', .error .unanswered) => S.sendWrite r ws bucket'
      | answer => answer

def sendRead {α : Type} (request : ω → Except S3Error α) : List ω → Except S3Error α
  | [] => .error .unanswered
  | w :: ws =>
      match request w with
      | .error .unanswered => sendRead request ws
      | answer => answer

end Service

section Store

variable {ω τ : Type}

def trimSlashes (s : String) : String :=
  String.ofList ((s.toList.dropWhile (· = '/')).rdropWhile (· = '/'))

/-- The prefix is empty or ends with a slash. -/
structure S3Store where
  keyPrefix : String
  terminated : keyPrefix = "" ∨ ∃ front, keyPrefix = front ++ "/"

/-- What `put_if_absent` does after an answer. -/
inductive Verdict where
  | returns (result : Except IoError Bool)
  | again

/-- The answer to the `attempt`-th request of `put_if_absent`. -/
def verdict (attempt : Nat) : Except S3Error Unit → Verdict
  | .ok _ => .returns (.ok true)
  | .error .preconditionFailed => .returns (.ok false)
  | .error .conditionalConflict => if attempt < 4 then .again else .returns (.error .other)
  | .error _ => .returns (.error .other)

namespace S3Store

variable (S : Service ω τ) (s : S3Store) (w : Nat → List ω) (bucket : Bucket)

def key (path : String) : String := s.keyPrefix ++ trimSlashes path

def done : Bucket × Except S3Error Unit → Bucket × Except IoError Unit
  | (bucket, .ok _) => (bucket, .ok ())
  | (bucket, .error _) => (bucket, .error .other)

def put (path : String) (bytes : Bytes) : Bucket × Except IoError Unit :=
  done (S.sendWrite (.putObject (s.key path) bytes) (w 0) bucket)

/-- The loop of `put_if_absent` from an attempt on, with `more` behind it. -/
def attemptPut (path : String) (bytes : Bytes) :
    Nat → Nat → Bucket → Bucket × Except IoError Bool
  | more, attempt, bucket =>
      let answer := S.sendWrite (.putIfNoneMatch (s.key path) bytes) (w attempt) bucket
      match verdict attempt answer.2 with
      | .returns result => (answer.1, result)
      | .again =>
          match more with
          | 0 => (answer.1, .error .other)
          | more + 1 => attemptPut path bytes more (attempt + 1) answer.1

def putIfAbsent (path : String) (bytes : Bytes) : Bucket × Except IoError Bool :=
  s.attemptPut S w path bytes 4 0 bucket

def get (path : String) : Except IoError Bytes :=
  match sendRead (fun w => S.getObject w bucket (s.key path) none) (w 0) with
  | .ok bytes => .ok bytes
  | .error .noSuchKey => .error .notFound
  | .error _ => .error .other

/-- The end of the range is reckoned in 64 bits. -/
def getRange (path : String) (offset len : Nat) : Except IoError Bytes :=
  if len = 0 then .ok []
  else
    let range := (offset, (offset + len - 1) % 2 ^ 64)
    match sendRead (fun w => S.getObject w bucket (s.key path) (some range)) (w 0) with
    | .ok bytes => .ok bytes
    | .error .invalidRange => .ok []
    | .error _ => .error .other

def size (path : String) : Except IoError Nat :=
  match sendRead (fun w => S.headObject w bucket (s.key path)) (w 0) with
  | .ok (some length) => .ok length
  | _ => .error .other

def delete (path : String) : Bucket × Except IoError Unit :=
  done (S.sendWrite (.deleteObject (s.key path)) (w 0) bucket)

def keyFront (dir : String) : String :=
  if trimSlashes dir = "" then s.keyPrefix else s.keyPrefix ++ trimSlashes dir ++ "/"

/-- A key without the store's prefix. -/
def relative (key : String) : Option String :=
  if s.keyPrefix.toList.isPrefixOf key.toList then
    some (String.ofList (key.toList.drop s.keyPrefix.toList.length))
  else none

/-- The request for the `i`-th page, which the `i`-th bucket answers. -/
def fetchPage (bucketAt : Nat → Bucket) (dir : String) (i : Nat) (token : Option τ) :
    Except IoError (List String × Option τ) :=
  (sendRead (fun w => S.listObjects w (bucketAt i) (s.keyFront dir) token) (w i)).mapError
    fun _ => .other

/-- `list`, where it comes to an end within `fuel` pages. -/
def list (bucketAt : Nat → Bucket) (fuel : Nat) (dir : String) :
    Option (Except IoError (List String)) :=
  (listPages (s.fetchPage S w bucketAt dir) fuel 0 none).map (Except.map fun keys =>
    (keys.filterMap s.relative).insertionSort (· ≤ ·))

/-- One call of `trait Store`, with the weathers of its requests; a listing that has
not ended has no reply. -/
def call (fuel : Nat) (bucket : Bucket) : Call → Bucket × Option Reply
  | .put path bytes => (s.put S w bucket path bytes).map id fun r => some (r.map fun _ => .done)
  | .putIfAbsent path bytes =>
      (s.putIfAbsent S w bucket path bytes).map id fun r => some (r.map .created)
  | .get path => (bucket, some ((s.get S w bucket path).map .bytes))
  | .getRange path offset len => (bucket, some ((s.getRange S w bucket path offset len).map .bytes))
  | .size path => (bucket, some ((s.size S w bucket path).map .size))
  | .delete path => (s.delete S w bucket path).map id fun r => some (r.map fun _ => .done)
  | .list dir => (bucket, (s.list S w (fun _ => bucket) fuel dir).map (Except.map .paths))

end S3Store

/-- A call and what its requests meet. -/
abbrev Weathered (ω : Type) := Call × (Nat → List ω)

/-- The answers to a list of calls. -/
def answers (S : Service ω τ) (s : S3Store) (fuel : Nat) (bucket : Bucket) :
    List (Weathered ω) → List (Option Reply)
  | [] => []
  | (c, w) :: rest =>
      (s.call S w fuel bucket c).2 :: answers S s fuel (s.call S w fuel bucket c).1 rest

end Store

section Facts

variable {s : S3Store} {bucket : Bucket}

theorem mem_keysUnder {front key : String} :
    key ∈ keysUnder bucket front ↔ key ∈ bucket ∧ front.toList <+: key.toList := by
  rw [keysUnder, List.mem_filter, List.isPrefixOf_iff_prefix]
  rfl

theorem nodup_keysUnder (bucket : Bucket) (front : String) : (keysUnder bucket front).Nodup :=
  bucket.nodupKeys.filter _

theorem relative_key (rest : String) : s.relative (s.keyPrefix ++ rest) = some rest := by
  rw [S3Store.relative, String.toList_append, if_pos (by simp), List.drop_left,
    String.ofList_toList]

theorem relative_eq_some {key rest : String} :
    s.relative key = some rest ↔ key = s.keyPrefix ++ rest := by
  constructor
  · intro h
    rw [S3Store.relative] at h
    split at h
    · next hpre =>
        obtain ⟨tail, htail⟩ := List.isPrefixOf_iff_prefix.mp hpre
        rw [← htail, List.drop_left] at h
        rw [← String.toList_inj, String.toList_append, ← Option.some.inj h, String.toList_ofList,
          htail]
    · cases h
  · rintro rfl
    exact relative_key rest

end Facts

end TimeLake.S3
