import TimeLake.Library.Chunks
import TimeLake.Store.Local
import TimeLake.Wal.Codec

/-!
`EncryptingStore` of `crates/store`. An object is sealed in chunks behind a header
that carries its own data key; objects without the magic pass through. Parsed
headers are cached by path. AES-256-GCM, the key service and the wrapped store are
parameters.
-/

namespace TimeLake.Encrypt

open TimeLake.Library TimeLake.Store
open TimeLake.Catalog (IoError)

section Crypto

/-- AES-256-GCM, by key, nonce and associated data. -/
structure ChunkAead (Key : Type) where
  encrypt : Key → Bytes → Bytes → Bytes → Bytes
  decrypt : Key → Bytes → Bytes → Bytes → Option Bytes
  decrypt_encrypt : ∀ key nonce aad msg,
    decrypt key nonce aad (encrypt key nonce aad msg) = some msg
  length_encrypt : ∀ key nonce aad msg, (encrypt key nonce aad msg).length = msg.length + 16

def maxWrap : Nat := 4096

/-- `trait Kms` and `OsRng`: the answers by the number of the call. -/
structure Kms (Key : Type) where
  generate : Nat → Key × Bytes
  noncePrefix : Nat → Bytes
  unwrap : Bytes → Option Key
  unwrap_generate : ∀ i, unwrap (generate i).2 = some (generate i).1
  wrapped_pos : ∀ i, 0 < (generate i).2.length
  wrapped_le : ∀ i, (generate i).2.length ≤ maxWrap
  length_noncePrefix : ∀ i, (noncePrefix i).length = 8

end Crypto

section Plain

inductive Call where
  | put (path : String) (bytes : Bytes)
  | putIfAbsent (path : String) (bytes : Bytes)
  | get (path : String)
  | getRange (path : String) (offset len : Nat)
  | size (path : String)
  | delete (path : String)
  | list (dir : String)

inductive Answer where
  | done
  | created (new : Bool)
  | bytes (bytes : Bytes)
  | size (n : Nat)
  | paths (paths : List String)
  deriving DecidableEq

abbrev Reply := Except IoError Answer

/-- `trait Store`: a call that fails may have changed the store. -/
structure Backend (σ : Type) where
  put : σ → String → Bytes → σ × Except IoError Unit
  putIfAbsent : σ → String → Bytes → σ × Except IoError Bool
  get : σ → String → Except IoError Bytes
  getRange : σ → String → Nat → Nat → Except IoError Bytes
  size : σ → String → Except IoError Nat
  delete : σ → String → σ × Except IoError Unit
  list : σ → String → Except IoError (List String)

/-- One call of the trait. -/
def Backend.call {σ : Type} (b : Backend σ) (s : σ) : Call → σ × Reply
  | .put path bytes => ((b.put s path bytes).1, (b.put s path bytes).2.map fun _ => .done)
  | .putIfAbsent path bytes =>
      ((b.putIfAbsent s path bytes).1, (b.putIfAbsent s path bytes).2.map .created)
  | .get path => (s, (b.get s path).map .bytes)
  | .getRange path offset len => (s, (b.getRange s path offset len).map .bytes)
  | .size path => (s, (b.size s path).map .size)
  | .delete path => ((b.delete s path).1, (b.delete s path).2.map fun _ => .done)
  | .list dir => (s, (b.list s dir).map .paths)

end Plain

section Objects

variable {Key : Type}

/-- `"TLDE1\0\0\0"` -/
def objectMagic : Bytes := [0x54, 0x4C, 0x44, 0x45, 0x31, 0, 0, 0]

def chunkSize : Nat := 64 * 1024

def tagLen : Nat := 16

/-- Magic, chunk size, length and nonce prefix. -/
def fixedLen : Nat := 8 + 4 + 8 + 8

def wrapLenLen : Nat := 2

inductive ObjHeader (Key : Type) where
  | plain
  | encrypted (chunkSize plen headerLen : Nat) (aadFixed noncePrefix : Bytes) (dek : Key)
  deriving DecidableEq

/-- `parse_header`; `none` asks for more of the object. -/
def parseHeader (kms : Kms Key) (head : Bytes) : Except IoError (Option (ObjHeader Key)) :=
  if head.length < fixedLen + wrapLenLen ∨ head.take 8 ≠ objectMagic then .ok (some .plain)
  else
    let size := ofLe ((head.drop 8).take 4)
    let plen := ofLe ((head.drop 12).take 8)
    let noncePrefix := (head.drop 20).take 8
    let wrapLen := ofLe ((head.drop fixedLen).take wrapLenLen)
    if size = 0 ∨ wrapLen = 0 ∨ maxWrap < wrapLen then .error .invalidData
    else if head.length < fixedLen + wrapLenLen + wrapLen then .ok none
    else match kms.unwrap ((head.drop (fixedLen + wrapLenLen)).take wrapLen) with
      | none => .error .invalidData
      | some dek =>
          .ok (some (.encrypted size plen (fixedLen + wrapLenLen + wrapLen) (head.take fixedLen)
            noncePrefix dek))

/-- The `as u32` cast keeps the low four bytes of the index. -/
def chunkNonce (noncePrefix : Bytes) (i : Nat) : Bytes := noncePrefix ++ leBytes 4 i

def chunkAad (fixed : Bytes) (path : String) : Bytes := fixed ++ Wal.utf8 path

/-- The chunks of an object from the `i`-th on, sealed. -/
def sealFrom (aead : ChunkAead Key) (dek : Key) (noncePrefix aad : Bytes) :
    Nat → List Bytes → List Bytes
  | _, [] => []
  | i, chunk :: rest =>
      aead.encrypt dek (chunkNonce noncePrefix i) aad chunk ::
        sealFrom aead dek noncePrefix aad (i + 1) rest

/-- The loop over `decrypt_chunk`, from the `i`-th chunk on. -/
def openFrom (aead : ChunkAead Key) (dek : Key) (noncePrefix aad : Bytes) :
    Nat → List Bytes → Except IoError Bytes
  | _, [] => .ok []
  | i, ct :: rest =>
      match aead.decrypt dek (chunkNonce noncePrefix i) aad ct with
      | none => .error .invalidData
      | some chunk => (openFrom aead dek noncePrefix aad (i + 1) rest).map (chunk ++ ·)

/-- The fixed fields of a header, which the chunks are authenticated with. -/
def fixedFields (size plen : Nat) (noncePrefix : Bytes) : Bytes :=
  objectMagic ++ (leBytes 4 size ++ (leBytes 8 plen ++ noncePrefix))

/-- The header `seal` gives back for the cache, from the `i`-th answers of key
service and random source. -/
def sealedHeader (kms : Kms Key) (i : Nat) (bytes : Bytes) : ObjHeader Key :=
  .encrypted chunkSize bytes.length (fixedLen + wrapLenLen + (kms.generate i).2.length)
    (fixedFields chunkSize bytes.length (kms.noncePrefix i)) (kms.noncePrefix i) (kms.generate i).1

/-- The object `seal` makes; the `as u16` cast keeps the low two bytes. -/
def sealedBytes (aead : ChunkAead Key) (kms : Kms Key) (i : Nat) (path : String) (bytes : Bytes) :
    Bytes :=
  let fixed := fixedFields chunkSize bytes.length (kms.noncePrefix i)
  fixed ++ (leBytes 2 (kms.generate i).2.length ++ ((kms.generate i).2 ++
    (sealFrom aead (kms.generate i).1 (kms.noncePrefix i) (chunkAad fixed path) 0
      (chunks chunkSize bytes)).flatten))

/-- `seal` -/
def sealObject (aead : ChunkAead Key) (kms : Kms Key) (i : Nat) (path : String) (bytes : Bytes) :
    Except IoError (Bytes × ObjHeader Key) :=
  if maxWrap < (kms.generate i).2.length then .error .other
  else .ok (sealedBytes aead kms i path bytes, sealedHeader kms i bytes)

end Objects

section Encrypting

variable {σ Key : Type}

/-- `EncryptingStore`, with the number of objects it has sealed. -/
structure Encrypting (σ Key : Type) where
  inner : σ
  headers : AssocMap String (ObjHeader Key)
  sealed : Nat

namespace Encrypting

def cachePut (s : Encrypting σ Key) (path : String) (h : ObjHeader Key) : Encrypting σ Key :=
  { s with headers := (if 4096 < s.headers.keys.length then ∅ else s.headers).insert path h }

variable (aead : ChunkAead Key) (kms : Kms Key) (b : Backend σ) (s : Encrypting σ Key)

/-- The header of a path, from the cache or from one or two reads of the
object's head. -/
def header (path : String) : Except IoError (Encrypting σ Key × ObjHeader Key) :=
  match s.headers.lookup path with
  | some h => .ok (s, h)
  | none => do
      let head ← b.getRange s.inner path 0 (fixedLen + wrapLenLen + 512)
      let parsed ← parseHeader kms head
      match parsed with
      | some h => pure (s.cachePut path h, h)
      | none =>
          let head ← b.getRange s.inner path 0 (fixedLen + wrapLenLen + maxWrap)
          match ← parseHeader kms head with
          | some h => pure (s.cachePut path h, h)
          | none => .error .invalidData

def put (path : String) (bytes : Bytes) : Encrypting σ Key × Reply :=
  match sealObject aead kms s.sealed path bytes with
  | .error e => (s, .error e)
  | .ok (out, h) =>
      let put := b.put s.inner path out
      let s := { s with inner := put.1, sealed := s.sealed + 1 }
      match put.2 with
      | .error e => (s, .error e)
      | .ok () => (s.cachePut path h, .ok .done)

/-- A loser's header is not cached: the object that exists is the winner's. -/
def putIfAbsent (path : String) (bytes : Bytes) : Encrypting σ Key × Reply :=
  match sealObject aead kms s.sealed path bytes with
  | .error e => (s, .error e)
  | .ok (out, h) =>
      let put := b.putIfAbsent s.inner path out
      let s := { s with inner := put.1, sealed := s.sealed + 1 }
      match put.2 with
      | .error e => (s, .error e)
      | .ok true => (s.cachePut path h, .ok (.created true))
      | .ok false => (s, .ok (.created false))

def get (path : String) : Except IoError (Encrypting σ Key × Bytes) := do
  let raw ← b.get s.inner path
  match ← parseHeader kms raw with
  | none => .error .invalidData
  | some .plain => pure (s, raw)
  | some (.encrypted size plen headerLen aadFixed noncePrefix dek) =>
      let out ← openFrom aead dek noncePrefix (chunkAad aadFixed path) 0
        (chunks (size + tagLen) (raw.drop headerLen))
      if out.length ≠ plen then .error .invalidData
      else pure (s.cachePut path (.encrypted size plen headerLen aadFixed noncePrefix dek), out)

/-- The slice at the end fails where its bounds are not within the bytes. -/
def getRange (path : String) (offset len : Nat) :
    Except IoError (Encrypting σ Key × Bytes) := do
  let (s, h) ← s.header kms b path
  match h with
  | .plain => (b.getRange s.inner path offset len).map fun bytes => (s, bytes)
  | .encrypted cs plen headerLen aadFixed noncePrefix dek =>
      let stop := min ((offset + len) % 2 ^ 64) plen
      if stop ≤ offset then pure (s, [])
      else
        let ctChunk := cs + tagLen
        let first := offset / cs
        let last := (stop - 1) / cs
        let nChunks := (plen + cs - 1) / cs
        let ctStart := headerLen + first * ctChunk
        let lastPt := if last = nChunks - 1 then plen - last * cs else cs
        let ctLen := (last - first) * ctChunk + lastPt + tagLen
        let raw ← b.getRange s.inner path ctStart ctLen
        if raw.length ≠ ctLen then .error .invalidData
        else
          let plain ← openFrom aead dek noncePrefix (chunkAad aadFixed path) first
            (chunks ctChunk raw)
          let skip := offset - first * cs
          if plain.length < skip + (stop - offset) then .error .other
          else pure (s, (plain.drop skip).take (stop - offset))

def size (path : String) : Except IoError (Encrypting σ Key × Nat) := do
  let (s, h) ← s.header kms b path
  match h with
  | .encrypted _ plen _ _ _ _ => pure (s, plen)
  | .plain => (b.size s.inner path).map fun n => (s, n)

def delete (path : String) : Encrypting σ Key × Reply :=
  let delete := b.delete s.inner path
  ({ s with headers := s.headers.erase path, inner := delete.1 }, delete.2.map fun _ => .done)

/-- A call that fails leaves the store as it is. -/
def reply {α : Type} (f : α → Answer) :
    Except IoError (Encrypting σ Key × α) → Encrypting σ Key × Reply
  | .error e => (s, .error e)
  | .ok (s', a) => (s', .ok (f a))

/-- One call of `trait Store`. -/
def call (s : Encrypting σ Key) : Call → Encrypting σ Key × Reply
  | .put path bytes => s.put aead kms b path bytes
  | .putIfAbsent path bytes => s.putIfAbsent aead kms b path bytes
  | .get path => s.reply .bytes (s.get aead kms b path)
  | .getRange path offset len => s.reply .bytes (s.getRange aead kms b path offset len)
  | .size path => s.reply .size (s.size kms b path)
  | .delete path => s.delete b path
  | .list dir => (s, (b.list s.inner dir).map .paths)

end Encrypting

/-- The answers to a list of calls. -/
def replies {σ : Type} (call : σ → Call → σ × Reply) (s : σ) : List Call → List Reply
  | [] => []
  | c :: rest => (call s c).2 :: replies call (call s c).1 rest

/-- The state a list of calls leads to. -/
def after {σ : Type} (call : σ → Call → σ × Reply) (s : σ) : List Call → σ
  | [] => s
  | c :: rest => after call (call s c).1 rest

end Encrypting

end TimeLake.Encrypt
