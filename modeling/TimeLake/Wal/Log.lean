import TimeLake.Wal.Codec
import TimeLake.Library.Run
import Mathlib.Data.List.Sort

/-!
`Wal` over a directory of generation files. A run is made of calls that
return, calls that fail half-way, and crashes: a write in progress leaves any
prefix of its bytes, and the process is gone. `sync_data` is the moment a call
may return `Ok`, so what a call that returned `Ok` wrote stays.

`acked` and `unacked` are not data of the program: the first lists the frames
whose `append` returned `Ok` in generations that were not reclaimed, in the
order of the calls, with their generation, the second the frames of the other
`append` calls.
-/

namespace TimeLake.Wal

open TimeLake.Library

/-- Generation files, ascending, as `list_generations` returns them. -/
abbrev Gens := List (Nat × Bytes)

structure Disk where
  legacy : Option Bytes
  gens : Gens

/-- Open with `create`: an existing file is kept. -/
def Gens.create (gens : Gens) (generation : Nat) : Gens :=
  if gens.any fun p => p.1 = generation then gens
  else gens.orderedInsert (fun a b => a.1 ≤ b.1) (generation, [])

/-- A write to a file opened with `append`; an unlinked file takes it along. -/
def Gens.appendTo (gens : Gens) (generation : Nat) (bytes : Bytes) : Gens :=
  gens.map fun p => if p.1 = generation then (p.1, p.2 ++ bytes) else p

/-- The M1 single-file layout: `wal.log` is renamed to generation 0. -/
def Disk.migrate (d : Disk) : Disk :=
  match d.legacy with
  | none => d
  | some bytes =>
      ⟨none, (d.gens.create 0).map fun p => if p.1 = 0 then (0, bytes) else p⟩

variable {Key : Type}

/-- `struct Wal`: the open file, the generation counter, and for an encrypted
file its key and the number of the next frame. -/
structure Handle (Key : Type) where
  file : Nat
  generation : Nat
  enc : Option (Key × Nat)

section Replay

variable (aead : Aead Key) (cipher : Option (WalCipher Key))

def peekMagic (bytes : Bytes) : Option Nat :=
  if bytes.length < 4 then none else some (ofLe (bytes.take 4))

/-- `set_len(good_end)`. -/
def cutOff (bytes left : Bytes) : Bytes := bytes.take (bytes.length - left.length)

def scanPlaintext (bytes : Bytes) : Scan WalError Frame :=
  scan (fun _ => readFrame) (bytes.length + 1) 0 bytes

def scanEncrypted (dek : Key) (bytes : Bytes) : Scan WalError Frame :=
  scan (readFrameEncrypted aead dek) (bytes.length + 1) 0 bytes

/-- Any error ends the file here; a clean end leaves it as it is. -/
def replayPlaintext (bytes : Bytes) : List Frame × Bytes :=
  let s := scanPlaintext bytes
  match s.stop with
  | none => (s.records, bytes)
  | some _ => (s.records, cutOff bytes s.left)

def replayEncrypted (bytes : Bytes) : Io (List Frame × Bytes) :=
  match cipher with
  | none => .error (.invalid .noKeyConfigured)
  | some c =>
      match readEncHeader c bytes with
      | .error e => .error e
      | .ok (dek, rest) =>
          let s := scanEncrypted aead dek rest
          match s.stop with
          | none => .ok (s.records, bytes)
          | some .unexpectedEof => .ok (s.records, cutOff bytes s.left)
          | some e => .error e

def replayFile (bytes : Bytes) : Io (List Frame × Bytes) :=
  match peekMagic bytes with
  | none => .ok ([], bytes)
  | some m =>
      if m = wmagic then replayEncrypted aead cipher bytes
      else if m = magic then .ok (replayPlaintext bytes)
      else .error (.invalid .unrecognisedFileMagic)

/-- Oldest first; the files before a failing one have been cut already. -/
def replayAll : Gens → Gens × Io (List Frame)
  | [] => ([], .ok [])
  | (g, bytes) :: rest =>
      match replayFile aead cipher bytes with
      | .error e => ((g, bytes) :: rest, .error e)
      | .ok (frames, bytes') =>
          let (rest', result) := replayAll rest
          ((g, bytes') :: rest', result.map (frames ++ ·))

def lastGeneration (gens : Gens) : Option Nat := gens.getLast?.map Prod.fst

/-- The file a fresh generation starts as. -/
def Gens.start (gens : Gens) (generation : Nat) (header : Bytes) : Gens :=
  (gens.create generation).appendTo generation header

/-- `Wal::open`. Plaintext continues the last generation, encrypted starts a
fresh one. -/
def openDir (d : Disk) (i : Nat) : Disk × Io (Handle Key × List Frame) :=
  let d := d.migrate
  let (gens, result) := replayAll aead cipher d.gens
  match result with
  | .error e => ({ d with gens := gens }, .error e)
  | .ok frames =>
      match cipher with
      | none =>
          let generation := (lastGeneration gens).getD 0
          ({ d with gens := gens.create generation },
            .ok (⟨generation, generation, none⟩, frames))
      | some c =>
          let generation := ((lastGeneration gens).map (· + 1)).getD 0
          let (wrapped, dek) := c.generate i
          ({ d with gens := gens.start generation (encHeader wrapped) },
            .ok (⟨generation, generation, some (dek, 0)⟩, frames))

end Replay

/-- What `append` writes for a frame. -/
def Handle.frameBytes (aead : Aead Key) (w : Handle Key) (f : Frame) : Bytes :=
  match w.enc with
  | some (dek, seq) => sealedFrame aead dek seq f
  | none => encodeFrame f

/-- `enc.seq += 1`, after the sync. -/
def Handle.advance (w : Handle Key) : Handle Key :=
  { w with enc := w.enc.map fun p => (p.1, p.2 + 1) }

structure State (Key : Type) where
  disk : Disk
  wal : Option (Handle Key)
  acked : List (Nat × Frame)
  unacked : List Frame

def State.initial : State Key := ⟨⟨none, []⟩, none, [], []⟩

/-- Where a failing `rotate` stopped: at the sync of the old file, before the
new file exists, or with that many bytes of the header written. -/
inductive RotateFault where
  | sync
  | create
  | header (written : Nat)
  deriving DecidableEq, Repr

inductive Action where
  | openOk (key : Nat)
  | crashOpen (replayed : Nat)
  | crashOpenHeader (key written : Nat)
  | append (f : Frame)
  | appendFails (f : Frame) (written : Nat)
  | crashAppend (f : Frame) (written : Nat)
  | rotate (key : Nat)
  | rotateFails (key : Nat) (fault : RotateFault)
  | crashRotate (key written : Nat)
  | reclaim (upto count : Nat)
  | crash

section Step

variable (aead : Aead Key) (cipher : Option (WalCipher Key))

def header (i : Nat) : Bytes :=
  match cipher with
  | none => []
  | some c => encHeader (c.generate i).1

def State.onDisk (s : State Key) (generation : Nat) : Bool :=
  s.disk.gens.any fun p => p.1 = generation

/-- `append` up to the byte it got to. -/
def State.appendPartly (s : State Key) (w : Handle Key) (f : Frame) (written : Nat) : State Key :=
  { s with
    disk := { s.disk with
      gens := s.disk.gens.appendTo w.file ((w.frameBytes aead f).take written) }
    unacked := f :: s.unacked }

/-- `rotate` once the new file is there with its first bytes. -/
def State.startFile (s : State Key) (w : Handle Key) (i written : Nat) : State Key :=
  { s with
    disk := { s.disk with
      gens := s.disk.gens.start (w.generation + 1) ((header cipher i).take written) } }

/-- The files `delete_generations_upto` names, oldest first. -/
def reclaimable (gens : Gens) (w : Handle Key) (upto : Nat) : List Nat :=
  (gens.map Prod.fst).filter fun g => g ≤ upto ∧ g ≠ w.generation

def State.remove (s : State Key) (gone : List Nat) : State Key :=
  { s with
    disk := { s.disk with gens := s.disk.gens.filter fun p => p.1 ∉ gone }
    acked := s.acked.filter fun p => p.1 ∉ gone }

def step (s : State Key) : Action → Option (State Key)
  | .openOk i =>
      match s.wal with
      | some _ => none
      | none =>
          let (disk, result) := openDir aead cipher s.disk i
          some { s with disk := disk, wal := result.toOption.map Prod.fst }
  | .crashOpen replayed =>
      match s.wal with
      | some _ => none
      | none =>
          let d := s.disk.migrate
          let cut := (replayAll aead cipher (d.gens.take replayed)).1
          some { s with disk := { d with gens := cut ++ d.gens.drop replayed } }
  | .crashOpenHeader i written =>
      match s.wal, cipher with
      | none, some _ =>
          let d := s.disk.migrate
          let (gens, result) := replayAll aead cipher d.gens
          let generation := ((lastGeneration gens).map (· + 1)).getD 0
          result.toOption.map fun _ =>
            { s with disk := { d with
                gens := gens.start generation ((header cipher i).take written) } }
      | _, _ => none
  | .append f =>
      s.wal.map fun w =>
        { s with
          disk := { s.disk with gens := s.disk.gens.appendTo w.file (w.frameBytes aead f) }
          wal := some w.advance
          acked := if s.onDisk w.file then s.acked ++ [(w.file, f)] else s.acked }
  | .appendFails f written => s.wal.map fun w => s.appendPartly aead w f written
  | .crashAppend f written =>
      s.wal.map fun w => { s.appendPartly aead w f written with wal := none }
  | .rotate i =>
      s.wal.map fun w =>
        { s.startFile cipher w i (header cipher i).length with
          wal := some ⟨w.generation + 1, w.generation + 1,
            cipher.map fun c => ((c.generate i).2, 0)⟩ }
  | .rotateFails i fault =>
      s.wal.bind fun w =>
        let skipped := some { w with generation := w.generation + 1 }
        match fault, cipher with
        | .sync, _ => some s
        | .create, _ => some { s with wal := skipped }
        | .header written, some _ =>
            some { s.startFile cipher w i written with wal := skipped }
        | .header _, none => none
  | .crashRotate i written =>
      s.wal.map fun w => { s.startFile cipher w i written with wal := none }
  | .reclaim upto count =>
      s.wal.map fun w => s.remove ((reclaimable s.disk.gens w upto).take count)
  | .crash => s.wal.map fun _ => { s with wal := none }

end Step

end TimeLake.Wal
