import Mathlib.Data.List.AList
import Onelf.Runtime.Fuse.Prefetch

/-! The mount's read path: entries, blocks and replies (`FuseState` of `fuse/fs.rs`). -/

namespace Onelf.Runtime.Fuse

open Onelf.Lib

/-- What an entry served beside the package's own gives a read. -/
structure SyntheticLink where
  /-- The link's target, or the file's content. -/
  target : Bytes
  file : Bool

structure FuseState where
  cache : BlockCache
  prefetch : Option Prefetch
  /-- Verdicts on the entries of manifests without block hashes, by inode. -/
  verified : AList fun _ : Nat => Bool
  synthetic : List SyntheticLink

structure FuseReadIn where
  fh : Nat
  offset : UInt64
  size : UInt32

inductive Errno where
  | einval
  | enoent
  | eio
  deriving DecidableEq

/-- What `handle_read` writes: an error, or the length its header states and the slices behind it.
A slice out of range aborts the process. -/
inductive Reply where
  | error (errno : Errno)
  | data (len : Nat) (slices : List Bytes)
  | aborted
  deriving DecidableEq

def outHeaderSize : Nat := 16

/-- A data reply; the header's `len` is a `u32`. -/
def replyData (slices : List Bytes) : Reply :=
  .data ((outHeaderSize + slices.flatten.length) % 2 ^ 32) slices

/-- `Synthetic::get`: these inodes follow the manifest's, in the order they were added. -/
def syntheticGet (manifest : Manifest) (links : List SyntheticLink) (inode : Nat) :
    Option SyntheticLink :=
  if inode < manifest.entries.length + 1 then none
  else links[inode - (manifest.entries.length + 1)]?

/-! ### The blocks of an entry -/

/-- A block with its index in the entry and the offset its content is taken to start at. -/
structure Span where
  index : Nat
  start : Nat
  block : Block

/-- The block offset map, from the first index and offset on. -/
def spansFrom : Nat → Nat → List Block → List Span
  | _, _, [] => []
  | index, total, block :: blocks =>
      ⟨index, total, block⟩ ::
        spansFrom (index + 1) (saturatingAdd total block.originalSize) blocks

def totalSize (blocks : List Block) : Nat :=
  blocks.foldl (fun total block => saturatingAdd total block.originalSize) 0

def Span.overlaps (span : Span) (offset stop : Nat) : Bool :=
  offset < saturatingAdd span.start span.block.originalSize && stop > span.start

def neededBlocks (blocks : List Block) (offset stop : Nat) : List Span :=
  (spansFrom 0 0 blocks).filter fun span => span.overlaps offset stop

/-- `&data[start..stop]`, which panics out of range. -/
def sliceRange (data : Bytes) (start stop : Nat) : Option Bytes :=
  if start ≤ stop ∧ stop ≤ data.length then some ((data.take stop).drop start) else none

/-- The fast path's payload of the one needed block. -/
def singlePayload (span : Span) (data : Bytes) (offset readLen : Nat) : Option Bytes :=
  let dataStart := min (wrappingSub offset span.start) data.length
  sliceRange data dataStart (min (saturatingAdd dataStart readLen) data.length)

/-- The gather path's payload of one of the needed blocks. -/
def gatherPayload (span : Span) (data : Bytes) (offset stop : Nat) : Option Bytes :=
  sliceRange data (min (wrappingSub (max offset span.start) span.start) data.length)
    (min (wrappingSub (min stop (wrappingAdd span.start data.length)) span.start) data.length)

/-! ### Serving a read -/

section
variable (crates : Crates) (pkg : PackageData)

/-- Whether the whole content of an entry matches its hash. -/
def contentMatches (entry : Entry) : Bool :=
  match readPayloadBlocks crates pkg entry.blocks with
  | some data => crates.blake3 data = entry.contentHash
  | none => false

/-- Confirm the entry may be served, for manifests that predate per-block hashes. -/
def verifyEntry (state : FuseState) (inode : Nat) (entry : Entry) : FuseState × Bool :=
  if entry.blocks.all Block.hasContentHash then (state, true)
  else
    match state.verified.lookup inode with
    | some ok => (state, ok)
    | none =>
        ({ state with verified := state.verified.insert inode (contentMatches crates pkg entry) },
          contentMatches crates pkg entry)

def takePrefetched (state : FuseState) (key : BlockKey) : FuseState × Option Bytes :=
  match state.prefetch with
  | some prefetch =>
      ({ state with prefetch := some (prefetch.take key).1 }, (prefetch.take key).2)
  | none => (state, none)

/-- A needed block that is not cached: a worker's copy, or else a read of the package. -/
def fetchBlock (state : FuseState) (inode : Nat) (span : Span) : FuseState × Option Bytes :=
  ((takePrefetched state (inode, span.index)).1,
    (takePrefetched state (inode, span.index)).2.or (readPayloadEntry crates pkg span.block))

/-- The workers named take a step each. -/
def advance (workers : List Nat) (state : FuseState) : FuseState :=
  { state with prefetch := state.prefetch.map fun prefetch =>
      workers.foldl (Prefetch.work crates pkg) prefetch }

/-- The loop that brings the needed blocks into the cache; `false` where one could not be had. The
workers run beside it: `turns` has their steps before each block. -/
def loadBlocks (now : Nat) (turns : Nat → List Nat) (inode : Nat) (pinned : List Nat) :
    List Span → FuseState → FuseState × Bool
  | [], state => (state, true)
  | span :: spans, state =>
      match state.cache.getBlock inode span.index with
      | some _ => loadBlocks now turns inode pinned spans state
      | none =>
          match fetchBlock crates pkg (advance crates pkg (turns span.index) state) inode span with
          | (state, some data) =>
              loadBlocks now turns inode pinned spans
                { state with cache := state.cache.insertBlock now inode span.index data pinned }
          | (state, none) => (state, false)

/-- The gather path's slices, or the reply that ends it. -/
def gatherBlocks (cache : BlockCache) (inode offset stop : Nat) :
    List Span → Except Reply (List Bytes)
  | [] => .ok []
  | span :: spans =>
      match cache.getBlock inode span.index with
      | none => .error (.error .eio)
      | some data =>
          match gatherPayload span data offset stop with
          | none => .error .aborted
          | some payload =>
              match gatherBlocks cache inode offset stop spans with
              | .ok payloads => .ok (payload :: payloads)
              | .error reply => .error reply

/-- The reply out of the cached blocks. -/
def replyBlocks (cache : BlockCache) (inode offset stop : Nat) (needed : List Span) : Reply :=
  match needed with
  | [span] =>
      match cache.getBlock inode span.index with
      | none => .error .eio
      | some data =>
          match singlePayload span data offset (wrappingSub stop offset) with
          | none => .aborted
          | some payload => replyData [payload]
  | needed =>
      match gatherBlocks cache inode offset stop needed with
      | .ok payloads => replyData payloads
      | .error reply => reply

/-- The needed blocks loaded, then the reply. -/
def readNeeded (now : Nat) (turns : Nat → List Nat) (state : FuseState) (inode offset stop : Nat)
    (needed : List Span) : FuseState × Reply :=
  match loadBlocks crates pkg now turns inode (needed.map Span.index) needed state with
  | (state, true) => (state, replyBlocks state.cache inode offset stop needed)
  | (state, false) => (state, .error .eio)

def readStop (blocks : List Block) (offset size : Nat) : Nat :=
  min (wrappingAdd offset size) (totalSize blocks)

/-- The part of `handle_read` behind the checks. -/
def readBlocks (now : Nat) (turns : Nat → List Nat) (state : FuseState) (inode : Nat)
    (entry : Entry) (offset size : Nat) : FuseState × Reply :=
  if offset ≥ totalSize entry.blocks then (state, replyData [])
  else
    readNeeded crates pkg now turns state inode offset (readStop entry.blocks offset size)
      (neededBlocks entry.blocks offset (readStop entry.blocks offset size))

def readEntry (now : Nat) (turns : Nat → List Nat) (state : FuseState) (inode : Nat)
    (entry : Entry) (offset size : Nat) : FuseState × Reply :=
  if entry.blocks.isEmpty then (state, .error .eio)
  else
    match verifyEntry crates pkg state inode entry with
    | (state, true) => readBlocks crates pkg now turns state inode entry offset size
    | (state, false) => (state, .error .eio)

def readSynthetic (link : SyntheticLink) (offset size : Nat) : Reply :=
  let start := min offset link.target.length
  replyData [slice link.target start (min (saturatingAdd start size) link.target.length - start)]

/-- `handle_read`; `none` is a body too short for the request's fields. -/
def handleRead (now : Nat) (turns : Nat → List Nat) (state : FuseState) :
    Option FuseReadIn → FuseState × Reply
  | none => (state, .error .einval)
  | some readIn =>
      match (syntheticGet pkg.manifest state.synthetic readIn.fh).filter SyntheticLink.file with
      | some link => (state, readSynthetic link readIn.offset.toNat readIn.size.toNat)
      | none =>
          if readIn.fh = 0 then (state, .error .enoent)
          else
            match pkg.manifest.entries[inodeToEntry readIn.fh]? with
            | none => (state, .error .enoent)
            | some entry =>
                readEntry crates pkg now turns state readIn.fh entry readIn.offset.toNat
                  readIn.size.toNat

end

/-- Drop the cached blocks once reads have stopped for a while, and with them whatever the prefetch
still holds. -/
def clearIfIdle (now : Nat) (state : FuseState) : FuseState :=
  match state.cache.maybeClear now with
  | (cache, true) => { state with cache, prefetch := none }
  | (cache, false) => { state with cache }

/-! ### Histories -/

/-- What may happen to the server: a read, an idle check, steps of the workers, a link added beside
the package's entries. -/
inductive Event where
  | read (now : Nat) (turns : Nat → List Nat) (readIn : Option FuseReadIn)
  | idle (now : Nat)
  | work (workers : List Nat)
  | link (added : SyntheticLink)

/-- The server before its first request, with the workers it could start. -/
def FuseState.new (manifest : Manifest) (budget : Nat) (named : List (Nat × Nat))
    (window threads : Nat) : FuseState :=
  ⟨BlockCache.new budget, Prefetch.start (profiledBlocks manifest named) window threads, ∅, []⟩

def step (crates : Crates) (pkg : PackageData) (state : FuseState) : Event → FuseState
  | .read now turns readIn => (handleRead crates pkg now turns state readIn).1
  | .idle now => clearIfIdle now state
  | .work workers => advance crates pkg workers state
  | .link added => { state with synthetic := state.synthetic ++ [added] }

def serve (crates : Crates) (pkg : PackageData) (state : FuseState) (events : List Event) :
    FuseState :=
  events.foldl (step crates pkg) state

end Onelf.Runtime.Fuse
