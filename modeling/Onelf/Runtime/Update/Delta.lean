import Onelf.Lib.Checks
import Onelf.Runtime.Package

/-! Delta assembly of a release from the running package and range fetches (`update/delta.rs`). -/

namespace Onelf.Runtime.Update

open Onelf.Lib

/-- The remote release, as far as its footer and manifest tell it. -/
structure RemotePackage where
  footer : Footer
  footerBytes : Bytes
  manifest : Manifest
  manifestBytes : Bytes
  size : Nat

/-- `fetch_range`: what its reader gives for a start and a length, or `none` for an error. -/
abbrev RangeSource := Nat → Nat → Option Bytes

/-- One contiguous run copied from the running binary into the staged file. -/
structure CopyRange where
  dst : Nat
  src : Nat
  len : Nat
  deriving DecidableEq

/-- What the copied bytes of a group must prove before they are written. -/
inductive Check where
  | raw (hash : Digest)
  | decoded (hash : Digest) (original : Nat)
  | block (digest : Nat)
  deriving DecidableEq

/-- A unit of reuse verified as a whole. -/
structure CopyGroup where
  ranges : List CopyRange
  check : Check
  deriving DecidableEq

/-- A contiguous remote span to download. -/
structure Span where
  start : Nat
  len : Nat
  deriving DecidableEq

inductive Prefix where
  | copy (len : Nat)
  | fetch (len : Nat)
  deriving DecidableEq

/-- Everything the writer needs, decided before a byte is written. -/
structure Plan where
  runtime : Prefix
  dict : Option Bytes
  copies : List CopyGroup
  fetch : List Span
  digests : List (Nat × Nat)
  known : Option (Nat × Bytes)

/-! ### Planning -/

def dictMaxBytes : Nat := 64 * 1024 * 1024

/-- The remote dictionary when the release carries one. -/
def fetchDict (src : RangeSource) (footer : Footer) : Option (Option Bytes) :=
  if !footer.flags.hasDict || footer.dictSize = 0 then some none
  else if footer.dictSize > dictMaxBytes then none
  else do
    let reader ← src footer.dictOffset footer.dictSize
    if reader.length < footer.dictSize then none
    else some (some (reader.take footer.dictSize))

/-- Equal hashes pin equal bytes, and equal bytes pin equal lengths. -/
def prefixPlan (running : PackageData) (remote : RemotePackage) : Prefix :=
  if running.manifest.prefixHash = remote.manifest.prefixHash && 3 ≤ running.manifest.version &&
      running.footer.manifestOffset = remote.footer.manifestOffset then
    .copy remote.footer.manifestOffset
  else .fetch remote.footer.manifestOffset

/-- Merge a fetch of `start..start+len` into `spans`, extending the last span when the runs
touch. -/
def extendFetch (spans : List Span) (start len : Nat) : List Span :=
  match spans.getLast? with
  | some last =>
      if last.start + last.len = start then spans.dropLast ++ [⟨last.start, last.len + len⟩]
      else spans ++ [⟨start, len⟩]
  | none => spans ++ [⟨start, len⟩]

def fileBlocks (manifest : Manifest) : List Block :=
  (manifest.entries.filter fun entry => entry.kind = .file).flatMap Entry.blocks

/-- The content hashes of the running package's blocks and where each lies. -/
structure LocalIndex where
  seen : List Nat
  index : SortedMap Digest (Nat × Nat)

def indexBlock (footer : Footer) (state : LocalIndex) (block : Block) : Option LocalIndex :=
  if block.payloadOffset ∈ state.seen then some state
  else (blockExtent footer block).map fun extent =>
    ⟨block.payloadOffset :: state.seen, state.index.insert block.contentHash extent⟩

def localIndex (running : PackageData) : Option (SortedMap Digest (Nat × Nat)) :=
  ((fileBlocks running.manifest).foldlM (indexBlock running.footer) ⟨[], SortedMap.empty⟩).map
    LocalIndex.index

structure Planning where
  seen : List Nat
  copies : List CopyGroup
  fetch : List Span

def blockCheck (footer : Footer) (block : Block) : Option Check :=
  if footer.flags.stored then some (.raw block.contentHash)
  else (blockOriginalSize block).map fun original => .decoded block.contentHash original

/-- One block of the release: copied when the running package has its content under the same
coding and length, fetched otherwise. -/
def planBlock (comparable : Bool) (index : SortedMap Digest (Nat × Nat)) (footer : Footer)
    (state : Planning) (block : Block) : Option Planning :=
  if block.payloadOffset ∈ state.seen then some state
  else do
    let (dst, len) ← blockExtent footer block
    let seen := block.payloadOffset :: state.seen
    match (index.get? block.contentHash).filter fun source => comparable && source.2 = len with
    | some (src, _) =>
        let check ← blockCheck footer block
        some ⟨seen, state.copies ++ [⟨[⟨dst, src, len⟩], check⟩], state.fetch⟩
    | none => some ⟨seen, state.copies, extendFetch state.fetch dst len⟩

def planBlocks (running : PackageData) (remote : RemotePackage) (src : RangeSource) :
    Option Plan := do
  let remoteDict ← fetchDict src remote.footer
  let comparable := running.codec.dict = remoteDict &&
    running.footer.flags.stored = remote.footer.flags.stored
  let index ← localIndex running
  let planned ← (fileBlocks remote.manifest).foldlM (planBlock comparable index remote.footer)
    ⟨[], [], []⟩
  some ⟨prefixPlan running remote, remoteDict, planned.copies, planned.fetch, [], none⟩

/-! ### Merging fetches -/

/-- Largest run of reusable bytes worth downloading to save a request. -/
def fetchGapMax : Nat := 128 * 1024

/-- The loop of `coalesce`: a span near the last one is merged into it. -/
def mergeSpan (merged : List Span) (span : Span) : List Span :=
  match merged.getLast? with
  | some last =>
      if span.start ≤ saturatingAdd (last.start + last.len) fetchGapMax then
        merged.dropLast ++
          [⟨last.start, max (last.start + last.len) (span.start + span.len) - last.start⟩]
      else merged ++ [span]
  | none => merged ++ [span]

/-- `partition_point` of a list its predicate splits. -/
def partitionPoint {α : Type} (p : α → Bool) (values : List α) : Nat := (values.takeWhile p).length

/-- Whether a span of `fetch` downloads the whole of `range`. -/
def isFetched (fetch : List Span) (range : CopyRange) : Bool :=
  match partitionPoint (fun span => span.start ≤ range.dst) fetch with
  | 0 => false
  | i + 1 => (fetch[i]?).any fun span => range.dst + range.len ≤ span.start + span.len

/-- Merge fetch spans separated by at most `fetchGapMax` bytes, and drop the copy groups a merged
span now downloads anyway. -/
def coalesce (plan : Plan) : Plan :=
  let fetch := (sortByKey Span.start plan.fetch).foldl mergeSpan []
  { plan with
    fetch := fetch
    copies := plan.copies.filter fun group => !group.ranges.all (isFetched fetch) }

/-! ### Writing -/

/-- Copy a run and hash what was copied. -/
def copyRun (crates : Crates) (running staged : Bytes) (src dst len : Nat) :
    Option (Digest × Bytes) :=
  (transfer (1024 * 1024) len (running.drop src) staged dst len).map fun staged =>
    (crates.blake3 (slice running src len), staged)

/-- Fetch a span into its place; the bytes fetched are counted. -/
def fetchSpan (src : RangeSource) (staged : Bytes) (start len : Nat) : Option (Bytes × Nat) :=
  if len = 0 then some (staged, 0)
  else do
    let reader ← src start len
    let staged ← transfer (64 * 1024) len reader staged start len
    some (staged, len)

def groupBytes (running : Bytes) (ranges : List CopyRange) : Option Bytes :=
  ranges.foldlM (fun bytes range =>
    (readExactAt running range.src range.len).map fun more => bytes ++ more) []

/-- Whether the bytes of a group are what the release says. -/
def checked (crates : Crates) (dict : Option Bytes) (bytes : Bytes) : Check → Bool
  | .raw hash => crates.blake3 bytes = hash
  | .decoded hash original =>
      (decodeBlock crates bytes original dict).any fun decoded => crates.blake3 decoded = hash
  | .block digest =>
      8 ≤ bytes.length && bytes.drop (bytes.length - 8) = leBytes 8 digest &&
        crates.xxh3 (bytes.take (bytes.length - 8)) = digest

/-- The ranges of a verified group, each written where it belongs. -/
def writeRanges (staged bytes : Bytes) : List CopyRange → Bytes
  | [] => staged
  | range :: ranges =>
      writeRanges (writeAt staged (bytes.take range.len) range.dst) (bytes.drop range.len) ranges

def fetchRanges (src : RangeSource) (staged : Bytes) (ranges : List CopyRange) :
    Option (Bytes × Nat) :=
  ranges.foldlM (fun state range =>
    (fetchSpan src state.1 range.dst range.len).map fun more => (more.1, state.2 + more.2))
    (staged, 0)

/-- The staged file with how many groups were reused and how many bytes were fetched. -/
structure Staged where
  bytes : Bytes
  reused : Nat
  fetched : Nat

/-- Copy one group; one that fails its check is fetched instead. -/
def writeGroup (crates : Crates) (running : Bytes) (dict : Option Bytes) (src : RangeSource)
    (staged : Staged) (group : CopyGroup) : Option Staged :=
  if (group.ranges.map CopyRange.len).sum = 0 then some { staged with reused := staged.reused + 1 }
  else do
    let bytes ← groupBytes running group.ranges
    if checked crates dict bytes group.check then
      some ⟨writeRanges staged.bytes bytes group.ranges, staged.reused + 1, staged.fetched⟩
    else
      let (written, more) ← fetchRanges src staged.bytes group.ranges
      some ⟨written, staged.reused, staged.fetched + more⟩

/-- The prefix, copied under its hash or fetched. -/
def writePrefix (crates : Crates) (running : Bytes) (remote : RemotePackage) (src : RangeSource)
    (staged : Bytes) : Prefix → Option (Bytes × Nat)
  | .copy len => do
      let (hash, copied) ← copyRun crates running staged 0 0 len
      if hash ≠ remote.manifest.prefixHash then fetchSpan src copied 0 len
      else some (copied, 0)
  | .fetch len => fetchSpan src staged 0 len

def writeSpan (src : RangeSource) (staged : Staged) (span : Span) : Option Staged :=
  (fetchSpan src staged.bytes span.start span.len).map fun more =>
    ⟨more.1, staged.reused, staged.fetched + more.2⟩

/-- A stored block's digest, computed from the staged file. -/
def writeDigest (crates : Crates) (staged : Bytes) (run : Nat × Nat) : Option Bytes :=
  (readExactAt staged run.1 run.2).map fun bytes =>
    writeAt staged (leBytes 8 (crates.xxh3 bytes)) (run.1 + run.2)

/-- The staged file once every part of the plan is written. -/
def writePlan (crates : Crates) (staged running : Bytes) (remote : RemotePackage) (plan : Plan)
    (dict : Option Bytes) (src : RangeSource) : Option Staged := do
  let sized := setLen staged remote.size
  let (withPrefix, fetched) ← writePrefix crates running remote src sized plan.runtime
  let withManifest := writeAt withPrefix remote.manifestBytes remote.footer.manifestOffset
  let withDict := plan.dict.elim withManifest fun dict =>
    writeAt withManifest dict remote.footer.dictOffset
  let withKnown := plan.known.elim withDict fun known => writeAt withDict known.2 known.1
  let copied ← plan.copies.foldlM (writeGroup crates running dict src) ⟨withKnown, 0, fetched⟩
  let complete ← plan.fetch.foldlM (writeSpan src) copied
  let digested ← plan.digests.foldlM (writeDigest crates) complete.bytes
  some { complete with bytes := writeAt digested remote.footerBytes (remote.size - footerSize) }

end Onelf.Runtime.Update
