import Onelf.Lib.SortedMap
import Onelf.Lib.Utf8
import Onelf.Runtime.Package

/-! The links a launch hands to the server of its mount, through a pipe (`links.rs`). -/

namespace Onelf.Runtime.LinkPipe

open Onelf.Lib

/-- No `Vec` holds more than `isize::MAX` bytes. -/
def vecLimit : Nat := 2 ^ 63 - 1

abbrev Pairs := List (Text × Bytes)

/-- The links for one directory, the files shown in place of bundled ones and the generated
environment input. -/
structure Message where
  dir : Text
  links : Pairs
  shadows : Pairs
  env : Bytes
  deriving DecidableEq

/-- A name and a target as the message can carry them. -/
def Plain (pair : Text × Bytes) : Prop := pair.1.bytes ≠ [] ∧ 0 ∉ pair.1.bytes ∧ 0 ∉ pair.2

/-- What a launch sends. -/
structure Handoff where
  dir : Text
  links : SortedMap Text Bytes
  shadows : SortedMap Text Bytes
  env : Bytes
  dirPlain : 0 ∉ dir.bytes
  linksPlain : ∀ pair ∈ links.entries, Plain pair
  shadowsPlain : ∀ pair ∈ shadows.entries, Plain pair

/-! ### Sending -/

def encodePairs (pairs : Pairs) : Bytes :=
  pairs.flatMap fun pair => pair.1.bytes ++ 0 :: (pair.2 ++ [0])

namespace Handoff

def body (handoff : Handoff) : Bytes :=
  leBytes 8 handoff.env.length ++ handoff.env ++ handoff.dir.bytes ++
    0 :: (encodePairs handoff.links.entries ++ 0 :: encodePairs handoff.shadows.entries)

def framed (handoff : Handoff) : Bytes := leBytes 8 handoff.body.length ++ handoff.body

/-- What is written to the pipe; a message no `Vec` can hold is a panic before that. -/
def message (handoff : Handoff) : Option Bytes :=
  if handoff.framed.length ≤ vecLimit then some handoff.framed else none

def received (handoff : Handoff) : Message :=
  ⟨handoff.dir, handoff.links.entries, handoff.shadows.entries, handoff.env⟩

end Handoff

/-- What one `write` makes of the bytes it is given. -/
inductive Wrote where
  | count (taken : Nat)
  | interrupted
  | failed

/-- The bytes the loop of `send` gets into the pipe; a sender that is gone writes no more. -/
def stream (rest : Bytes) : List Wrote → Bytes
  | [] => []
  | .count taken :: later =>
      if rest = [] then [] else rest.take taken ++ stream (rest.drop taken) later
  | .interrupted :: later => stream rest later
  | .failed :: _ => []

theorem stream_isPrefix (rest : Bytes) (outcomes : List Wrote) :
    stream rest outcomes <+: rest := by
  induction outcomes generalizing rest with
  | nil => exact List.nil_prefix
  | cons outcome later ih =>
      cases outcome with
      | count taken =>
          rw [stream]
          split
          · exact List.nil_prefix
          · have more := (List.prefix_append_right_inj (rest.take taken)).mpr (ih (rest.drop taken))
            rwa [List.take_append_drop] at more
      | interrupted => exact ih rest
      | failed => exact List.nil_prefix

/-! ### Receiving -/

/-- The pairs up to an empty name, and the fields after it; a name has its target behind it. -/
def takePairs : List Bytes → Option (Pairs × List Bytes)
  | [] => some ([], [])
  | [name] => if name = [] then some ([], []) else none
  | name :: target :: fields =>
      if name = [] then some ([], target :: fields)
      else do
        let name ← fromUtf8 name
        let (pairs, left) ← takePairs fields
        some ((name, target) :: pairs, left)

theorem takePairs_ended (fields : List Bytes) : takePairs ([] :: fields) = some ([], fields) := by
  cases fields with
  | nil => rfl
  | cons target fields => rfl

def decode (body : Bytes) : Option Message :=
  if body.length < 8 then none
  else do
    let stop ← checkedAdd 8 (ofLeBytes (body.take 8))
    if stop ≤ body.length then
      match (body.drop stop).splitOn 0 with
      | [] => none
      | dir :: fields =>
          let dir ← fromUtf8 dir
          let (links, fields) ← takePairs fields
          let (shadows, _) ← takePairs fields
          some ⟨dir, links, shadows, (body.take stop).drop 8⟩
    else none

/-- What one `read` of the pipe gives; no bytes at all mean that it is closed. -/
inductive Read where
  | bytes (chunk : Bytes)
  | again
  | failed

inductive Received where
  | pending
  | done (message : Option Message)
  deriving DecidableEq

/-- What the bytes taken so far amount to. -/
def answer (buf : Bytes) : Received :=
  if buf.length < 8 then .pending
  else if saturatingAdd 8 (ofLeBytes (buf.take 8)) ≤ buf.length then
    .done (decode ((buf.take (saturatingAdd 8 (ofLeBytes (buf.take 8)))).drop 8))
  else .pending

/-- `Receiver::read`, with the bytes it has taken so far. -/
def read (buf : Bytes) : Read → Bytes × Received
  | .bytes chunk =>
      if chunk = [] then (buf, .done none) else (buf ++ chunk, answer (buf ++ chunk))
  | .again => (buf, .pending)
  | .failed => (buf, .done none)

/-- What one call after another returns. -/
def receive (buf : Bytes) : List Read → List Received
  | [] => []
  | outcome :: later => (read buf outcome).2 :: receive (read buf outcome).1 later

def chunkSize : Nat := 64 * 1024

/-- A read of some bytes, as many as the buffer takes, or one that has to be made again. -/
def Piece : Read → Prop
  | .bytes chunk => 1 ≤ chunk.length ∧ chunk.length ≤ chunkSize
  | .again => True
  | .failed => False

def Read.content : Read → Bytes
  | .bytes chunk => chunk
  | _ => []

def delivered (outcomes : List Read) : Bytes := outcomes.flatMap Read.content

/-! ### What is sent is what is received -/

theorem fromUtf8_bytes (text : Text) : fromUtf8 text.bytes = some text :=
  fromUtf8_eq_some.mpr rfl

/-- The pairs and the empty field after them are read back whatever follows. -/
theorem takePairs_encodePairs {pairs : Pairs} (plain : ∀ pair ∈ pairs, Plain pair)
    {rest : Bytes} {fields : List Bytes} (ended : rest.splitOn 0 = [] :: fields) :
    takePairs ((encodePairs pairs ++ rest).splitOn 0) = some (pairs, fields) := by
  induction pairs with
  | nil =>
      have first : encodePairs [] ++ rest = rest := rfl
      rw [first, ended, takePairs_ended]
  | cons pair pairs ih =>
      rcases List.forall_mem_cons.mp plain with ⟨⟨named, nameEnds, targetEnds⟩, others⟩
      have fieldwise : encodePairs (pair :: pairs) ++ rest =
          pair.1.bytes ++ 0 :: (pair.2 ++ 0 :: (encodePairs pairs ++ rest)) := by
        rw [encodePairs, List.flatMap_cons, encodePairs]
        simp only [List.append_assoc, List.cons_append, List.nil_append]
      rw [fieldwise, List.splitOn_append_cons_self_of_not_mem nameEnds,
        List.splitOn_append_cons_self_of_not_mem targetEnds, takePairs, if_neg named]
      simp only [fromUtf8_bytes, ih others, Option.bind_eq_bind, Option.bind_some]

namespace Handoff

variable (handoff : Handoff)

theorem length_body : handoff.body.length = 8 + (handoff.env.length +
    (handoff.dir.bytes ++ 0 :: (encodePairs handoff.links.entries ++
      0 :: encodePairs handoff.shadows.entries)).length) := by
  rw [body]
  simp only [List.length_append, length_leBytes, Nat.add_assoc]

/-- A body that fits is read back as the message it was made of. -/
theorem decode_body (fits : handoff.body.length < u64Limit) :
    decode handoff.body = some handoff.received := by
  have long := handoff.length_body
  have envFits : handoff.env.length < 256 ^ 8 := by
    rw [long] at fits
    have limit : u64Limit = 256 ^ 8 := by decide
    omega
  have counted : handoff.body.take 8 = leBytes 8 handoff.env.length := by
    rw [body, List.append_assoc, List.append_assoc]
    exact List.take_left' (length_leBytes 8 _)
  have stop : checkedAdd 8 handoff.env.length = some (8 + handoff.env.length) :=
    checkedAdd_eq_some.mpr ⟨rfl, by omega⟩
  have lead : (leBytes 8 handoff.env.length ++ handoff.env).length = 8 + handoff.env.length := by
    rw [List.length_append, length_leBytes]
  have env : (handoff.body.take (8 + handoff.env.length)).drop 8 = handoff.env := by
    rw [body, List.append_assoc (leBytes 8 handoff.env.length ++ handoff.env), List.take_left' lead]
    exact List.drop_left' (length_leBytes 8 _)
  have fields : handoff.body.drop (8 + handoff.env.length) = handoff.dir.bytes ++
      0 :: (encodePairs handoff.links.entries ++ 0 :: encodePairs handoff.shadows.entries) := by
    rw [body, List.append_assoc (leBytes 8 handoff.env.length ++ handoff.env)]
    exact List.drop_left' lead
  have ended : (0 :: encodePairs handoff.shadows.entries).splitOn 0 =
      [] :: (encodePairs handoff.shadows.entries).splitOn 0 :=
    List.splitOn_append_cons_self_of_not_mem (List.not_mem_nil) _
  have shadows := takePairs_encodePairs handoff.shadowsPlain (List.splitOn_nil 0)
  rw [List.append_nil] at shadows
  rw [decode, if_neg (by omega), counted, ofLeBytes_leBytes 8 _ envFits, stop]
  simp only [Option.bind_eq_bind, Option.bind_some]
  rw [if_pos (by omega), fields, List.splitOn_append_cons_self_of_not_mem handoff.dirPlain]
  simp only [fromUtf8_bytes, takePairs_encodePairs handoff.linksPlain ended, shadows, env,
    Option.bind_some]
  rfl

end Handoff

/-! ### A message in pieces -/

theorem delivered_cons (outcome : Read) (later : List Read) :
    delivered (outcome :: later) = outcome.content ++ delivered later := List.flatMap_cons

theorem delivered_append (outcomes later : List Read) :
    delivered (outcomes ++ later) = delivered outcomes ++ delivered later := List.flatMap_append

section Framed

variable {body : Bytes} (fits : 8 + body.length < u64Limit)

include fits in
/-- The length field says where the body ends as soon as it is there. -/
theorem bodyEnd_eq {buf : Bytes} (begins : buf <+: leBytes 8 body.length ++ body)
    (counted : 8 ≤ buf.length) :
    saturatingAdd 8 (ofLeBytes (buf.take 8)) = 8 + body.length := by
  have lead : buf.take 8 = leBytes 8 body.length := by
    rcases begins with ⟨rest, whole⟩
    calc
      buf.take 8 = (buf ++ rest).take 8 := (List.take_append_of_le_length counted).symm
      _ = (leBytes 8 body.length ++ body).take 8 := by rw [whole]
      _ = leBytes 8 body.length := List.take_left' (length_leBytes 8 _)
  have small : body.length < 256 ^ 8 := by
    have limit : u64Limit = 256 ^ 8 := by decide
    omega
  rw [lead, ofLeBytes_leBytes 8 _ small, saturatingAdd]
  omega

include fits in
/-- Short of the last byte there is nothing to answer. -/
theorem answer_eq_pending {buf : Bytes} (begins : buf <+: leBytes 8 body.length ++ body)
    (short : buf ≠ leBytes 8 body.length ++ body) : answer buf = .pending := by
  have less : buf.length < 8 + body.length := by
    have whole : (leBytes 8 body.length ++ body).length = 8 + body.length := by
      rw [List.length_append, length_leBytes]
    rw [← whole]
    apply lt_of_le_of_ne begins.length_le
    exact fun same => short (begins.eq_of_length same)
  rw [answer]
  by_cases counted : buf.length < 8
  · rw [if_pos counted]
  · rw [if_neg counted, bodyEnd_eq fits begins (Nat.le_of_not_lt counted),
      if_neg (Nat.not_le.mpr less)]

include fits in
theorem answer_framed : answer (leBytes 8 body.length ++ body) = .done (decode body) := by
  have whole : (leBytes 8 body.length ++ body).length = 8 + body.length := by
    rw [List.length_append, length_leBytes]
  rw [answer, if_neg (by omega), bodyEnd_eq fits List.prefix_rfl (by omega), if_pos (by omega),
    ← whole, List.take_length, List.drop_left' (length_leBytes 8 _)]

include fits in
/-- Every piece short of the last byte is answered with more being on its way. -/
theorem receive_pending {outcomes : List Read} (pieces : ∀ outcome ∈ outcomes, Piece outcome)
    {buf : Bytes} (begins : buf ++ delivered outcomes <+: leBytes 8 body.length ++ body)
    (short : buf ++ delivered outcomes ≠ leBytes 8 body.length ++ body) (later : List Read) :
    receive buf (outcomes ++ later) =
      outcomes.map (fun _ => .pending) ++ receive (buf ++ delivered outcomes) later := by
  induction outcomes generalizing buf with
  | nil => simp [delivered]
  | cons outcome outcomes ih =>
      rcases List.forall_mem_cons.mp pieces with ⟨piece, others⟩
      rw [delivered_cons, ← List.append_assoc] at begins short ⊢
      have rest := ih others begins short
      rw [List.cons_append, receive, List.map_cons, List.cons_append]
      cases outcome with
      | bytes chunk =>
          have some : chunk ≠ [] := List.ne_nil_of_length_pos piece.1
          have here : buf ++ chunk <+: leBytes 8 body.length ++ body :=
            (List.prefix_append _ _).trans begins
          have unfinished : buf ++ chunk ≠ leBytes 8 body.length ++ body := by
            intro done
            have longest := begins.length_le
            rw [← done, Read.content, List.length_append, List.length_append] at longest
            have none : delivered outcomes = [] := List.length_eq_zero_iff.mp (by omega)
            apply short
            rw [none, List.append_nil]
            exact done
          rw [read, if_neg some, answer_eq_pending fits here unfinished]
          exact congrArg _ rest
      | again =>
          have same : buf ++ Read.again.content = buf := List.append_nil buf
          rw [same] at rest ⊢
          exact congrArg _ rest
      | failed => exact absurd piece id

end Framed

/-- However the pipe splits the message, the receiver answers with it at its last byte and not
before; a stream that ends short of it yields nothing. -/
theorem receive_handoff (handoff : Handoff) {sent : Bytes} (held : handoff.message = some sent) :
    (∀ before last, (∀ outcome ∈ before ++ [.bytes last], Piece outcome) →
      delivered (before ++ [.bytes last]) = sent →
        receive [] (before ++ [.bytes last]) =
          before.map (fun _ => .pending) ++ [.done (some handoff.received)]) ∧
    ∀ outcomes, (∀ outcome ∈ outcomes, Piece outcome) → delivered outcomes <+: sent →
      delivered outcomes ≠ sent →
        receive [] (outcomes ++ [.bytes []]) =
          outcomes.map (fun _ => .pending) ++ [.done none] := by
  rcases Option.ite_none_right_eq_some.mp held with ⟨limit, framed⟩
  rw [Option.some.injEq] at framed
  have fits : 8 + handoff.body.length < u64Limit := by
    rw [Handoff.framed, List.length_append, length_leBytes] at limit
    have below : vecLimit < u64Limit := by decide
    exact lt_of_le_of_lt limit below
  rw [← framed, Handoff.framed]
  constructor
  · intro before last pieces whole
    have ended : 1 ≤ last.length := (pieces (.bytes last) (by simp)).1
    have some : last ≠ [] := List.ne_nil_of_length_pos ended
    have parts : delivered before ++ last = leBytes 8 handoff.body.length ++ handoff.body := by
      rw [← whole, delivered_append]
      simp [delivered, Read.content]
    have begins : [] ++ delivered before <+: leBytes 8 handoff.body.length ++ handoff.body :=
      ⟨last, by rw [List.nil_append]; exact parts⟩
    have short : [] ++ delivered before ≠ leBytes 8 handoff.body.length ++ handoff.body := by
      rw [← parts, List.nil_append]
      intro same
      exact some (List.append_right_eq_self.mp same.symm)
    have early := fun outcome member => pieces outcome (List.mem_append_left _ member)
    rw [receive_pending fits early begins short, List.nil_append, receive, read, if_neg some, parts,
      answer_framed fits, handoff.decode_body (by omega)]
    rfl
  · intro outcomes pieces begins short
    rw [receive_pending fits pieces begins short]
    rfl

theorem fixtureDir_valid : validUtf8 (utf8 "lib") = true := by decide +kernel

def fixtureDir : Text := ⟨utf8 "lib", fixtureDir_valid⟩

def fixtureLinks : SortedMap Text Bytes :=
  ⟨[(⟨utf8 "libGL.so.1", by decide +kernel⟩, utf8 "/usr/lib/libGL.so.1")],
    List.pairwise_singleton _ _⟩

theorem fixtureDir_plain : 0 ∉ fixtureDir.bytes := by decide +kernel

theorem fixtureLinks_plain : ∀ pair ∈ fixtureLinks.entries, Plain pair := by
  simpa [fixtureLinks, Plain] using (by decide +kernel)

theorem no_shadows_plain :
    ∀ pair ∈ (SortedMap.empty : SortedMap Text Bytes).entries, Plain pair :=
  fun _ member => absurd member List.not_mem_nil

def fixture : Handoff where
  dir := fixtureDir
  links := fixtureLinks
  shadows := SortedMap.empty
  env := utf8 "ONELF-RUNTIME-ENV 1 0"
  dirPlain := fixtureDir_plain
  linksPlain := fixtureLinks_plain
  shadowsPlain := no_shadows_plain

theorem message_fixture : fixture.message = some fixture.framed := by
  rw [Handoff.message, if_pos (by decide +kernel)]

/-- A length field that two reads share, with an interrupted one between them, and a stream that
ends inside the body. -/
theorem receive_fixture :
    receive [] [.bytes (fixture.framed.take 5), .again, .bytes (fixture.framed.drop 5)] =
        [.pending, .pending, .done (some fixture.received)] ∧
      receive [] [.bytes (fixture.framed.take 9), .bytes []] = [.pending, .done none] :=
  ⟨(receive_handoff fixture message_fixture).1 [.bytes (fixture.framed.take 5), .again]
      (fixture.framed.drop 5) (by simpa [Piece] using (by decide +kernel)) (by decide +kernel),
    (receive_handoff fixture message_fixture).2 [.bytes (fixture.framed.take 9)]
      (by simpa [Piece] using (by decide +kernel))
      ⟨fixture.framed.drop 9, by decide +kernel⟩ (by decide +kernel)⟩

end Onelf.Runtime.LinkPipe
