import Onelf.Lib.Checks
import Onelf.Lib.Words

/-! The initial stack of the userland exec (`ulexec.rs`). -/

namespace Onelf.Runtime.Ulexec

open Onelf.Lib

/-! ### What the stack is made of -/

/-- A machine word of `word` bytes. -/
abbrev Usize (word : Nat) := Fin (256 ^ word)

/-- A string of the C library: no byte of it is zero. -/
structure CStr where
  bytes : Bytes
  solid : 0 ∉ bytes

def CStr.withNul (text : CStr) : Bytes := text.bytes ++ [0]

structure Loaded (word : Nat) where
  entry : Usize word
  phoff : Usize word
  phnum : Usize word
  phent : Usize word

def atNull : Nat := 0
def atPhdr : Nat := 3
def atPhent : Nat := 4
def atPhnum : Nat := 5
def atBase : Nat := 7
def atEntry : Nat := 9
def atPlatform : Nat := 15
def atRandom : Nat := 25
def atExecfn : Nat := 31

/-- The pairs up to the first whose tag is `AT_NULL`. -/
def auxvPairs : List Nat → List (Nat × Nat)
  | tag :: value :: rest => if tag = atNull then [] else (tag, value) :: auxvPairs rest
  | _ => []

/-- `read_auxv` of what `/proc/self/auxv` holds. -/
def readAuxv (word : Nat) (bytes : Bytes) : List (Nat × Nat) :=
  auxvPairs (words word (bytes.length / word) bytes)

/-- The value an entry is given for the loaded image. -/
def override {word : Nat} (loaded : Loaded word) (exeAddr tag value : Nat) : Nat :=
  if tag = atPhdr then loaded.phoff
  else if tag = atPhent then loaded.phent
  else if tag = atPhnum then loaded.phnum
  else if tag = atBase then 0
  else if tag = atEntry then loaded.entry
  else if tag = atExecfn then exeAddr
  else value

/-! ### Building it -/

/-- The stack top-down: `rev` is its bytes from the highest address on. -/
structure StackBuilder where
  top : Nat
  rev : Bytes

def StackBuilder.pushBytes (b : StackBuilder) (bytes : Bytes) : StackBuilder :=
  { b with rev := b.rev ++ bytes.reverse }

/-- The address of what was pushed last. -/
def StackBuilder.address (b : StackBuilder) : Nat := b.top - b.rev.length

def StackBuilder.pushWord (word : Nat) (b : StackBuilder) (w : Nat) : StackBuilder :=
  b.pushBytes (leBytes word w)

/-- The strings pushed in turn, with the address of each. -/
def StackBuilder.pushAll (b : StackBuilder) : List CStr → StackBuilder × List Nat
  | [] => (b, [])
  | text :: texts =>
      let pushed := b.pushBytes text.withNul
      let rest := pushed.pushAll texts
      (rest.1, pushed.address :: rest.2)

/-- Zeros until `fixed` more bytes end at a multiple of 16; `fuel` bounds their number. -/
def StackBuilder.pad (fixed : Nat) : Nat → StackBuilder → StackBuilder
  | 0, b => b
  | fuel + 1, b =>
      if (b.rev.length + fixed) % 16 = 0 then b else pad fixed fuel { b with rev := b.rev ++ [0] }

/-- `RLIMIT_STACK`, held between 8 MiB and 1 GiB. -/
def stackSize (limit : Option Nat) : Nat :=
  max (8 * 2 ^ 20) (min (limit.getD (2 ^ 30)) (2 ^ 30))

/-- What `make_stack` copies below `top`. -/
def layStack (word top : Nat) (loaded : Loaded word) (av : List (Nat × Nat)) (exe : CStr)
    (args env : List CStr) : Bytes :=
  let b : StackBuilder := { top, rev := [] }
  let b := b.pushBytes exe.withNul
  let exeAddr := b.address
  let (b, envAddrs) := b.pushAll env.reverse
  let (b, argAddrs) := b.pushAll args.reverse
  let auxv := (atNull, 0) :: av.map fun (tag, value) => (tag, override loaded exeAddr tag value)
  let fixedWords := auxv.length * 2 + (env.length + 1) + (args.length + 1) + 1
  let b := b.pad (fixedWords * word) 16
  let b := auxv.foldl (fun b entry => (b.pushWord word entry.2).pushWord word entry.1) b
  let b := b.pushWord word 0
  let b := envAddrs.foldl (StackBuilder.pushWord word) b
  let b := b.pushWord word 0
  let b := argAddrs.foldl (StackBuilder.pushWord word) b
  (b.pushWord word args.length).rev.reverse

/-- The mapping for the stack, and the page at its low end that is left without access. -/
structure Mapping (word : Nat) (limit : Option Nat) where
  start : Nat
  page : Nat
  aligned : 16 ∣ start
  guarded : 0 < page
  inside : start + stackSize limit ≤ 256 ^ word

/-- The stack pointer and the memory from it to the top; none when the copy runs into the guard
page, which ends the process. -/
def makeStack {word : Nat} {limit : Option Nat} (stack : Mapping word limit) (loaded : Loaded word)
    (av : List (Nat × Nat)) (exe : CStr) (args env : List CStr) : Option (Nat × Bytes) :=
  let top := stack.start + stackSize limit
  let data := layStack word top loaded av exe args env
  if stack.page + data.length ≤ stackSize limit then some (top - data.length, data) else none

/-! ### Reading it as a program does -/

structure Frame where
  argv : List Nat
  envp : List Nat
  auxv : List (Nat × Nat)
  deriving DecidableEq

/-- The entries before `AT_NULL`. -/
def decodeAuxv : List Nat → Option (List (Nat × Nat))
  | tag :: value :: rest =>
      if tag = atNull then some [] else (decodeAuxv rest).map ((tag, value) :: ·)
  | _ => none

def decodeEnvp : List Nat → Option (List Nat × List Nat)
  | [] => none
  | pointer :: rest =>
      if pointer = 0 then some ([], rest)
      else (decodeEnvp rest).map fun read => (pointer :: read.1, read.2)

/-- `argc`, its pointers and a null one, the pointers up to the next null one, the auxiliary
vector. -/
def decodeFrame : List Nat → Option Frame
  | [] => none
  | argc :: rest =>
      match rest.drop argc with
      | 0 :: envs => do
          let (envp, aux) ← decodeEnvp envs
          let auxv ← decodeAuxv aux
          some { argv := rest.take argc, envp, auxv }
      | _ => none

/-- The words from the stack pointer up, as far as whole ones go. -/
def decodeStack (word : Nat) (memory : Bytes) : Option Frame :=
  decodeFrame (words word (memory.length / word) memory)


/-! ### The bytes laid out -/

namespace StackBuilder

/-- The memory from the address of the last push to the top. -/
def memory (b : StackBuilder) : Bytes := b.rev.reverse

@[simp] theorem length_memory (b : StackBuilder) : b.memory.length = b.rev.length :=
  List.length_reverse

@[simp] theorem pushBytes_memory (b : StackBuilder) (bytes : Bytes) :
    (b.pushBytes bytes).memory = bytes ++ b.memory := by
  rw [memory, pushBytes, List.reverse_append, List.reverse_reverse, memory]

@[simp] theorem pushBytes_top (b : StackBuilder) (bytes : Bytes) : (b.pushBytes bytes).top = b.top :=
  rfl

theorem pushBytes_address (b : StackBuilder) (bytes : Bytes) :
    (b.pushBytes bytes).address = b.top - (bytes.length + b.memory.length) := by
  rw [address, ← length_memory, pushBytes_memory, List.length_append]
  rfl

@[simp] theorem pushWord_memory (word : Nat) (b : StackBuilder) (w : Nat) :
    (b.pushWord word w).memory = leBytes word w ++ b.memory := pushBytes_memory b _

theorem pushAll_top (b : StackBuilder) (texts : List CStr) : (b.pushAll texts).1.top = b.top := by
  induction texts generalizing b with
  | nil => rfl
  | cons text texts ih => exact ih _

/-- Strings pushed in turn lie in memory the other way round. -/
theorem pushAll_memory (b : StackBuilder) (texts : List CStr) :
    (b.pushAll texts).1.memory = (texts.reverse.map CStr.withNul).flatten ++ b.memory := by
  induction texts generalizing b with
  | nil => rfl
  | cons text texts ih =>
      have rest := ih (b.pushBytes text.withNul)
      rw [pushBytes_memory] at rest
      rw [pushAll, rest, List.reverse_cons, List.map_append, List.flatten_append]
      simp

theorem pushAll_addresses (b : StackBuilder) (texts : List CStr) :
    (b.pushAll texts).2.reverse =
      addresses b.top b.memory.length (texts.reverse.map CStr.withNul) := by
  induction texts generalizing b with
  | nil => rfl
  | cons text texts ih =>
      have rest := ih (b.pushBytes text.withNul)
      rw [pushBytes_top, pushBytes_memory, List.length_append] at rest
      rw [pushAll, List.reverse_cons, rest, List.reverse_cons, List.map_append, addresses_append,
        pushBytes_address]
      simp [addresses]

theorem pad_memory (fixed fuel : Nat) (b : StackBuilder) :
    ∃ zeros, (b.pad fixed fuel).memory = List.replicate zeros 0 ++ b.memory := by
  induction fuel generalizing b with
  | zero => exact ⟨0, rfl⟩
  | succ fuel ih =>
      rw [pad]
      split
      · exact ⟨0, rfl⟩
      · obtain ⟨zeros, same⟩ := ih { b with rev := b.rev ++ [0] }
        refine ⟨zeros + 1, ?_⟩
        rw [same, List.replicate_succ']
        simp [memory]

/-- Enough zeros fit the bound to reach the next multiple of 16. -/
theorem pad_aligned {fixed fuel : Nat} {b : StackBuilder}
    (enough : (16 - (b.rev.length + fixed) % 16) % 16 < fuel) :
    ((b.pad fixed fuel).rev.length + fixed) % 16 = 0 := by
  induction fuel generalizing b with
  | zero => cases enough
  | succ fuel ih =>
      rw [pad]
      split
      · next done => exact done
      · next more =>
          apply ih
          simp only [List.length_append, List.length_singleton]
          omega

/-- Words pushed in turn lie in memory the other way round. -/
theorem pushWords_memory (word : Nat) (ws : List Nat) (b : StackBuilder) :
    (ws.foldl (pushWord word) b).memory = wordBytes word ws.reverse ++ b.memory := by
  induction ws generalizing b with
  | nil => rfl
  | cons w ws ih =>
      rw [List.foldl_cons, ih, pushWord_memory, List.reverse_cons, wordBytes_append]
      simp [wordBytes]

/-- The words of entries, a tag and its value. -/
def entryWords (entries : List (Nat × Nat)) : List Nat :=
  entries.flatMap fun entry => [entry.1, entry.2]

theorem entryWords_append (left right : List (Nat × Nat)) :
    entryWords (left ++ right) = entryWords left ++ entryWords right := List.flatMap_append

theorem length_entryWords (entries : List (Nat × Nat)) :
    (entryWords entries).length = entries.length * 2 := by
  induction entries with
  | nil => rfl
  | cons entry entries ih =>
      have here : entryWords (entry :: entries) = entry.1 :: entry.2 :: entryWords entries := rfl
      rw [here, List.length_cons, List.length_cons, List.length_cons, ih]
      omega

theorem pushEntries_memory (word : Nat) (entries : List (Nat × Nat)) (b : StackBuilder) :
    (entries.foldl (fun b entry => (b.pushWord word entry.2).pushWord word entry.1) b).memory =
      wordBytes word (entryWords entries.reverse) ++ b.memory := by
  induction entries generalizing b with
  | nil => rfl
  | cons entry entries ih =>
      rw [List.foldl_cons, ih, pushWord_memory, pushWord_memory, List.reverse_cons,
        entryWords_append, wordBytes_append]
      simp [wordBytes, entryWords]

end StackBuilder

/-- The words from the stack pointer to the padding. -/
def frameWords (argv envp : List Nat) (auxv : List (Nat × Nat)) : List Nat :=
  argv.length :: (argv ++ 0 :: (envp ++ 0 :: (StackBuilder.entryWords auxv ++ [atNull, 0])))

/-- The strings in memory order. -/
def textsOf (exe : CStr) (args env : List CStr) : List Bytes :=
  (args ++ (env ++ [exe])).map CStr.withNul

/-- The three lists' addresses, and the entries for the loaded image. -/
structure Placed (word top : Nat) (loaded : Loaded word) (av : List (Nat × Nat)) (exe : CStr)
    (args env : List CStr) where
  argv : List Nat
  envp : List Nat
  exeAddr : Nat
  places : argv ++ (envp ++ [exeAddr]) = addresses top 0 (textsOf exe args env)
  argc : argv.length = args.length
  envc : envp.length = env.length

def Placed.auxv {word top : Nat} {loaded : Loaded word} {av : List (Nat × Nat)} {exe : CStr}
    {args env : List CStr} (placed : Placed word top loaded av exe args env) : List (Nat × Nat) :=
  av.reverse.map fun entry => (entry.1, override loaded placed.exeAddr entry.1 entry.2)

section
variable {word top : Nat} {loaded : Loaded word} {av : List (Nat × Nat)} {exe : CStr}
  {args env : List CStr}

def withExe (top : Nat) (exe : CStr) : StackBuilder :=
  StackBuilder.pushBytes ⟨top, []⟩ exe.withNul

def withEnv (top : Nat) (exe : CStr) (env : List CStr) : StackBuilder × List Nat :=
  (withExe top exe).pushAll env.reverse

def withArgs (top : Nat) (exe : CStr) (args env : List CStr) : StackBuilder × List Nat :=
  (withEnv top exe env).1.pushAll args.reverse

theorem withExe_memory : (withExe top exe).memory = exe.withNul := by
  rw [withExe, StackBuilder.pushBytes_memory]
  exact List.append_nil _

theorem withEnv_top : (withEnv top exe env).1.top = top := by
  rw [withEnv, StackBuilder.pushAll_top]
  rfl

theorem withArgs_memory : (withArgs top exe args env).1.memory = (textsOf exe args env).flatten := by
  rw [withArgs, StackBuilder.pushAll_memory, withEnv, StackBuilder.pushAll_memory, withExe_memory]
  simp [textsOf]

theorem withExe_address : [(withExe top exe).address] = addresses top 0 [exe.withNul] := by
  rw [withExe, StackBuilder.pushBytes_address]
  simp [addresses, StackBuilder.memory]

theorem withEnv_addresses :
    (withEnv top exe env).2.reverse = addresses top exe.withNul.length (env.map CStr.withNul) := by
  rw [withEnv, StackBuilder.pushAll_addresses, withExe_memory, List.reverse_reverse]
  rfl

theorem withArgs_addresses : (withArgs top exe args env).2.reverse =
    addresses top ((env.map CStr.withNul).flatten.length + exe.withNul.length)
      (args.map CStr.withNul) := by
  rw [withArgs, StackBuilder.pushAll_addresses, withEnv_top, withEnv, StackBuilder.pushAll_memory,
    withExe_memory, List.length_append, List.reverse_reverse, List.reverse_reverse]

theorem withArgs_places : (withArgs top exe args env).2.reverse ++
    ((withEnv top exe env).2.reverse ++ [(withExe top exe).address]) =
      addresses top 0 (textsOf exe args env) := by
  rw [withExe_address, withEnv_addresses, withArgs_addresses, textsOf, List.map_append,
    List.map_append, addresses_append, addresses_append]
  simp

theorem length_withArgs : (withArgs top exe args env).2.reverse.length = args.length := by
  rw [withArgs_addresses, length_addresses, List.length_map]

theorem length_withEnv : (withEnv top exe env).2.reverse.length = env.length := by
  rw [withEnv_addresses, length_addresses, List.length_map]

/-- The addresses the pushes gave out. -/
def placed (word top : Nat) (loaded : Loaded word) (av : List (Nat × Nat)) (exe : CStr)
    (args env : List CStr) : Placed word top loaded av exe args env where
  argv := (withArgs top exe args env).2.reverse
  envp := (withEnv top exe env).2.reverse
  exeAddr := (withExe top exe).address
  places := withArgs_places
  argc := length_withArgs
  envc := length_withEnv

/-- The words, the padding and the strings, and a length that is a multiple of 16. -/
theorem layStack_eq (word top : Nat) (loaded : Loaded word) (av : List (Nat × Nat)) (exe : CStr)
    (args env : List CStr) : ∃ zeros : Nat,
    layStack word top loaded av exe args env =
        wordBytes word (frameWords (placed word top loaded av exe args env).argv
            (placed word top loaded av exe args env).envp
            (placed word top loaded av exe args env).auxv) ++
          (List.replicate zeros 0 ++ (textsOf exe args env).flatten) ∧
      (layStack word top loaded av exe args env).length % 16 = 0 := by
  have argc := (placed word top loaded av exe args env).argc
  have envc := (placed word top loaded av exe args env).envc
  let auxv := (atNull, 0) :: av.map fun entry =>
    (entry.1, override loaded (withExe top exe).address entry.1 entry.2)
  let fixedWords := auxv.length * 2 + (env.length + 1) + (args.length + 1) + 1
  obtain ⟨zeros, padded⟩ := StackBuilder.pad_memory (fixedWords * word) 16
    (withArgs top exe args env).1
  have stop : StackBuilder.entryWords [(atNull, 0)] = [atNull, 0] := rfl
  have reversed : auxv.reverse = (placed word top loaded av exe args env).auxv ++ [(atNull, 0)] := by
    rw [List.reverse_cons, ← List.map_reverse]
    rfl
  have built : layStack word top loaded av exe args env =
      (((withArgs top exe args env).2.foldl (StackBuilder.pushWord word)
        (((withEnv top exe env).2.foldl (StackBuilder.pushWord word)
          ((auxv.foldl (fun b entry => (b.pushWord word entry.2).pushWord word entry.1)
            ((withArgs top exe args env).1.pad (fixedWords * word) 16)).pushWord word 0)).pushWord
              word 0)).pushWord word args.length).memory := rfl
  have laid : layStack word top loaded av exe args env =
      wordBytes word (frameWords (placed word top loaded av exe args env).argv
            (placed word top loaded av exe args env).envp
            (placed word top loaded av exe args env).auxv) ++
        ((withArgs top exe args env).1.pad (fixedWords * word) 16).memory := by
    rw [built, StackBuilder.pushWord_memory, StackBuilder.pushWords_memory,
      StackBuilder.pushWord_memory, StackBuilder.pushWords_memory, StackBuilder.pushWord_memory,
      StackBuilder.pushEntries_memory, reversed, StackBuilder.entryWords_append, stop, frameWords,
      argc]
    simp only [wordBytes_cons, wordBytes_append, List.append_assoc]
    rfl
  refine ⟨zeros, ?_, ?_⟩
  · rw [laid, padded, withArgs_memory]
  · have aligned := @StackBuilder.pad_aligned (fixedWords * word) 16 (withArgs top exe args env).1
      (by omega)
    have count : (frameWords (placed word top loaded av exe args env).argv
        (placed word top loaded av exe args env).envp
        (placed word top loaded av exe args env).auxv).length = fixedWords := by
      simp only [frameWords, List.length_cons, List.length_append, argc, envc,
        StackBuilder.length_entryWords, fixedWords,
        auxv, Placed.auxv, List.length_map, List.length_reverse, List.length_nil]
      omega
    rw [laid, List.length_append, length_wordBytes, StackBuilder.length_memory, Nat.add_comm, count]
    exact aligned

end


/-! ### Reading it back -/

theorem decodeEnvp_pointers {pointers : List Nat} (solid : ∀ pointer ∈ pointers, pointer ≠ 0)
    (rest : List Nat) : decodeEnvp (pointers ++ 0 :: rest) = some (pointers, rest) := by
  induction pointers with
  | nil => rfl
  | cons pointer pointers ih =>
      rw [List.forall_mem_cons] at solid
      rw [List.cons_append, decodeEnvp, if_neg solid.1, ih solid.2]
      rfl

theorem decodeAuxv_entries {entries : List (Nat × Nat)} (tagged : ∀ entry ∈ entries, entry.1 ≠ atNull)
    (value : Nat) (rest : List Nat) :
    decodeAuxv (StackBuilder.entryWords entries ++ atNull :: value :: rest) = some entries := by
  induction entries with
  | nil => rfl
  | cons entry entries ih =>
      rw [List.forall_mem_cons] at tagged
      have here : StackBuilder.entryWords (entry :: entries) ++ atNull :: value :: rest =
          entry.1 :: entry.2 :: (StackBuilder.entryWords entries ++ atNull :: value :: rest) := rfl
      rw [here, decodeAuxv, if_neg tagged.1, ih tagged.2]
      rfl

theorem decodeFrame_frameWords {argv envp : List Nat} {auxv : List (Nat × Nat)}
    (solid : ∀ pointer ∈ envp, pointer ≠ 0) (tagged : ∀ entry ∈ auxv, entry.1 ≠ atNull)
    (rest : List Nat) :
    decodeFrame (frameWords argv envp auxv ++ rest) = some { argv, envp, auxv } := by
  have flat : frameWords argv envp auxv ++ rest = argv.length :: (argv ++ 0 :: (envp ++
      0 :: (StackBuilder.entryWords auxv ++ atNull :: 0 :: rest))) := by
    simp [frameWords]
  rw [flat, decodeFrame, List.drop_left, List.take_left]
  simp only [decodeEnvp_pointers solid, decodeAuxv_entries tagged, Option.bind_eq_bind,
    Option.bind_some]

theorem auxvPairs_mem {ws : List Nat} {entry : Nat × Nat} (member : entry ∈ auxvPairs ws) :
    entry.1 ≠ atNull ∧ entry.1 ∈ ws ∧ entry.2 ∈ ws := by
  fun_induction auxvPairs ws with
  | case1 => cases member
  | case2 tag value rest other ih =>
      rcases List.mem_cons.mp member with same | later
      · rw [same]
        exact ⟨other, by simp, by simp⟩
      · obtain ⟨tagged, first, second⟩ := ih later
        exact ⟨tagged, by simp [first], by simp [second]⟩
  | case3 => cases member

theorem readAuxv_mem {word : Nat} {bytes : Bytes} {entry : Nat × Nat}
    (member : entry ∈ readAuxv word bytes) :
    entry.1 ≠ atNull ∧ entry.1 < 256 ^ word ∧ entry.2 < 256 ^ word := by
  obtain ⟨tagged, first, second⟩ := auxvPairs_mem member
  exact ⟨tagged, words_lt _ _ _ first, words_lt _ _ _ second⟩

theorem override_lt {word : Nat} {loaded : Loaded word} {exeAddr tag value : Nat}
    (address : exeAddr < 256 ^ word) (fits : value < 256 ^ word) :
    override loaded exeAddr tag value < 256 ^ word := by
  rw [override]
  split_ifs
  · exact loaded.phoff.isLt
  · exact loaded.phent.isLt
  · exact loaded.phnum.isLt
  · exact Nat.zero_lt_of_lt fits
  · exact loaded.entry.isLt
  · exact address
  · exact fits

/-- Memory that begins with words is read as they are. -/
theorem words_memory {word : Nat} (positive : 0 < word) {values : List Nat}
    (fit : ∀ value ∈ values, value < 256 ^ word) (rest : Bytes) :
    words word ((wordBytes word values ++ rest).length / word) (wordBytes word values ++ rest) =
      values ++ words word (rest.length / word) rest := by
  have count : (wordBytes word values ++ rest).length / word = values.length + rest.length / word := by
    rw [List.length_append, length_wordBytes, Nat.add_comm, Nat.add_mul_div_right _ _ positive,
      Nat.add_comm]
  rw [count, words_wordBytes fit]

theorem mem_frameWords {argv envp : List Nat} {auxv : List (Nat × Nat)} {w : Nat}
    (member : w ∈ frameWords argv envp auxv) :
    w = argv.length ∨ w = 0 ∨ w ∈ argv ∨ w ∈ envp ∨ ∃ entry ∈ auxv, w = entry.1 ∨ w = entry.2 := by
  simp only [frameWords, StackBuilder.entryWords, List.mem_cons, List.mem_append, List.mem_flatMap,
    List.not_mem_nil, or_false] at member
  rcases member with same | inside | same | inside | same | ⟨entry, inside, parts⟩ | same | same
  · exact .inl same
  · exact .inr (.inr (.inl inside))
  · exact .inr (.inl same)
  · exact .inr (.inr (.inr (.inl inside)))
  · exact .inr (.inl same)
  · exact .inr (.inr (.inr (.inr ⟨entry, inside, parts⟩)))
  · exact .inr (.inl same)
  · exact .inr (.inl same)

section
variable {word : Nat} {limit : Option Nat} {stack : Mapping word limit} {loaded : Loaded word}
  {av : List (Nat × Nat)} {exe : CStr} {args env : List CStr} {sp : Nat} {memory : Bytes}

theorem makeStack_eq_some (laid : makeStack stack loaded av exe args env = some (sp, memory)) :
    memory = layStack word (stack.start + stackSize limit) loaded av exe args env ∧
      sp + memory.length = stack.start + stackSize limit ∧ stack.start + stack.page ≤ sp := by
  simp only [makeStack] at laid
  split at laid
  · next fits =>
      cases laid
      refine ⟨rfl, ?_, ?_⟩ <;> omega
  · cases laid

/-- The strings and the pointers to them: in the order of their addresses, each inside the memory
from the stack pointer up and no two overlapping. -/
theorem makeStack_texts (laid : makeStack stack loaded av exe args env = some (sp, memory)) :
    List.Forall₂ (LiesAt sp memory)
        (addresses (stack.start + stackSize limit) 0 (textsOf exe args env))
        (textsOf exe args env) ∧
      ((addresses (stack.start + stackSize limit) 0 (textsOf exe args env)).zip
        (textsOf exe args env)).Pairwise fun left right => left.1 + left.2.length ≤ right.1 := by
  obtain ⟨same, ends, -⟩ := makeStack_eq_some laid
  obtain ⟨zeros, parts, -⟩ := layStack_eq word (stack.start + stackSize limit) loaded av exe args env
  rw [← same] at parts
  have whole := parts
  rw [← List.append_assoc, ← List.append_nil (_ ++ (textsOf exe args env).flatten)] at whole
  constructor
  · rw [whole]
    apply addresses_lie _ _ _ _ rfl
    rw [← whole, ends]
  · apply addresses_apart
    rw [← ends, parts, List.length_append, List.length_append]
    omega

end


section
variable {word : Nat} {limit : Option Nat} {stack : Mapping word limit} {loaded : Loaded word}
  {av : List (Nat × Nat)} {exe : CStr} {args env : List CStr} {sp : Nat} {memory : Bytes}

theorem address_between {address : Nat} {text : CStr} (lies : LiesAt sp memory address text.withNul)
    (ends : sp + memory.length ≤ 256 ^ word) : sp ≤ address ∧ address < 256 ^ word := by
  obtain ⟨above, below, -⟩ := lies
  rw [CStr.withNul, List.length_append, List.length_singleton] at below
  omega

end

/-- A 64-bit process with `AT_RANDOM` and `AT_PLATFORM` entries and a stack limit one byte over
8 MiB, which the limit may be set to. -/
def oddMapping : Mapping 8 (some (8 * 2 ^ 20 + 1)) where
  start := 4096
  page := 4096
  aligned := by decide
  guarded := by decide
  inside := by decide

def emptyImage : Loaded 8 where
  entry := ⟨0, by decide⟩
  phoff := ⟨0, by decide⟩
  phnum := ⟨0, by decide⟩
  phent := ⟨0, by decide⟩

def randomAuxv : Bytes := wordBytes 8 [atRandom, 7, atPlatform, 9, atExecfn, 5, atNull, 0]

end Onelf.Runtime.Ulexec
