import Mathlib.Data.List.DropRight
import Onelf.Lib.References
import Onelf.Payloads.RuntimeEnv

/-! The constructor's pass over a package's `.onelf/env` (`onelf-payloads/src/env.rs`). Names and
values are NUL-terminated: what follows a NUL is not seen. -/

namespace Onelf.Payloads.Constructor

open Onelf.Lib

def keyCapacity : Nat := 1024
def valueCapacity : Nat := 8192
def wrapCapacity : Nat := 4096
def nameCapacity : Nat := 256

/-- What a C string stored as `bytes` reads as. -/
def cString (bytes : Bytes) : Bytes := bytes.takeWhile (· ≠ 0)

/-! ### Expanding a value -/

/-- One more byte, when a NUL still fits behind it. -/
def push (cap : Nat) (out : Bytes) (byte : UInt8) : Option Bytes :=
  if out.length + 1 ≥ cap then none else some (out ++ [byte])

/-- A token's name and the word behind its `:-`. -/
def nameAndWord : Bytes → Bytes × Option Bytes
  | first :: second :: token =>
      if first = 58 ∧ second = 45 then ([], some token)
      else (first :: (nameAndWord (second :: token)).1, (nameAndWord (second :: token)).2)
  | token => (token, none)

/-- The token of a reference that is closed and whose name fits its buffer. -/
def replaceable (src : Bytes) : Option Bytes :=
  match src with
  | 36 :: 123 :: inner =>
      ((splitOnce 125 inner).map Prod.fst).filter fun token =>
        (nameAndWord token).1.length < nameCapacity
  | _ => none

/-- `getenv`, with the package root standing for `ONELF_DIR`. -/
def found (env : Env) (root name : Bytes) : Option Bytes :=
  if cString name = utf8 "ONELF_DIR" then some root else env (cString name)

/-- The bytes a reference is replaced by. -/
def replacement (env : Env) (root token : Bytes) : Bytes :=
  match (found env root (nameAndWord token).1).map cString with
  | none => (nameAndWord token).2.getD []
  | some [] => (nameAndWord token).2.getD []
  | some value => value

/-- The loop of `expand`; the next `skip` bytes belong to a reference already replaced. -/
def expandFrom (env : Env) (root : Bytes) (cap : Nat) : Bytes → Nat → Bytes → Option Bytes
  | out, _, [] => if out.length ≥ cap then none else some out
  | out, skip + 1, _ :: src => expandFrom env root cap out skip src
  | out, 0, byte :: src =>
      match replaceable (byte :: src) with
      | some token =>
          match (replacement env root token).foldlM (push cap) out with
          | none => none
          | some out => expandFrom env root cap out (token.length + 2) src
      | none =>
          match push cap out byte with
          | none => none
          | some out => expandFrom env root cap out 0 src

/-- `expand` into a buffer of `cap` bytes. -/
def expand (env : Env) (root : Bytes) (cap : Nat) (src : Bytes) : Option Bytes :=
  expandFrom env root cap [] 0 src

/-! ### A value that wraps its own variable -/

/-- `wraps_current`. -/
def wrapsCurrent (env : Env) (root key before after : Bytes) : Bool :=
  match env (cString key) with
  | none => false
  | some current =>
      cString current ≠ [] &&
        match expand env root wrapCapacity before, expand env root wrapCapacity after with
        | some lead, some tail =>
            (cString current).length ≥ (cString lead).length + (cString tail).length &&
              cString lead <+: cString current && cString tail <:+ cString current
        | _, _ => false

/-- The search of `already_applied` from past `before`. -/
def alreadyAppliedFrom (env : Env) (root key : Bytes) : Bytes → Nat → Bytes → Bool
  | _, _, [] => false
  | before, skip + 1, byte :: src => alreadyAppliedFrom env root key (before ++ [byte]) skip src
  | before, 0, byte :: src =>
      if [36, 123] <+: byte :: src then
        match splitOnce 125 (src.drop 1) with
        | none => false
        | some (token, after) =>
            if (nameAndWord token).1 = cString key then wrapsCurrent env root key before after
            else alreadyAppliedFrom env root key (before ++ [byte]) (token.length + 2) src
      else alreadyAppliedFrom env root key (before ++ [byte]) 0 src

def alreadyApplied (env : Env) (root key src : Bytes) : Bool :=
  alreadyAppliedFrom env root key [] 0 src

/-! ### The lines -/

def isBlank (byte : UInt8) : Bool := byte == 32 || byte == 9 || byte == 13

def trim (bytes : Bytes) : Bytes := (bytes.dropWhile isBlank).rdropWhile isBlank

/-- The lines of what is left, `held` the start of the first. -/
def linesFrom (held : Bytes) : Bytes → List Bytes
  | [] => if held = [] then [] else [held]
  | byte :: rest =>
      if byte = 10 then held :: linesFrom [] rest else linesFrom (held ++ [byte]) rest

/-- A line's key and value. -/
def assignment (line : Bytes) : Option (Bytes × Bytes) :=
  if trim line = [] ∨ (trim line).head? = some 35 then none
  else
    match splitOnce 61 (trim line) with
    | none => none
    | some (key, value) =>
        if trim key = [] then none
        else if (trim key).length + 1 > keyCapacity then none
        else some (trim key, trim value)

def applyAssignment (root : Bytes) (env : Env) : Bytes × Bytes → Env
  | (key, value) =>
      if alreadyApplied env root key value then env
      else
        match expand env root valueCapacity value with
        | none => env
        | some expanded =>
            -- `setenv` refuses an empty name
            if cString key = [] then env else setenv env (cString key) (cString expanded)

/-- `apply_env_bytes`. -/
def applyEnvBytes (env : Env) (bytes root : Bytes) : Env :=
  ((linesFrom [] bytes).filterMap assignment).foldl (applyAssignment root) env

end Onelf.Payloads.Constructor
