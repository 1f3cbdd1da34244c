import Onelf.Format.Resolve

/-! The footer of a package (`footer.rs`). -/

namespace Onelf.Format

open Onelf.Lib

def footerFormatVersion : Nat := 2

/-- The bits of `Flags`. -/
inductive Flag where
  | hasDict
  | memfdHint
  | stored
  | externalUpdater
  | noHostLibDirs
  | hostLibsAlways
  | cacheRequested
  | cachePreferred
  | stipplePayload
  deriving DecidableEq

def Flag.bit : Flag → Nat
  | .hasDict => 1
  | .memfdHint => 2
  | .stored => 8
  | .externalUpdater => 16
  | .noHostLibDirs => 32
  | .hostLibsAlways => 64
  | .cacheRequested => 128
  | .cachePreferred => 256
  | .stipplePayload => 512

/-- The word with the given flags set, each listed once. -/
def flagBits (flags : List Flag) : Nat := (flags.map Flag.bit).sum

/-- The flags that say what the launch may take from the host. -/
def policyFlags : HostLibsPolicy → List Flag
  | .never => [.noHostLibDirs]
  | .auto => []
  | .always => [.hostLibsAlways]

structure Footer where
  formatVersion : Nat
  flags : Nat
  manifestOffset : Nat
  manifestCompressed : Nat
  manifestOriginal : Nat
  payloadOffset : Nat
  payloadSize : Nat
  dictOffset : Nat
  dictSize : Nat
  manifestChecksum : Bytes

def footerMagic : Bytes := utf8 "ONELF" ++ [0, 1, 0]
def footerEndMagic : Bytes := utf8 "FLENONE" ++ [0]

def footerBytes (footer : Footer) : Bytes :=
  footerMagic ++ leBytes 2 footer.formatVersion ++ leBytes 2 footer.flags ++
    leBytes 8 footer.manifestOffset ++ leBytes 8 footer.manifestCompressed ++
    leBytes 8 footer.manifestOriginal ++ leBytes 8 footer.payloadOffset ++
    leBytes 8 footer.payloadSize ++ leBytes 8 footer.dictOffset ++ leBytes 4 footer.dictSize ++
    footer.manifestChecksum ++ footerEndMagic

/-- The hash of the footer with the fields that only the compressed manifest fixes left zero. -/
def structureHash (blake3 : Bytes → Digest) (footer : Footer) : Digest :=
  blake3 (footerBytes { footer with
    manifestCompressed := 0
    manifestOriginal := 0
    payloadOffset := 0
    dictOffset := 0 })

end Onelf.Format
