import Mathlib
import Lexindex.Lib.Bytes

/-!
# Blob checksums

`hashBytes` is the check over a blob's header: FNV-1a over the bytes, then a
splitmix finalizer.  `hashBlock` is the check over its payload, a word at a time, the
last one padded with zeros and told from them by the length.
-/

set_option autoImplicit false

namespace Lexindex.Blob

def fnvStep (h : Nat) (byte : UInt8) : Nat :=
  ((h ^^^ byte.toNat) * 0x00000100000001b3) % 2 ^ 64

/-- The splitmix64 finalizer both checksums end with. -/
def finalize (h : Nat) : Nat :=
  let h := ((h ^^^ (h >>> 30)) * 0xbf58476d1ce4e5b9) % 2 ^ 64
  let h := ((h ^^^ (h >>> 27)) * 0x94d049bb133111eb) % 2 ^ 64
  h ^^^ (h >>> 31)

def hashBytes (bytes : List UInt8) : Nat :=
  finalize (bytes.foldl fnvStep 0xcbf29ce484222325)

def hashWord (h w : Nat) : Nat :=
  let h := ((h ^^^ w) * 0xbf58476d1ce4e5b9) % 2 ^ 64
  h ^^^ (h >>> 29)

/-- A short last word is read as if padded. -/
def hashBlock (bytes : List UInt8) : Nat :=
  finalize
    ((leWords 8 ((bytes.length + 7) / 8) bytes).foldl hashWord 0x9e3779b97f4a7c15 ^^^ bytes.length)

end Lexindex.Blob
