/-!
# Digests

A digest condenses a sequence of numbers and texts to 64 bits. Which one is used is left open: it is
a parameter of all that depends on it. `Digest.fnv` is one to run the command with. It writes every
atom as bytes, a number as 64 bits, with its kind in front and the length in front of a text, and
folds the bytes by multiplication and exclusive or.
-/

namespace SsaLowering

abbrev Stamp := UInt64

/-- A piece of what is digested. -/
inductive Atom where
  | nat (value : Nat)
  | text (value : String)
  deriving DecidableEq, Repr

/-- A way to condense atoms to a stamp. -/
abbrev Digest := List Atom → Stamp

namespace Digest

/-- The bytes of a 64-bit number, lowest first. -/
def bytesOf (value : UInt64) : List UInt8 :=
  (List.range 8).map fun place => (value >>> (8 * UInt64.ofNat place)).toUInt8

def atomBytes : Atom → List UInt8
  | .nat value => 0 :: bytesOf (UInt64.ofNat value)
  | .text value =>
    let bytes := value.toUTF8.toList
    1 :: (bytesOf (UInt64.ofNat bytes.length) ++ bytes)

def seed : UInt64 :=
  0xcbf29ce484222325

def absorb (digest : UInt64) (byte : UInt8) : UInt64 :=
  (digest ^^^ byte.toUInt64) * 0x100000001b3

def fnv : Digest := fun atoms =>
  atoms.foldl (fun digest atom => (atomBytes atom).foldl absorb digest) seed

end Digest

namespace Atom

def number (value : UInt64) : Atom :=
  .nat value.toNat

def bool (value : Bool) : Atom :=
  .nat value.toNat

def list {α : Type} (element : α → List Atom) (items : List α) : List Atom :=
  .nat items.length :: items.flatMap element

end Atom

end SsaLowering
