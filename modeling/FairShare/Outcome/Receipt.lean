import FairShare.Json.Records
import FairShare.Sha256

/-!
# Receipts

The totals of an outcome and a digest of its canonical bytes, by which it can be told whether an
outcome has been altered.

The canonical bytes have three sections: the matches, the leftover demand and the excess supply. A
section starts with the number of its entries. An id is its length followed by its UTF-8 bytes, and
a volume has sixteen bytes. Counts and lengths have eight bytes, and every number is little-endian.
As no entry is the beginning of another, the bytes determine the outcome.
-/

namespace FairShare

open Json

/-! ## Bytes -/

/-- The `width` low bytes of a number, the lowest first. -/
def leBytes : Nat → Nat → List UInt8
  | 0, _ => []
  | width + 1, n => UInt8.ofNat (n % 256) :: leBytes width (n / 256)

@[simp] theorem length_leBytes (width n : Nat) : (leBytes width n).length = width := by
  induction width generalizing n with
  | zero => rfl
  | succ width ih => simp [leBytes, ih]

/-- Two digits for each byte. -/
def hexChars (bytes : List UInt8) : List Char :=
  bytes.flatMap fun b => [Nat.digitChar (b.toNat / 16), Nat.digitChar (b.toNat % 16)]

def hexText (bytes : List UInt8) : String := String.ofList (hexChars bytes)

/-- A count or a length. -/
def countBytes (n : Nat) : List UInt8 := leBytes 8 n

def idBytes (id : String) : List UInt8 := countBytes id.utf8ByteSize ++ id.toUTF8.data.toList

def Volume.bytes (v : Volume) : List UInt8 := leBytes 16 v.units

def Entity.bytes (e : Entity) : List UInt8 := idBytes e.id ++ e.volume.bytes

def Match.bytes (m : Match) : List UInt8 := idBytes m.demand ++ idBytes m.supply ++ m.volume.bytes

/-- The number of entries, and the entries. -/
def sectionBytes {α : Type} (entry : α → List UInt8) (entries : List α) : List UInt8 :=
  countBytes entries.length ++ entries.flatMap entry

def Outcome.bytes (o : Outcome) : List UInt8 :=
  sectionBytes Match.bytes o.pairs ++ sectionBytes Entity.bytes o.leftovers.demand
    ++ sectionBytes Entity.bytes o.leftovers.supply

/-! ## Receipts -/

structure Receipt where
  matchCount : Nat
  matchedVolume : Volume
  leftoverDemand : Volume
  excessSupply : Volume
  digest : List UInt8

def Outcome.receipt (o : Outcome) : Receipt where
  matchCount := o.pairs.length
  matchedVolume := o.matchedVolume
  leftoverDemand := o.leftoverVolume .demand
  excessSupply := o.leftoverVolume .supply
  digest := Sha256.hash o.bytes

namespace Receipt

/-- Whether nothing was matched. -/
def isEmpty (r : Receipt) : Bool := r.matchCount == 0

/-- The receipt with its keys in alphabetical order. -/
def toJson (r : Receipt) : Json :=
  ofFields [("digest", ofString (hexText r.digest)), ("excessSupply", r.excessSupply.toJson),
    ("leftoverDemand", r.leftoverDemand.toJson), ("matchCount", .number (.ofNat r.matchCount)),
    ("matchedVolume", r.matchedVolume.toJson)]

end Receipt
end FairShare
