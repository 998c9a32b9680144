import RegionHeap.Word

/-!
# Names of addresses

A report names an address by the region that holds it and the distance from the region's start
(`r0+72`, `r2-1`), since the start itself differs from run to run. An address in no region is
written in hexadecimal.
-/

set_option autoImplicit false

namespace RegionHeap

/-- A named span of addresses. Distances count from `origin`. -/
structure Place where
  label : String
  origin : Nat
  length : Nat
  deriving DecidableEq, Repr

/-- An address as a distance from the start of a place. -/
def Place.text (p : Place) (a : Nat) : String :=
  if p.origin ≤ a then s!"{p.label}+{a - p.origin}" else s!"{p.label}-{p.origin - a}"

/-- Whether an address lies in the place. -/
def Place.holds (p : Place) (a : Nat) : Bool :=
  p.origin ≤ a && a < p.origin + p.length

/-- How far an address is from the place; 0 also right behind it. -/
def Place.distance (p : Place) (a : Nat) : Nat :=
  if a < p.origin then p.origin - a else a - (p.origin + p.length)

/-- The places that reports may name. Where two overlap, the first one stands for both. -/
abbrev Atlas := List Place

namespace Atlas

/-- How far from a place an address may stray and still be named by it. -/
def strayLimit : Nat := 1 <<< 24

/-- The first of the places that are nearest to an address. -/
def nearest? (atlas : Atlas) (a : Nat) : Option Place :=
  atlas.foldl (fun best p =>
    match best with
    | some q => if p.distance a < q.distance a then some p else best
    | none => some p) none

/-- The place that an address lies in, or else the one that it strayed from. -/
def place? (atlas : Atlas) (a : Nat) : Option Place :=
  (atlas.find? (·.holds a)).or ((atlas.nearest? a).filter (·.distance a ≤ strayLimit))

/-- An address in hexadecimal. -/
def hexText (a : Nat) : String :=
  "0x" ++ String.ofList (Nat.toDigits 16 a)

/-- The name of `a` seen from `near`: its distance in the place of `near`, wherever `a` itself
lies. -/
def textFrom (atlas : Atlas) (near a : Nat) : String :=
  match atlas.place? near with
  | some p => p.text a
  | none => hexText a

/-- The name of an address in its own place. -/
def text (atlas : Atlas) (a : Nat) : String :=
  atlas.textFrom a a

end Atlas

end RegionHeap
