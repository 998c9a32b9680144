import RegionHeap.Allocator

/-!
# Reporting leaks

A report says which blocks are still handed out: as a warning in the log and, if there are any, on
standard error too. Heaps that keep no books are skipped. A session may be guarded, so that a report
follows it whatever it did, and may ask for one more report when it exits.
-/

set_option autoImplicit false

namespace RegionHeap

namespace LeakStatus

/-- What a report records. -/
def event? : LeakStatus → Option Event
  | unsupported => none
  | clean => some .noLeaks
  | leaking listing => some (.leaks listing)

/-- What a report prints. -/
def printed? : LeakStatus → Option LeakListing
  | leaking listing => some listing
  | _ => none

end LeakStatus

/-- A program's use of its one heap, from start to exit. -/
structure Session where
  heap : Heap := {}
  /-- The listings printed on standard error, latest first. -/
  printed : List LeakListing := []
  /-- Whether leaks are reported on exit. -/
  reportsOnExit : Bool := false

namespace Session

instance : Inhabited Session := ⟨{}⟩

/-- A session whose heap is tuned by the environment and whose regions will go where `place` puts
them. -/
def ofEnvironment (env : Environment) (place : Placement := .standard) : Session :=
  { heap := Heap.ofSettings (Settings.ofEnvironment env) place }

/-- Reports what is still handed out. -/
def report (s : Session) : Except Fault Session := do
  let status ← s.heap.leakStatus
  return { s with
    heap := { s.heap with log := status.event?.toList ++ s.heap.log }
    printed := status.printed?.toList ++ s.printed }

/-- Does what `body` does, and then reports. -/
def guarded {α : Type} (s : Session) (body : Session → α × Session) : Except Fault (α × Session) := do
  let (a, s) := body s
  return (a, ← s.report)

/-- Asks for a report on exit. Asking again changes nothing. Says whether the report will be made. -/
def registerExitReport (s : Session) : Bool × Session :=
  (true, { s with reportsOnExit := true })

/-- Ends the session, with a report if one was asked for. -/
def exit (s : Session) : Except Fault Session :=
  if s.reportsOnExit then s.report else .ok s

/-- Everything printed on standard error, each listing on lines of its own. -/
def standardError (s : Session) : String :=
  String.join (s.printed.reverse.map fun listing => listing.text s.heap.atlas ++ "\n")

end Session

end RegionHeap
