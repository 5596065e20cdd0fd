import AffineLoops.Nest.Walk
/-!
# Coverage and order of a nest

Two checks of a nest against its domain. Coverage: every iteration of the domain is visited exactly
once and nothing else is. Order: moreover every iteration that another one depends on is visited
before it.

## Main definitions

- `VisitLog` — when each point of a domain was visited
- `Nest.visitLog` — the log of a whole walk, if it covers the domain
- `Nest.verifyCoverage`, `Nest.verifyOrder` — the two checks
-/

namespace AffineLoops

/-- The record of a walk over a domain: for every point the number of visits before its own. -/
structure VisitLog where
  domain : Domain
  /-- The time of the visit of each point, by its position in the domain. -/
  times : Array (Option Nat)
  visits : Nat

namespace VisitLog

/-- The record before the first visit. -/
def empty (domain : Domain) : VisitLog :=
  ⟨domain, Array.replicate domain.size none, 0⟩

/-- When a point was visited, if it was. -/
def time? (log : VisitLog) (p : Point) : Option Nat := do
  let k ← log.domain.linearIndex? p
  (log.times[k]?).join

/-- Records a visit at the given position. -/
def record (log : VisitLog) (k : Nat) : VisitLog :=
  { log with times := log.times.setIfInBounds k (some log.visits), visits := log.visits + 1 }

/-- Records the visit of a point, which must belong to the domain and be visited for the first
time. -/
def visit (p : Point) : Stateful VisitLog Unit := fun log =>
  match log.domain.linearIndex? p with
  | none => (.error (.derivation (.visitsOutside p log.domain)), log)
  | some k =>
    match log.times[k]? with
    | some (some _) => (.error (.derivation (.visitsTwice p)), log)
    | _ => (.ok (), log.record k)

/-- A dependence of the point `sink` on a point visited no earlier than itself. -/
def lateSource? (log : VisitLog) (offsets : List Point) (sink : Point) : Option Point := do
  let time ← log.time? sink
  (offsets.map sink.shift).find? fun source =>
    match log.time? source with
    | some sourceTime => time ≤ sourceTime
    | none => false

end VisitLog

namespace Nest

/-- The record of a walk over the whole nest, if every point of the domain is visited once. -/
def visitLog (nest : Nest) : Except Error VisitLog :=
  match (nest.visit VisitLog.visit).run.run (.empty nest.domain) with
  | (.error e, _) => .error e
  | (.ok (), log) =>
    if log.visits = nest.domain.size then .ok log
    else .error (.derivation (.visitsTooFew log.visits nest.domain))

/-- Checks that the nest visits every iteration of its domain once and no other. -/
def verifyCoverage (nest : Nest) : Except Error Unit := do
  let _ ← nest.visitLog

/-- Checks coverage, and that every iteration is visited after those it depends on. -/
def verifyOrder (nest : Nest) (deps : DependencePattern) : Except Error Unit := do
  let log ← nest.visitLog
  let late? (sink : Point) := (log.lateSource? deps.offsets sink).map fun source => (source, sink)
  match nest.domain.points.findSome? late? with
  | some (source, sink) => throw (.derivation (.dependenceOrder source sink))
  | none => return ()

end Nest

end AffineLoops
