/-!
What can be chosen about builds.
-/
namespace Rebuild.Build

structure Options where
  /-- How many failures that a later pass may mend a build takes before it stops. -/
  maxErrorCount : Nat := 100
  /-- A pass over more files than this is ordered by dependencies. -/
  sortThreshold : Nat := 2
  /-- How many files are tried when a small cycle is looked for. -/
  cycleProbeLimit : Nat := 16
  deriving DecidableEq, Repr

end Rebuild.Build
