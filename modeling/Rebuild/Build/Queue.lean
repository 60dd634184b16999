import Rebuild.Dict
import Rebuild.FileId

/-!
The files that wait to be compiled, in the order in which they were enqueued.
-/
namespace Rebuild.Build

/-- Where a queued file stands in a build. -/
inductive EntryState where
  | pending
  | compiling
  /-- Failed for a reason that a later pass may mend. -/
  | retrying
  /-- Failed for good; stays queued until the next edit or build. -/
  | failed
  deriving DecidableEq, Repr

namespace EntryState

/-- Failed entries, and those that are being compiled, start anew; the others go on waiting. -/
def restart : EntryState → EntryState
  | failed | compiling => pending
  | pending => pending
  | retrying => retrying

end EntryState

structure Queue where
  entries : Dict FileId EntryState := .empty

namespace Queue

def state? (q : Queue) (file : FileId) : Option EntryState := q.entries.get? file

def contains (q : Queue) (file : FileId) : Bool := q.entries.contains file

/-- Is a file to be compiled when its turn comes? -/
def isDue (q : Queue) (file : FileId) : Bool :=
  match q.state? file with
  | some .pending | some .retrying => true
  | _ => false

/-- Queues a file as pending. A file that is queued already keeps its place; if it failed, or
is being compiled, it becomes pending again. -/
def enqueue (q : Queue) (file : FileId) : Queue :=
  match q.state? file with
  | some state => { q with entries := q.entries.put file state.restart }
  | none => { q with entries := q.entries.put file .pending }

/-- Queues files one after the other. -/
def enqueueAll (q : Queue) (files : List FileId) : Queue := files.foldl enqueue q

/-- Takes a file out; the others keep their order. -/
def remove (q : Queue) (file : FileId) : Queue := { q with entries := q.entries.erase file }

/-- Sets the state of a file that is queued. -/
def setState (q : Queue) (file : FileId) (state : EntryState) : Queue :=
  { q with entries := q.entries.modify file fun _ => state }

/-- Restarts all entries, so that the next build tries them. -/
def resetFailed (q : Queue) : Queue := { q with entries := q.entries.map EntryState.restart }

def files (q : Queue) : List FileId := q.entries.keys

/-- The files to be compiled in the next pass: all that did not fail. -/
def runnable (q : Queue) : List FileId :=
  (q.entries.entries.filter fun e => e.2 ≠ .failed).map Prod.fst

/-- The files that failed. -/
def failed (q : Queue) : List FileId :=
  (q.entries.entries.filter fun e => e.2 = .failed).map Prod.fst

def size (q : Queue) : Nat := q.entries.size

def isEmpty (q : Queue) : Bool := q.entries.isEmpty

/-- Changes the state of a file from `current` to `next`; a file in another state is left. -/
def advance (q : Queue) (file : FileId) (current next : EntryState) : Queue :=
  if q.state? file = some current then q.setState file next else q

/-- Takes a file out whose compilation succeeded; one that was queued again meanwhile stays. -/
def complete (q : Queue) (file : FileId) : Queue :=
  if q.state? file = some .compiling then q.remove file else q

end Queue

end Rebuild.Build
