import PhpIndex.OrderedMap

/-!
# Locks of documents

One lock for each document, taken by whoever reads or writes its rows. A map holds the lock of a
document while somebody has a handle on it, and a lock that was removed is made anew when it is
asked for again. Everything happens in small steps, so that any order of steps of several tasks
can be followed.
-/
namespace PhpIndex

/-- How far a task has come on its way to the lock and back. -/
inductive LockStage where
  /-- It has a handle on the lock but does not wait yet. -/
  | fetched
  | waiting
  | holding
  deriving DecidableEq

/-- A task with a handle on a lock; `lock` tells locks apart that a document had over time. -/
structure LockRequest where
  id : String
  uri : String
  lock : Nat
  stage : LockStage
  deriving DecidableEq

/-- `current` is the map of locks in use. Requests stand in the order in which they began to
wait. -/
structure DocumentLocks where
  current : OrderedMap String Nat
  nextLock : Nat
  requests : List LockRequest
  deriving DecidableEq

namespace DocumentLocks

def empty : DocumentLocks := ⟨.empty, 0, []⟩

/-- The number of locks in the map. -/
def size (s : DocumentLocks) : Nat := s.current.size

def isEmpty (s : DocumentLocks) : Bool := s.current.isEmpty

def request? (s : DocumentLocks) (id : String) : Option LockRequest :=
  s.requests.find? (fun r => r.id == id)

/-- Takes a handle on the lock of a document, which is made if there is none. -/
def fetch (s : DocumentLocks) (id uri : String) : DocumentLocks :=
  match s.current.get? uri with
  | some lock => { s with requests := s.requests ++ [⟨id, uri, lock, .fetched⟩] }
  | none =>
    { current := s.current.insert uri s.nextLock
      nextLock := s.nextLock + 1
      requests := s.requests ++ [⟨id, uri, s.nextLock, .fetched⟩] }

/-- Begins to wait, behind everybody who waits already. -/
def queue (s : DocumentLocks) (id : String) : DocumentLocks :=
  match s.request? id with
  | some r =>
    if r.stage = .fetched then
      { s with requests :=
          s.requests.filter (fun r => r.id ≠ id) ++ [{ r with stage := .waiting }] }
    else s
  | none => s

/-- Whether somebody holds the lock. -/
def isHeld (s : DocumentLocks) (lock : Nat) : Bool :=
  s.requests.any (fun r => r.lock = lock && r.stage = .holding)

/-- Lets the first one who waits for a lock hold it. -/
def grantFirst (lock : Nat) : List LockRequest → List LockRequest
  | [] => []
  | r :: rest =>
    if r.lock = lock ∧ r.stage = .waiting then { r with stage := .holding } :: rest
    else r :: grantFirst lock rest

/-- A free lock goes to the one who has waited longest. -/
def grant (s : DocumentLocks) (lock : Nat) : DocumentLocks :=
  if s.isHeld lock then s else { s with requests := grantFirst lock s.requests }

/-- Gives up a request or a lock, and with it the handle. -/
def release (s : DocumentLocks) (id : String) : DocumentLocks :=
  { s with requests := s.requests.filter (fun r => r.id ≠ id) }

/-- Takes the lock of a document out of the map if nobody has a handle on it. -/
def reclaim (s : DocumentLocks) (uri : String) : DocumentLocks :=
  match s.current.get? uri with
  | some lock =>
    if s.requests.any (fun r => r.lock = lock) then s
    else { s with current := s.current.erase uri }
  | none => s

/-- Asks for a lock, and gets it at once if it is free. -/
def lock (s : DocumentLocks) (id uri : String) : DocumentLocks :=
  let s := (s.fetch id uri).queue id
  match s.request? id with
  | some r => s.grant r.lock
  | none => s

/-- Gives up a request, or a lock. A lock goes on to the next who waits, or else out of the map;
whoever gives up waiting leaves the map alone. -/
def drop (s : DocumentLocks) (id : String) : DocumentLocks :=
  match s.request? id with
  | none => s
  | some r =>
    let released := s.release id
    if r.stage = .holding then (released.reclaim r.uri).grant r.lock else released

/-- Who is at a stage, in the order of the requests. -/
def idsAt (s : DocumentLocks) (stage : LockStage) : List String :=
  (s.requests.filter (fun r => r.stage = stage)).map LockRequest.id

end DocumentLocks
end PhpIndex
