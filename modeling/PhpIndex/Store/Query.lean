import PhpIndex.Store.Error

/-!
# Queries

A question to the store as the sequence of reads that it makes: a row by its key, or a scan.
Each read is one step, and what the next one is depends on the answers so far; a query can so be
run on one state of the store, or across a change between two of its reads.
-/
namespace PhpIndex

inductive Query (α : Type) where
  | done (a : α)
  | fail (e : StoreError)
  | get (key : Bytes) (next : Option Bytes → Query α)
  | scan (start lead : Bytes) (next : List Row → Query α)

namespace Query

def bind (q : Query α) (f : α → Query β) : Query β :=
  match q with
  | .done a => f a
  | .fail e => .fail e
  | .get key next => .get key (fun value => (next value).bind f)
  | .scan start lead next => .scan start lead (fun rows => (next rows).bind f)

instance : Monad Query where
  pure := .done
  bind := bind

/-- The answer of a query whose reads all see the same rows. -/
def run (rows : Rows) : Query α → Except StoreError α
  | .done a => .ok a
  | .fail e => .error e
  | .get key next => run rows (next (rows.get? key))
  | .scan start lead next => run rows (next (rows.scanFrom start lead))

@[simp] theorem run_pure (rows : Rows) (a : α) : run rows (pure a) = .ok a := rfl

@[simp] theorem run_bind (rows : Rows) (q : Query α) (f : α → Query β) :
    run rows (q >>= f) = (run rows q).bind (fun a => run rows (f a)) := by
  change run rows (q.bind f) = _
  induction q with
  | done a => rfl
  | fail e => rfl
  | get key next ih => exact ih _
  | scan start lead next ih => exact ih _

/-- Goes on with what was decoded, or fails with the fault of the format. -/
def ofFormat : Except FormatError α → Query α
  | .ok a => .done a
  | .error e => .fail (.format e)

/-- Asks one question for each item, in order. -/
def forEach (f : α → Query β) : List α → Query (List β)
  | [] => pure []
  | a :: rest => do
    let b ← f a
    let bs ← forEach f rest
    pure (b :: bs)

end Query
end PhpIndex
