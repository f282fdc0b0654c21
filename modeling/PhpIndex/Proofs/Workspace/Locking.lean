import Mathlib.Data.List.Nodup
import PhpIndex.Proofs.OrderedMap
import PhpIndex.Workspace.Locks

/-!
# Locks in any order of steps

A request for the lock of a document takes a handle on it, waits behind all that wait already,
holds it, gives it back together with its handle, and then looks whether the lock can be taken out
of the map. Any number of requests do so in any order of steps. What carries the proofs is that
every handle is one on the lock that stands in the map: a lock leaves the map only if nobody has a
handle on it, also where it was asked for again between the last two steps of another request.
Main statement: `locks_exclude_and_leave`.
-/
namespace PhpIndex

namespace DocumentLocks

/-- Handles are on the locks in the map, each lock is that of one document, and one request holds
it at most. -/
structure Consistent (s : DocumentLocks) : Prop where
  distinct : (s.requests.map LockRequest.id).Nodup
  inMap : ∀ r ∈ s.requests, s.current.get? r.uri = some r.lock
  apart : ∀ uri uri' lock, s.current.get? uri = some lock → s.current.get? uri' = some lock →
    uri = uri'
  made : ∀ uri lock, s.current.get? uri = some lock → lock < s.nextLock
  single : ∀ r ∈ s.requests, ∀ r' ∈ s.requests, r.stage = .holding → r'.stage = .holding →
    r.lock = r'.lock → r = r'

variable {s : DocumentLocks} {r : LockRequest}

theorem consistent_empty : empty.Consistent where
  distinct := List.nodup_nil
  inMap := nofun
  apart _ _ _ h := by cases h
  made _ _ h := by cases h
  single := nofun

/-! ## What single steps do -/

theorem request?_eq_some (hs : (s.requests.map LockRequest.id).Nodup) (hr : r ∈ s.requests) :
    s.request? r.id = some r := by
  cases hfound : s.request? r.id with
  | none => exact absurd (List.find?_eq_none.1 hfound r hr) (by simp)
  | some q =>
    have hid : q.id = r.id := by simpa using List.find?_some hfound
    rw [List.inj_on_of_nodup_map hs (List.mem_of_find?_eq_some hfound) hr hid]

/-- Of the requests only the one with the name goes. -/
theorem exists_split (hs : (s.requests.map LockRequest.id).Nodup) (hr : r ∈ s.requests) :
    ∃ front back, s.requests = front ++ r :: back ∧
      s.requests.filter (fun q => q.id ≠ r.id) = front ++ back := by
  obtain ⟨front, back, hsplit⟩ := List.append_of_mem hr
  refine ⟨front, back, hsplit, ?_⟩
  rw [hsplit, List.map_append, List.map_cons, List.nodup_middle, List.nodup_cons,
    List.mem_append, not_or] at hs
  have hkeep {part : List LockRequest} (h : r.id ∉ part.map LockRequest.id) :
      part.filter (fun q => q.id ≠ r.id) = part := by
    refine List.filter_eq_self.2 fun q hq => ?_
    have hne : q.id ≠ r.id := fun e => h (e ▸ List.mem_map_of_mem hq)
    simpa using hne
  rw [hsplit, List.filter_append, List.filter_cons_of_neg (by simp), hkeep hs.1.1, hkeep hs.1.2]

theorem queue_eq (hs : (s.requests.map LockRequest.id).Nodup) (hr : r ∈ s.requests)
    (hstage : r.stage = .fetched) : ∃ front back, s.requests = front ++ r :: back ∧
      s.queue r.id = { s with requests := front ++ back ++ [{ r with stage := .waiting }] } := by
  obtain ⟨front, back, hsplit, hothers⟩ := exists_split hs hr
  refine ⟨front, back, hsplit, ?_⟩
  rw [queue, request?_eq_some hs hr]
  simp only [if_pos hstage, hothers]

theorem perm_requeued (front back : List LockRequest) (q : LockRequest) :
    (front ++ back ++ [q]).Perm (front ++ q :: back) := by
  rw [List.append_assoc]
  exact List.Perm.append_left front (List.perm_append_singleton _ _)

/-- A request that comes to another stage stays one for its document. -/
theorem exists_of_restaged {front back requests : List LockRequest} {stage : LockStage}
    (hsplit : s.requests = front ++ r :: back)
    (hperm : requests.Perm (front ++ { r with stage } :: back)) {uri : String}
    (h : ∃ q ∈ s.requests, q.uri = uri) : ∃ q ∈ requests, q.uri = uri := by
  obtain ⟨q, hq, huri⟩ := h
  rw [hsplit, List.mem_append, List.mem_cons] at hq
  rcases hq with hq | rfl | hq
  · exact ⟨q, hperm.mem_iff.2 (by simp [hq]), huri⟩
  · exact ⟨{ q with stage }, hperm.mem_iff.2 (by simp), huri⟩
  · exact ⟨q, hperm.mem_iff.2 (by simp [hq]), huri⟩

theorem release_eq (hs : (s.requests.map LockRequest.id).Nodup) (hr : r ∈ s.requests) :
    ∃ front back, s.requests = front ++ r :: back ∧
      s.release r.id = { s with requests := front ++ back } := by
  obtain ⟨front, back, hsplit, hothers⟩ := exists_split hs hr
  exact ⟨front, back, hsplit, by rw [release, hothers]⟩

/-- The first one who waits for a lock is the one who gets it. -/
theorem grantFirst_eq {lock : Nat} {requests : List LockRequest}
    (h : ∃ r ∈ requests, r.lock = lock ∧ r.stage = .waiting) :
    ∃ front r back, requests = front ++ r :: back ∧ (r.lock = lock ∧ r.stage = .waiting) ∧
      (∀ q ∈ front, ¬(q.lock = lock ∧ q.stage = .waiting)) ∧
      grantFirst lock requests = front ++ { r with stage := .holding } :: back := by
  induction requests with
  | nil => obtain ⟨r, hr, -⟩ := h; cases hr
  | cons q rest ih =>
    by_cases hq : q.lock = lock ∧ q.stage = .waiting
    · exact ⟨[], q, rest, rfl, hq, nofun, by rw [grantFirst, if_pos hq]; rfl⟩
    · obtain ⟨front, r, back, hsplit, hr, hfront, hgrant⟩ := ih (by
        obtain ⟨r, hr, hwaits⟩ := h
        rcases List.mem_cons.1 hr with rfl | hr
        · exact absurd hwaits hq
        · exact ⟨r, hr, hwaits⟩)
      refine ⟨q :: front, r, back, by rw [hsplit, List.cons_append], hr, ?_, ?_⟩
      · rintro p (_ | ⟨_, hp⟩)
        · exact hq
        · exact hfront p hp
      · rw [grantFirst, if_neg hq, hgrant, List.cons_append]

theorem grantFirst_eq_self {lock : Nat} {requests : List LockRequest}
    (h : ∀ r ∈ requests, ¬(r.lock = lock ∧ r.stage = .waiting)) :
    grantFirst lock requests = requests := by
  induction requests with
  | nil => rfl
  | cons q rest ih =>
    rw [grantFirst, if_neg (h q List.mem_cons_self), ih fun r hr => h r (List.mem_cons_of_mem q hr)]

theorem grant_eq (hr : r ∈ s.requests) (hstage : r.stage = .waiting)
    (hfree : s.isHeld r.lock = false) : ∃ front q back, s.requests = front ++ q :: back ∧
      (q.lock = r.lock ∧ q.stage = .waiting) ∧
      (∀ p ∈ front, ¬(p.lock = r.lock ∧ p.stage = .waiting)) ∧
      s.grant r.lock = { s with requests := front ++ { q with stage := .holding } :: back } := by
  obtain ⟨front, q, back, hsplit, hq, hfront, hgrant⟩ := grantFirst_eq ⟨r, hr, rfl, hstage⟩
  refine ⟨front, q, back, hsplit, hq, hfront, ?_⟩
  rw [grant, hfree, if_neg Bool.false_ne_true, hgrant]

theorem isHeld_eq_false_iff {lock : Nat} :
    s.isHeld lock = false ↔ ∀ q ∈ s.requests, q.lock = lock → q.stage ≠ .holding := by
  simp [isHeld]

theorem requests_reclaim (s : DocumentLocks) (uri : String) :
    (s.reclaim uri).requests = s.requests := by
  unfold reclaim
  split
  · split <;> rfl
  · rfl

theorem nextLock_reclaim (s : DocumentLocks) (uri : String) :
    (s.reclaim uri).nextLock = s.nextLock := by
  unfold reclaim
  split
  · split <;> rfl
  · rfl

theorem fetch_eq (s : DocumentLocks) (id uri : String) : ∃ lock,
    (s.fetch id uri).requests = s.requests ++ [⟨id, uri, lock, .fetched⟩] ∧
    ∀ u, u ≠ uri → (s.fetch id uri).current.get? u = s.current.get? u := by
  unfold fetch
  split
  next lock _ => exact ⟨lock, rfl, fun _ _ => rfl⟩
  next =>
    refine ⟨s.nextLock, rfl, fun u hu => ?_⟩
    rw [OrderedMap.get?_insert, if_neg hu]

/-! ## Steps keep locks consistent -/

namespace Consistent

theorem fetch (hs : s.Consistent) {id uri : String} (hnew : ∀ r ∈ s.requests, r.id ≠ id) :
    (s.fetch id uri).Consistent := by
  have hdistinct (q : LockRequest) (hq : q.id = id) :
      ((s.requests ++ [q]).map LockRequest.id).Nodup := by
    rw [List.map_append, List.map_singleton, ← List.concat_eq_append]
    refine List.Nodup.concat ?_ hs.distinct
    rw [hq, List.mem_map]
    rintro ⟨r, hr, hid⟩
    exact hnew r hr hid
  have hsingle (q : LockRequest) (hq : q.stage = .fetched) : ∀ r ∈ s.requests ++ [q],
      ∀ r' ∈ s.requests ++ [q], r.stage = .holding → r'.stage = .holding → r.lock = r'.lock →
        r = r' := by
    have hold {r : LockRequest} (hr : r ∈ s.requests ++ [q]) (hholds : r.stage = .holding) :
        r ∈ s.requests := by
      rcases List.mem_append.1 hr with hr | hr
      · exact hr
      · rw [List.mem_singleton.1 hr, hq] at hholds
        cases hholds
    intro r hr r' hr' hholds hholds' hlock
    exact hs.single r (hold hr hholds) r' (hold hr' hholds') hholds hholds' hlock
  unfold DocumentLocks.fetch
  cases hget : s.current.get? uri with
  | some lock =>
    refine ⟨hdistinct _ rfl, ?_, hs.apart, hs.made, hsingle _ rfl⟩
    intro r hr
    rcases List.mem_append.1 hr with hr | hr
    · exact hs.inMap r hr
    · rw [List.mem_singleton.1 hr]
      exact hget
  | none =>
    have hold {u : String} {lock : Nat}
        (h : (s.current.insert uri s.nextLock).get? u = some lock) (hne : lock ≠ s.nextLock) :
        s.current.get? u = some lock := by
      rw [OrderedMap.get?_insert] at h
      split at h
      · exact absurd (Option.some.inj h).symm hne
      · exact h
    have hthere {u : String} (h : (s.current.insert uri s.nextLock).get? u = some s.nextLock) :
        u = uri := by
      rw [OrderedMap.get?_insert] at h
      split at h
      · assumption
      · exact absurd (hs.made _ _ h) (Nat.lt_irrefl _)
    refine ⟨hdistinct _ rfl, ?_, ?_, ?_, hsingle _ rfl⟩
    · intro r hr
      simp only [OrderedMap.get?_insert]
      rcases List.mem_append.1 hr with hr | hr
      · have hne : r.uri ≠ uri := by
          intro e
          have hmap := hs.inMap r hr
          rw [e, hget] at hmap
          cases hmap
        rw [if_neg hne]
        exact hs.inMap r hr
      · rw [List.mem_singleton.1 hr, if_pos rfl]
    · intro u u' lock h h'
      by_cases hlock : lock = s.nextLock
      · subst hlock
        rw [hthere h, hthere h']
      · exact hs.apart u u' lock (hold h hlock) (hold h' hlock)
    · intro u lock h
      by_cases hlock : lock = s.nextLock
      · exact hlock ▸ Nat.lt_succ_self _
      · exact Nat.lt_succ_of_lt (hs.made u lock (hold h hlock))

/-- A request comes to another stage. It may hold a lock that nobody holds. -/
theorem restage (hs : s.Consistent) {front back requests : List LockRequest}
    (stage : LockStage) (hsplit : s.requests = front ++ r :: back)
    (hfree : stage = .holding → s.isHeld r.lock = false)
    (hperm : requests.Perm (front ++ { r with stage } :: back)) :
    Consistent { s with requests } := by
  have hr : r ∈ s.requests := by simp [hsplit]
  have hmem (q : LockRequest) (hq : q ∈ requests) : q ∈ s.requests ∨ q = { r with stage } := by
    have hthere := hperm.mem_iff.1 hq
    simp only [hsplit, List.mem_append, List.mem_cons] at hthere ⊢
    tauto
  have hnew {q : LockRequest} (hq : q ∈ s.requests) (hholds : q.stage = .holding)
      (hstage : stage = .holding) (hlock : q.lock = r.lock) : False :=
    isHeld_eq_false_iff.1 (hfree hstage) q hq hlock hholds
  refine ⟨?_, ?_, hs.apart, hs.made, ?_⟩
  · have hids := hs.distinct
    rw [hsplit] at hids
    refine (hperm.map LockRequest.id).nodup_iff.2 ?_
    simpa using hids
  · intro q hq
    rcases hmem q hq with hq | rfl
    · exact hs.inMap q hq
    · exact hs.inMap r hr
  · intro q hq q' hq' hholds hholds' hlock
    rcases hmem q hq with hq | rfl
    · rcases hmem q' hq' with hq' | rfl
      · exact hs.single q hq q' hq' hholds hholds' hlock
      · exact (hnew hq hholds hholds' hlock).elim
    · rcases hmem q' hq' with hq' | rfl
      · exact (hnew hq' hholds' hholds hlock.symm).elim
      · rfl

theorem queue (hs : s.Consistent) (hr : r ∈ s.requests) (hstage : r.stage = .fetched) :
    (s.queue r.id).Consistent := by
  obtain ⟨front, back, hsplit, hqueue⟩ := queue_eq hs.distinct hr hstage
  rw [hqueue]
  exact hs.restage .waiting hsplit nofun (perm_requeued front back _)

theorem grant (hs : s.Consistent) (hr : r ∈ s.requests) (hstage : r.stage = .waiting)
    (hfree : s.isHeld r.lock = false) : (s.grant r.lock).Consistent := by
  obtain ⟨front, q, back, hsplit, hq, -, hgrant⟩ := grant_eq hr hstage hfree
  rw [hgrant]
  exact hs.restage .holding hsplit (fun _ => hq.1 ▸ hfree) (List.Perm.refl _)

theorem release (hs : s.Consistent) (id : String) : (s.release id).Consistent where
  distinct := hs.distinct.sublist (List.filter_sublist.map _)
  inMap r hr := hs.inMap r (List.mem_filter.1 hr).1
  apart := hs.apart
  made := hs.made
  single r hr r' hr' := hs.single r (List.mem_filter.1 hr).1 r' (List.mem_filter.1 hr').1

/-- A lock leaves the map with the last handle on it. -/
theorem get?_reclaim (hs : s.Consistent) (uri uri' : String) :
    (s.reclaim uri).current.get? uri' =
      if uri' = uri ∧ ∀ r ∈ s.requests, r.uri ≠ uri then none else s.current.get? uri' := by
  unfold DocumentLocks.reclaim
  cases hget : s.current.get? uri with
  | none =>
    have hempty : uri' = uri → s.current.get? uri' = none := fun e => e ▸ hget
    split <;> simp_all
  | some lock =>
    have hany : s.requests.any (fun r => r.lock = lock) = true ↔ ∃ r ∈ s.requests, r.uri = uri := by
      simp only [List.any_eq_true, decide_eq_true_eq]
      refine exists_congr fun r => and_congr_right fun hr => ?_
      constructor
      · intro hlock
        exact hs.apart _ _ lock (hlock ▸ hs.inMap r hr) hget
      · intro huri
        have hmap := hs.inMap r hr
        rw [huri, hget] at hmap
        exact (Option.some.inj hmap).symm
    simp only
    split
    next h =>
      obtain ⟨r, hr, huri⟩ := hany.1 h
      rw [if_neg fun hall => hall.2 r hr huri]
    next h =>
      have hnone : ∀ r ∈ s.requests, r.uri ≠ uri := fun r hr e => h (hany.2 ⟨r, hr, e⟩)
      rw [OrderedMap.get?_erase]
      simp only [and_iff_left hnone]

theorem reclaim (hs : s.Consistent) (uri : String) : (s.reclaim uri).Consistent := by
  have hold {u : String} {lock : Nat} (h : (s.reclaim uri).current.get? u = some lock) :
      s.current.get? u = some lock := by
    rw [hs.get?_reclaim] at h
    split at h
    · cases h
    · exact h
  have hrequests := requests_reclaim s uri
  refine ⟨hrequests ▸ hs.distinct, ?_, fun u u' lock h h' => hs.apart u u' lock (hold h) (hold h'),
    ?_, hrequests ▸ hs.single⟩
  · intro r hr
    rw [hrequests] at hr
    rw [hs.get?_reclaim, if_neg fun h => h.2 r hr h.1]
    exact hs.inMap r hr
  · intro u lock h
    rw [nextLock_reclaim]
    exact hs.made u lock (hold h)

end Consistent
end DocumentLocks

/-! ## Runs of steps -/

/-- The locks of documents, and the requests that have given a lock back but have not looked yet
whether it can leave the map, each with its document. -/
structure LockState where
  locks : DocumentLocks
  leaving : List (String × String)

namespace LockState

/-- One step of a request for the lock of a document: it takes a handle on the lock, which is made
if there is none; it begins to wait; the one who has waited longest gets a lock that is free; it
gives the lock back; it takes the lock out of the map if nobody has a handle on it. -/
inductive Step : String → LockState → LockState → Prop where
  | fetch {s : LockState} {id uri : String} (hnew : ∀ r ∈ s.locks.requests, r.id ≠ id)
      (hgone : ∀ u, (id, u) ∉ s.leaving) :
      Step uri s ⟨s.locks.fetch id uri, s.leaving⟩
  | queue {s : LockState} {r : LockRequest} (hr : r ∈ s.locks.requests)
      (hstage : r.stage = .fetched) :
      Step r.uri s ⟨s.locks.queue r.id, s.leaving⟩
  | grant {s : LockState} {r : LockRequest} (hr : r ∈ s.locks.requests)
      (hstage : r.stage = .waiting) (hfree : s.locks.isHeld r.lock = false) :
      Step r.uri s ⟨s.locks.grant r.lock, s.leaving⟩
  | release {s : LockState} {r : LockRequest} (hr : r ∈ s.locks.requests)
      (hstage : r.stage = .holding) :
      Step r.uri s ⟨s.locks.release r.id, (r.id, r.uri) :: s.leaving⟩
  | reclaim {s : LockState} {id uri : String} (hleaving : (id, uri) ∈ s.leaving) :
      Step uri s ⟨s.locks.reclaim uri, s.leaving.erase (id, uri)⟩

/-- The states that steps of any requests lead to when there are none at first. -/
inductive Reached : LockState → Prop where
  | start : Reached ⟨.empty, []⟩
  | step {s s' : LockState} {uri : String} (hs : Reached s) (h : Step uri s s') : Reached s'

/-- Besides, whatever lock is in the map somebody will still look at. -/
structure Sound (s : LockState) : Prop where
  consistent : s.locks.Consistent
  needed : ∀ uri lock, s.locks.current.get? uri = some lock →
    (∃ r ∈ s.locks.requests, r.uri = uri) ∨ ∃ id, (id, uri) ∈ s.leaving

variable {s s' : LockState} {uri : String}

theorem sound_step (hs : s.Sound) (h : Step uri s s') : s'.Sound := by
  cases h with
  | @fetch _ id _ hnew _ =>
    refine ⟨hs.consistent.fetch hnew, fun u lock hget => ?_⟩
    obtain ⟨made, hrequests, hothers⟩ := DocumentLocks.fetch_eq s.locks id uri
    rw [hrequests]
    by_cases hu : u = uri
    · exact .inl ⟨_, List.mem_append_right _ List.mem_cons_self, hu.symm⟩
    · rw [hothers u hu] at hget
      exact (hs.needed u lock hget).imp_left fun ⟨r, hr, huri⟩ =>
        ⟨r, List.mem_append_left _ hr, huri⟩
  | @queue _ r hr hstage =>
    refine ⟨hs.consistent.queue hr hstage, fun u lock hget => ?_⟩
    obtain ⟨front, back, hsplit, hqueue⟩ :=
      DocumentLocks.queue_eq hs.consistent.distinct hr hstage
    rw [hqueue] at hget ⊢
    exact (hs.needed u lock hget).imp_left
      (DocumentLocks.exists_of_restaged hsplit (DocumentLocks.perm_requeued front back _))
  | @grant _ r hr hstage hfree =>
    refine ⟨hs.consistent.grant hr hstage hfree, fun u lock hget => ?_⟩
    obtain ⟨front, p, back, hsplit, -, -, hgrant⟩ := DocumentLocks.grant_eq hr hstage hfree
    rw [hgrant] at hget ⊢
    exact (hs.needed u lock hget).imp_left
      (DocumentLocks.exists_of_restaged hsplit (List.Perm.refl _))
  | @release _ r hr hstage =>
    refine ⟨hs.consistent.release r.id, fun u lock hget => ?_⟩
    rcases hs.needed u lock hget with ⟨q, hq, huri⟩ | ⟨id, hid⟩
    · by_cases hid : q.id = r.id
      · refine .inr ⟨r.id, ?_⟩
        rw [← huri, List.inj_on_of_nodup_map hs.consistent.distinct hq hr hid]
        exact List.mem_cons_self
      · exact .inl ⟨q, List.mem_filter.2 ⟨hq, by simpa using hid⟩, huri⟩
    · exact .inr ⟨id, List.mem_cons_of_mem _ hid⟩
  | @reclaim _ id _ hleaving =>
    refine ⟨hs.consistent.reclaim uri, fun u lock hget => ?_⟩
    rw [hs.consistent.get?_reclaim] at hget
    rw [DocumentLocks.requests_reclaim]
    split at hget
    next => cases hget
    next hkept =>
      by_cases hu : u = uri
      · subst hu
        by_contra hnone
        rw [not_or] at hnone
        exact hkept ⟨rfl, fun r hr e => hnone.1 ⟨r, hr, e⟩⟩
      · refine (hs.needed u lock hget).imp_right fun ⟨i, hi⟩ => ⟨i, ?_⟩
        exact (List.mem_erase_of_ne fun e => hu (Prod.mk.inj e).2).2 hi

theorem Reached.sound (h : Reached s) : s.Sound := by
  induction h with
  | start => exact ⟨DocumentLocks.consistent_empty, fun _ _ h => by cases h⟩
  | step _ h ih => exact sound_step ih h

/-! ## Documents apart from each other -/

/-- Who waits for the lock of a document, the one who has waited longest first. -/
def line (s : LockState) (uri : String) : List LockRequest :=
  s.locks.requests.filter fun r => r.uri = uri ∧ r.stage = .waiting

namespace Sound

theorem lock_eq_iff (hs : s.Sound) {r r' : LockRequest} (hr : r ∈ s.locks.requests)
    (hr' : r' ∈ s.locks.requests) : r.lock = r'.lock ↔ r.uri = r'.uri := by
  have hmap := hs.consistent.inMap r hr
  have hmap' := hs.consistent.inMap r' hr'
  constructor
  · intro h
    exact hs.consistent.apart _ _ _ hmap (h ▸ hmap')
  · intro h
    rw [h, hmap'] at hmap
    exact (Option.some.inj hmap).symm

/-- What is there of one document stays as it is while requests for others go on. -/
theorem others_step (hs : s.Sound) (h : Step uri s s') {other : String} (hother : other ≠ uri) :
    s'.locks.requests.filter (fun r => r.uri = other) =
        s.locks.requests.filter (fun r => r.uri = other) ∧
      s'.locks.current.get? other = s.locks.current.get? other ∧
      ∀ id, (id, other) ∈ s'.leaving ↔ (id, other) ∈ s.leaving := by
  cases h with
  | @fetch _ id _ hnew _ =>
    obtain ⟨lock, hrequests, hothers⟩ := DocumentLocks.fetch_eq s.locks id uri
    refine ⟨?_, hothers other hother, fun _ => Iff.rfl⟩
    rw [hrequests, List.filter_append, List.filter_singleton]
    simp [hother.symm]
  | @queue _ r hr hstage =>
    obtain ⟨front, back, hsplit, hqueue⟩ :=
      DocumentLocks.queue_eq hs.consistent.distinct hr hstage
    rw [hqueue, hsplit]
    exact ⟨by simp [hother.symm], rfl, fun _ => Iff.rfl⟩
  | @grant _ r hr hstage hfree =>
    obtain ⟨front, q, back, hsplit, hq, -, hgrant⟩ := DocumentLocks.grant_eq hr hstage hfree
    have huri : q.uri = r.uri := (hs.lock_eq_iff (by simp [hsplit]) hr).1 hq.1
    rw [hgrant, hsplit]
    exact ⟨by simp [huri, hother.symm], rfl, fun _ => Iff.rfl⟩
  | @release _ r hr hstage =>
    obtain ⟨front, back, hsplit, hrelease⟩ :=
      DocumentLocks.release_eq hs.consistent.distinct hr
    rw [hrelease, hsplit]
    exact ⟨by simp [hother.symm], rfl, fun id => by simp [hother]⟩
  | @reclaim _ id _ hleaving =>
    refine ⟨by rw [DocumentLocks.requests_reclaim], ?_, fun i => ?_⟩
    · rw [hs.consistent.get?_reclaim, if_neg fun hall => hother hall.1]
    · exact List.mem_erase_of_ne fun e => hother (Prod.mk.inj e).2

/-- A lock that is given away goes to the first in line. -/
theorem line_grant (hs : s.Sound) {r : LockRequest} (hr : r ∈ s.locks.requests)
    (hwaits : r.stage = .waiting) (hfree : s.locks.isHeld r.lock = false) :
    ∃ first, s.line r.uri = first :: line ⟨s.locks.grant r.lock, s.leaving⟩ r.uri ∧
      { first with stage := .holding } ∈ (s.locks.grant r.lock).requests := by
  obtain ⟨front, q, back, hsplit, hq, hfront, hgrant⟩ := DocumentLocks.grant_eq hr hwaits hfree
  have hlock {p : LockRequest} (hp : p ∈ s.locks.requests) :
      p.lock = r.lock ↔ p.uri = r.uri := hs.lock_eq_iff hp hr
  have huri : q.uri = r.uri := (hlock (by simp [hsplit])).1 hq.1
  have hnone : front.filter (fun p => p.uri = r.uri ∧ p.stage = .waiting) = [] := by
    refine List.filter_eq_nil_iff.2 fun p hp => ?_
    have hnot := hfront p hp
    rw [hlock (by simp [hsplit, hp])] at hnot
    simpa using hnot
  refine ⟨q, ?_, by rw [hgrant]; simp⟩
  rw [line, line, hgrant, hsplit, List.filter_append, List.filter_append, hnone]
  simp [huri, hq.2]

/-- A line gets longer at its end and shorter at its front, where the lock goes. -/
theorem line_step (hs : s.Sound) (h : Step uri s s') : s'.line uri = s.line uri ∨
    (∃ r, s'.line uri = s.line uri ++ [r]) ∨
    ∃ r, s.line uri = r :: s'.line uri ∧ { r with stage := .holding } ∈ s'.locks.requests := by
  cases h with
  | @fetch _ id _ hnew _ =>
    obtain ⟨lock, hrequests, -⟩ := DocumentLocks.fetch_eq s.locks id uri
    refine .inl ?_
    rw [line, hrequests, List.filter_append]
    simp [line]
  | @queue _ r hr hstage =>
    obtain ⟨front, back, hsplit, hqueue⟩ :=
      DocumentLocks.queue_eq hs.consistent.distinct hr hstage
    refine .inr (.inl ⟨{ r with stage := .waiting }, ?_⟩)
    rw [line, line, hqueue, hsplit]
    simp [hstage]
  | grant hr hstage hfree => exact .inr (.inr (hs.line_grant hr hstage hfree))
  | @release _ r hr hstage =>
    obtain ⟨front, back, hsplit, hrelease⟩ :=
      DocumentLocks.release_eq hs.consistent.distinct hr
    refine .inl ?_
    rw [line, line, hrelease, hsplit]
    simp [hstage]
  | @reclaim _ id _ hleaving =>
    refine .inl ?_
    rw [line, DocumentLocks.requests_reclaim, line]

/-- Who waits does so for others with the same document: where none of them holds the lock, the
first in line can have it. -/
theorem exists_grant (hs : s.Sound) {r : LockRequest} (hr : r ∈ s.locks.requests)
    (hwaits : r.stage = .waiting)
    (hfree : ∀ q ∈ s.locks.requests, q.uri = r.uri → q.stage ≠ .holding) :
    ∃ first s', Step r.uri s s' ∧ s.line r.uri = first :: s'.line r.uri ∧
      { first with stage := .holding } ∈ s'.locks.requests := by
  have hnot : s.locks.isHeld r.lock = false := by
    refine DocumentLocks.isHeld_eq_false_iff.2 fun q hq hlock => hfree q hq ?_
    exact (hs.lock_eq_iff hq hr).1 hlock
  obtain ⟨first, hline, hholds⟩ := hs.line_grant hr hwaits hnot
  exact ⟨first, _, .grant hr hwaits hnot, hline, hholds⟩

theorem eq_of_holding (hs : s.Sound) {r r' : LockRequest} (hr : r ∈ s.locks.requests)
    (hr' : r' ∈ s.locks.requests) (hholds : r.stage = .holding) (hholds' : r'.stage = .holding)
    (huri : r.uri = r'.uri) : r = r' :=
  hs.consistent.single r hr r' hr' hholds hholds' ((hs.lock_eq_iff hr hr').2 huri)

theorem get?_eq_none (hs : s.Sound) (hrequests : ∀ r ∈ s.locks.requests, r.uri ≠ uri)
    (hleaving : ∀ id, (id, uri) ∉ s.leaving) : s.locks.current.get? uri = none := by
  cases hget : s.locks.current.get? uri with
  | none => rfl
  | some lock =>
    rcases hs.needed uri lock hget with ⟨r, hr, huri⟩ | ⟨id, hid⟩
    · exact absurd huri (hrequests r hr)
    · exact absurd hid (hleaving id)

end Sound

/-! ## Whole calls -/

/-- To ask for a lock without others in between is a run of steps. -/
theorem reached_lock {d : DocumentLocks} {leaving : List (String × String)} (id uri : String)
    (h : Reached ⟨d, leaving⟩) (hnew : ∀ r ∈ d.requests, r.id ≠ id)
    (hgone : ∀ u, (id, u) ∉ leaving) : Reached ⟨d.lock id uri, leaving⟩ := by
  obtain ⟨lock, hrequests, -⟩ := DocumentLocks.fetch_eq d id uri
  have hfetched : Reached ⟨d.fetch id uri, leaving⟩ := h.step (.fetch hnew hgone)
  have hmem : ⟨id, uri, lock, .fetched⟩ ∈ (d.fetch id uri).requests := by simp [hrequests]
  have hqueued := hfetched.step (.queue hmem rfl)
  obtain ⟨front, back, hsplit, hqueue⟩ :=
    DocumentLocks.queue_eq hfetched.sound.consistent.distinct hmem rfl
  have hwaiting : ⟨id, uri, lock, .waiting⟩ ∈ ((d.fetch id uri).queue id).requests := by
    simp [hqueue]
  have hfound := DocumentLocks.request?_eq_some hqueued.sound.consistent.distinct hwaiting
  rw [DocumentLocks.lock]
  simp only [hfound]
  cases hheld : ((d.fetch id uri).queue id).isHeld lock with
  | true =>
    rw [DocumentLocks.grant, if_pos hheld]
    exact hqueued
  | false =>
    have hstep : Step uri ⟨(d.fetch id uri).queue id, leaving⟩
        ⟨((d.fetch id uri).queue id).grant lock, leaving⟩ :=
      .grant (r := ⟨id, uri, lock, .waiting⟩) hwaiting rfl hheld
    exact hqueued.step hstep

/-- To give a lock back without others in between is a run of steps. -/
theorem reached_drop {d : DocumentLocks} {leaving : List (String × String)} {r : LockRequest}
    (h : Reached ⟨d, leaving⟩) (hr : r ∈ d.requests) (hholds : r.stage = .holding) :
    Reached ⟨d.drop r.id, leaving⟩ := by
  have hreleased := h.step (.release hr hholds)
  have hreclaimed := hreleased.step (.reclaim List.mem_cons_self)
  rw [List.erase_cons_head] at hreclaimed
  have hfound := DocumentLocks.request?_eq_some h.sound.consistent.distinct hr
  rw [DocumentLocks.drop, hfound]
  simp only [if_pos hholds]
  rw [DocumentLocks.grant]
  split
  next => exact hreclaimed
  next hheld =>
    by_cases hwaits : ∃ q ∈ ((d.release r.id).reclaim r.uri).requests,
        q.lock = r.lock ∧ q.stage = .waiting
    · obtain ⟨q, hq, hlock, hstage⟩ := hwaits
      have hfree : ((d.release r.id).reclaim r.uri).isHeld q.lock = false := by
        rw [hlock]
        simpa using hheld
      have hgranted := hreclaimed.step (.grant hq hstage hfree)
      rwa [DocumentLocks.grant, if_neg (by simp [hfree]), hlock] at hgranted
    · rw [DocumentLocks.grantFirst_eq_self fun q hq hw => hwaits ⟨q, hq, hw⟩]
      exact hreclaimed

end LockState

/-- Wherever steps of requests lead to, in any order: one request at most holds the lock of a
document, and everybody with a handle has it on the one lock that the map has for it. A lock that
no request has asked for, waits for, holds or is about to look at is not in the map. A request
that waits has another for its document that holds the lock, or the first in its line can get it
at once. And a step for one document changes nothing for others, while the line for its own only
gets longer at the end or gives its first the lock, so that nobody who waits is lost. -/
theorem locks_exclude_and_leave {s : LockState} (h : s.Reached) :
    (∀ r ∈ s.locks.requests, ∀ r' ∈ s.locks.requests, r.stage = .holding → r'.stage = .holding →
      r.uri = r'.uri → r = r') ∧
    (∀ r ∈ s.locks.requests, s.locks.current.get? r.uri = some r.lock ∧
      ∀ r' ∈ s.locks.requests, r.lock = r'.lock ↔ r.uri = r'.uri) ∧
    (∀ uri, (∀ r ∈ s.locks.requests, r.uri ≠ uri) → (∀ id, (id, uri) ∉ s.leaving) →
      s.locks.current.get? uri = none) ∧
    (∀ r ∈ s.locks.requests, r.stage = .waiting →
      (∃ q ∈ s.locks.requests, q.uri = r.uri ∧ q.stage = .holding) ∨
      ∃ first s', LockState.Step r.uri s s' ∧ s.line r.uri = first :: s'.line r.uri ∧
        { first with stage := .holding } ∈ s'.locks.requests) ∧
    ∀ uri s', LockState.Step uri s s' →
      (∀ other, other ≠ uri →
        s'.locks.requests.filter (fun r => r.uri = other) =
          s.locks.requests.filter (fun r => r.uri = other) ∧
        s'.locks.current.get? other = s.locks.current.get? other ∧
        ∀ id, (id, other) ∈ s'.leaving ↔ (id, other) ∈ s.leaving) ∧
      (s'.line uri = s.line uri ∨ (∃ r, s'.line uri = s.line uri ++ [r]) ∨
        ∃ r, s.line uri = r :: s'.line uri ∧
          { r with stage := .holding } ∈ s'.locks.requests) := by
  have hs := h.sound
  refine ⟨fun r hr r' hr' => hs.eq_of_holding hr hr',
    fun r hr => ⟨hs.consistent.inMap r hr, fun r' hr' => hs.lock_eq_iff hr hr'⟩,
    fun uri => hs.get?_eq_none, fun r hr hwaits => ?_,
    fun uri s' hstep => ⟨fun other => hs.others_step hstep, hs.line_step hstep⟩⟩
  by_cases hheld : ∃ q ∈ s.locks.requests, q.uri = r.uri ∧ q.stage = .holding
  · exact .inl hheld
  · exact .inr (hs.exists_grant hr hwaits fun q hq huri hholds => hheld ⟨q, hq, huri, hholds⟩)

/-- The first request gives its lock back while the second one has a handle on it, and looks at the
map only when the second one has taken the lock out of it and a third one has it made anew. -/
theorem locks_exclude_and_leave_made_anew :
    let locks := (((DocumentLocks.empty.lock "a" "u").fetch "b" "u").release "a").queue "b"
    let locks := ((((locks.grant 0).release "b").reclaim "u").lock "c" "u").reclaim "u"
    LockState.Reached ⟨locks, []⟩ ∧ locks.requests = [⟨"c", "u", 1, .holding⟩] ∧
      (∀ r ∈ locks.requests, r.stage = .holding → r.uri = "u" →
        r = ⟨"c", "u", 1, .holding⟩) ∧
      locks.current.get? "u" = some 1 ∧ locks.current.get? "v" = none := by
  intro second locks
  have hheld := LockState.reached_lock "a" "u" .start nofun nofun
  have hfetched : LockState.Reached ⟨(DocumentLocks.empty.lock "a" "u").fetch "b" "u", []⟩ :=
    hheld.step (.fetch (by decide +kernel) nofun)
  have hreleased := hfetched.step
    (.release (r := ⟨"a", "u", 0, .holding⟩) (by decide +kernel) rfl)
  have hqueued := hreleased.step
    (.queue (r := ⟨"b", "u", 0, .fetched⟩) (by decide +kernel) rfl)
  have hgranted := hqueued.step
    (.grant (r := ⟨"b", "u", 0, .waiting⟩) (by decide +kernel) rfl (by decide +kernel))
  have hdone := hgranted.step
    (.release (r := ⟨"b", "u", 0, .holding⟩) (by decide +kernel) rfl)
  have hgone := hdone.step (.reclaim List.mem_cons_self)
  have hanew := LockState.reached_lock "c" "u" hgone (by decide +kernel) (by simp)
  have hreached := hanew.step (.reclaim List.mem_cons_self)
  have hrequests : locks.requests = [⟨"c", "u", 1, .holding⟩] := by decide +kernel
  obtain ⟨hsingle, hmap, habsent, -⟩ := locks_exclude_and_leave hreached
  have hthird : (⟨"c", "u", 1, .holding⟩ : LockRequest) ∈ locks.requests := by
    rw [hrequests]
    exact List.mem_cons_self
  refine ⟨hreached, hrequests, fun r hr hholds huri => hsingle r hr _ hthird hholds rfl huri,
    (hmap _ hthird).1, habsent "v" (fun r hr => ?_) nofun⟩
  have hr' : r ∈ locks.requests := hr
  rw [hrequests, List.mem_singleton] at hr'
  rw [hr']
  decide

end PhpIndex
