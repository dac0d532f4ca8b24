import OpcHub.Lib.Runs
import Mathlib.Data.List.Nodup
import Mathlib.Logic.Function.Basic

/-! The coroutines' mutex, which the daily log's file is held by. Its queue runs through the
awaiters themselves, each with a link to the next, and an unlock hands the lock over without
letting it go. Every run of it is a run of a plain line, joined at the end and left at the front,
as the log's model has it. -/

namespace OpcHub.Fwk

open Lib List Function

variable {W : Type*} [DecidableEq W]

structure CoMutex (W : Type*) where
  locked : Bool := false
  head : Option W := none
  tail : Option W := none
  /-- Each awaiter's `_next`. -/
  next : W → Option W := fun _ => none

namespace CoMutex

variable (m : CoMutex W)

def tryLock : CoMutex W × Bool := if m.locked then (m, false) else ({ m with locked := true }, true)

/-- False: queued. -/
def acquire (waiter : W) : CoMutex W × Bool :=
  if m.locked = false then ({ m with locked := true }, true)
  else match m.tail with
    | some last => ({ m with next := Function.update m.next last (some waiter), tail := some waiter }, false)
    | none => ({ m with head := some waiter, tail := some waiter }, false)

/-- The awaiter the lock is handed to, whose resumption is posted. -/
def unlock : CoMutex W × Option W :=
  match m.head with
  | some waiter => ({ m with head := m.next waiter, tail := if m.next waiter = none then none else m.tail }, some waiter)
  | none => ({ m with locked := false }, none)

end CoMutex

/-- A mutex in use. Every Lock and TryLock has an awaiter or guard of its own. -/
structure Locking (W : Type*) where
  mutex : CoMutex W := {}
  started : List W := []
  /-- With a guard that holds the lock, and with a resumption posted that will. -/
  holders : List W := []
  posted : List W := []

inductive LockEvent (W : Type*) where
  | lock (w : W)
  | tryLock (w : W)
  | resume (w : W)
  | unlock (w : W)

/-- What asking for the lock came to: true with the lock. -/
def Locking.enter (s : Locking W) (w : W) (asked : CoMutex W × Bool) : Locking W :=
  { s with mutex := asked.1, started := w :: s.started, holders := if asked.2 then w :: s.holders else s.holders }

def lockStep (s : Locking W) : LockEvent W → Option (Locking W)
  | .lock w => if w ∈ s.started then none else some (s.enter w (s.mutex.acquire w))
  | .tryLock w => if w ∈ s.started then none else some (s.enter w s.mutex.tryLock)
  | .resume w => if w ∈ s.posted then some { s with posted := s.posted.erase w, holders := w :: s.holders } else none
  | .unlock w =>
    let (m, next) := s.mutex.unlock
    if w ∈ s.holders then some { s with mutex := m, holders := s.holders.erase w, posted := next.toList ++ s.posted } else none

/-- The line: its first has the lock. -/
def lineStep (line : List W) : LockEvent W → Option (List W)
  | .lock w => some (line ++ [w])
  | .tryLock w => some (if line = [] then [w] else line)
  | .resume w => if line.head? = some w then some line else none
  | .unlock w => if line.head? = some w then some line.tail else none

/-- The awaiters linked from a head. -/
def Chain (next : W → Option W) : Option W → List W → Prop
  | h, [] => h = none
  | h, w :: l => h = some w ∧ Chain next (next w) l

/-- The first of the line, and nobody else, has the lock or is about to; the others are linked in their order. -/
structure Lined (s : Locking W) (line : List W) : Prop where
  held : s.holders ++ s.posted = line.head?.toList
  locked : s.mutex.locked = !line.isEmpty
  chain : Chain s.mutex.next s.mutex.head line.tail
  tail : s.mutex.tail = line.tail.getLast?
  nodup : line.Nodup
  started : ∀ w ∈ line, w ∈ s.started
  fresh : ∀ w, w ∉ s.started → s.mutex.next w = none

variable {s t : Locking W} {line : List W} {next : W → Option W} {h : Option W} {w last : W} {l : List W}

/-- The last awaiter is linked to a new one. -/
theorem Chain.concat (hchain : Chain next h (l ++ [last])) (hnodup : (l ++ [last]).Nodup) (hw : w ∉ l ++ [last])
    (hnext : next w = none) : Chain (update next last (some w)) h (l ++ [last] ++ [w]) := by
  induction l generalizing h with
  | nil =>
    have hne : w ≠ last := by simpa using hw
    simp [Chain, hchain.1, hne, hnext]
  | cons a l ih =>
    have hne : a ≠ last := fun ha => (nodup_cons.mp hnodup).1 (ha ▸ mem_append_right l (mem_singleton_self _))
    refine ⟨hchain.1, ?_⟩
    rw [update_of_ne hne]
    exact ih hchain.2 (nodup_cons.mp hnodup).2 fun hmem => hw (mem_cons_of_mem a hmem)

namespace Lined

omit [DecidableEq W] in
/-- A lock that is free is taken, whether by a Lock or a TryLock. -/
theorem take (hs : Lined s []) : Lined (s.enter w ({ s.mutex with locked := true }, true)) [w] where
  held := congrArg (w :: ·) hs.held
  locked := rfl
  chain := hs.chain
  tail := hs.tail
  nodup := nodup_singleton w
  started := forall_mem_singleton.mpr mem_cons_self
  fresh v hv := hs.fresh v fun hmem => hv (mem_cons_of_mem w hmem)

/-- An awaiter is queued behind the first, or behind the last that waits. -/
theorem queue {a : W} {q : List W} (hs : Lined s (a :: q)) (hw : w ∉ s.started) :
    Lined (s.enter w (s.mutex.acquire w)) (a :: q ++ [w]) := by
  have hmem : w ∉ a :: q := fun hmem => hw (hs.started w hmem)
  have hlocked : s.mutex.locked = true := hs.locked
  have hnodup : (a :: q ++ [w]).Nodup := by
    rw [← concat_eq_append]
    exact hs.nodup.concat hmem
  have hstarted : ∀ v ∈ a :: q ++ [w], v ∈ w :: s.started :=
    forall_mem_append.mpr ⟨fun v hv => mem_cons_of_mem w (hs.started v hv), forall_mem_singleton.mpr mem_cons_self⟩
  have hfresh : ∀ v, v ∉ w :: s.started → v ∉ s.started := fun v hv hmem => hv (mem_cons_of_mem w hmem)
  rcases eq_nil_or_concat' q with rfl | ⟨l, last, rfl⟩
  · have htail : s.mutex.tail = none := hs.tail
    simp only [CoMutex.acquire, hlocked, htail, Bool.true_eq_false, if_false]
    exact ⟨hs.held, rfl, ⟨rfl, hs.fresh w hw⟩, rfl, hnodup, hstarted, fun v hv => hs.fresh v (hfresh v hv)⟩
  · have htail : s.mutex.tail = some last := hs.tail.trans getLast?_concat
    simp only [CoMutex.acquire, hlocked, htail, Bool.true_eq_false, if_false]
    refine ⟨hs.held, rfl, hs.chain.concat (nodup_cons.mp hs.nodup).2 (not_mem_of_not_mem_cons hmem) (hs.fresh w hw),
      getLast?_concat.symm, hnodup, hstarted, fun v hv => ?_⟩
    have hlast : last ∈ s.started := hs.started last (mem_cons_of_mem a mem_concat_self)
    have hne : v ≠ last := fun heq => hfresh v hv (heq ▸ hlast)
    exact (update_of_ne hne _ _).trans (hs.fresh v (hfresh v hv))

/-- The lock goes to the next of the line, if there is one. -/
theorem unlock {rest : List W} (hs : Lined s (w :: rest)) (hw : w ∈ s.holders) (hstep : lockStep s (.unlock w) = some t) :
    Lined t rest := by
  have hholders : s.holders = [w] ∧ s.posted = [] := by
    rcases append_eq_singleton_iff.mp hs.held with ⟨hnil, -⟩ | hholders
    · simp [hnil] at hw
    · exact hholders
  have hstarted : ∀ v ∈ rest, v ∈ s.started := fun v hv => hs.started v (mem_cons_of_mem w hv)
  have hnodup : rest.Nodup := (nodup_cons.mp hs.nodup).2
  obtain ⟨-, rfl⟩ := of_guard hstep
  simp only [hholders, erase_cons_head]
  cases rest with
  | nil =>
    have hhead : s.mutex.head = none := hs.chain
    simp only [hhead]
    exact ⟨rfl, rfl, show Chain _ none [] from rfl, hs.tail, hnodup, hstarted, hs.fresh⟩
  | cons v rest =>
    obtain ⟨hhead, hchain⟩ := hs.chain
    simp only [hhead]
    refine ⟨rfl, hs.locked, hchain, ?_, hnodup, hstarted, hs.fresh⟩
    cases rest with
    | nil => exact if_pos hchain
    | cons u rest =>
      have hnext : s.mutex.next v ≠ none := by simp [hchain.1]
      exact (if_neg hnext).trans hs.tail

theorem step (hs : Lined s line) {event : LockEvent W} (hstep : lockStep s event = some t) :
    ∃ line', lineStep line event = some line' ∧ Lined t line' := by
  cases event with
  | lock w =>
    obtain ⟨hw, rfl⟩ := of_unless hstep
    refine ⟨line ++ [w], rfl, ?_⟩
    cases line with
    | nil =>
      have hlocked : s.mutex.locked = false := hs.locked
      rw [CoMutex.acquire, if_pos hlocked]
      exact hs.take
    | cons a q => exact hs.queue hw
  | tryLock w =>
    obtain ⟨-, rfl⟩ := of_unless hstep
    refine ⟨_, rfl, ?_⟩
    rw [CoMutex.tryLock, hs.locked]
    cases line with
    | nil => exact hs.take
    | cons a q =>
      exact { hs with
        started := fun v hv => mem_cons_of_mem w (hs.started v hv)
        fresh := fun v hv => hs.fresh v fun hmem => hv (mem_cons_of_mem w hmem) }
  | resume w =>
    obtain ⟨hw, rfl⟩ := of_guard hstep
    have hheld := hs.held
    cases line with
    | nil => simp [append_eq_nil_iff.mp hheld] at hw
    | cons a q =>
      rcases append_eq_singleton_iff.mp hheld with ⟨hholders, hposted⟩ | ⟨-, hposted⟩
      · rw [hposted, mem_singleton] at hw
        subst hw
        refine ⟨_, if_pos rfl, { hs with held := ?_ }⟩
        simp [hholders, hposted]
      · simp [hposted] at hw
  | unlock w =>
    obtain ⟨hw, -⟩ := of_guard hstep
    have hmem : w ∈ s.holders ++ s.posted := mem_append_left _ hw
    rw [hs.held] at hmem
    cases line with
    | nil => cases hmem
    | cons a q =>
      obtain rfl := mem_singleton.mp hmem
      exact ⟨q, if_pos rfl, hs.unlock hw hstep⟩

end Lined

/-- Every run of the mutex is the line's: the lock is given in the order it was asked for, to one at a time, and nobody
who waits is passed over or lost. -/
theorem mutex_is_line {es : List (LockEvent W)} (hrun : exec lockStep {} es = some s) :
    ∃ line, exec lineStep [] es = some line ∧ Lined s line :=
  exec_simulates (fun hs hstep => hs.step hstep) ⟨rfl, rfl, show Chain _ none [] from rfl, rfl, nodup_nil, nofun, fun _ _ => rfl⟩ hrun

theorem handed_over : ∃ s, exec lockStep {} [.lock 1, .lock 2, .tryLock 3, .lock 4, .unlock 1] = some s ∧
    s.posted = [2] ∧ ∃ line, exec lineStep [] [.lock 1, .lock 2, .tryLock 3, .lock 4, .unlock 1] = some line ∧ Lined s line :=
  ⟨_, rfl, rfl, mutex_is_line rfl⟩

end OpcHub.Fwk
