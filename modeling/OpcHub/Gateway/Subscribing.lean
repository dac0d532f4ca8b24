import OpcHub.Lib.Runs
import Mathlib.Algebra.Order.Group.Multiset
import Mathlib.Tactic.Abel

/-! The SubscribeAwaits of one client. An await tests for the client's cached
subscription wherever it is started; without one it is posted to the client's
strand, where it queues, and the first of a queue sends the create. The create's
answer, or a submission refused, resumes the whole queue. The test and the queue
are apart: an await that tested before the subscription was cached and queues
after it sends a second create, and nothing uses the subscription cached first. -/

namespace OpcHub.Gateway

open Lib Multiset

variable {A : Type*}

/-- The awaits on a client, its create, and what its server holds for it. -/
structure Subscribing (A : Type*) where
  /-- The id of the CreatedSubscriptionResponse. -/
  cached : Option ℕ := none
  /-- Suspended, and their part on the strand is still to run. -/
  posted : Multiset A := 0
  /-- The client's entry of `_requests`. -/
  waiting : List A := []
  /-- The creates sent and not answered. -/
  out : ℕ := 0
  /-- Taken from the queue, with their resumption posted. -/
  resuming : Multiset A := 0
  resumed : Multiset A := 0
  /-- The subscriptions the server holds for the client. -/
  held : List ℕ := []

inductive SubscribeEvent (A : Type*) where
  /-- `await_ready`, on the thread of the await. -/
  | test (await : A)
  /-- What Suspend posted, on the strand; `accepted` is the submission's, if one is made. -/
  | queue (await : A) (accepted : Bool)
  /-- The create's answer: the subscription's id, or an error. -/
  | answer (id : Option ℕ)
  | resume (await : A)
  deriving DecidableEq

namespace Subscribing

/-- Every await started, wherever it is. -/
def awaits (s : Subscribing A) : Multiset A := s.posted + s.waiting + s.resuming + s.resumed

/-- `takeRequests`, with the resumptions posted. -/
def takeRequests (s : Subscribing A) : Subscribing A := { s with waiting := [], resuming := s.resuming + s.waiting }

def await_ready (s : Subscribing A) (await : A) : Subscribing A :=
  if s.cached.isSome then { s with resumed := await ::ₘ s.resumed } else { s with posted := await ::ₘ s.posted }

section Steps

variable [DecidableEq A]

/-- What Suspend posts. -/
def suspend (s : Subscribing A) (await : A) (accepted : Bool) : Subscribing A :=
  if s.waiting = [] then
    if accepted then { s with posted := s.posted.erase await, waiting := [await], out := s.out + 1 }
    -- refused: the queue is taken again, which is this await alone, resumed in place
    else { s with posted := s.posted.erase await, resumed := await ::ₘ s.resumed }
  else { s with posted := s.posted.erase await, waiting := s.waiting ++ [await] }

def onComplete (s : Subscribing A) (id : Option ℕ) : Subscribing A :=
  takeRequests { s with out := s.out - 1, cached := id <|> s.cached, held := s.held ++ id.toList }

def step (s : Subscribing A) : SubscribeEvent A → Option (Subscribing A)
  | .test await => if await ∈ s.awaits then none else some (s.await_ready await)
  | .queue await accepted => if await ∈ s.posted then some (s.suspend await accepted) else none
  | .answer id => if s.out = 0 then none else some (s.onComplete id)
  | .resume await =>
    if await ∈ s.resuming then
      some { s with resuming := s.resuming.erase await, resumed := await ::ₘ s.resumed }
    else none

end Steps

/-- An await queues after the subscription was cached, and its submission is not refused. -/
def Late (s : Subscribing A) : SubscribeEvent A → Prop
  | .queue _ true => s.cached.isSome
  | _ => False

instance (s : Subscribing A) : DecidablePred s.Late
  | .queue _ true => inferInstanceAs (Decidable (s.cached.isSome = true))
  | .queue _ false => isFalse id
  | .test _ => isFalse id
  | .answer _ => isFalse id
  | .resume _ => isFalse id

/-- No await is in two places, and one create is out for a queue that is not empty. -/
structure Sound (s : Subscribing A) : Prop where
  nodup : s.awaits.Nodup
  out : s.out = if s.waiting = [] then 0 else 1

variable {s t : Subscribing A} {e : SubscribeEvent A}

section

variable (s : Subscribing A)

theorem awaits_takeRequests : s.takeRequests.awaits = s.awaits := by
  simp only [awaits, takeRequests, coe_nil, add_zero]
  abel

variable (await : A)

@[simp] theorem await_ready_out : (s.await_ready await).out = s.out := by
  unfold await_ready
  split <;> rfl

@[simp] theorem await_ready_cached : (s.await_ready await).cached = s.cached := by
  unfold await_ready
  split <;> rfl

@[simp] theorem await_ready_waiting : (s.await_ready await).waiting = s.waiting := by
  unfold await_ready
  split <;> rfl

@[simp] theorem await_ready_held : (s.await_ready await).held = s.held := by
  unfold await_ready
  split <;> rfl

theorem awaits_await_ready : (s.await_ready await).awaits = await ::ₘ s.awaits := by
  unfold await_ready
  split <;> simp only [awaits, ← singleton_add] <;> abel

end

variable [DecidableEq A]

theorem awaits_suspend {await : A} (h : await ∈ s.posted) (accepted : Bool) :
    (s.suspend await accepted).awaits = s.awaits := by
  obtain ⟨posted, hposted⟩ := exists_cons_of_mem h
  simp only [suspend, hposted, erase_cons_head]
  split_ifs with hempty haccepted
  · simp only [awaits, hposted, hempty, coe_nil, ← singleton_add, coe_singleton]
    abel
  · simp only [awaits, hposted, ← singleton_add]
    abel
  · simp only [awaits, hposted, ← coe_add, ← singleton_add, coe_singleton]
    abel

theorem awaits_resume {await : A} (h : await ∈ s.resuming) :
    awaits { s with resuming := s.resuming.erase await, resumed := await ::ₘ s.resumed } = s.awaits := by
  obtain ⟨resuming, hresuming⟩ := exists_cons_of_mem h
  rw [awaits, awaits, hresuming, erase_cons_head]
  simp only [← singleton_add]
  abel

@[simp] theorem suspend_cached (s : Subscribing A) (await : A) (accepted : Bool) :
    (s.suspend await accepted).cached = s.cached := by
  unfold suspend
  split
  · split <;> rfl
  · rfl

@[simp] theorem suspend_held (s : Subscribing A) (await : A) (accepted : Bool) :
    (s.suspend await accepted).held = s.held := by
  unfold suspend
  split
  · split <;> rfl
  · rfl

theorem Sound.step (h : s.Sound) (hstep : s.step e = some t) : t.Sound := by
  cases e with
  | test await =>
    obtain ⟨hfresh, rfl⟩ := of_unless hstep
    refine ⟨?_, by simpa using h.out⟩
    rw [awaits_await_ready]
    exact nodup_cons.mpr ⟨hfresh, h.nodup⟩
  | queue await accepted =>
    obtain ⟨hmem, rfl⟩ := of_guard hstep
    refine ⟨by rw [awaits_suspend hmem]; exact h.nodup, ?_⟩
    have hout := h.out
    by_cases hempty : s.waiting = []
    · cases accepted <;> simp [suspend, hempty, hout]
    · simp [suspend, hempty, hout]
  | answer id =>
    obtain ⟨hout, rfl⟩ := of_unless hstep
    refine ⟨?_, ?_⟩
    · rw [onComplete, awaits_takeRequests]
      exact h.nodup
    · have := h.out
      simp only [onComplete, takeRequests, if_true]
      split_ifs at this <;> omega
  | resume await =>
    obtain ⟨hmem, rfl⟩ := of_guard hstep
    exact ⟨by rw [awaits_resume hmem]; exact h.nodup, h.out⟩

omit [DecidableEq A] in
theorem sound_start : ({} : Subscribing A).Sound := ⟨nodup_zero, rfl⟩

/-- Nothing is under way: no await on its way to the queue, in it or about to be resumed. -/
def Quiet (s : Subscribing A) : Prop := s.posted = 0 ∧ s.waiting = [] ∧ s.resuming = 0

/-- A subscription that is cached is the only one the server holds, and no create is out beside it. -/
structure Single (s : Subscribing A) : Prop where
  sound : s.Sound
  waiting : s.cached.isSome → s.waiting = []
  held : s.held.length = if s.cached.isSome then 1 else 0

theorem Single.step (h : s.Single) (hlate : ¬ s.Late e) (hstep : s.step e = some t) : t.Single := by
  have hsound := h.sound.step hstep
  cases e with
  | test await =>
    obtain ⟨-, rfl⟩ := of_unless hstep
    exact ⟨hsound, by simpa using h.waiting, by simpa using h.held⟩
  | queue await accepted =>
    obtain ⟨-, rfl⟩ := of_guard hstep
    refine ⟨hsound, fun hcached => ?_, by simpa using h.held⟩
    rw [suspend_cached] at hcached
    cases accepted with
    | true => exact absurd hcached hlate
    | false => simp [suspend, h.waiting hcached]
  | answer id =>
    obtain ⟨hout, rfl⟩ := of_unless hstep
    -- a create is out, so none was cached
    have hcached : s.cached = none := by
      by_contra hne
      have hempty := h.waiting (Option.isSome_iff_ne_none.mpr hne)
      exact hout (by rw [h.sound.out, if_pos hempty])
    have hheld : s.held = [] := by simpa [hcached] using h.held
    refine ⟨hsound, fun _ => rfl, ?_⟩
    cases id <;> simp [onComplete, takeRequests, hcached, hheld]
  | resume await =>
    obtain ⟨-, rfl⟩ := of_guard hstep
    exact ⟨hsound, h.waiting, h.held⟩

variable {es : List (SubscribeEvent A)}

end Subscribing

end OpcHub.Gateway
