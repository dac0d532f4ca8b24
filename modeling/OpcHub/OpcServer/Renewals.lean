import OpcHub.Lib.OrdMap
import OpcHub.Lib.Runs
import Mathlib.Data.Int.Init

/-! How long an OPC session is served after the web session behind it. A context holds
the expiry its activation read; ahead of the lapse and after it an access asks the
authority again, and whichever access of the web session looks next finds the answer in
the one slot the session has. -/

namespace OpcHub.OpcServer

open Lib

/-- Ticks of the clock since its epoch. -/
abbrev TimePoint := ℤ
abbrev SessionPK := ℕ
abbrev ContextId := ℕ

def renewInterval : ℤ := 30000000000

def halfLife (expiration now : TimePoint) : TimePoint :=
  if expiration > now then now + (expiration - now) / 2 else expiration

structure SessionContext where
  expiration : TimePoint
  sessionId : SessionPK
  lastRenewal : TimePoint := 0
  answered : Bool := false
  renewAt : TimePoint
  denied : Bool := false
  deriving DecidableEq

/-- What an access does: to its context, and to the answer waiting for the session. -/
structure Look where
  context : SessionContext
  expired : Bool := false
  /-- The slot was looked at; an answer found there is taken out of it. -/
  looked : Bool := false
  /-- The context took over the answer's expiry. -/
  taken : Bool := false
  /-- A renewal was posted. -/
  asked : Bool := false
  deriving DecidableEq

namespace SessionContext

variable (ctx : SessionContext) (now : TimePoint)

def renewed (expiration : TimePoint) : SessionContext :=
  { ctx with expiration := expiration, renewAt := halfLife expiration now, answered := false, denied := false }

/-- Ahead of the lapse an answer that does not extend the context puts off the next question only. -/
def delivered (answer : TimePoint) : Look :=
  if answer > ctx.expiration then { context := ctx.renewed now answer, looked := true, taken := true }
  else
    { context := { ctx with renewAt := max (halfLife ctx.expiration now) (now + renewInterval) }
      looked := true }

def ask : Look :=
  if now - ctx.lastRenewal ≥ renewInterval then
    { context := { ctx with lastRenewal := now }, looked := true, asked := true }
  else { context := ctx, looked := true }

def renewAhead (answer : Option TimePoint) : Look := answer.elim (ctx.ask now) (ctx.delivered now)

/-- After the lapse a failure counts only where a question was asked since. -/
def counts (answer : TimePoint) : Bool := answer > ctx.expiration || ctx.lastRenewal > ctx.expiration

def accept (answer : TimePoint) : SessionContext :=
  if ctx.counts answer then { ctx with expiration := answer, answered := true } else ctx

/-- The end of `expired`: the session is not past its expiry again, is within its grace, or is denied. -/
def verdict (taken : Bool) : Look :=
  if ctx.expiration ≥ now then { context := ctx.renewed now ctx.expiration, looked := true, taken := taken }
  else if ctx.answered then { context := { ctx with denied := true }, expired := true, looked := true, taken := taken }
  else
    let look := ctx.ask now
    if now - ctx.expiration < renewInterval then { look with taken := taken }
    else { look with context := { look.context with denied := true }, expired := true, taken := taken }

/-- `expired`, at one reading of the clock. -/
def expired (answer : Option TimePoint) : Look :=
  if ctx.expiration ≥ now then if now ≥ ctx.renewAt then ctx.renewAhead now answer else { context := ctx }
  else if ctx.sessionId = 0 then { context := { ctx with denied := true }, expired := true }
  else answer.elim (ctx.verdict now false) fun a => (ctx.accept a).verdict now (ctx.counts a)

/-- Whether the access looks for an answer. -/
def looks : Bool := ctx.expiration < now || now ≥ ctx.renewAt

end SessionContext

/-- A renewal posted, and by whose access. -/
structure Question where
  asker : ContextId
  sessionId : SessionPK
  askedAt : TimePoint
  deriving DecidableEq

/-- An answer in the slot of its session, with the question it is to. -/
structure Answer where
  expiration : TimePoint
  question : Question
  deriving DecidableEq

/-- A context, and the expiry it was activated with or last renewed to: where its lapse starts. -/
structure Held where
  context : SessionContext
  lapse : TimePoint
  deriving DecidableEq

structure Renewals where
  /-- The clock has left its epoch, which stands for a failure. -/
  clock : TimePoint := 1
  contexts : OrdMap ContextId Held := ∅
  /-- `Answers`. -/
  answers : OrdMap SessionPK Answer := ∅
  /-- The questions not answered yet. -/
  outstanding : List Question := []
  /-- Every context there has been. -/
  known : List ContextId := []
  /-- What the authority has answered: an expiry, or a failure. -/
  arrived : List (Question × Option TimePoint) := []
  /-- Every expiry the authority gave, and for which session. -/
  given : List (SessionPK × TimePoint) := []
  /-- The contexts that took an answer's expiry over, and when. -/
  taken : List (ContextId × TimePoint) := []
  deriving DecidableEq

inductive RenewalEvent where
  /-- ActivateSession makes a context, at a time, with the expiry the authority gave. -/
  | activate (context : ContextId) (sessionId : SessionPK) (now expiration : TimePoint)
  | access (context : ContextId) (now : TimePoint)
  | answer (question : Question) (expiration : Option TimePoint)
  | closeSession (context : ContextId)
  /-- A re-activation deletes the context it replaces. -/
  | discard (context : ContextId)
  deriving DecidableEq

namespace Renewals

variable (s : Renewals)

def activate (c : ContextId) (sessionId : SessionPK) (now expiration : TimePoint) : Renewals :=
  { s with
    clock := now
    contexts := s.contexts.insert c
      { context := { expiration := expiration, sessionId := sessionId, renewAt := halfLife expiration now }
        lapse := expiration }
    known := c :: s.known
    given := (sessionId, expiration) :: s.given }

/-- What the access of a context finds and does. -/
def look (h : Held) (now : TimePoint) : Look :=
  h.context.expired now ((s.answers.find? h.context.sessionId).map Answer.expiration)

def access (c : ContextId) (h : Held) (now : TimePoint) : Renewals :=
  let l := s.look h now
  { s with
    clock := now
    contexts := s.contexts.insert c
      { context := l.context, lapse := if l.context.answered then h.lapse else l.context.expiration }
    answers := if l.looked then s.answers.erase h.context.sessionId else s.answers
    outstanding :=
      if l.asked then { asker := c, sessionId := h.context.sessionId, askedAt := now } :: s.outstanding
      else s.outstanding
    taken := if l.taken then (c, now) :: s.taken else s.taken }

/-- A failure is stored as the epoch. -/
def answer (q : Question) (expiration : Option TimePoint) : Renewals :=
  { s with
    answers := s.answers.insert q.sessionId { expiration := expiration.getD 0, question := q }
    outstanding := s.outstanding.erase q
    arrived := (q, expiration) :: s.arrived
    given := expiration.elim s.given fun x => (q.sessionId, x) :: s.given }

end Renewals

/-- An event; refused where it cannot happen. The contexts are those of a web session, whose id is not 0. -/
def renewalStep (s : Renewals) : RenewalEvent → Option Renewals
  | .activate c sessionId now expiration =>
    if c ∉ s.known ∧ sessionId ≠ 0 ∧ s.clock ≤ now then some (s.activate c sessionId now expiration) else none
  | .access c now =>
    if s.clock ≤ now then (s.contexts.find? c).map fun h => s.access c h now else none
  | .answer q expiration => if q ∈ s.outstanding then some (s.answer q expiration) else none
  | .closeSession c =>
    (s.contexts.find? c).map fun h =>
      { s with contexts := s.contexts.erase c, answers := s.answers.erase h.context.sessionId }
  | .discard c => (s.contexts.find? c).map fun _ => { s with contexts := s.contexts.erase c }

namespace SessionContext

/-- What an access can come to, for a context with a session. -/
structure Outcome (ctx : SessionContext) (now : TimePoint) (answer : Option TimePoint) (l : Look) : Prop where
  sessionId : l.context.sessionId = ctx.sessionId
  looked : l.looked = ctx.looks now
  /-- An answer left aside is no later than the expiry the context has. -/
  kept : l.taken = false → l.context.expiration = ctx.expiration ∧ l.context.answered = ctx.answered ∧
    (l.looked = true → ∀ a, answer = some a →
      a ≤ ctx.expiration ∧ (ctx.expiration < now → ctx.lastRenewal ≤ ctx.expiration))
  took : l.taken = true → l.looked = true ∧ ∃ a, answer = some a ∧ l.context.expiration = a ∧
    (l.context.answered = true ↔ a < now) ∧
      (ctx.expiration < a ∨ ctx.expiration < now ∧ ctx.expiration < ctx.lastRenewal)
  served : l.expired = false → now ≤ l.context.expiration ∨
    l.context.answered = false ∧ now - l.context.expiration < renewInterval
  refused : l.expired = true → l.context.expiration < now ∧ l.looked = true ∧
    (l.context.answered = true ∨ renewInterval ≤ now - l.context.expiration)

theorem counts_iff {ctx : SessionContext} {a : TimePoint} :
    ctx.counts a = true ↔ ctx.expiration < a ∨ ctx.expiration < ctx.lastRenewal := by
  simp [counts]

variable {ctx : SessionContext} {now : TimePoint}

theorem renewAhead_outcome (answer : Option TimePoint) (hexp : now ≤ ctx.expiration) (hat : ctx.renewAt ≤ now) :
    Outcome ctx now answer (ctx.renewAhead now answer) := by
  have hlooks : ctx.looks now = true := by simp [looks, hat]
  cases answer with
  | none =>
    rw [renewAhead, Option.elim_none, ask]
    split_ifs <;> constructor <;> simp [hlooks, hexp]
  | some a =>
    rw [renewAhead, Option.elim_some, delivered]
    split_ifs with ha
    · have hnow : now ≤ a := hexp.trans (le_of_lt ha)
      constructor <;> simp [hlooks, renewed, hnow, ha]
    · constructor <;> simp [hlooks, hexp, not_lt.mp ha, not_lt.mpr hexp]

theorem verdict_outcome {ctx' : SessionContext} {answer : Option TimePoint} {taken : Bool}
    (hexp : ctx.expiration < now) (hid : ctx'.sessionId = ctx.sessionId)
    (hkept : taken = false → ctx' = ctx ∧
      ∀ a, answer = some a → a ≤ ctx.expiration ∧ ctx.lastRenewal ≤ ctx.expiration)
    (htook : taken = true → ∃ a, answer = some a ∧ ctx'.expiration = a ∧ ctx'.answered = true ∧
      (ctx.expiration < a ∨ ctx.expiration < ctx.lastRenewal)) :
    Outcome ctx now answer (ctx'.verdict now taken) := by
  have hlooks : ctx.looks now = true := by simp [looks, hexp]
  cases taken with
  | false =>
    obtain ⟨rfl, hleft⟩ := hkept rfl
    rw [verdict, if_neg (not_le.mpr hexp)]
    cases hans : ctx'.answered with
    | true =>
      constructor <;> simp [hlooks, hexp, hans]
      exact hleft
    | false =>
      simp only [Bool.false_eq_true, if_false, ask]
      split_ifs with hgrace <;> constructor <;> simp_all
  | true =>
    obtain ⟨a, ha, hexp', hans, hcounts⟩ := htook rfl
    have hcounts' : ctx.expiration < a ∨ ctx.expiration < now ∧ ctx.expiration < ctx.lastRenewal :=
      hcounts.imp_right fun h => ⟨hexp, h⟩
    rw [verdict, hans]
    by_cases hnow : now ≤ a
    · constructor <;> simp [hlooks, hid, ha, renewed, hexp', hnow, hcounts']
    · rw [if_neg (hexp' ▸ hnow), if_pos rfl]
      have hlt := not_le.mp hnow
      constructor <;> simp [hlooks, hid, ha, hexp', hlt, hcounts']

theorem expired_outcome (answer : Option TimePoint) (hid : ctx.sessionId ≠ 0) :
    Outcome ctx now answer (ctx.expired now answer) := by
  rw [expired]
  by_cases hexp : now ≤ ctx.expiration
  · rw [if_pos hexp]
    by_cases hat : ctx.renewAt ≤ now
    · rw [if_pos hat]
      exact renewAhead_outcome answer hexp hat
    · constructor <;> simp [looks, hexp, hat, not_lt.mpr hexp]
  · rw [if_neg hexp, if_neg hid]
    have hlt := not_le.mp hexp
    cases answer with
    | none => exact verdict_outcome hlt rfl (fun _ => ⟨rfl, fun a ha => by cases ha⟩) (fun h => by cases h)
    | some a =>
      rw [Option.elim_some, accept]
      cases hc : ctx.counts a with
      | false =>
        have hleft : ¬ (ctx.expiration < a ∨ ctx.expiration < ctx.lastRenewal) := by
          rw [← counts_iff, hc]
          exact Bool.false_ne_true
        rw [not_or, not_lt, not_lt] at hleft
        refine verdict_outcome hlt rfl (fun _ => ⟨rfl, ?_⟩) (fun h => by cases h)
        rintro b ⟨⟩
        exact hleft
      | true =>
        exact verdict_outcome hlt rfl (fun h => by cases h) fun _ => ⟨a, rfl, rfl, rfl, counts_iff.mp hc⟩

end SessionContext

end OpcHub.OpcServer
