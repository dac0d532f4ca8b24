import Mathlib.Data.List.Nodup
import Mathlib.Data.List.Perm.Basic

/-! Tickets that are asked for, queued, and answered. One can be refused without
a queue; one that is queued can need a round of service, which takes every
ticket that awaits one. Whatever order the steps come in, none is answered
twice, none that was queued is lost, and one that needs a round is answered only
after a round that began after it was queued. -/

namespace OpcHub.Lib

open List

variable {A : Type*}

/-- What happens to tickets, in order. -/
inductive TicketEvent (A : Type*) where
  /-- `round`: it needs a round of service. -/
  | queued (round : Bool) (id : A)
  | round
  | answered (id : A)
  deriving DecidableEq

structure Tickets (A : Type*) where
  issued : List A
  /-- Issued, and not yet queued or refused. -/
  asking : List A
  refused : List A
  /-- Queued for the next round. -/
  awaiting : List A
  /-- Queued, and to be answered whenever their server does. -/
  owed : List A
  log : List (TicketEvent A)

/-- The tickets answered so far. -/
def answeredIn (log : List (TicketEvent A)) : List A :=
  log.filterMap fun
    | .answered id => some id
    | _ => none

/-- A round began after the ticket was queued. -/
def Served (log : List (TicketEvent A)) (id : A) : Prop :=
  ∃ before after, log = before ++ after ∧ .queued true id ∈ before ∧ .round ∈ after

@[simp] theorem answeredIn_append (l l' : List (TicketEvent A)) :
    answeredIn (l ++ l') = answeredIn l ++ answeredIn l' := filterMap_append

@[simp] theorem answeredIn_queued (round : Bool) (id : A) : answeredIn [.queued round id] = [] := rfl

@[simp] theorem answeredIn_round : answeredIn [(.round : TicketEvent A)] = [] := rfl

@[simp] theorem answeredIn_answered (id : A) : answeredIn [.answered id] = [id] := rfl

variable {log : List (TicketEvent A)} {id : A}

theorem mem_answeredIn : id ∈ answeredIn log ↔ .answered id ∈ log := by
  simp only [answeredIn, mem_filterMap]
  constructor
  · rintro ⟨e, he, h⟩
    cases e <;> simp_all
  · exact fun h => ⟨_, h, rfl⟩

theorem Served.append (h : Served log id) (l : List (TicketEvent A)) :
    Served (log ++ l) id := by
  obtain ⟨before, after, rfl, hbefore, hafter⟩ := h
  exact ⟨before, after ++ l, append_assoc .., hbefore, mem_append_left _ hafter⟩

namespace Tickets

variable {t t' : Tickets A}

/-- One step of the desk. The lists are bags: a step may reorder them. -/
inductive Step (t : Tickets A) : Tickets A → Prop
  | issue {id : A} (hid : id ∉ t.issued) : Step t { t with issued := id :: t.issued, asking := id :: t.asking }
  | queue {id : A} {asking owed : List A} (hasking : t.asking.Perm (id :: asking)) (howed : owed.Perm (id :: t.owed)) :
    Step t { t with asking := asking, owed := owed, log := t.log ++ [.queued false id] }
  | await {id : A} {asking awaiting : List A} (hasking : t.asking.Perm (id :: asking))
      (hawaiting : awaiting.Perm (id :: t.awaiting)) :
    Step t { t with asking := asking, awaiting := awaiting, log := t.log ++ [.queued true id] }
  | refuse {id : A} {asking : List A} (hasking : t.asking.Perm (id :: asking)) :
    Step t { t with asking := asking, refused := id :: t.refused }
  | dismiss {id : A} {refused : List A} (hrefused : t.refused.Perm (id :: refused)) :
    Step t { t with refused := refused, log := t.log ++ [.answered id] }
  | answer {id : A} {owed : List A} (howed : t.owed.Perm (id :: owed)) :
    Step t { t with owed := owed, log := t.log ++ [.answered id] }
  | round {owed : List A} (howed : owed.Perm (t.awaiting ++ t.owed)) :
    Step t { t with owed := owed, awaiting := [], log := t.log ++ [.round] }
  | reorder {owed : List A} (howed : owed.Perm t.owed) : Step t { t with owed := owed }

structure Sound (t : Tickets A) : Prop where
  nodup : t.issued.Nodup
  balance : t.issued.Perm (t.asking ++ t.refused ++ t.awaiting ++ t.owed ++ answeredIn t.log)
  queued : ∀ round id, .queued round id ∈ t.log → id ∈ t.awaiting ++ t.owed ++ answeredIn t.log
  awaits : ∀ id, .queued true id ∈ t.log → id ∈ t.awaiting ∨ Served t.log id
  served : ∀ before id after, t.log = before ++ .answered id :: after → .queued true id ∈ t.log → Served before id

theorem Sound.count_le (h : t.Sound) [DecidableEq A] (id : A) :
    t.asking.count id + t.refused.count id + t.awaiting.count id + t.owed.count id + (answeredIn t.log).count id ≤ 1 := by
  have hcount := h.balance.count_eq id
  have hnodup := nodup_iff_count_le_one.mp h.nodup id
  simp only [count_append] at hcount
  omega

theorem balance_iff [DecidableEq A] : t.issued.Perm (t.asking ++ t.refused ++ t.awaiting ++ t.owed ++ answeredIn t.log) ↔
    ∀ id, t.issued.count id = t.asking.count id + t.refused.count id + t.awaiting.count id + t.owed.count id +
      (answeredIn t.log).count id := by
  simp only [perm_iff_count, count_append]

theorem eq_of_concat_answered {before after : List (TicketEvent A)} {e : TicketEvent A}
    (h : log ++ [e] = before ++ .answered id :: after) :
    (after = [] ∧ log = before ∧ e = .answered id) ∨ ∃ after', log = before ++ .answered id :: after' := by
  obtain rfl | ⟨after', e', rfl⟩ := eq_nil_or_concat after
  · obtain ⟨h₁, h₂⟩ := append_inj' h rfl
    exact .inl ⟨rfl, h₁, singleton_inj.mp h₂⟩
  · refine .inr ⟨after', ?_⟩
    rw [concat_eq_append, ← cons_append, ← append_assoc] at h
    exact (append_inj' h rfl).1

/-- The answers of a log one event longer follow their rounds, where that event does not break it. -/
theorem Sound.served_concat (h : t.Sound) {e : TicketEvent A}
    (hanswered : ∀ id, e = .answered id → .queued true id ∈ t.log → Served t.log id)
    (hqueued : ∀ id, e = .queued true id → .answered id ∉ t.log) (before : List (TicketEvent A)) (id : A)
    (after : List (TicketEvent A)) (hlog : t.log ++ [e] = before ++ .answered id :: after)
    (hmem : .queued true id ∈ t.log ++ [e]) : Served before id := by
  obtain ⟨-, rfl, rfl⟩ | ⟨after', hlog⟩ := eq_of_concat_answered hlog
  · exact hanswered id rfl (by simpa using hmem)
  · refine h.served before id after' hlog ?_
    obtain hmem | hmem := mem_append.mp hmem
    · exact hmem
    · exact absurd (by simp [hlog]) (hqueued id (mem_singleton.mp hmem).symm)

theorem Sound.answered (h : t.Sound) {refused owed : List A}
    (hperm : (t.refused ++ t.owed).Perm (id :: (refused ++ owed))) (howed : ∀ x ∈ t.owed, x = id ∨ x ∈ owed) :
    Sound { t with refused := refused, owed := owed, log := t.log ++ [.answered id] } := by
  classical
  have hid : id ∉ t.awaiting := by
    intro hid
    have hawaits := count_pos_iff.mpr hid
    have hleft := hperm.count_eq id
    have := h.count_le id
    simp only [count_append, count_cons_self] at hleft
    omega
  refine ⟨h.nodup, balance_iff.mpr fun x => ?_, fun round x hx => ?_, fun x hx => ?_, ?_⟩
  · have := balance_iff.mp h.balance x
    have := hperm.count_eq x
    simp only [answeredIn_append, answeredIn_answered, count_append, count_cons, count_nil] at *
    omega
  · have hold := h.queued round x (by simpa using hx)
    have := howed x
    simp only [mem_append, answeredIn_append, answeredIn_answered, mem_singleton] at hold ⊢
    tauto
  · have hx : .queued true x ∈ t.log := by simpa using hx
    exact (h.awaits x hx).imp_right fun hserved => hserved.append _
  · refine h.served_concat (fun x he hx => ?_) fun _ he => by cases he
    obtain rfl : id = x := by simpa using he
    exact (h.awaits id hx).resolve_left hid

theorem Sound.step (h : t.Sound) (hstep : t.Step t') : t'.Sound := by
  classical
  have hbalance := balance_iff.mp h.balance
  have hcount := h.count_le
  cases hstep with
  | @issue id hid =>
    refine ⟨nodup_cons.mpr ⟨hid, h.nodup⟩, balance_iff.mpr fun x => ?_, h.queued, h.awaits, h.served⟩
    have := hbalance x
    simp only [count_cons]
    omega
  | @queue id asking owed hasking howed =>
    refine ⟨h.nodup, balance_iff.mpr fun x => ?_, fun round x hx => ?_, fun x hx => ?_, ?_⟩
    · have := hbalance x
      have := hasking.count_eq x
      have := howed.count_eq x
      simp only [answeredIn_append, answeredIn_queued, append_nil, count_cons] at *
      omega
    · have hold := h.queued round x
      simp only [mem_append, howed.mem_iff, mem_cons, answeredIn_append, answeredIn_queued,
        append_nil, TicketEvent.queued.injEq, not_mem_nil, or_false] at *
      tauto
    · have hx : .queued true x ∈ t.log := by simpa using hx
      exact (h.awaits x hx).imp_right fun hserved => hserved.append _
    · exact h.served_concat (fun _ he => by cases he) fun _ he => by cases he
  | @await id asking awaiting hasking hawaiting =>
    refine ⟨h.nodup, balance_iff.mpr fun x => ?_, fun round x hx => ?_, fun x hx => ?_, ?_⟩
    · have := hbalance x
      have := hasking.count_eq x
      have := hawaiting.count_eq x
      simp only [answeredIn_append, answeredIn_queued, append_nil, count_cons] at *
      omega
    · have hold := h.queued round x
      simp only [mem_append, hawaiting.mem_iff, mem_cons, answeredIn_append, answeredIn_queued,
        append_nil, TicketEvent.queued.injEq, not_mem_nil, or_false] at *
      tauto
    · have hold := h.awaits x
      simp only [mem_append, hawaiting.mem_iff, mem_cons, TicketEvent.queued.injEq, not_mem_nil, or_false,
        true_and] at hx ⊢
      obtain hx | rfl := hx
      · exact (hold hx).imp .inr fun hserved => hserved.append _
      · exact .inl (.inl rfl)
    · refine h.served_concat (fun _ he => by cases he) fun x he hx => ?_
      obtain rfl : id = x := by simpa using he
      have hanswered := count_pos_iff.mpr (mem_answeredIn.mpr hx)
      have hasked := hasking.count_eq id
      have := hcount id
      simp only [count_cons_self] at hasked
      omega
  | @refuse id asking hasking =>
    refine ⟨h.nodup, balance_iff.mpr fun x => ?_, h.queued, h.awaits, h.served⟩
    have := hbalance x
    have := hasking.count_eq x
    simp only [count_cons] at *
    omega
  | dismiss hrefused => exact h.answered (hrefused.append_right _) fun x hx => .inr hx
  | answer howed =>
    exact h.answered ((howed.append_left _).trans perm_middle) fun x hx => mem_cons.mp (howed.mem_iff.mp hx)
  | @round owed howed =>
    refine ⟨h.nodup, balance_iff.mpr fun x => ?_, fun round x hx => ?_, fun x hx => ?_, ?_⟩
    · have := hbalance x
      have := howed.count_eq x
      simp only [answeredIn_append, answeredIn_round, append_nil, count_append, count_nil] at *
      omega
    · have hold := h.queued round x (by simpa using hx)
      simp only [mem_append, answeredIn_append, answeredIn_round, howed.mem_iff, append_nil,
        not_mem_nil, false_or] at hold ⊢
      tauto
    · exact .inr ⟨t.log, [.round], rfl, by simpa using hx, mem_singleton_self _⟩
    · exact h.served_concat (fun _ he => by cases he) fun _ he => by cases he
  | @reorder owed howed =>
    refine ⟨h.nodup, balance_iff.mpr fun x => ?_, fun round x hx => ?_, h.awaits, h.served⟩
    · have := hbalance x
      have := howed.count_eq x
      simp only at *
      omega
    · have hold := h.queued round x hx
      simpa only [mem_append, howed.mem_iff] using hold

theorem Sound.answered_nodup (h : t.Sound) : (answeredIn t.log).Nodup :=
  (nodup_append.mp (h.balance.nodup_iff.mp h.nodup)).2.1

end Tickets

end OpcHub.Lib
