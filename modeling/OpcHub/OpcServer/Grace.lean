import OpcHub.OpcServer.Renewals

/-! When an access has the verdict its context should have. The slot of a web session
is shared: by the questions asked ahead of a lapse and after it, and by all contexts of
the session. An access is allowed too long in no run; it is denied too early where the
answer it takes is not to the question it stands for, or one to it was lost. -/

namespace OpcHub.OpcServer

open Lib OrdMap List Option

namespace Renewals

variable {s t : Renewals}

/-- The answer carries the session past the time. -/
def Extends (answer : Option TimePoint) (now : TimePoint) : Prop := ∃ x, answer = some x ∧ now ≤ x

/-- An access may be allowed: the latest expiry the authority gave the session is not past, or the context is less than
the interval past its expiry and has taken no answer since it lapsed. -/
def MayServe (s : Renewals) (c : ContextId) (h : Held) (now : TimePoint) : Prop :=
  (∃ x, (h.context.sessionId, x) ∈ s.given ∧ now ≤ x) ∨
    now - h.context.expiration < renewInterval ∧ ∀ τ, (c, τ) ∈ s.taken → τ ≤ h.lapse

/-- An access may be denied: a question that the context asked after the lapse was answered without extending the
session past now, or the interval is over and no answer to a question of the context does. -/
def MayRefuse (s : Renewals) (c : ContextId) (h : Held) (now : TimePoint) : Prop :=
  (∃ q a, (q, a) ∈ s.arrived ∧ q.asker = c ∧ h.lapse < q.askedAt ∧ ¬ Extends a now) ∨
    renewInterval ≤ now - h.lapse ∧ ∀ q a, (q, a) ∈ s.arrived → q.asker = c → ¬ Extends a now

/-- The access of the event, if it is one, has the verdict it may have. -/
def Judged (s : Renewals) : RenewalEvent → Prop
  | .access c now => ∀ h, s.contexts.find? c = some h → ∀ h', (s.access c h now).contexts.find? c = some h' →
    ((s.look h now).expired = false → (s.access c h now).MayServe c h' now) ∧
    ((s.look h now).expired = true → h'.lapse < now ∧ (s.access c h now).MayRefuse c h' now)
  | _ => True

/-- An answer finds the slot of its session empty, or with no later answer to the same context. An access that looks
finds no answer to another context; after the lapse and within the interval none short of now that it takes though
its question is from before the lapse. A session is not closed over an answer to another context. -/
def Orderly (s : Renewals) : RenewalEvent → Prop
  | .answer q expiration => ∀ a ∈ s.answers.find? q.sessionId,
    a.question.asker = q.asker ∧ a.expiration ≤ expiration.getD 0
  | .access c now => ∀ h ∈ s.contexts.find? c, h.context.looks now = true → ∀ a ∈ s.answers.find? h.context.sessionId,
    a.question.asker = c ∧
      (h.context.expiration < now → now - h.lapse < renewInterval → a.expiration < now →
        h.context.counts a.expiration = true → h.lapse < a.question.askedAt)
  | .closeSession c => ∀ h ∈ s.contexts.find? c, ∀ a ∈ s.answers.find? h.context.sessionId, a.question.asker = c
  | _ => True

instance (s : Renewals) (e : RenewalEvent) : Decidable (s.Orderly e) := by
  cases e <;> unfold Orderly <;> infer_instance

/-- What holds of a context. -/
structure Kept (s : Renewals) (c : ContextId) (h : Held) : Prop where
  known : c ∈ s.known
  sessionId : h.context.sessionId ≠ 0
  given : (h.context.sessionId, h.lapse) ∈ s.given
  fresh : h.context.answered = false → h.context.expiration = h.lapse ∧ ∀ τ, (c, τ) ∈ s.taken → τ ≤ h.lapse
  past : h.context.answered = true → h.context.expiration < s.clock ∧ h.lapse < s.clock
  /-- An answer taken over since the lapse was to a question asked since, or came after the interval. -/
  asked : h.context.answered = true →
    (∃ q a, (q, a) ∈ s.arrived ∧ q.asker = c ∧ h.lapse < q.askedAt ∧ ¬ Extends a s.clock) ∨
      renewInterval ≤ s.clock - h.lapse
  /-- No answer to the context is lost while it says more than the context has and than the time. -/
  seen : ∀ q x, (q, some x) ∈ s.arrived → q.asker = c → x ≤ h.context.expiration ∨ x < s.clock ∨
    ∃ a, s.answers.find? h.context.sessionId = some a ∧ a.question.asker = c ∧ x ≤ a.expiration
  own : ∀ q ∈ s.outstanding, q.asker = c → q.sessionId = h.context.sessionId

structure Sound (s : Renewals) : Prop where
  clock : 0 < s.clock
  kept : ∀ c h, s.contexts.find? c = some h → s.Kept c h
  slot : ∀ id a, s.answers.find? id = some a → ∃ e, (a.question, e) ∈ s.arrived ∧ a.expiration = e.getD 0 ∧
    ∀ x, e = some x → (id, x) ∈ s.given
  askers : ∀ q ∈ s.outstanding, q.asker ∈ s.known
  answered : ∀ q a, (q, a) ∈ s.arrived → q.asker ∈ s.known
  takers : ∀ c τ, (c, τ) ∈ s.taken → c ∈ s.known ∧ τ ≤ s.clock

theorem not_extends_of_lt {a : Option TimePoint} {now : TimePoint} (h : ∀ x, a = some x → x < now) :
    ¬ Extends a now := by
  rintro ⟨x, hx, hle⟩
  exact absurd (h x hx) (not_lt.mpr hle)

theorem Extends.mono {a : Option TimePoint} {now now' : TimePoint} (hle : now ≤ now') (h : Extends a now') :
    Extends a now := by
  obtain ⟨x, hx, hnow⟩ := h
  exact ⟨x, hx, hle.trans hnow⟩

section Access

variable {c : ContextId} {h : Held} {now : TimePoint}

theorem look_outcome (s : Renewals) (now : TimePoint) (hid : h.context.sessionId ≠ 0) :
    h.context.Outcome now ((s.answers.find? h.context.sessionId).map Answer.expiration) (s.look h now) :=
  SessionContext.expired_outcome _ hid

variable (hs : s.Sound)
include hs

/-- An answer in the slot that is later than the epoch is an expiry the authority gave. -/
theorem Sound.given_of_slot {id : SessionPK} {a : Answer} (ha : s.answers.find? id = some a)
    (hpos : 0 < a.expiration) : (id, a.expiration) ∈ s.given := by
  obtain ⟨e, -, he, hgiven⟩ := hs.slot id a ha
  cases e with
  | none => simp [he] at hpos
  | some x =>
    rw [he]
    exact hgiven x rfl

/-- The answer that an access takes over: whose it is, and what it makes of the context. -/
theorem Sound.taken_answer (hc : s.contexts.find? c = some h) (hclock : s.clock ≤ now)
    (hord : s.Orderly (.access c now)) (htaken : (s.look h now).taken = true) :
    ∃ a, s.answers.find? h.context.sessionId = some a ∧ a.question.asker = c ∧
      (s.look h now).context.expiration = a.expiration ∧
      ((s.look h now).context.answered = true → a.expiration < now ∧ h.lapse < now ∧
        (h.lapse < a.question.askedAt ∨ renewInterval ≤ now - h.lapse)) ∧
      ((s.look h now).context.answered = false → now ≤ a.expiration) ∧
      (h.context.expiration < a.expiration ∨ h.context.expiration < now) := by
  have hk := hs.kept c h hc
  have ho := look_outcome s now hk.sessionId
  obtain ⟨hlooked, x, hx, hexp, hans, hmore⟩ := ho.took htaken
  obtain ⟨a, ha, rfl⟩ := map_eq_some_iff.mp hx
  rw [ho.looked] at hlooked
  obtain ⟨hasker, hlate⟩ := hord h hc hlooked a ha
  refine ⟨a, ha, hasker, hexp, ?_, ?_, hmore.imp_right And.left⟩
  · intro hanswered
    have hlt := hans.mp hanswered
    have hexpired : h.context.expiration < now := hmore.elim (fun h => h.trans hlt) And.left
    have hlapse : h.lapse < now := by
      cases hb : h.context.answered with
      | false => exact (hk.fresh hb).1 ▸ hexpired
      | true => exact lt_of_lt_of_le (hk.past hb).2 hclock
    refine ⟨hlt, hlapse, ?_⟩
    by_cases hgrace : now - h.lapse < renewInterval
    · exact .inl (hlate hexpired hgrace hlt (SessionContext.counts_iff.mpr (hmore.imp_right And.right)))
    · exact .inr (not_lt.mp hgrace)
  · intro hanswered
    by_contra hnow
    rw [hans.mpr (not_le.mp hnow)] at hanswered
    cases hanswered

/-- The context after the access. -/
def after (s : Renewals) (h : Held) (now : TimePoint) : Held :=
  { context := (s.look h now).context
    lapse := if (s.look h now).context.answered then h.lapse else (s.look h now).context.expiration }

theorem Kept.access_left (hc : s.contexts.find? c = some h) (hclock : s.clock ≤ now)
    (htaken : (s.look h now).taken = false) : (s.access c h now).Kept c (s.after h now) := by
  have hk := hs.kept c h hc
  have ho := look_outcome s now hk.sessionId
  obtain ⟨hexp, hans, hleft⟩ := ho.kept htaken
  have hlapse : (s.after h now).lapse = h.lapse := by
    rw [after, hans, hexp]
    cases hb : h.context.answered with
    | true => rfl
    | false => exact (hk.fresh hb).1
  have htakers : (s.access c h now).taken = s.taken := by simp [access, htaken]
  constructor
  case known => exact hk.known
  case sessionId => exact ho.sessionId ▸ hk.sessionId
  case given =>
    rw [hlapse, after, ho.sessionId]
    exact hk.given
  case fresh =>
    rw [hlapse, after, hans, hexp, htakers]
    exact hk.fresh
  case past =>
    rw [hlapse, after, hans, hexp]
    intro hb
    exact ⟨lt_of_lt_of_le (hk.past hb).1 hclock, lt_of_lt_of_le (hk.past hb).2 hclock⟩
  case asked =>
    rw [hlapse, after, hans]
    intro hb
    rcases hk.asked hb with ⟨q, a, hq, hasker, hasked, hext⟩ | hover
    · exact .inl ⟨q, a, hq, hasker, hasked, fun h => hext (h.mono hclock)⟩
    · exact .inr (hover.trans (Int.sub_le_sub_right hclock _))
  case seen =>
    intro q x hq hasker
    rw [after, ho.sessionId, hexp]
    rcases hk.seen q x hq hasker with hle | hlt | ⟨a, ha, hself, hle⟩
    · exact .inl hle
    · exact .inr (.inl (lt_of_lt_of_le hlt hclock))
    · cases hlooked : (s.look h now).looked with
      | true => exact .inl (hle.trans (hleft hlooked _ (by rw [ha, map_some])).1)
      | false => exact .inr (.inr ⟨a, by simpa [access, hlooked] using ha, hself, hle⟩)
  case own =>
    intro q hq hasker
    rw [after, ho.sessionId]
    simp only [access] at hq
    split_ifs at hq
    · rcases mem_cons.mp hq with rfl | hq
      · rfl
      · exact hk.own q hq hasker
    · exact hk.own q hq hasker

/-- An access that takes an answer over: one past now starts the context afresh, one short of it leaves it lapsed. -/
theorem Kept.access_taken (hc : s.contexts.find? c = some h) (hclock : s.clock ≤ now)
    (hord : s.Orderly (.access c now)) (htaken : (s.look h now).taken = true) :
    (s.access c h now).Kept c (s.after h now) := by
  have hk := hs.kept c h hc
  have ho := look_outcome s now hk.sessionId
  have hpos : 0 < now := lt_of_lt_of_le hs.clock hclock
  obtain ⟨a, ha, hasker, hexp, hshort, hlong, hmore⟩ := hs.taken_answer hc hclock hord htaken
  obtain ⟨e, he, hee, -⟩ := hs.slot _ a ha
  constructor
  case known => exact hk.known
  case sessionId => exact ho.sessionId ▸ hk.sessionId
  case given =>
    rw [after, ho.sessionId]
    cases hans : (s.look h now).context.answered with
    | true => exact hk.given
    | false =>
      rw [if_neg Bool.false_ne_true, hexp]
      exact hs.given_of_slot ha (lt_of_lt_of_le hpos (hlong hans))
  case fresh =>
    rw [after]
    intro hans
    rw [hans, if_neg Bool.false_ne_true]
    refine ⟨rfl, ?_⟩
    -- the new expiry is past now, and every taking was by now
    intro τ hat
    rw [hexp]
    simp only [access, htaken, if_true, mem_cons, Prod.mk.injEq] at hat
    rcases hat with ⟨-, rfl⟩ | hat
    · exact hlong hans
    · exact ((hs.takers c τ hat).2.trans hclock).trans (hlong hans)
  case past =>
    rw [after]
    intro hans
    rw [hans, if_pos rfl, hexp]
    exact ⟨(hshort hans).1, (hshort hans).2.1⟩
  case asked =>
    rw [after]
    intro hans
    rw [hans, if_pos rfl]
    obtain ⟨hlt, -, hasked | hover⟩ := hshort hans
    · refine .inl ⟨a.question, e, he, hasker, hasked, not_extends_of_lt ?_⟩
      rintro x rfl
      have hx : a.expiration = x := hee
      exact hx ▸ hlt
    · exact .inr hover
  case seen =>
    intro q x hq hself
    rw [after, hexp]
    rcases hk.seen q x hq hself with hle | hlt | ⟨a', ha', -, hle⟩
    · rcases hmore with hmore | hmore
      · exact .inl (hle.trans (le_of_lt hmore))
      · exact .inr (.inl (lt_of_le_of_lt hle hmore))
    · exact .inr (.inl (lt_of_lt_of_le hlt hclock))
    · rw [ha] at ha'
      exact .inl (some.inj ha' ▸ hle)
  case own =>
    intro q hq hself
    rw [after, ho.sessionId]
    simp only [access] at hq
    split_ifs at hq
    · rcases mem_cons.mp hq with rfl | hq
      · rfl
      · exact hk.own q hq hself
    · exact hk.own q hq hself

theorem Kept.access_other (hc : s.contexts.find? c = some h) (hclock : s.clock ≤ now)
    (hord : s.Orderly (.access c now)) {c' : ContextId} {h' : Held} (hk' : s.Kept c' h') (hne : c' ≠ c) :
    (s.access c h now).Kept c' h' := by
  have hk := hs.kept c h hc
  have ho := look_outcome s now hk.sessionId
  constructor
  case known => exact hk'.known
  case sessionId => exact hk'.sessionId
  case given => exact hk'.given
  case fresh =>
    intro hb
    refine ⟨(hk'.fresh hb).1, ?_⟩
    intro τ hat
    simp only [access] at hat
    split_ifs at hat
    · rcases mem_cons.mp hat with heq | hat
      · exact absurd (Prod.mk.inj heq).1 hne
      · exact (hk'.fresh hb).2 τ hat
    · exact (hk'.fresh hb).2 τ hat
  case past =>
    intro hb
    exact ⟨lt_of_lt_of_le (hk'.past hb).1 hclock, lt_of_lt_of_le (hk'.past hb).2 hclock⟩
  case asked =>
    intro hb
    rcases hk'.asked hb with ⟨q, a, hq, hasker, hasked, hext⟩ | hover
    · exact .inl ⟨q, a, hq, hasker, hasked, fun h => hext (h.mono hclock)⟩
    · exact .inr (hover.trans (Int.sub_le_sub_right hclock _))
  case seen =>
    intro q x hq hasker
    rcases hk'.seen q x hq hasker with hle | hlt | ⟨a, ha, hself, hle⟩
    · exact .inl hle
    · exact .inr (.inl (lt_of_lt_of_le hlt hclock))
    · refine .inr (.inr ⟨a, ?_, hself, hle⟩)
      -- an answer to this context is not in the slot that the access empties
      simp only [access]
      split_ifs with hlooked
      · rw [find?_erase, if_neg]
        · exact ha
        · intro heq
          rw [heq] at ha
          rw [ho.looked] at hlooked
          exact hne (hself.symm.trans (hord h hc hlooked a ha).1)
      · exact ha
  case own =>
    intro q hq hasker
    simp only [access] at hq
    split_ifs at hq
    · rcases mem_cons.mp hq with rfl | hq
      · exact absurd hasker.symm hne
      · exact hk'.own q hq hasker
    · exact hk'.own q hq hasker

theorem Sound.access (hc : s.contexts.find? c = some h) (hclock : s.clock ≤ now)
    (hord : s.Orderly (.access c now)) : (s.access c h now).Sound := by
  constructor
  case clock => exact lt_of_lt_of_le hs.clock hclock
  case kept =>
    intro c' h' hc'
    change (s.contexts.insert c (s.after h now)).find? c' = some h' at hc'
    rw [find?_insert] at hc'
    split_ifs at hc' with heq
    · rw [heq, ← some.inj hc']
      cases htaken : (s.look h now).taken with
      | false => exact .access_left hs hc hclock htaken
      | true => exact .access_taken hs hc hclock hord htaken
    · exact .access_other hs hc hclock hord (hs.kept c' h' hc') heq
  case slot =>
    intro id a ha
    simp only [Renewals.access] at ha
    split_ifs at ha
    · rw [find?_erase] at ha
      split_ifs at ha
      exact hs.slot id a ha
    · exact hs.slot id a ha
  case askers =>
    intro q hq
    simp only [Renewals.access] at hq
    split_ifs at hq
    · rcases mem_cons.mp hq with rfl | hq
      · exact (hs.kept c h hc).known
      · exact hs.askers q hq
    · exact hs.askers q hq
  case answered => exact hs.answered
  case takers =>
    intro c' τ hat
    simp only [Renewals.access] at hat
    split_ifs at hat
    · rcases mem_cons.mp hat with heq | hat
      · obtain ⟨rfl, rfl⟩ := Prod.mk.inj heq
        exact ⟨(hs.kept c' h hc).known, le_rfl⟩
      · exact ⟨(hs.takers c' τ hat).1, (hs.takers c' τ hat).2.trans hclock⟩
    · exact ⟨(hs.takers c' τ hat).1, (hs.takers c' τ hat).2.trans hclock⟩

/-- The verdict of an access, on what holds after it. -/
theorem Sound.judged (hclock : s.clock ≤ now) (hord : s.Orderly (.access c now)) : s.Judged (.access c now) := by
  intro h hc h' hc'
  have hk' := (hs.access hc hclock hord).kept c h' hc'
  have ho := look_outcome s now (hs.kept c h hc).sessionId
  obtain rfl : s.after h now = h' := by
    change (s.contexts.insert c (s.after h now)).find? c = some h' at hc'
    rw [find?_insert_self] at hc'
    exact some.inj hc'
  constructor
  · intro hserved
    rcases ho.served hserved with hnow | ⟨hans, hgrace⟩
    · left
      cases hans : (s.look h now).context.answered with
      | true => exact absurd (hk'.past hans).1 (not_lt.mpr hnow)
      | false =>
        have hlapse : (s.look h now).context.expiration = (s.after h now).lapse := (hk'.fresh hans).1
        exact ⟨_, hk'.given, hlapse ▸ hnow⟩
    · exact .inr ⟨hgrace, (hk'.fresh hans).2⟩
  · intro hrefused
    obtain ⟨hexp, hlooked, hwhy⟩ := ho.refused hrefused
    -- the slot has been looked at, so no answer that says more waits there
    have hseen : ∀ q a, (q, a) ∈ s.arrived → q.asker = c → ¬ Extends a now := by
      intro q a hq hasker
      apply not_extends_of_lt
      rintro x rfl
      rcases hk'.seen q x hq hasker with hle | hlt | ⟨b, hb, -⟩
      · exact lt_of_le_of_lt hle hexp
      · exact hlt
      · simp only [Renewals.access, hlooked, if_true] at hb
        rw [after, ho.sessionId, find?_erase, if_pos rfl] at hb
        cases hb
    cases hans : (s.look h now).context.answered with
    | true =>
      refine ⟨(hk'.past hans).2, ?_⟩
      rcases hk'.asked hans with hquestion | hover
      · exact .inl hquestion
      · exact .inr ⟨hover, hseen⟩
    | false =>
      have hlapse : (s.look h now).context.expiration = (s.after h now).lapse := (hk'.fresh hans).1
      rw [hans] at hwhy
      have hover := hwhy.resolve_left Bool.false_ne_true
      exact ⟨hlapse ▸ hexp, .inr ⟨hlapse ▸ hover, hseen⟩⟩

end Access

theorem sound_empty : Sound {} where
  clock := Int.one_pos
  kept := nofun
  slot := nofun
  askers := nofun
  answered := nofun
  takers := nofun

theorem Sound.activate (hs : s.Sound) {c : ContextId} {id : SessionPK} {now expiration : TimePoint} (hnew : c ∉ s.known)
    (hid : id ≠ 0) (hclock : s.clock ≤ now) : (s.activate c id now expiration).Sound := by
  constructor
  case clock => exact lt_of_lt_of_le hs.clock hclock
  case kept =>
    intro c' h hc'
    simp only [Renewals.activate, find?_insert] at hc'
    split_ifs at hc' with heq
    · cases hc'
      subst heq
      constructor
      case known => exact mem_cons_self
      case sessionId => exact hid
      case given => exact mem_cons_self
      case fresh => exact fun _ => ⟨rfl, fun τ hat => absurd (hs.takers c' τ hat).1 hnew⟩
      case past => exact nofun
      case asked => exact nofun
      case seen => exact fun q x hq hasker => absurd (hasker ▸ hs.answered q _ hq) hnew
      case own => exact fun q hq hasker => absurd (hasker ▸ hs.askers q hq) hnew
    · have hk := hs.kept c' h hc'
      refine { hk with
        known := mem_cons_of_mem _ hk.known
        given := mem_cons_of_mem _ hk.given
        past := fun hb => ⟨lt_of_lt_of_le (hk.past hb).1 hclock, lt_of_lt_of_le (hk.past hb).2 hclock⟩
        asked := ?asked
        seen := ?seen }
      case asked =>
        intro hb
        rcases hk.asked hb with ⟨q, a, hq, hasker, hasked, hext⟩ | hover
        · exact .inl ⟨q, a, hq, hasker, hasked, fun h => hext (h.mono hclock)⟩
        · exact .inr (hover.trans (Int.sub_le_sub_right hclock _))
      case seen =>
        intro q x hq hasker
        exact (hk.seen q x hq hasker).imp_right (Or.imp_left fun hlt => lt_of_lt_of_le hlt hclock)
  case slot =>
    intro x a ha
    obtain ⟨e, he, hee, hgiven⟩ := hs.slot x a ha
    exact ⟨e, he, hee, fun y hy => mem_cons_of_mem _ (hgiven y hy)⟩
  case askers => exact fun q hq => mem_cons_of_mem _ (hs.askers q hq)
  case answered => exact fun q a hq => mem_cons_of_mem _ (hs.answered q a hq)
  case takers =>
    exact fun x τ hat => ⟨mem_cons_of_mem _ (hs.takers x τ hat).1, (hs.takers x τ hat).2.trans hclock⟩

theorem mem_given_answer {q : Question} {e : Option TimePoint} {x : SessionPK × TimePoint} (h : x ∈ s.given) :
    x ∈ (s.answer q e).given := by
  cases e with
  | none => exact h
  | some y => exact mem_cons_of_mem _ h

theorem Sound.answer (hs : s.Sound) {q : Question} {e : Option TimePoint} (hq : q ∈ s.outstanding)
    (hord : s.Orderly (.answer q e)) : (s.answer q e).Sound := by
  constructor
  case clock => exact hs.clock
  case kept =>
    intro c h hc
    have hk := hs.kept c h hc
    refine { hk with
      given := mem_given_answer hk.given
      asked := ?asked
      seen := ?seen
      own := fun q' hq' => hk.own q' (mem_of_mem_erase hq') }
    case asked =>
      intro hb
      rcases hk.asked hb with ⟨q', a, hq', hrest⟩ | hover
      · exact .inl ⟨q', a, mem_cons_of_mem _ hq', hrest⟩
      · exact .inr hover
    case seen =>
      intro q' x hq' hasker
      simp only [Renewals.answer, find?_insert]
      rcases mem_cons.mp hq' with heq | hq'
      · -- the answer itself is in the slot now
        obtain ⟨rfl, rfl⟩ := Prod.mk.inj heq
        rw [if_pos (hk.own q' hq hasker).symm]
        exact .inr (.inr ⟨_, rfl, hasker, le_rfl⟩)
      · rcases hk.seen q' x hq' hasker with hle | hlt | ⟨a, ha, hself, hle⟩
        · exact .inl hle
        · exact .inr (.inl hlt)
        · refine .inr (.inr ?_)
          split_ifs with hid
          · rw [hid] at ha
            obtain ⟨hsame, hmore⟩ := hord a ha
            exact ⟨_, rfl, hsame ▸ hself, hle.trans hmore⟩
          · exact ⟨a, ha, hself, hle⟩
  case slot =>
    intro id a ha
    simp only [Renewals.answer, find?_insert] at ha
    split_ifs at ha with hid
    · cases ha
      refine ⟨e, mem_cons_self, rfl, ?_⟩
      rintro x rfl
      rw [hid]
      exact mem_cons_self
    · obtain ⟨e', he', hee', hgiven⟩ := hs.slot id a ha
      exact ⟨e', mem_cons_of_mem _ he', hee', fun x hx => mem_given_answer (hgiven x hx)⟩
  case askers => exact fun q' hq' => hs.askers q' (mem_of_mem_erase hq')
  case answered =>
    intro q' a hq'
    rcases mem_cons.mp hq' with heq | hq'
    · rw [(Prod.mk.inj heq).1]
      exact hs.askers q hq
    · exact hs.answered q' a hq'
  case takers => exact hs.takers

/-- A context goes, and the slot of its session may be emptied where it holds no answer to another. -/
theorem Sound.remove (hs : s.Sound) {c : ContextId} {answers : OrdMap SessionPK Answer}
    (hless : ∀ id a, answers.find? id = some a → s.answers.find? id = some a)
    (hothers : ∀ id a, s.answers.find? id = some a → a.question.asker ≠ c → answers.find? id = some a) :
    { s with contexts := s.contexts.erase c, answers := answers }.Sound := by
  refine { hs with kept := fun c' h hc' => ?_, slot := fun id a ha => hs.slot id a (hless id a ha) }
  obtain ⟨heq, hc'⟩ := find?_erase_eq_some.mp hc'
  have hk := hs.kept c' h hc'
  refine { hk with seen := fun q x hq hasker => (hk.seen q x hq hasker).imp_right (Or.imp_right ?_) }
  rintro ⟨a, ha, hself, hle⟩
  exact ⟨a, hothers _ a ha (hself ▸ heq), hself, hle⟩

theorem Sound.step (hs : s.Sound) {e : RenewalEvent} (hord : s.Orderly e) (hstep : renewalStep s e = some t) :
    t.Sound ∧ s.Judged e := by
  cases e with
  | activate c id now expiration =>
    obtain ⟨⟨hnew, hid, hclock⟩, rfl⟩ := of_guard hstep
    exact ⟨hs.activate hnew hid hclock, trivial⟩
  | access c now =>
    simp only [renewalStep, ite_none_right_eq_some, map_eq_some_iff] at hstep
    obtain ⟨hclock, h, hc, rfl⟩ := hstep
    exact ⟨hs.access hc hclock hord, hs.judged hclock hord⟩
  | answer q e =>
    obtain ⟨hq, rfl⟩ := of_guard hstep
    exact ⟨hs.answer hq hord, trivial⟩
  | closeSession c =>
    simp only [renewalStep, map_eq_some_iff] at hstep
    obtain ⟨h, hc, rfl⟩ := hstep
    refine ⟨hs.remove ?_ ?_, trivial⟩
    · intro id a ha
      rw [find?_erase] at ha
      split_ifs at ha
      exact ha
    · intro id a ha hasker
      rw [find?_erase, if_neg]
      · exact ha
      · rintro rfl
        exact hasker (hord h hc a ha)
  | discard c =>
    simp only [renewalStep, map_eq_some_iff] at hstep
    obtain ⟨h, hc, rfl⟩ := hstep
    exact ⟨hs.remove (fun _ _ h => h) fun _ _ h _ => h, trivial⟩

/-- In every run whose answers and looks are orderly, every access has the verdict it may have. -/
theorem served_by_the_grace {es : List RenewalEvent} (hrun : exec renewalStep {} es = some t)
    (hord : Along renewalStep Orderly {} es) : Along renewalStep Judged {} es :=
  hord.of_invariant (fun hs hP hstep => hs.step hP hstep) sound_empty hrun

/-- Two contexts of one web session. The first asks ahead of its lapse, at 60 s, and is renewed from 100 s to 160 s; it
lapses, asks at 161 s and is served in its grace until a failure answers. The second lapses unasked. -/
def renewedRun : List RenewalEvent :=
  [.activate 1 5 1000000000 100000000000, .access 1 60000000000, .answer ⟨1, 5, 60000000000⟩ (some 160000000000),
    .access 1 90000000000, .access 1 120000000000, .access 1 161000000000,
    .activate 2 5 162000000000 163000000000, .answer ⟨1, 5, 161000000000⟩ none, .access 1 164000000000,
    .access 2 200000000000]

theorem renewedRun_judged : (exec renewalStep {} renewedRun).isSome ∧ Along renewalStep Judged {} renewedRun := by
  have hrun : exec renewalStep {} renewedRun = some _ := rfl
  exact ⟨by rw [hrun]; rfl, served_by_the_grace hrun (by decide +kernel)⟩

/-- A session that lapses at 100 s is asked about at 60 s, ahead, and again at 101 s; a failure answers the first. -/
def lateFailure : List RenewalEvent :=
  [.activate 1 5 1000000000 100000000000, .access 1 60000000000, .access 1 101000000000,
    .answer ⟨1, 5, 60000000000⟩ none]

/-- The access at 102 s is denied on the failure that answers the question from before the lapse. -/
theorem lateFailure_denied : (exec renewalStep {} (lateFailure ++ [.access 1 102000000000])).isSome ∧
    ¬ Along renewalStep Judged {} (lateFailure ++ [.access 1 102000000000]) := by
  have hrun : exec renewalStep {} lateFailure = some _ := rfl
  refine ⟨rfl, fun h => ?_⟩
  obtain ⟨-, hlapsed⟩ := h.last hrun _ rfl _ rfl
  obtain ⟨-, ⟨q, a, hq, -, hasked, -⟩ | ⟨hover, -⟩⟩ := hlapsed rfl
  · obtain ⟨rfl, -⟩ := Prod.mk.inj (mem_singleton.mp hq)
    revert hasked
    decide
  · revert hover
    decide

end Renewals

end OpcHub.OpcServer
