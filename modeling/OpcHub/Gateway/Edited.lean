import OpcHub.Gateway.Connects

/-! An edit against the connects it cannot see. ConnectionEdited acts on the
clients registered when it looks; a connect under way counted the edits before
it read its row, and its client is registered only if no edit of the row has a
later number. So once ConnectionEdited has returned, each client registered and
not lost or removed was built from a read begun after the edit was recorded. -/

namespace OpcHub.Gateway

open Lib Option Function Multiset

variable {I S C A : Type*}

/-- The number of the last edit that came with the key. -/
def Edits.last (e : Edits I S) : RowKey I S → ℕ
  | .pk id => e.ids id
  | .nk slug => e.slugs slug

/-- The clients still to close. -/
def EditPhase.clients : EditPhase → List ℕ
  | .recorded => []
  | .closing clients => clients
  | .leaving _ clients => clients

namespace Edits

theorem le_of_not_since {e : Edits I S} {row : Row I S} {edits : ℕ} (h : e.since row edits = false) {key : RowKey I S}
    (hmatches : key.Matches row) : e.last key ≤ edits := by
  simp only [since, Bool.or_eq_false_iff, decide_eq_false_iff_not, not_lt] at h
  cases key with
  | pk id =>
    obtain rfl := hmatches
    exact h.1
  | nk slug =>
    obtain rfl := hmatches
    exact h.2

variable [DecidableEq I] [DecidableEq S] (e : Edits I S)

theorem last_record (key : RowKey I S) : (e.record key).last key = e.count + 1 := by
  cases key <;> simp [last, record]

theorem last_record_of_ne {key other : RowKey I S} (hne : other ≠ key) : (e.record key).last other = e.last other := by
  cases key <;> cases other <;> simp_all [last, record, update_of_ne]

end Edits

namespace Connects

section Facts

variable (s : Connects I S C A)

/-- Registered, and not lost or removed. -/
def Standing (client : ℕ) (c : Client I S C) : Prop :=
  s.registered c.key = some client ∧ s.clients client = some c ∧ s.connected client

/-- The clients and their rows, as the connects brought them. -/
structure Built [DecidableEq S] [DecidableEq C] : Prop where
  sound : s.Sound
  dated : ∀ {key stage}, (key, stage) ∈ s.connects → s.Dated key stage
  client : ∀ {client c}, s.clients client = some c → client < s.built ∧ c.editsAtRead ≤ c.begun
  registered : ∀ {key client}, s.registered key = some client → ∃ c, s.clients client = some c ∧ c.key = key

/-- A ConnectionEdited that has looked has still to close each client built from an earlier read. -/
structure Closes : Prop where
  last : ∀ key, s.edits.last key ≤ s.edits.count
  number : ∀ {n call}, s.calls n = some call → n ≤ s.edits.last call.key
  closes : ∀ {n call client c}, s.calls n = some call → s.Standing client c → call.key.Matches c.row →
    n ≤ c.begun ∨ call.phase = .recorded ∨ client ∈ call.phase.clients

end Facts

variable [DecidableEq I] [DecidableEq S] [DecidableEq C] [DecidableEq A] {s t : Connects I S C A}
  {e : ConnectEvent I S C A}

variable {key : Key S C} {other : ℕ}

omit [DecidableEq I] [DecidableEq S] [DecidableEq C] [DecidableEq A] in
theorem Dated.mono {stage : Stage I S} (h : s.Dated key stage) (hcount : s.edits.count ≤ t.edits.count)
    (hclients : ∀ {client c}, s.clients client = some c → t.clients client = some c) : t.Dated key stage := by
  cases stage with
  | counted edits => exact le_trans (b := s.edits.count) h hcount
  | connecting client =>
    obtain ⟨c, hc, hkey⟩ := h
    exact ⟨c, hclients hc, hkey⟩
  | _ => exact h

omit [DecidableEq I] [DecidableEq A] in
theorem Built.keep (h : s.Built) (hsound : t.Sound) (hedits : t.edits = s.edits) (hclients : t.clients = s.clients)
    (hbuilt : t.built = s.built)
    (hconnects : ∀ {key stage}, (key, stage) ∈ t.connects → (key, stage) ∈ s.connects ∨ s.Dated key stage)
    (hregistered : ∀ {key client}, t.registered key = some client → s.registered key = some client) : t.Built where
  sound := hsound
  dated hmem := by
    have hdated := (hconnects hmem).elim h.dated id
    exact hdated.mono (by rw [hedits]) (by rw [hclients]; exact id)
  client hc := by
    rw [hclients] at hc
    rw [hbuilt]
    exact h.client hc
  registered hr := by
    rw [hclients]
    exact h.registered (hregistered hr)

omit [DecidableEq A] in
theorem dated_advance {k : Key S C} {before after stage : Stage I S} (hafter : s.Dated key after)
    (hmem : (k, stage) ∈ advance s.connects key before after) : (k, stage) ∈ s.connects ∨ s.Dated k stage := by
  obtain heq | hmem := mem_advance hmem
  · cases heq
    exact .inr hafter
  · exact .inl (mem_of_mem_erase hmem)

omit [DecidableEq A] in
theorem Built.build (h : s.Built) {row : Row I S} {edits begun : ℕ}
    (hmem : (key, .pooled row edits begun) ∈ s.connects) (hsound : (s.build key row edits begun).Sound) :
    (s.build key row edits begun).Built := by
  obtain ⟨hslug, hle⟩ := h.dated hmem
  unfold Connects.build at hsound ⊢
  split <;> rename_i hsince
  · rw [if_pos hsince] at hsound
    exact h.keep hsound rfl rfl rfl (dated_advance trivial) id
  · rw [if_neg hsince] at hsound
    have hold : ∀ {client c}, s.clients client = some c →
        update s.clients s.built (some ⟨row, key.credential, edits, begun⟩) client = some c := by
      intro client c hc
      rw [update_of_ne (h.client hc).1.ne, hc]
    refine ⟨hsound, fun hmem => ?_, fun {client c} hc => ?_, fun hr => ?_⟩
    · obtain heq | hmem := mem_advance hmem
      · cases heq
        refine ⟨_, update_self .., ?_⟩
        rw [Client.key, hslug]
      · exact (h.dated (mem_of_mem_erase hmem)).mono le_rfl hold
    · by_cases heq : client = s.built
      · subst heq
        simp only [update_self, some.injEq] at hc
        subst hc
        exact ⟨Nat.lt_succ_self _, hle⟩
      · simp only [update_of_ne heq] at hc
        exact ⟨(h.client hc).1.trans (Nat.lt_succ_self _), (h.client hc).2⟩
    · obtain ⟨c, hc, hkey⟩ := h.registered hr
      exact ⟨c, hold hc, hkey⟩

omit [DecidableEq A] in
theorem Built.activate (h : s.Built) {client : ℕ} (hmem : (key, .connecting client) ∈ s.connects)
    (hsound : (s.activate key client).Sound) : (s.activate key client).Built := by
  obtain ⟨c, hc, hkey⟩ := h.dated hmem
  have hfree : (s.registered key).isSome = false := by rw [h.sound.free hmem rfl]; rfl
  unfold Connects.activate at hsound ⊢
  split <;> rename_i hstale
  · rw [if_pos hstale] at hsound
    exact h.keep hsound rfl rfl rfl (dated_advance trivial) id
  · rw [if_neg hstale] at hsound
    refine ⟨hsound, fun hm => ?_, h.client, fun {k other} hr => ?_⟩
    · have hanswered : s.Dated key (.answered (some client)) := trivial
      obtain hm | hdated := dated_advance hanswered hm
      · exact (h.dated hm).mono le_rfl id
      · exact hdated.mono le_rfl id
    · simp only [hfree, Bool.false_eq_true, if_false] at hr
      by_cases heq : k = key
      · subst heq
        rw [update_self, some.injEq] at hr
        exact ⟨c, hr ▸ hc, hkey⟩
      · rw [update_of_ne heq] at hr
        exact h.registered hr

theorem Built.step (h : s.Built) (hstep : s.step e = some t) : t.Built := by
  have hsound := h.sound.step hstep
  cases step_steps hstep with
  | join _ _ =>
    refine h.keep hsound rfl rfl rfl (fun hmem => ?_) id
    split at hmem
    · obtain heq | hmem := mem_cons.mp hmem
      · cases heq
        exact .inr trivial
      · exact .inl hmem
    · exact .inl hmem
  | goOn hmem _ hdated => exact h.keep hsound rfl rfl rfl (dated_advance (hdated (h.dated hmem))) id
  | build hmem => exact h.build hmem hsound
  | activate hmem => exact h.activate hmem hsound
  | drain _ => exact h.keep hsound rfl rfl rfl (fun hmem => .inl (mem_of_mem_erase hmem)) id
  | unregister _ | leave _ _ => exact h.keep hsound rfl rfl rfl .inl unregister_registered
  | edit _ _ | keepAlive _ => exact ⟨hsound, fun hmem => (h.dated hmem).mono (by simp) id, h.client, h.registered⟩
  | _ => exact h.keep hsound rfl rfl rfl .inl id

variable {client : ℕ} {c : Client I S C}

omit [DecidableEq A] in
theorem Standing.of_build (h : s.Built) {row : Row I S} {edits begun : ℕ}
    (hstanding : (s.build key row edits begun).Standing client c) : s.Standing client c := by
  unfold build at hstanding
  split at hstanding
  · exact hstanding
  · obtain ⟨hr, hc, hup⟩ := hstanding
    -- what is registered was built before
    obtain ⟨old, hold, -⟩ := h.registered hr
    simp only [update_of_ne (h.client hold).1.ne] at hc
    exact ⟨hr, hc, hup⟩

omit [DecidableEq A] in
theorem Standing.of_activate (h : s.Built) (hmem : (key, .connecting other) ∈ s.connects)
    (hstanding : (s.activate key other).Standing client c) :
    s.Standing client c ∨ s.clients client = some c ∧ s.edits.since c.row c.editsAtRead = false := by
  obtain ⟨old, hold, hkey⟩ := h.dated hmem
  have hfree := h.sound.free hmem rfl
  unfold activate at hstanding
  split at hstanding <;> rename_i hstale
  · exact .inl hstanding
  · obtain ⟨hr, hc, hup⟩ := hstanding
    simp only [hfree, isSome_none, Bool.false_eq_true, if_false] at hr
    by_cases hk : c.key = key
    · rw [hk, update_self, some.injEq] at hr
      subst hr
      refine .inr ⟨hc, ?_⟩
      simpa [stale, show s.clients other = some c from hc] using hstale
    · rw [update_of_ne hk] at hr
      -- the client activated is not registered yet, under its key or another
      have hne : client ≠ other := by
        rintro rfl
        rw [hold, some.injEq] at hc
        exact hk (hc ▸ hkey)
      simp only [update_of_ne hne] at hup
      exact .inl ⟨hr, hc, hup⟩

omit [DecidableEq I] [DecidableEq S] [DecidableEq C] [DecidableEq A] in
theorem Standing.of_letGo {removed : Bool} (hstanding : (s.letGo other removed).Standing client c) :
    client ≠ other ∧ s.Standing client c := by
  obtain ⟨hr, hc, hup⟩ := hstanding
  have hne : client ≠ other := by
    rintro rfl
    simp [letGo] at hup
  simp only [letGo, update_of_ne hne] at hup
  exact ⟨hne, hr, hc, hup⟩

omit [DecidableEq I] [DecidableEq S] [DecidableEq C] [DecidableEq A] in
theorem Standing.of_unregister (hstanding : (s.unregister other).Standing client c) : s.Standing client c :=
  ⟨unregister_registered hstanding.1, hstanding.2⟩

/-- A client comes to stand only by its activation, on a row not edited since its connect counted. -/
theorem step_standing (h : s.Built) (hstep : s.step e = some t) (hstanding : t.Standing client c) :
    s.Standing client c ∨
      s.clients client = some c ∧ s.edits.since c.row c.editsAtRead = false ∧ t.edits = s.edits ∧ t.calls = s.calls := by
  cases step_steps hstep with
  | build _ => exact .inl (hstanding.of_build h)
  | activate hmem =>
    refine (hstanding.of_activate h hmem).imp_right fun hbuilt => ⟨hbuilt.1, hbuilt.2, ?_, ?_⟩ <;>
    · unfold activate
      split <;> rfl
  | letGo _ _ => exact .inl hstanding.of_letGo.2
  | unregister _ | leave _ _ => exact .inl (Standing.of_unregister (s := s) hstanding)
  | @close _ other _ call _ _ =>
    have hgone : (s.letGo other call.removed).Standing client c := hstanding
    exact .inl hgone.of_letGo.2
  | _ => exact .inl hstanding

/-- What a step can do to the edits and the calls. -/
inductive Edited (s t : Connects I S C A) : Prop where
  | keep (hedits : t.edits = s.edits) (hcalls : t.calls = s.calls)
  | record (key : RowKey I S) (removed : Bool) (hedits : t.edits = s.edits.record key)
      (hcalls : t.calls = s.calls ∨
        t.calls = Function.update s.calls (s.edits.count + 1) (some ⟨key, removed, .recorded⟩))
  /-- A call looks, or closes one client more. -/
  | goOn (n : ℕ) (call : EditCall I S) (phase : EditPhase) (hedits : t.edits = s.edits) (hcall : s.calls n = some call)
      (hcalls : t.calls = Function.update s.calls n (some { call with phase := phase }))
      (hphase : ∀ {client c}, s.Standing client c → t.Standing client c → call.key.Matches c.row →
        call.phase = .recorded ∨ client ∈ call.phase.clients → client ∈ phase.clients)

omit [DecidableEq A] in
theorem mem_builtFrom (h : s.Built) {key : RowKey I S} (hstanding : s.Standing client c) (hmatches : key.Matches c.row) :
    client ∈ s.builtFrom key := by
  obtain ⟨hr, hc, -⟩ := hstanding
  simp only [builtFrom, List.mem_filter, List.mem_range, hc, any_some, Bool.and_eq_true, decide_eq_true_eq]
  exact ⟨(h.client hc).1, hr, hmatches⟩

open EditPhase

theorem step_edited (h : s.Built) (hstep : s.step e = some t) : s.Edited t := by
  cases step_steps hstep with
  | build _ =>
    unfold build
    split <;> exact .keep rfl rfl
  | activate _ =>
    unfold activate
    split <;> exact .keep rfl rfl
  | edit key removed => exact .record key removed rfl (.inr rfl)
  | keepAlive key => exact .record key false rfl (.inl rfl)
  | list hcall =>
    exact .goOn _ _ _ rfl hcall rfl fun hstanding _ hmatches _ => mem_builtFrom h hstanding hmatches
  | @close _ other _ call hcall hnext =>
    refine .goOn _ call _ rfl hcall rfl fun {client c} _ hstanding _ hmem => ?_
    have hgone : (s.letGo other call.removed).Standing client c := hstanding
    have hne := hgone.of_letGo.1
    cases hphase : call.phase with
    | closing all =>
      cases all with
      | nil => simp [hphase, next] at hnext
      | cons first rest =>
        simp only [hphase, next, some.injEq, Prod.mk.injEq] at hnext
        obtain ⟨rfl, rfl⟩ := hnext
        simpa [hphase, EditPhase.clients, hne] using hmem
    | recorded | leaving => simp [hphase, next] at hnext
  | @leave _ _ _ call hcall hleft =>
    refine .goOn _ call _ rfl hcall rfl fun _ hstanding _ hmem => ?_
    cases hphase : call.phase with
    | leaving first rest =>
      simp only [hphase, left, some.injEq, Prod.mk.injEq] at hleft
      obtain ⟨rfl, rfl⟩ := hleft
      simpa [hphase, EditPhase.clients] using hmem
    | recorded | closing => simp [hphase, left] at hleft
  | _ => exact .keep rfl rfl

open Edits

omit [DecidableEq I] [DecidableEq A] in
/-- A client that comes to stand was read after every edit of its row recorded so far. -/
theorem Closes.begun (h : s.Closes) (hbuilt : s.Built) {n : ℕ} {call : EditCall I S} (hcall : s.calls n = some call)
    (hc : s.clients client = some c) (hsince : s.edits.since c.row c.editsAtRead = false)
    (hmatches : call.key.Matches c.row) : n ≤ c.begun :=
  calc n ≤ s.edits.last call.key := h.number hcall
    _ ≤ c.editsAtRead := le_of_not_since hsince hmatches
    _ ≤ c.begun := (hbuilt.client hc).2

theorem Closes.step (h : s.Closes) (hbuilt : s.Built) (hstep : s.step e = some t) : t.Closes := by
  cases step_edited hbuilt hstep with
  | keep hedits hcalls =>
    refine ⟨by rw [hedits]; exact h.last, fun hcall => ?_, fun hcall hstanding hmatches => ?_⟩
    · rw [hcalls] at hcall
      rw [hedits]
      exact h.number hcall
    · rw [hcalls] at hcall
      obtain hold | ⟨hc, hsince, -⟩ := step_standing hbuilt hstep hstanding
      · exact h.closes hcall hold hmatches
      · exact .inl (h.begun hbuilt hcall hc hsince hmatches)
  | record key removed hedits hcalls =>
    have hgrows : ∀ other, s.edits.last other ≤ (s.edits.record key).last other := by
      intro other
      by_cases heq : other = key
      · rw [heq, last_record]
        exact (h.last key).trans (Nat.le_succ _)
      · rw [last_record_of_ne _ heq]
    -- a call of the new number is the one just recorded
    have hcase : ∀ {n call}, t.calls n = some call →
        s.calls n = some call ∨ n = s.edits.count + 1 ∧ call.key = key ∧ call.phase = .recorded := by
      intro n call hcall
      obtain hcalls | hcalls := hcalls
      · exact .inl (hcalls ▸ hcall)
      · rw [hcalls] at hcall
        by_cases heq : n = s.edits.count + 1
        · rw [heq, update_self, some.injEq] at hcall
          exact .inr ⟨heq, by rw [← hcall], by rw [← hcall]⟩
        · rw [update_of_ne heq] at hcall
          exact .inl hcall
    refine ⟨fun other => ?_, fun {n call} hcall => ?_, fun hcall hstanding hmatches => ?_⟩
    · rw [hedits, record_count]
      by_cases heq : other = key
      · rw [heq, last_record]
      · rw [last_record_of_ne _ heq]
        exact (h.last other).trans (Nat.le_succ _)
    · rw [hedits]
      obtain hcall | ⟨rfl, hkey, -⟩ := hcase hcall
      · exact (h.number hcall).trans (hgrows _)
      · rw [hkey, last_record]
    · obtain hold | ⟨-, -, hsame, -⟩ := step_standing hbuilt hstep hstanding
      · obtain hcall | ⟨-, -, hrecorded⟩ := hcase hcall
        · exact h.closes hcall hold hmatches
        · exact .inr (.inl hrecorded)
      · have hcount := congrArg count (hsame.symm.trans hedits)
        rw [record_count] at hcount
        omega
  | goOn n call phase hedits hcall hcalls hphase =>
    have hcase : ∀ {m other}, t.calls m = some other →
        s.calls m = some other ∨ m = n ∧ other = { call with phase := phase } := by
      intro m other hother
      rw [hcalls] at hother
      by_cases heq : m = n
      · rw [heq, update_self, some.injEq] at hother
        exact .inr ⟨heq, hother.symm⟩
      · rw [update_of_ne heq] at hother
        exact .inl hother
    refine ⟨by rw [hedits]; exact h.last, fun hother => ?_, fun hother hstanding hmatches => ?_⟩
    · rw [hedits]
      obtain hother | ⟨rfl, rfl⟩ := hcase hother
      · exact h.number hother
      · have hnumber := h.number hcall
        exact hnumber
    · obtain hold | ⟨hc, hsince, -, hsame⟩ := step_standing hbuilt hstep hstanding
      · obtain hother | ⟨rfl, rfl⟩ := hcase hother
        · exact h.closes hother hold hmatches
        · exact (h.closes hcall hold hmatches).imp_right fun hrest => .inr (hphase hold hstanding hmatches hrest)
      · rw [hsame] at hother
        exact .inl (h.begun hbuilt hother hc hsince hmatches)

omit [DecidableEq I] [DecidableEq A] in
theorem built_start : ({} : Connects I S C A).Built where
  sound := sound_start
  dated hmem := absurd hmem (notMem_zero _)
  client hc := by cases hc
  registered hr := by cases hr

omit [DecidableEq I] [DecidableEq S] [DecidableEq C] [DecidableEq A] in
theorem closes_start : ({} : Connects I S C A).Closes where
  last key := by cases key <;> rfl
  number hcall := by cases hcall
  closes hcall := by cases hcall

/-- Once ConnectionEdited has returned, and from then on, every client of the row that is registered and neither lost
nor removed was built from a read begun when the edit was recorded. -/
theorem edited_read_after {es : List (ConnectEvent I S C A)} (hrun : exec step {} es = some s) {n : ℕ}
    {call : EditCall I S} (hcall : s.calls n = some call) (hreturned : call.phase = .closing [])
    (hstanding : s.Standing client c) (hmatches : call.key.Matches c.row) : n ≤ c.begun := by
  have hboth : s.Built ∧ s.Closes :=
    exec_induction (I := fun s => s.Built ∧ s.Closes) (fun hs hstep => ⟨hs.1.step hstep, hs.2.step hs.1 hstep⟩)
      ⟨built_start, closes_start⟩ hrun
  obtain hbegun | hrecorded | hmem := hboth.2.closes hcall hstanding hmatches
  · exact hbegun
  · rw [hreturned] at hrecorded
    cases hrecorded
  · rw [hreturned] at hmem
    cases hmem

/-- An edit while the row's client connects. -/
def editedConnecting : List (ConnectEvent ℕ ℕ ℕ ℕ) :=
  [.start ⟨1, 1⟩ 0, .enter ⟨1, 1⟩ 0, .count ⟨1, 1⟩, .read ⟨1, 1⟩ 0, .found ⟨1, 1⟩ 0 0 ⟨5, 1⟩,
    .build ⟨1, 1⟩ ⟨5, 1⟩ 0 0, .edit (.pk 5) false, .list 1, .activate ⟨1, 1⟩ 0, .again ⟨1, 1⟩, .count ⟨1, 1⟩,
    .read ⟨1, 1⟩ 1, .found ⟨1, 1⟩ 1 1 ⟨5, 1⟩, .build ⟨1, 1⟩ ⟨5, 1⟩ 1 1, .activate ⟨1, 1⟩ 1]

theorem editedConnecting_read_after :
    ∃ s : Connects ℕ ℕ ℕ ℕ, exec step {} editedConnecting = some s ∧ ∃ c, s.Standing 1 c ∧ 1 ≤ c.begun := by
  have hrun : exec step {} editedConnecting = some _ := rfl
  refine ⟨_, hrun, ⟨⟨5, 1⟩, 1, 1, 1⟩, ⟨rfl, rfl, rfl⟩, ?_⟩
  exact edited_read_after hrun (n := 1) rfl rfl ⟨rfl, rfl, rfl⟩ rfl

end Connects

end OpcHub.Gateway
