import OpcHub.Historian.Conserve

/-! What a read sees of a group's values, the buffer's snapshot and the files, is
what was stored and not let go, with the markers of the gaps a full buffer left.
It holds in every state of every run in which a read can take both locks. -/

namespace OpcHub.Historian

open Lib List DataValue Historian.Group

variable {V Id : Type*}

/-- The values a read's snapshot of the buffer shows, of every node. -/
def Group.seen (env : Env V Id) (g : Group V Id) : List (DataValue V) :=
  (valuesOf (g.snapshot env fun _ => true)).map fun b => b.item.filed

/-- Every value that left unwritten: a heartbeat a later value took back, a value the trim gave up,
or one whose file is refused. -/
def Ledger.gone (l : Ledger V) : List (DataValue V) :=
  (l.dropped ++ l.trimmed.map Buffered.item ++ l.discarded.map Buffered.item).map DataValue.filed

/-- The trim's markers, those of gaps still open and those since made records. -/
def Group.markers (env : Env V Id) (g : Group V Id) : List (DataValue V) :=
  (g.ledger.marked ++ g.gapMarkers env).map DataValue.filed

/-- A group as its host starts it, with nothing buffered. -/
structure System.Starts (s : System V Id) : Prop where
  idle : s.phase = .idle
  taken : s.group.taken = none
  values : s.group.values = []
  lost : s.group.lost = ∅
  ledger : s.group.ledger = {}
  subscribers : s.group.subscribers = []
  posted : s.posted = []
  delivered : s.delivered = []
  modified : s.modified = []
  subscriptions : s.subscriptions = []

section Kinds

variable [DecidableEq V]

/-- How often a value is among tokens, over the three kinds. -/
def total (f : Token V → ℤ) (v : DataValue V) : ℤ := f (.plain, v) + f (.beat, v) + f (.released, v)

theorem count_snd (l : List (Token V)) (v : DataValue V) :
    ((l.map Prod.snd).count v : ℤ) = total (fun x => (l.count x : ℤ)) v := by
  induction l with
  | nil => rfl
  | cons t l ih =>
    obtain ⟨kind, w⟩ := t
    simp only [total] at ih ⊢
    simp only [map_cons, count_cons]
    by_cases hw : w = v
    · cases kind <;> simp <;> omega
    · simpa [hw] using ih

theorem total_tally (l : List (Buffered (DataValue V))) (v : DataValue V) :
    total (fun x => tally x l) v = ((l.map fun b => b.item.filed).count v : ℤ) := by
  rw [show (l.map fun b => b.item.filed) = (l.map Buffered.token).map Prod.snd by simp [Buffered.token], count_snd]
  rfl

theorem total_tallyAs {f : DataValue V → Token V} (hf : ∀ v, (f v).2 = v.filed) (l : List (DataValue V))
    (v : DataValue V) : total (fun x => tallyAs x f l) v = ((l.map filed).count v : ℤ) := by
  rw [show l.map filed = (l.map f).map Prod.snd by simp [hf], count_snd]
  rfl

end Kinds

namespace System

variable {env : Env V Id} {s₀ s : System V Id}

theorem Starts.sound (h : s₀.Starts) : s₀.Sound env := by
  simpa only [Sound, h.idle] using h.taken

theorem Starts.letGo (h : s₀.Starts) : s₀.LetGo env := by
  simp [LetGo, h.ledger]

/-- Where a read can take both locks, the flush has in hand what a snapshot shows of its batch. -/
theorem inFlight_of_readable (h : s.phase.readable = true) : s.inFlight = s.group.unwritten := by
  simp only [inFlight]
  cases hphase : s.phase <;> simp_all [Phase.readable]

variable [DecidableEq V]

theorem Starts.net (h : s₀.Starts) (x : Token V) : s₀.net x = tallyAs x leaving s₀.files.values := by
  have hreadable : s₀.phase.readable = true := by rw [h.idle]; rfl
  rw [System.net, inFlight_of_readable hreadable, unwritten_eq_nil h.taken]
  simp only [Group.net, Group.lostNewest, h.values, h.lost, h.ledger]
  simp only [show (∅ : OrdMap NodeIndex (Lost V)).entries = [] from rfl, flatMap_nil, valuesOf,
    filterMap_nil, tally_nil, tallyAs_nil]
  omega

/-- A snapshot, as the balance counts it: the batch's unwritten part, the gaps and the values. -/
theorem tally_snapshot (g : Group V Id) (x : Token V) : tally x (valuesOf (g.snapshot env fun _ => true)) =
      tally x (valuesOf g.unwritten) + tally x g.lostNewest +
        tallyAs x (as .plain) (g.gapMarkers env) + tally x g.values := by
  have hmerge := tally_perm x (valuesOf_mergeRecords_perm g.changes g.values)
  have hlost := g.tally_lostRecords env x
  simp only [snapshot, filter_true, valuesOf_append, valuesOf_map_value, tally_append]
  omega

variable (env) in
/-- The balance of each kind, in a state a read can see. -/
theorem readable_balance (hstart : s₀.Starts) (hnet : s.net = s₀.net) (hread : s.phase.readable = true)
    (x : Token V) :
    tally x (valuesOf (s.group.snapshot env fun _ => true)) + tallyAs x leaving s.files.values +
        (tallyAs x (as .beat) s.group.ledger.dropped + tally x s.group.ledger.trimmed +
          tally x s.group.ledger.discarded) + tallyAs x (as .beat) s.group.ledger.released =
      tallyAs x leaving s₀.files.values + tallyAs x arriving s.group.ledger.stored +
        (tallyAs x (as .plain) s.group.ledger.marked +
          tallyAs x (as .plain) (s.group.gapMarkers env)) +
        tallyAs x (as .released) s.group.ledger.released := by
  have hnet := congrFun hnet x
  rw [hstart.net, System.net, inFlight_of_readable hread, Group.net] at hnet
  rw [tally_snapshot]
  omega

variable {walkBack : GroupFiles V Id → NodeIndex → Ticks → Option (DataValue V)} [DecidableEq Id]

/-- Exactly once: whatever the interleaving, what a read sees in the buffer and the files, with what
was let go, is what was stored, with the trim's markers; and a flush let go only what a refused file was to
take. -/
theorem seen_add_files_perm (hstart : s₀.Starts) {as : List (Action V Id)}
    (hrun : s₀.run env walkBack as = some s) (hread : s.phase.readable = true) :
    (s.group.seen env ++ s.files.values.map DataValue.filed ++ s.group.ledger.gone).Perm
      (s₀.files.values.map DataValue.filed ++ s.group.ledger.stored.map DataValue.filed ++
        s.group.markers env) ∧
      ∀ b ∈ s.group.ledger.discarded, s.files.Refuses env b.item.primaryTime := by
  have hconserves := run_conserves hstart.sound hrun
  refine ⟨perm_iff_count.mpr fun v => ?_, hconserves.letGo hstart.letGo⟩
  have hnet := hconserves.net
  have hplain := readable_balance env hstart hnet hread (.plain, v)
  have hbeat := readable_balance env hstart hnet hread (.beat, v)
  have hreleased := readable_balance env hstart hnet hread (.released, v)
  have hseen := total_tally (Group.valuesOf (s.group.snapshot env fun _ => true)) v
  have htrimmed := total_tally s.group.ledger.trimmed v
  have hdiscarded := total_tally s.group.ledger.discarded v
  have hdropped := total_tallyAs (f := DataValue.as .beat) (fun _ => rfl) s.group.ledger.dropped v
  have hstored := total_tallyAs (f := DataValue.arriving) (fun _ => rfl) s.group.ledger.stored v
  have hmarked := total_tallyAs (f := DataValue.as .plain) (fun _ => rfl) s.group.ledger.marked v
  have hgaps := total_tallyAs (f := DataValue.as .plain) (fun _ => rfl) (s.group.gapMarkers env) v
  have hbeats := total_tallyAs (f := DataValue.as .beat) (fun _ => rfl) s.group.ledger.released v
  have hreleases := total_tallyAs (f := DataValue.as .released) (fun _ => rfl) s.group.ledger.released v
  have hfiles := total_tallyAs (f := DataValue.leaving) (fun _ => rfl) s.files.values v
  have hbefore := total_tallyAs (f := DataValue.leaving) (fun _ => rfl) s₀.files.values v
  simp only [total] at hseen htrimmed hdiscarded hdropped hstored hmarked hgaps hbeats hreleases hfiles hbefore
  simp only [Group.seen, Ledger.gone, Group.markers, map_append, map_map, Function.comp_def,
    count_append]
  omega

end System

/-- A host that stores every value and keeps days of 24 hours. -/
def plainHost : Env ℕ ℕ where
  passes _ _ _ := true
  repeats a b := a == b
  supported _ := true
  utf8 _ := true
  bytes _ := 8
  changeBytes _ _ := 16
  sizeofBuffered := 16
  calendar := .utc
  dataType _ := 0
  fileable _ := true
  memberFits _ _ := true
  maxBuffer := 1024
  delay := 0

/-- A group of one member, with no file. -/
def oneMember : System ℕ ℕ where
  group := { nodes := (∅ : OrdMap NodeIndex (Node ℕ ℕ)).insert 1 { id := 7, config := {}, broke := none } }

theorem oneMember_starts : oneMember.Starts := ⟨rfl, rfl, rfl, rfl, rfl, rfl, rfl, rfl, rfl, rfl⟩

/-- A walk back with nothing to find. -/
def nothingBefore (_ : GroupFiles ℕ ℕ) (_ : NodeIndex) (_ : Ticks) : Option (DataValue ℕ) := none

/-- The member's value `v` at source time `t`. -/
def arrives (v : ℕ) (t : Ticks) : Action ℕ ℕ :=
  .perform (.enqueue 1 { value := some v, sourceTimestamp := some t } 0)

/-- Two values, both dropped from a full buffer. -/
def overfull : List (Action ℕ ℕ) := [arrives 5 10, arrives 6 20, .trim 100 48]

/-- A flush of what the trim left, with values that arrive amid it and its day written. -/
def overfullFlushed : List (Action ℕ ℕ) :=
  overfull ++ [.take 0, .taking, arrives 8 30, .prepare, .commit, .mark, arrives 9 40]

/-- The member, with a damaged file of the first day. -/
def damagedDay : System ℕ ℕ :=
  { oneMember with files := { files := (∅ : OrdMap Day (DayFile ℕ ℕ)).insert 0 { refused := true } } }

theorem damagedDay_starts : damagedDay.Starts := ⟨rfl, rfl, rfl, rfl, rfl, rfl, rfl, rfl, rfl, rfl⟩

/-- A flush of a value of that day and one of the next, whose write fails. -/
def refusedAndFailed : List (Action ℕ ℕ) :=
  [arrives 5 10, arrives 6 864000000010, .take 0, .taking, .prepare, .commit, .prepare, .fail, .finish]

/-- The first value is let go, and the second is back in the buffer. -/
theorem refusedAndFailed_balance : ∃ s, damagedDay.run plainHost nothingBefore refusedAndFailed = some s ∧
    s.phase.readable = true ∧ s.group.ledger.discarded.map (fun b => b.item.data.value) = [some 5] ∧
    s.group.values.map (fun b => b.item.data.value) = [some 6] ∧
    (s.group.seen plainHost ++ s.files.values.map DataValue.filed ++ s.group.ledger.gone).Perm
      (damagedDay.files.values.map DataValue.filed ++ s.group.ledger.stored.map DataValue.filed ++
        s.group.markers plainHost) ∧
    ∀ b ∈ s.group.ledger.discarded, s.files.Refuses plainHost b.item.primaryTime := by
  have hrun : (damagedDay.run plainHost nothingBefore refusedAndFailed).map (fun s =>
      (s.phase.readable, s.group.ledger.discarded.map (fun b => b.item.data.value),
        s.group.values.map (fun b => b.item.data.value))) = some (true, [some 5], [some 6]) := by
    decide
  obtain ⟨s, hs, hstate⟩ := Option.map_eq_some_iff.mp hrun
  simp only [Prod.mk.injEq] at hstate
  exact ⟨s, hs, hstate.1, hstate.2.1, hstate.2.2, System.seen_add_files_perm damagedDay_starts hs hstate.1⟩

/-- The trim's marker is seen, and no value stored it. -/
theorem overfull_marker_seen : ∃ s, oneMember.run plainHost nothingBefore overfull = some s ∧
    s.phase.readable = true ∧
    ¬ (s.group.seen plainHost ++ s.files.values.map DataValue.filed ++ s.group.ledger.gone).Perm
      (s.group.ledger.stored.map DataValue.filed) :=
  ⟨_, rfl, rfl, by decide⟩

end OpcHub.Historian
