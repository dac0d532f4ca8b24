import OpcHub.Historian.Flush

/-! What a group's buffer holds, kept in balance with its ledger. Each value
counts as a token of one of three kinds: an ordinary value, a heartbeat no flush
has taken, and one a flush has released. A group's `net` is what it holds and has
let go, less what came in; nothing done to the buffer changes it. -/

namespace OpcHub.Historian

open Lib List DataValue Buffered

variable {V Id : Type*}

inductive Kind where
  | plain
  | beat
  | released
  deriving DecidableEq, Repr

/-- A value as the balance counts it. -/
abbrev Token (V : Type*) := Kind × DataValue V

def Buffered.token (b : Buffered (DataValue V)) : Token V :=
  (if b.item.heartbeat.isNone then .plain else if b.released then .released else .beat, b.item.filed)

/-- A value as it is stored: no flush has released it. -/
def DataValue.arriving (v : DataValue V) : Token V :=
  (if v.heartbeat.isNone then .plain else .beat, v.filed)

/-- A value as a file holds it. -/
def DataValue.leaving (v : DataValue V) : Token V :=
  (if v.heartbeat.isNone then .plain else .released, v.filed)

/-- A value counted as one of a kind. -/
def DataValue.as (kind : Kind) (v : DataValue V) : Token V := (kind, v.filed)

variable {b : Buffered (DataValue V)}

theorem token_eq_arriving (h : b.released = false) : b.token = b.item.arriving := by
  simp [token, arriving, h]

theorem token_eq_leaving (h : b.item.heartbeat.isSome → b.released = true) :
    b.token = b.item.leaving := by
  cases hb : b.item.heartbeat with
  | none => simp [token, leaving, hb]
  | some t => simp [token, leaving, hb, h (by simp [hb])]

theorem token_eq_beat (hbeat : b.item.heartbeat.isSome = true)
    (h : b.released = false) : b.token = b.item.as .beat := by
  simp [token, as, h, Option.isSome_iff_ne_none.mp hbeat]

section Tally

variable [DecidableEq V] (x : Token V)

/-- How often a token is among buffered values. -/
def tally (l : List (Buffered (DataValue V))) : ℤ := ((l.map Buffered.token).count x : ℕ)

/-- How often a token is among values, each counted as `f` says. -/
def tallyAs (f : DataValue V → Token V) (l : List (DataValue V)) : ℤ := ((l.map f).count x : ℕ)

@[simp] theorem tally_nil : tally x [] = 0 := rfl

@[simp] theorem tally_append (l₁ l₂ : List (Buffered (DataValue V))) :
    tally x (l₁ ++ l₂) = tally x l₁ + tally x l₂ := by simp [tally]

theorem tally_cons (b : Buffered (DataValue V)) (l : List (Buffered (DataValue V))) :
    tally x (b :: l) = tally x [b] + tally x l := tally_append x [b] l

theorem tally_perm {l₁ l₂ : List (Buffered (DataValue V))} (h : l₁.Perm l₂) : tally x l₁ = tally x l₂ := by
  rw [tally, tally, (h.map _).count_eq]

theorem tally_filter (p : Buffered (DataValue V) → Bool) (l : List (Buffered (DataValue V))) :
    tally x l = tally x (l.filter p) + tally x (l.filter fun b => !p b) := by
  rw [← tally_append]
  exact tally_perm x (filter_append_perm p l).symm

@[simp] theorem tallyAs_nil (f : DataValue V → Token V) : tallyAs x f [] = 0 := rfl

@[simp] theorem tallyAs_append (f : DataValue V → Token V) (l₁ l₂ : List (DataValue V)) :
    tallyAs x f (l₁ ++ l₂) = tallyAs x f l₁ + tallyAs x f l₂ := by simp [tallyAs]

theorem tally_eq_tallyAs {f : DataValue V → Token V} {l : List (Buffered (DataValue V))}
    (h : ∀ b ∈ l, b.token = f b.item) : tally x l = tallyAs x f (l.map item) := by
  rw [tally, tallyAs, map_map, map_congr_left (g := f ∘ item) h]

end Tally

namespace Group

/-- What the trim would write back. -/
def lostNewest (g : Group V Id) : List (Buffered (DataValue V)) :=
  g.lost.entries.flatMap fun e => e.2.newest.toList

variable [DecidableEq V]

/-- What a group holds in its buffer and has let go, less what came into it. -/
def net (g : Group V Id) (x : Token V) : ℤ :=
  tally x g.values + tally x g.lostNewest + tally x g.ledger.trimmed + tally x g.ledger.discarded +
    tallyAs x (DataValue.as .beat) g.ledger.dropped + tallyAs x (DataValue.as .beat) g.ledger.released -
    (tallyAs x DataValue.arriving g.ledger.stored + tallyAs x (DataValue.as .plain) g.ledger.marked +
      tallyAs x (DataValue.as .released) g.ledger.released)

theorem net_congr {g g' : Group V Id} (hv : g'.values = g.values) (hl : g'.lost = g.lost)
    (hd : g'.ledger = g.ledger) : g'.net = g.net := by
  funext x
  simp only [net, lostNewest, hv, hl, hd]

variable (env : Env V Id)

variable (g : Group V Id)

/-- A change of a node's gap, as its newest counts. -/
theorem tally_lostNewest_insert (x : Token V) (index : NodeIndex) (lost : Lost V) :
    tally x ({ g with lost := g.lost.insert index lost }.lostNewest) +
        tally x ((g.lost.find? index).bind Lost.newest).toList =
      tally x g.lostNewest + tally x lost.newest.toList := by
  have h₁ := tally_perm x (OrdMap.flatMap_insert_perm g.lost index lost fun e => e.2.newest.toList)
  have h₂ := tally_perm x (OrdMap.flatMap_perm_erase g.lost index fun e => e.2.newest.toList)
  simp only [lostNewest]
  rw [h₁, h₂, tally_append, tally_append]
  cases g.lost.find? index with
  | none | some => simp; omega

variable (v : DataValue V)

variable (bytes : ℕ)

omit [DecidableEq V] in
theorem storeRecord_values (effects : Effects V) :
    (g.storeRecord env v bytes effects).1.values =
      g.values ++ [⟨v, g.store.sequence + 1, bytes, false, false⟩] := by
  simp only [storeRecord, claimFlush]
  split_ifs <;> rfl

omit [DecidableEq V] in
theorem storeRecord_lost (effects : Effects V) :
    (g.storeRecord env v bytes effects).1.lost = g.lost := by
  simp only [storeRecord, claimFlush]
  split_ifs <;> rfl

omit [DecidableEq V] in
theorem storeRecord_ledger (effects : Effects V) :
    (g.storeRecord env v bytes effects).1.ledger = { g.ledger with stored := g.ledger.stored ++ [v] } := by
  simp only [storeRecord, claimFlush]
  split_ifs <;> rfl

theorem storeRecord_net (effects : Effects V) :
    (g.storeRecord env v bytes effects).1.net = g.net := by
  funext x
  have hv : tally x [⟨v, g.store.sequence + 1, bytes, false, false⟩] = tallyAs x arriving [v] :=
    tally_eq_tallyAs x (by simp [token_eq_arriving])
  simp only [net, lostNewest, storeRecord_values, storeRecord_lost, storeRecord_ledger, tally_append,
    tallyAs_append, hv]
  omega

variable (index : NodeIndex)

variable (later : DataValue V → Bool)

theorem dropBuffered_net :
    (g.dropBuffered env index later).net = g.net := by
  funext x
  have hgone : tally x (g.values.filter fun b => isBeat index b && later b.item) =
      tallyAs x (as .beat)
        ((g.values.filter fun b => isBeat index b && later b.item).map item) := by
    refine tally_eq_tallyAs x fun b hb => ?_
    have hb := (mem_filter.mp hb).2
    simp only [isBeat, Bool.and_eq_true, Bool.not_eq_true'] at hb
    exact token_eq_beat hb.1.1.2 hb.1.2
  have hsplit := tally_filter x (fun b => isBeat index b && later b.item) g.values
  simp only [net, lostNewest, dropBuffered, tallyAs_append]
  omega

theorem dropLost_net (beat : Option Ticks) :
    (g.dropLost index later beat).2.net = g.net := by
  simp only [dropLost]
  split
  · rfl
  · rename_i lost hlost
    split
    · rfl
    · rename_i b hb
      split_ifs with hrel hlater
      · rfl
      · funext x
        have hnewest := tally_lostNewest_insert g x index
          { lost with count := lost.count - 1, sequence := b.sequence, newest := none }
        rw [Bool.or_eq_true, not_or, Bool.not_eq_true, Option.isNone_iff_eq_none] at hrel
        have hbeat : tally x [b] = tallyAs x (as .beat) [b.item] :=
          tally_eq_tallyAs x (by
            simpa using token_eq_beat (Option.isSome_iff_ne_none.mpr hrel.2) hrel.1)
        simp only [hlost, Option.bind_some, hb, Option.toList_some, Option.toList_none, tally_nil] at hnewest
        simp only [lostNewest] at hnewest
        simp only [net, lostNewest, tallyAs_append]
        omega
      · rfl

theorem dropBeats_net (node : Node V Id) (start : Ticks) (made : Bool) :
    (g.dropBeats env index node start made).2.net = g.net := by
  simp only [dropBeats]
  split
  · rfl
  · split_ifs
    · rfl
    · rw [dropLost_net, dropBuffered_net]

omit [DecidableEq V] in
@[simp] theorem keepBeat_buffer :
    (g.keepBeat v).values = g.values ∧ (g.keepBeat v).lost = g.lost ∧ (g.keepBeat v).ledger = g.ledger := by
  simp only [keepBeat]
  split_ifs <;> exact ⟨rfl, rfl, rfl⟩

omit [DecidableEq V] in
@[simp] theorem unflag_buffer :
    (g.unflag env v).values = g.values ∧ (g.unflag env v).lost = g.lost ∧
      (g.unflag env v).ledger = g.ledger := by
  simp only [unflag]
  split_ifs <;> exact ⟨rfl, rfl, rfl⟩

theorem giveUp_net (b : Buffered (DataValue V)) (x : Token V) :
    (g.giveUp env b).values = g.values ∧ (g.giveUp env b).net x = g.net x + tally x [b] := by
  -- the gap's newest before and after: `b` in place of the one before it, or beside it
  have hgap : ∀ lost : Lost V,
      tally x ((g.lost.insert b.item.index lost).entries.flatMap fun e => e.2.newest.toList) +
          tally x (widen ((g.lost.find? b.item.index).getD {}) b.item).newest.toList =
        tally x g.lostNewest + tally x lost.newest.toList := by
    intro lost
    have h := tally_lostNewest_insert g x b.item.index lost
    rw [← h]
    cases g.lost.find? b.item.index <;> rfl
  simp only [giveUp, keepBeat_buffer]
  split
  · rename_i hnewest
    have h := hgap { widen ((g.lost.find? b.item.index).getD {}) b.item with newest := some b }
    rw [hnewest] at h
    refine ⟨by simp, ?_⟩
    simp only [net, lostNewest, Option.toList_none, Option.toList_some, tally_nil] at h ⊢
    omega
  · rename_i newest hnewest
    split_ifs
    · have h := hgap { widen ((g.lost.find? b.item.index).getD {}) b.item with newest := some b }
      rw [hnewest] at h
      refine ⟨by simp, ?_⟩
      simp only [net, lostNewest, keepBeat_buffer, unflag_buffer, Option.toList_some, tally_append] at h ⊢
      omega
    · have h := hgap (widen ((g.lost.find? b.item.index).getD {}) b.item)
      refine ⟨by simp, ?_⟩
      simp only [net, lostNewest, keepBeat_buffer, unflag_buffer, tally_append] at h ⊢
      omega

theorem dropLoop_net (before need : ℕ) (l : List (Buffered (DataValue V))) (freed count : ℕ) (g : Group V Id)
    (x : Token V) :
    (dropLoop env before need l freed count g).2.2.net x = g.net x - tally x g.values + tally x l := by
  fun_induction dropLoop env before need l freed count g with
  | case1 | case3 =>
    simp only [net, lostNewest, tally_nil]
    omega
  | case2 b rest freed count g _ ih =>
    obtain ⟨hvalues, hnet⟩ := giveUp_net env g b x
    rw [ih, hnet, hvalues, tally_cons x b rest]
    omega

theorem drop_net (before need : ℕ) : (g.drop env before need).2.net = g.net := by
  funext x
  have h := dropLoop_net env before need g.values 0 0 g x
  have hcongr : (g.drop env before need).2.net = (dropLoop env before need g.values 0 0 g).2.2.net :=
    net_congr rfl rfl rfl
  rw [hcongr, h]
  omega

theorem tally_lostRecords (x : Token V) : tally x (g.lostRecords env) =
      tally x g.lostNewest + tallyAs x (as .plain) (g.gapMarkers env) := by
  simp only [lostRecords, lostNewest, gapMarkers]
  induction g.lost.entries with
  | nil => rfl
  | cons e l ih =>
    have hmarker : tally x (gapMarker env e.1 e.2).toList =
        tallyAs x (as .plain) ((gapMarker env e.1 e.2).map item).toList := by
      rw [Option.toList_map]
      refine tally_eq_tallyAs x fun b hb => ?_
      simp only [gapMarker, Option.mem_toList, Option.ite_none_right_eq_some, Option.some.injEq] at hb
      rw [← hb.2]
      rfl
    simp only [flatMap_cons, tally_append, tallyAs_append, ih, hmarker]
    omega

theorem markLost_net (x : Token V) : (g.markLost env).2.net x = g.net x - tally x (g.markLost env).1 := by
  simp only [markLost, net, tally_lostRecords, tallyAs_append]
  simp only [lostNewest]
  simp only [show (∅ : OrdMap NodeIndex (Lost V)).entries = [] from rfl, flatMap_nil, tally_nil]
  omega

variable (l : List (Buffered (DataValue V)))

theorem tally_release (x : Token V) :
    tally x (l.map release) + tallyAs x (as .beat) ((l.filter fresh?).map item) =
      tally x l + tallyAs x (as .released) ((l.filter fresh?).map item) := by
  induction l with
  | nil => rfl
  | cons b l ih =>
    rw [map_cons, tally_cons x b, tally_cons x (release b), filter_cons]
    by_cases hfresh : fresh? b = true
    · have hb : b.item.heartbeat.isSome = true ∧ b.released = false := by simpa [fresh?] using hfresh
      have hbeat : tally x [b] = tallyAs x (as .beat) [b.item] :=
        tally_eq_tallyAs x (by simpa using token_eq_beat hb.1 hb.2)
      have hreleased : tally x [release b] = tallyAs x (as .released) [b.item] := by
        simp [tally, tallyAs, release, token, as, hb.1, Option.isSome_iff_ne_none.mp hb.1]
      rw [if_pos hfresh, map_cons]
      have h₁ := tallyAs_append x (as .beat) [b.item] ((l.filter fresh?).map item)
      have h₂ := tallyAs_append x (as .released) [b.item] ((l.filter fresh?).map item)
      simp only [singleton_append] at h₁ h₂
      omega
    · have hsame : release b = b := by
        simp only [release]
        split_ifs with hbeat
        · have : b.released = true := by simpa [fresh?, hbeat] using hfresh
          rw [← this]
        · rfl
      rw [if_neg hfresh, hsame]
      omega

omit [DecidableEq V] in
@[simp] theorem valuesOf_append (l₁ l₂ : List (Buffered (Record V Id))) :
    valuesOf (l₁ ++ l₂) = valuesOf l₁ ++ valuesOf l₂ := filterMap_append ..

omit [DecidableEq V] in
@[simp] theorem valuesOf_map_value :
    valuesOf (l.map (map (.value : DataValue V → Record V Id))) = l := by
  simp only [valuesOf, filterMap_map]
  exact filterMap_some

omit [DecidableEq V] in
@[simp] theorem valuesOf_map_change (l : List (Buffered (Change Id))) :
    valuesOf (l.map (Buffered.map (.change : Change Id → Record V Id))) = [] := by
  simp [valuesOf, filterMap_map, Function.comp_def, Buffered.map]

omit [DecidableEq V] in
theorem valuesOf_perm {l₁ l₂ : List (Buffered (Record V Id))} (h : l₁.Perm l₂) :
    (valuesOf l₁).Perm (valuesOf l₂) := h.filterMap _

omit [DecidableEq V] in
theorem valuesOf_mergeRecords_perm (changes : List (Buffered (Change Id))) (values : List (Buffered (DataValue V))) :
    (valuesOf (mergeRecords changes values)).Perm values := by
  have hmerge : (mergeRecords changes values).Perm
      (changes.map (Buffered.map .change) ++ values.map (Buffered.map .value)) := mergeBy_perm ..
  simpa using valuesOf_perm hmerge

theorem take_net (now : TimePoint) (x : Token V) :
    (g.take env now).2.2.net x = g.net x - tally x (valuesOf (g.take env now).1) := by
  have hmark := markLost_net env g x
  have hrelease := tally_release ((g.markLost env).1 ++ g.values.filter (g.takes now)) x
  have hsplit := tally_filter x (g.takes now) g.values
  have hbatch : tally x (valuesOf (g.take env now).1) =
      tally x (((g.markLost env).1 ++ g.values.filter (g.takes now)).map release) := by
    have h := tally_perm x (valuesOf_mergeRecords_perm g.changes ((g.values.filter (g.takes now)).map release))
    simp only [take, valuesOf_append, valuesOf_map_value, tally_append, map_append]
    exact congrArg _ h
  rw [hbatch]
  simp only [markLost, net, lostNewest, tally_append] at hmark hrelease ⊢
  simp only [take, markLost, tallyAs_append]
  simp only [tallyAs_append] at hmark
  omega

theorem discard_net (l : List (Buffered (Record V Id))) (x : Token V) :
    (g.discard l).net x = g.net x + tally x (valuesOf l) := by
  simp only [discard, net, lostNewest, tally_append]
  omega

omit [DecidableEq V] in
/-- A batch's unwritten records are those at some of their places and the rest. -/
theorem batchAt_unwrittenAt_perm (held : List ℕ) (hnodup : held.Nodup) (hsub : ∀ i ∈ held, i ∈ g.unwrittenAt) :
    g.unwritten.Perm (g.batchAt held ++ g.batchAt (g.unwrittenAt.filter fun i => !held.contains i)) := by
  have hheld : (g.unwrittenAt.filter fun i => held.contains i).Perm held := by
    refine (perm_ext_iff_of_nodup (nodup_range.filter _ |>.filter _) hnodup).mpr fun i => ?_
    rw [mem_filter, contains_iff_mem]
    exact ⟨fun h => h.2, fun h => ⟨hsub i h, h⟩⟩
  have hsplit := (filter_append_perm (fun i => held.contains i) g.unwrittenAt).symm
  have h := (hsplit.trans (hheld.append_right _)).filterMap fun i => (g.taken.getD [])[i]?
  rwa [filterMap_append] at h

theorem bySequence_perm {α : Type*} (l : List (Buffered α)) : (bySequence l).Perm l := stableSort_perm l

theorem returnHeld_net (held : List ℕ) (x : Token V) :
    (g.returnHeld env held).2.net x = g.net x + tally x (valuesOf (g.batchAt held)) := by
  have hmark := markLost_net env g x
  have hback := tally_perm x (valuesOf_perm (bySequence_perm (g.batchAt held)))
  have hgaps := tally_perm x (bySequence_perm (g.markLost env).1)
  have hvalues : (g.markLost env).2.values = g.values := rfl
  simp only [net, lostNewest, hvalues] at hmark ⊢
  simp only [returnHeld, hvalues, tally_append]
  omega

end Group

end OpcHub.Historian
