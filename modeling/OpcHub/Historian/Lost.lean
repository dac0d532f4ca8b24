import Mathlib.Order.Bounds.Basic
import OpcHub.Historian.Batch
import OpcHub.Historian.Visible

/-! A trim's gap between two markings: the values given up of a node are summed up
in arrival order, while the gap is read by time. It opens at the earliest and ends
at the latest, which is written back unless it was a heartbeat since taken back. -/

namespace OpcHub.Historian

open Lib Historian.Group List Option Function

variable {V Id : Type*} {env : Env V Id} {g g' : Group V Id} {b x : Buffered (DataValue V)}
  {given left : List (Buffered (DataValue V))} {index i : NodeIndex}

/-- What the trim gave up of a node since its gaps were marked, and what `dropBeats` took back of it. -/
structure Loss (V : Type*) where
  given : List (Buffered (DataValue V)) := []
  back : List (Buffered (DataValue V)) := []

/-- The latest of those given up, the last of several at one time. -/
def Latest (b : Buffered (DataValue V)) (given : List (Buffered (DataValue V))) : Prop :=
  ∃ before after, given = before ++ b :: after ∧ (∀ x ∈ before, x.item.primaryTime ≤ b.item.primaryTime) ∧
    ∀ x ∈ after, x.item.primaryTime < b.item.primaryTime

/-- What a node's gap has to say of its loss; `left` are those not taken back. -/
structure Lost.Covers (l : Lost V) (loss : Loss V) (left : List (Buffered (DataValue V))) : Prop where
  perm : loss.given.Perm (loss.back ++ left)
  count : l.count = left.length
  least : ∀ x ∈ left, l.marker.primaryTime ≤ x.item.primaryTime
  attained : left ≠ [] → l.marker.status = some badDataLost ∧ ∃ x ∈ left, l.marker.primaryTime = x.item.primaryTime
  latest : loss.given ≠ [] → ∃ b, Latest b loss.given ∧
    (l.newest = some b ∧ b ∈ left ∨ l.newest = none ∧ loss.back.getLast? = some b)
  empty : loss.given = [] → l.newest = none

theorem Latest.le (h : Latest b given) (hx : x ∈ given) : x.item.primaryTime ≤ b.item.primaryTime := by
  obtain ⟨before, after, rfl, hbefore, hafter⟩ := h
  obtain hx | hx := mem_append.mp hx
  · exact hbefore x hx
  · obtain rfl | hx := mem_cons.mp hx
    · exact le_refl _
    · exact (hafter x hx).le

namespace Lost.Covers

variable {l : Lost V} {loss : Loss V}

/-- A value given up keeps the gap's account, but where it is earlier than a heartbeat taken back. -/
theorem add (h : l.Covers loss left) (b : Buffered (DataValue V))
    (hb : l.newest = none → ∀ x ∈ loss.back.getLast?, x.item.primaryTime ≤ b.item.primaryTime) :
    (l.add b).Covers { loss with given := loss.given ++ [b] } (left ++ [b]) := by
  have hsum : ∀ newest, (∃ c, Latest c (loss.given ++ [b]) ∧ newest = some c ∧ c ∈ left ++ [b]) →
      ({ widen l b.item with newest } : Lost V).Covers { loss with given := loss.given ++ [b] } (left ++ [b]) := by
    rintro newest ⟨c, hc, rfl, hmem⟩
    refine ⟨?_, ?_, fun x hx => ?_, fun _ => ?_, fun _ => ⟨c, hc, .inl ⟨rfl, hmem⟩⟩, fun hnil => ?_⟩
    · rw [← append_assoc]
      exact h.perm.append_right [b]
    · simp [widen, h.count]
    · simp only [widen, h.count]
      obtain hx | hx := mem_append.mp hx
      · have hle := h.least x hx
        have hpos : left.length ≠ 0 := fun hnil => by rw [length_eq_zero_iff.mp hnil] at hx; cases hx
        split_ifs with hlt
        · simp only [beq_iff_eq, hpos, false_or, Bool.or_eq_true, decide_eq_true_eq] at hlt
          exact (lt_of_lt_of_le hlt hle).le
        · exact hle
      · obtain rfl := mem_singleton.mp hx
        split_ifs with hlt
        · exact le_refl _
        · simp only [Bool.or_eq_true, decide_eq_true_eq, not_or, not_lt] at hlt
          exact hlt.2
    · simp only [widen, h.count]
      split_ifs with hlt
      · exact ⟨rfl, b, mem_append_right _ (mem_singleton_self b), rfl⟩
      · have hpos : left ≠ [] := fun hnil => hlt (by simp [hnil])
        obtain ⟨hstatus, x, hx, hmarker⟩ := h.attained hpos
        exact ⟨hstatus, x, mem_append_left _ hx, hmarker⟩
    · simp at hnil
  have hlast : b ∈ left ++ [b] := mem_append_right _ (mem_singleton_self b)
  have hnew : (∀ x ∈ loss.given, x.item.primaryTime ≤ b.item.primaryTime) → Latest b (loss.given ++ [b]) :=
    fun hle => ⟨loss.given, [], rfl, hle, fun _ hx => absurd hx not_mem_nil⟩
  by_cases hgiven : loss.given = []
  · rw [Lost.add, h.empty hgiven]
    exact hsum _ ⟨b, hnew (by simp [hgiven]), rfl, hlast⟩
  obtain ⟨c, hc, ⟨hnewest, hmem⟩ | ⟨hnewest, hback⟩⟩ := h.latest hgiven
  · simp only [Lost.add, hnewest]
    split_ifs with hle
    · exact hsum _ ⟨b, hnew fun x hx => (hc.le hx).trans hle, rfl, hlast⟩
    · refine hsum l.newest ⟨c, ?_, hnewest, mem_append_left _ hmem⟩
      obtain ⟨before, after, heq, hbefore, hafter⟩ := hc
      refine ⟨before, after ++ [b], by rw [heq, append_assoc, cons_append], hbefore, fun x hx => ?_⟩
      obtain hx | hx := mem_append.mp hx
      · exact hafter x hx
      · rw [mem_singleton.mp hx]
        exact not_le.mp hle
  · rw [Lost.add, hnewest]
    exact hsum _ ⟨b, hnew fun x hx => (hc.le hx).trans (hb hnewest c hback), rfl, hlast⟩

theorem takeBack (h : l.Covers loss left) (hnewest : l.newest = some b) :
    ∃ left', (l.dropNewest b).Covers { loss with back := loss.back ++ [b] } left' := by
  have hgiven : loss.given ≠ [] := fun hnil => by cases (h.empty hnil).symm.trans hnewest
  obtain ⟨c, hc, ⟨hc', hmem⟩ | ⟨hnone, -⟩⟩ := h.latest hgiven
  · obtain rfl : c = b := some.inj (hc'.symm.trans hnewest)
    obtain ⟨before, after, rfl⟩ := append_of_mem hmem
    have hsub : ∀ x ∈ before ++ after, x ∈ before ++ c :: after := by
      intro x hx
      simp only [mem_append, mem_cons] at hx ⊢
      tauto
    refine ⟨before ++ after, ?_, ?_, fun x hx => ?_, fun hne => ?_, fun _ => ⟨c, hc, .inr ⟨rfl, ?_⟩⟩, fun _ => rfl⟩
    · rw [append_assoc]
      exact h.perm.trans (perm_middle.append_left _)
    · simp only [Lost.dropNewest, h.count, length_append, length_cons]
      omega
    · exact h.least x (hsub x hx)
    · obtain ⟨hstatus, x, hx, hmarker⟩ := h.attained (by simp)
      refine ⟨hstatus, ?_⟩
      by_cases hother : x ∈ before ++ after
      · exact ⟨x, hother, hmarker⟩
      -- it opens at the heartbeat, which was the latest: every other is at that time too
      · obtain ⟨y, hy⟩ := exists_mem_of_ne_nil _ hne
        obtain rfl : x = c := by
          simp only [mem_append, mem_cons, not_or] at hx hother
          tauto
        have hle := hc.le (h.perm.mem_iff.mpr (mem_append_right _ (hsub y hy)))
        exact ⟨y, hy, le_antisymm (h.least y (hsub y hy)) (hmarker ▸ hle)⟩
    · simp
  · cases hnone.symm.trans hnewest

end Lost.Covers

/-- `dropBeats` leaves the gaps, or takes back the heartbeat its node's would end at. -/
theorem dropBeats_lost (env : Env V Id) (g : Group V Id) (index : NodeIndex) (node : Node V Id) (start : Ticks) (made : Bool) :
    (g.dropBeats env index node start made).2.lost = g.lost ∨
      ∃ l b, g.lost.find? index = some l ∧ l.newest = some b ∧
        (g.dropBeats env index node start made).2.lost = g.lost.insert index (l.dropNewest b) := by
  simp only [dropBeats, dropLost]
  split
  · exact .inl rfl
  · split_ifs
    · exact .inl rfl
    · split
      · exact .inl rfl
      · rename_i l hl
        split
        · exact .inl rfl
        · rename_i b hb
          split_ifs
          · exact .inl rfl
          · exact .inr ⟨l, b, hl, hb, rfl⟩
          · exact .inl rfl

/-- A node's gap; one that lost nothing has an empty one. -/
def Group.gapOf (g : Group V Id) (index : NodeIndex) : Lost V := (g.lost.find? index).getD {}

variable {losses : NodeIndex → Loss V}

/-- A value is given up no earlier than the heartbeat that was last taken back, when no record of the node
is to be written back. -/
def Timely (g : Group V Id) (losses : NodeIndex → Loss V) (b : Buffered (DataValue V)) : Prop :=
  (g.gapOf b.item.index).newest = none →
    ∀ x ∈ (losses b.item.index).back.getLast?, x.item.primaryTime ≤ b.item.primaryTime

instance : Decidable (Timely g losses b) :=
  inferInstanceAs (Decidable (_ = none → ∀ x ∈ (losses b.item.index).back.getLast?, _))

/-- The trims and drops of heartbeats since the gaps were marked, each value given up in time; whatever
else runs leaves the gaps. -/
inductive Trims (env : Env V Id) : Group V Id → (NodeIndex → Loss V) → Prop
  | marked {g : Group V Id} (h : g.lost = ∅) : Trims env g fun _ => {}
  | giveUp {g : Group V Id} {losses : NodeIndex → Loss V} {b : Buffered (DataValue V)} (h : Trims env g losses)
      (hb : Timely g losses b) : Trims env (g.giveUp env b) (Function.update losses b.item.index
        { losses b.item.index with given := (losses b.item.index).given ++ [b] })
  | dropBeats {g : Group V Id} {losses : NodeIndex → Loss V} (h : Trims env g losses) (index : NodeIndex)
      (node : Node V Id) (start : Ticks) (made : Bool) :
      Trims env (g.dropBeats env index node start made).2 (Function.update losses index
        { losses index with back := (losses index).back ++
            if ((g.dropBeats env index node start made).2.gapOf index).newest.isSome then []
            else (g.gapOf index).newest.toList })
  | other {g g' : Group V Id} {losses : NodeIndex → Loss V} (h : Trims env g losses) (heq : g'.lost = g.lost) :
      Trims env g' losses

theorem gapOf_insert {j : NodeIndex} {l : Lost V} (h : g'.lost = g.lost.insert j l) (i : NodeIndex) :
    g'.gapOf i = if i = j then l else g.gapOf i := by
  rw [gapOf, h, OrdMap.find?_insert]
  split_ifs <;> rfl

theorem Trims.covers (h : Trims env g losses) (i : NodeIndex) :
    (∃ left, (g.gapOf i).Covers (losses i) left) ∧ ∀ x ∈ (losses i).given, x.item.index = i := by
  induction h with
  | marked h =>
    rw [gapOf, h]
    refine ⟨⟨[], .refl _, rfl, ?_, fun hne => absurd rfl hne, fun hne => absurd rfl hne, fun _ => rfl⟩, ?_⟩ <;> simp
  | @giveUp g losses b h hb ih =>
    obtain ⟨⟨left, hleft⟩, hindex⟩ := ih
    rw [gapOf_insert (giveUp_lost env g b), update_apply]
    split_ifs with hi
    · subst hi
      refine ⟨⟨_, hleft.add b hb⟩, fun x hx => ?_⟩
      obtain hx | hx := mem_append.mp hx
      · exact hindex x hx
      · rw [mem_singleton.mp hx]
    · exact ⟨⟨left, hleft⟩, hindex⟩
  | @dropBeats g losses h index node start made ih =>
    obtain hsame | ⟨l, b, hl, hb, heq⟩ := dropBeats_lost env g index node start made
    · have hgap : ∀ i, (g.dropBeats env index node start made).2.gapOf i = g.gapOf i := fun i => by
        rw [gapOf, hsame, gapOf]
      have hback : (if (g.gapOf index).newest.isSome then [] else (g.gapOf index).newest.toList) = [] := by
        cases (g.gapOf index).newest <;> rfl
      simp only [hgap, hback, append_nil, update_eq_self]
      exact ih
    · have hgap : g.gapOf index = l := by rw [gapOf, hl, getD_some]
      have hnone : ((g.dropBeats env index node start made).2.gapOf index).newest.isSome = false := by
        rw [gapOf_insert heq, if_pos rfl]
        rfl
      simp only [hnone, Bool.false_eq_true, ↓reduceIte, hgap, hb, toList_some]
      rw [gapOf_insert heq, update_apply]
      split_ifs with hi
      · subst hi
        rw [hgap] at ih
        obtain ⟨⟨left, hleft⟩, hindex⟩ := ih
        exact ⟨hleft.takeBack hb, hindex⟩
      · exact ih
  | other h heq ih => simpa only [gapOf, heq] using ih

theorem Trims.newest_index (h : Trims env g losses) (hb : (g.gapOf i).newest = some b) : b.item.index = i := by
  obtain ⟨⟨left, hleft⟩, hindex⟩ := h.covers i
  have hgiven : (losses i).given ≠ [] := fun hnil => by cases (hleft.empty hnil).symm.trans hb
  obtain ⟨c, -, ⟨hc, hmem⟩ | ⟨hnone, -⟩⟩ := hleft.latest hgiven
  · obtain rfl := some.inj (hc.symm.trans hb)
    exact hindex c (hleft.perm.mem_iff.mpr (mem_append_right _ hmem))
  · cases hnone.symm.trans hb

/-- What is written of a node's gap: the latest given up, unless it was taken back, after a marker at the
earliest of those not taken back, exactly when one of them is not written back. -/
structure Written (env : Env V Id) (g : Group V Id) (loss : Loss V) (index : NodeIndex) : Prop where
  within : (gapMarker env index (g.gapOf index)).toList ++ (g.gapOf index).newest.toList <:+: g.lostRecords env
  only : ∀ r ∈ g.lostRecords env, r.item.index = index →
    r ∈ (gapMarker env index (g.gapOf index)).toList ++ (g.gapOf index).newest.toList
  latest : ∃ b, Latest b loss.given ∧
    ((g.gapOf index).newest = some b ∨ (g.gapOf index).newest = none ∧ b ∈ loss.back)
  marked : ∃ others, loss.given.Perm (loss.back ++ ((g.gapOf index).newest.toList ++ others)) ∧
    ((gapMarker env index (g.gapOf index)).isSome ↔ others ≠ []) ∧
    ∀ m ∈ gapMarker env index (g.gapOf index), m.item.data.status = some badDataLost ∧
      IsLeast { t | ∃ x ∈ (g.gapOf index).newest.toList ++ others, x.item.primaryTime = t } m.item.primaryTime

theorem Trims.written (h : Trims env g losses) (hgiven : (losses index).given ≠ []) :
    Written env g (losses index) index := by
  obtain ⟨⟨left, hleft⟩, -⟩ := h.covers index
  obtain ⟨b, hb, hcase⟩ := hleft.latest hgiven
  obtain ⟨others, hothers⟩ : ∃ others, left.Perm ((g.gapOf index).newest.toList ++ others) := by
    obtain ⟨hnewest, hmem⟩ | ⟨hnewest, -⟩ := hcase
    · obtain ⟨before, after, rfl⟩ := append_of_mem hmem
      exact ⟨before ++ after, hnewest ▸ perm_middle⟩
    · exact ⟨left, hnewest ▸ .refl _⟩
  have hcount : (g.gapOf index).count = (g.gapOf index).newest.toList.length + others.length := by
    rw [hleft.count, hothers.length_eq, length_append]
  refine ⟨?_, fun r hr hi => ?_, ⟨b, hb, hcase.imp And.left fun hback => ⟨hback.1, mem_of_getLast? hback.2⟩⟩,
    others, hleft.perm.trans (hothers.append_left _), ?_, fun m hm => ?_⟩
  · cases hl : g.lost.find? index with
    | none => simp [gapOf, hl, gapMarker]
    | some l =>
      rw [gapOf, hl, lostRecords, flatMap_def]
      exact infix_of_mem_flatten (mem_map.mpr ⟨_, OrdMap.mem_entries_iff.mpr hl, rfl⟩)
  · obtain ⟨⟨i, l⟩, hl, hr'⟩ := mem_flatMap.mp hr
    have hgap : g.gapOf i = l := by rw [gapOf, OrdMap.mem_entries_iff.mp hl, getD_some]
    obtain rfl : i = index := by
      rw [← hi]
      obtain hm | hn := mem_append.mp hr'
      · simp only [gapMarker, mem_toList, ite_none_right_eq_some, Option.some.injEq] at hm
        rw [← hm.2]
      · exact (h.newest_index (hgap ▸ mem_toList.mp hn)).symm
    rwa [hgap]
  · rw [← length_pos_iff, gapMarker, hcount]
    cases (g.gapOf index).newest <;> simp
  · simp only [gapMarker, mem_def, ite_none_right_eq_some, Option.some.injEq] at hm
    obtain ⟨hpos, rfl⟩ := hm
    obtain ⟨hstatus, x, hx, hmarker⟩ := hleft.attained (length_pos_iff.mp (by rw [← hleft.count]; omega))
    refine ⟨hstatus, ⟨x, hothers.mem_iff.mp hx, hmarker.symm⟩, ?_⟩
    rintro t ⟨y, hy, rfl⟩
    exact hleft.least y (hothers.mem_iff.mpr hy)

/-- After trims that gave up each value in time every gap is written so, and the next value keeps it so exactly if
it is given up in time too. -/
theorem Trims.gap_covers_iff (h : Trims env g losses) :
    (∀ index, (losses index).given ≠ [] → Written env g (losses index) index) ∧
      ∀ b, Timely g losses b ↔ Written env (g.giveUp env b)
        { losses b.item.index with given := (losses b.item.index).given ++ [b] } b.item.index := by
  refine ⟨fun index => h.written, fun b => ⟨fun hb => ?_, fun hwritten hnewest x hx => ?_⟩⟩
  · have hgiven : (losses b.item.index).given ++ [b] ≠ [] := by simp
    have hnext := (h.giveUp hb).written (by rwa [update_self])
    rwa [update_self] at hnext
  · -- with none to write back the value becomes the one, so it is the latest
    obtain ⟨⟨left, hleft⟩, -⟩ := h.covers b.item.index
    have hgap : (g.giveUp env b).gapOf b.item.index = (g.gapOf b.item.index).add b := by
      rw [gapOf_insert (giveUp_lost env g b), if_pos rfl]
      rfl
    have hnew : ((g.giveUp env b).gapOf b.item.index).newest = some b := by
      rw [hgap, Lost.add, hnewest]
    have hgiven : x ∈ (losses b.item.index).given :=
      hleft.perm.mem_iff.mpr (mem_append_left _ (mem_of_getLast? hx))
    obtain ⟨c, hc, hcase⟩ := hwritten.latest
    rw [hnew] at hcase
    rcases hcase with hcase | ⟨hnone, -⟩
    · cases hcase
      exact hc.le (mem_append_left _ hgiven)
    · cases hnone

/-- A value of one node, or its heartbeat. -/
def valueAt (time : Ticks) (sequence : ℕ) (heartbeat : Option Ticks := none) : Buffered (DataValue ℕ) :=
  { item := { index := 1, data := { sourceTimestamp := some time }, heartbeat }, sequence, bytes := 1 }

/-- A value and the heartbeat after it given up. -/
def filledUp : Group ℕ ℕ := (({} : Group ℕ ℕ).giveUp plainHost (valueAt 5 1)).giveUp plainHost (valueAt 10 2 (some 5))

/-- With the heartbeat taken back a late value is written back, and the gap ends before the value lost. -/
theorem filledUp_late :
    let g := (filledUp.dropBeats plainHost 1 { id := 1, config := {}, broke := none, beat := some 10 } 7).2
    ((g.giveUp plainHost (valueAt 3 3)).lostRecords plainHost).map (fun b => (b.item.data.status, b.item.primaryTime)) =
      [(some badDataLost, 3), (none, 3)] := by
  decide

/-- The heartbeat taken back, and a value given up after it. -/
def refilled : Group ℕ ℕ :=
  (filledUp.dropBeats plainHost 1 { id := 1, config := {}, broke := none, beat := some 10 } 7).2.giveUp plainHost
    (valueAt 12 3)

/-- The gap ends at the value, and the one before the heartbeat opens it. -/
theorem refilled_gap : (refilled.lostRecords plainHost).map (fun b => (b.item.data.status, b.item.primaryTime)) =
      [(some badDataLost, 5), (none, 12)] ∧
    ∃ losses : NodeIndex → Loss ℕ, (losses 1).given = [valueAt 5 1, valueAt 10 2 (some 5), valueAt 12 3] ∧
      (losses 1).back = [valueAt 10 2 (some 5)] ∧ Written plainHost refilled (losses 1) 1 := by
  have hfilled : Trims plainHost filledUp _ :=
    ((Trims.marked rfl).giveUp fun _ _ hx => by cases hx).giveUp fun _ _ hx => by cases hx
  have hdropped := hfilled.dropBeats 1 { id := 1, config := {}, broke := none, beat := some 10 } 7 false
  have hrefilled : Trims plainHost refilled _ := hdropped.giveUp (b := valueAt 12 3) (by decide)
  exact ⟨by decide, _, by decide, by decide, hrefilled.gap_covers_iff.1 1 (by decide)⟩

end OpcHub.Historian
