import Mathlib.Data.Int.LeastGreatest
import Mathlib.Data.List.TakeWhile
import Mathlib.Data.Set.Finite.List
import OpcHub.Historian.Visible

/-! A time zone's days. Its clocks run an offset ahead of UTC that changes at its
transitions; a day starts at the first instant of its local midnight, or at the transition
that skips it. A flush cuts its batch at the starts of days and files each piece under the
local date of its first record. The two agree as long as the local date never goes back. -/

namespace OpcHub.Historian

open List Option Prod

/-- The first offset and the transitions, each with the offset it brings, in seconds. -/
structure Zone where
  base : ℤ
  transitions : List (ℤ × ℤ)
  sorted : transitions.Pairwise fun a b => a.1 < b.1

/-- The offset in force at an instant. -/
def offsetAt (o : ℤ) : List (ℤ × ℤ) → ℤ → ℤ
  | [], _ => o
  | e :: es, t => if t < e.1 then o else offsetAt e.2 es t

theorem offsetAt_mem (o : ℤ) (es : List (ℤ × ℤ)) (t : ℤ) : offsetAt o es t ∈ o :: es.map snd := by
  induction es generalizing o with
  | nil => exact mem_cons_self
  | cons e es ih =>
    rw [offsetAt]
    split_ifs
    · exact mem_cons_self
    · exact mem_cons_of_mem _ (ih e.2)

/-- Between two seconds the offset changes only at a transition. -/
theorem offsetAt_pred {o : ℤ} {es : List (ℤ × ℤ)} {t : ℤ} (h : t ∉ es.map fst) :
    offsetAt o es (t - 1) = offsetAt o es t := by
  induction es generalizing o with
  | nil => rfl
  | cons e es ih =>
    rw [map_cons, mem_cons, not_or] at h
    rw [offsetAt, offsetAt]
    have hiff : t - 1 < e.1 ↔ t < e.1 := by omega
    simp only [hiff, ih h.2]

namespace Zone

variable (z : Zone)

def offset (t : ℤ) : ℤ := offsetAt z.base z.transitions t

def toLocal (t : ℤ) : ℤ := t + z.offset t

/-- The instants at which the clocks show a time. -/
def instants (l : ℤ) : List ℤ := ((z.base :: z.transitions.map Prod.snd).map (l - ·)).filter fun t => z.toLocal t = l

/-- The transition skips a time. -/
def Skips (l t : ℤ) : Prop := z.toLocal (t - 1) < l ∧ l < z.toLocal t

instance (l t : ℤ) : Decidable (z.Skips l t) := inferInstanceAs (Decidable (_ ∧ _))

/-- `to_sys` with `choose::earliest`. -/
def toSys (l : ℤ) : ℤ := (z.instants l).min?.getD (((z.transitions.map Prod.fst).find? fun t => z.Skips l t).getD 0)

def midnight (d : ℤ) : ℤ := d * 86400

/-- The local date. -/
def date (t : ℤ) : ℤ := z.toLocal t / 86400

variable {z}

variable {l t d : ℤ}

theorem mem_instants : t ∈ z.instants l ↔ z.toLocal t = l := by
  simp only [instants, mem_filter, decide_eq_true_eq, and_iff_right_iff_imp]
  intro h
  refine mem_map.mpr ⟨z.offset t, offsetAt_mem _ _ _, ?_⟩
  rw [← h, toLocal]
  omega

theorem exists_toLocal_lt (l : ℤ) : ∃ b, ∀ t ≤ b, z.toLocal t < l := by
  cases hts : z.transitions with
  | nil =>
    refine ⟨l - z.base - 1, fun t ht => ?_⟩
    rw [toLocal, offset, hts, offsetAt]
    omega
  | cons e es =>
    refine ⟨min (e.1 - 1) (l - z.base - 1), fun t ht => ?_⟩
    rw [toLocal, offset, hts, offsetAt, if_pos (by omega)]
    omega

theorem toLocal_pred (h : t ∉ z.transitions.map fst) : z.toLocal (t - 1) + 1 = z.toLocal t := by
  rw [toLocal, toLocal, offset, offset, offsetAt_pred h]
  omega

/-- Up to an instant at which the clocks show a time or more, they showed it or a transition skipped it. -/
theorem shown_or_skipped {w : ℤ} (h : l ≤ z.toLocal w) :
    ∃ v ≤ w, z.toLocal v = l ∨ (v ∈ z.transitions.map fst ∧ z.Skips l v) := by
  obtain ⟨b, hb⟩ := exists_toLocal_lt (z := z) l
  obtain ⟨v, ⟨hvw, hv⟩, hleast⟩ := Int.exists_least_of_bdd (P := fun v => v ≤ w ∧ l ≤ z.toLocal v)
    ⟨b, fun v hv => by
      by_contra hlt
      have := hb v (by omega)
      omega⟩ ⟨w, le_rfl, h⟩
  refine ⟨v, hvw, ?_⟩
  have hpred : z.toLocal (v - 1) < l := by
    by_contra hge
    have := hleast (v - 1) ⟨by omega, by omega⟩
    omega
  by_cases ht : v ∈ z.transitions.map fst
  · rcases hv.eq_or_lt with heq | hlt
    · exact .inl heq.symm
    · exact .inr ⟨ht, hpred, hlt⟩
  · left
    have := toLocal_pred ht
    omega

theorem exists_le_toLocal (l : ℤ) : ∃ w, l ≤ z.toLocal w := by
  obtain ⟨m, hm⟩ := (finite_toSet (z.base :: z.transitions.map snd)).bddBelow
  refine ⟨l - m, ?_⟩
  have hoffset : m ≤ z.offset (l - m) := hm (offsetAt_mem _ _ _)
  rw [toLocal]
  omega

/-- A time the clocks show comes first when `toSys` says. -/
theorem toSys_of_shown (h : z.toLocal t = l) : z.toLocal (z.toSys l) = l ∧ ∀ u, z.toLocal u = l → z.toSys l ≤ u := by
  obtain ⟨m, hm⟩ : ∃ m, (z.instants l).min? = some m :=
    isSome_iff_exists.mp (isSome_min?_of_mem (mem_instants.mpr h))
  have hsys : z.toSys l = m := by rw [toSys, hm, getD_some]
  obtain ⟨hmem, hle⟩ := min?_eq_some_iff.mp hm
  rw [hsys]
  exact ⟨mem_instants.mp hmem, fun u hu => hle u (mem_instants.mpr hu)⟩

/-- A time they never show is skipped first when `toSys` says. -/
theorem toSys_of_not_shown (h : ∀ t, z.toLocal t ≠ l) :
    z.Skips l (z.toSys l) ∧ ∀ v ∈ z.transitions.map fst, z.Skips l v → z.toSys l ≤ v := by
  have hnil : z.instants l = [] := eq_nil_iff_forall_not_mem.mpr fun t ht => h t (mem_instants.mp ht)
  obtain ⟨w, hw⟩ := exists_le_toLocal (z := z) l
  obtain ⟨v, -, hv⟩ := shown_or_skipped hw
  obtain ⟨hmem, hskips⟩ := hv.resolve_left (h v)
  obtain ⟨t, ht⟩ : ∃ t, (z.transitions.map fst).find? (fun t => z.Skips l t) = some t :=
    isSome_iff_exists.mp (find?_isSome.mpr ⟨v, hmem, by simpa using hskips⟩)
  have hsys : z.toSys l = t := by rw [toSys, hnil, ht, min?_nil, getD_none, getD_some]
  obtain ⟨hp, pre, post, heq, hpre⟩ := find?_eq_some_iff_append.mp ht
  have hsorted : (z.transitions.map fst).Pairwise (· < ·) := pairwise_map.mpr z.sorted
  rw [hsys]
  refine ⟨by simpa using hp, fun u hu hus => ?_⟩
  rw [heq] at hu hsorted
  rcases mem_append.mp hu with hu | hu
  · have hnot := hpre u hu
    simp only [hus, decide_true, Bool.not_true, Bool.false_eq_true] at hnot
  · rcases mem_cons.mp hu with rfl | hu
    · exact le_rfl
    · exact (rel_of_pairwise_cons (pairwise_append.mp hsorted).2.1 hu).le

theorem midnight_le_iff : midnight d ≤ z.toLocal t ↔ d ≤ z.date t := by
  rw [midnight, date]
  omega

theorem date_of_midnight (h : z.toLocal t = midnight d) : z.date t = d := by
  rw [date, h, midnight]
  omega

/-- Up to an instant of a date, that date or an earlier one has started, unless its midnight is still to come. -/
theorem toSys_midnight_le_iff (hd : d ≤ z.date t) :
    z.toSys (midnight d) ≤ t ↔ ∀ v, z.toLocal v = midnight d → ∃ w ≤ t, z.toLocal w = midnight d := by
  constructor
  · intro h v hv
    exact ⟨_, h, (toSys_of_shown hv).1⟩
  · intro h
    obtain ⟨v, hvt, hv | ⟨hmem, hskips⟩⟩ := shown_or_skipped (midnight_le_iff.mpr hd)
    · exact ((toSys_of_shown hv).2 v hv).trans hvt
    · by_cases hshown : ∃ u, z.toLocal u = midnight d
      · obtain ⟨u, hu⟩ := hshown
        obtain ⟨w, hwt, hw⟩ := h u hu
        exact ((toSys_of_shown hw).2 w hw).trans hwt
      · exact ((toSys_of_not_shown fun u hu => hshown ⟨u, hu⟩).2 v hmem hskips).trans hvt

/-- A date has not started as long as its midnight has not come, nor, if it never comes, the date or a later one. -/
theorem lt_toSys_midnight_iff : t < z.toSys (midnight d) ↔
      ∀ w ≤ t, (z.toLocal w = midnight d ∨ ∀ u, z.toLocal u ≠ midnight d) → z.date w < d := by
  constructor
  · intro h w hw hor
    rcases hor with hshown | hnever
    · have hle := (toSys_of_shown hshown).2 w hshown
      omega
    · by_contra hge
      obtain ⟨v, hvw, hv⟩ := shown_or_skipped (midnight_le_iff.mpr (not_lt.mp hge))
      obtain ⟨hmem, hskips⟩ := hv.resolve_left (hnever v)
      have hle := (toSys_of_not_shown hnever).2 v hmem hskips
      omega
  · intro h
    by_contra hle
    rw [not_lt] at hle
    by_cases hshown : ∃ u, z.toLocal u = midnight d
    · obtain ⟨u, hu⟩ := hshown
      have hfirst := (toSys_of_shown hu).1
      have hlt := h _ hle (.inl hfirst)
      rw [date_of_midnight hfirst] at hlt
      omega
    · have hnever : ∀ u, z.toLocal u ≠ midnight d := fun u hu => hshown ⟨u, hu⟩
      have hlt := h _ hle (.inr hnever)
      have hge := midnight_le_iff.mp (toSys_of_not_shown hnever).1.2.le
      omega

end Zone

section Ticks

def perSecond : ℤ := 10000000

def epochSeconds : ℤ := 11644473600

/-- The last second of 9999. -/
def latest : ℤ := 2650467743990000000

def Fileable (t : ℤ) : Prop := 0 ≤ t ∧ t < latest + perSecond

instance (t : ℤ) : Decidable (Fileable t) := inferInstanceAs (Decidable (_ ∧ _))

/-- The second a time is filed by, one outside 1601 through 9999 by the nearest inside. -/
def second (t : ℤ) : ℤ := max 0 (min t latest) / perSecond - epochSeconds

variable (z : Zone)

def Zone.dayOf (t : ℤ) : ℤ := z.date (second t)

def Zone.startOf (day : ℤ) : ℤ := (z.toSys (Zone.midnight day) + epochSeconds) * perSecond

/-- A second there is a file for. -/
def HasFile (t : ℤ) : Prop := -epochSeconds ≤ t ∧ t ≤ 253402300799

variable {t : ℤ}

theorem hasFile_second (h : Fileable t) : HasFile (second t) := by
  simp only [Fileable, HasFile, second, latest, perSecond, epochSeconds] at *
  omega

/-- Each second's first tick. -/
def tickOf (t : ℤ) : ℤ := (t + epochSeconds) * perSecond

theorem tickOf_fileable (h : HasFile t) : Fileable (tickOf t) ∧ second (tickOf t) = t := by
  simp only [Fileable, HasFile, second, tickOf, latest, perSecond, epochSeconds] at *
  omega

theorem second_mono {u : ℤ} (h : t ≤ u) : second t ≤ second u := by
  simp only [second, latest, perSecond, epochSeconds]
  omega

theorem tickOf_mono {u : ℤ} (h : t ≤ u) : tickOf t ≤ tickOf u := by
  simp only [tickOf, perSecond, epochSeconds]
  omega

variable {z}

variable {day : ℤ}

theorem Zone.startOf_le_iff (h : Fileable t) : z.startOf day ≤ t ↔ z.toSys (midnight day) ≤ second t := by
  simp only [Fileable, Zone.startOf, second, latest, perSecond, epochSeconds] at *
  omega

theorem Zone.lt_startOf_iff (h : Fileable t) : t < z.startOf day ↔ second t < z.toSys (midnight day) := by
  rw [← not_le, Zone.startOf_le_iff h, not_le]

end Ticks

section Loop

variable {β : Type*} (dayOf : ℤ → ℤ) (startOf : ℤ → ℤ) (time : β → ℤ)

/-- The next day a flush writes: the first left in the batch or due, the batch's records up to the next day's start,
the rest of the batch and the days due after it. -/
def nextDay : List β → List ℤ → Option (ℤ × List β × List β × List ℤ)
  | [], [] => none
  | [], day :: due => some (day, [], [], due)
  | b :: batch, due =>
    let first := dayOf (time b)
    let these := b :: batch.takeWhile fun x => time x < startOf (first + 1)
    let rest := batch.dropWhile fun x => time x < startOf (first + 1)
    match due with
    | [] => some (first, these, rest, [])
    | day :: due =>
      if first ≤ day then some (first, these, rest, if first = day then due else day :: due)
      else some (day, [], b :: batch, due)

/-- The days in the order they are written in, each with the records handed to `Prepare`. -/
def dayLoop : ℕ → List β → List ℤ → List (ℤ × List β)
  | 0, _, _ => []
  | n + 1, batch, due =>
    match nextDay dayOf startOf time batch due with
    | none => []
    | some (day, these, rest, due) => (day, these) :: dayLoop n rest due

def prepares (batch : List β) (due : List ℤ) : List (ℤ × List β) :=
  dayLoop dayOf startOf time (batch.length + due.length) batch due

/-- Each record handed over once, of its own day, the days in order and each once, those that are due among them. -/
structure FiledByDay (batch : List β) (due : List ℤ) (calls : List (ℤ × List β)) : Prop where
  whole : calls.flatMap Prod.snd = batch
  own_day : ∀ c ∈ calls, ∀ r ∈ c.2, dayOf (time r) = c.1
  in_order : (calls.map Prod.fst).Pairwise (· < ·)
  due_taken : ∀ d ∈ due, d ∈ calls.map Prod.fst
  called : ∀ c ∈ calls, c.2 ≠ [] ∨ c.1 ∈ due

variable {dayOf startOf time}

/-- What the loop needs of two times. -/
structure CutsAt (dayOf startOf : ℤ → ℤ) (t u : ℤ) : Prop where
  le : dayOf t ≤ dayOf u
  iff : u < startOf (dayOf t + 1) ↔ dayOf u = dayOf t

variable {batch : List β} {due : List ℤ}

/-- The records from the next day's start on are of later days. -/
theorem dayOf_lt_of_mem_dropWhile {b : β} (hb : ∀ x ∈ batch, CutsAt dayOf startOf (time b) (time x))
    (hbatch : batch.Pairwise fun a b => CutsAt dayOf startOf (time a) (time b)) {y : β}
    (hy : y ∈ batch.dropWhile fun x => time x < startOf (dayOf (time b) + 1)) : dayOf (time b) < dayOf (time y) := by
  induction batch with
  | nil => cases hy
  | cons x batch ih =>
    rw [dropWhile_cons] at hy
    split_ifs at hy with hx
    · exact ih (fun y hy => hb y (mem_cons_of_mem _ hy)) (pairwise_cons.mp hbatch).2 hy
    · have hcut := hb x mem_cons_self
      have hne : dayOf (time x) ≠ dayOf (time b) := fun heq => hx (by simpa using hcut.iff.mpr heq)
      have hle := hcut.le
      rcases mem_cons.mp hy with rfl | hy
      · omega
      · have := ((pairwise_cons.mp hbatch).1 y hy).le
        omega

/-- A day the loop takes: what it leaves is of later days. -/
structure TakesDay (dayOf : ℤ → ℤ) (time : β → ℤ) (batch : List β) (due : List ℤ) (day : ℤ) (these rest : List β)
    (left : List ℤ) : Prop where
  split : these ++ rest = batch
  own_day : ∀ r ∈ these, dayOf (time r) = day
  rest_later : ∀ r ∈ rest, day + 1 ≤ dayOf (time r)
  left_later : ∀ d ∈ left, day + 1 ≤ d
  left_sublist : left.Sublist due
  due_taken : ∀ d ∈ due, d = day ∨ d ∈ left
  called : these ≠ [] ∨ day ∈ due
  shorter : rest.length + left.length < batch.length + due.length

theorem TakesDay.only_due {day : ℤ} (hbatch : ∀ b ∈ batch, day + 1 ≤ dayOf (time b))
    (hdue : (day :: due).Pairwise (· < ·)) : TakesDay dayOf time batch (day :: due) day [] batch due where
  split := rfl
  own_day := by simp
  rest_later := hbatch
  left_later := (pairwise_cons.mp hdue).1
  left_sublist := sublist_cons_self _ _
  due_taken := by simp
  called := by simp
  shorter := by simp

/-- The first record's day, the records up to the next day's start with it. -/
theorem TakesDay.of_first {b : β} {left : List ℤ}
    (hbatch : (b :: batch).Pairwise fun a b => CutsAt dayOf startOf (time a) (time b))
    (hleft : ∀ d ∈ left, dayOf (time b) + 1 ≤ d) (hsub : left.Sublist due)
    (hdue : ∀ d ∈ due, d = dayOf (time b) ∨ d ∈ left) :
    TakesDay dayOf time (b :: batch) due (dayOf (time b))
      (b :: batch.takeWhile fun x => time x < startOf (dayOf (time b) + 1))
      (batch.dropWhile fun x => time x < startOf (dayOf (time b) + 1)) left := by
  obtain ⟨hb, hbatch⟩ := pairwise_cons.mp hbatch
  refine ⟨?_, forall_mem_cons.mpr ⟨rfl, fun r hr => ?_⟩, fun y hy => dayOf_lt_of_mem_dropWhile hb hbatch hy, hleft,
    hsub, hdue, .inl (cons_ne_nil _ _), ?_⟩
  · rw [cons_append, takeWhile_append_dropWhile]
  · exact (hb r ((takeWhile_sublist _).subset hr)).iff.mp (by simpa using mem_takeWhile_imp hr)
  · have hrest := (dropWhile_sublist (l := batch) fun x => time x < startOf (dayOf (time b) + 1)).length_le
    have hdays := hsub.length_le
    rw [length_cons]
    omega

theorem nextDay_takes
    (hbatch : batch.Pairwise fun a b => CutsAt dayOf startOf (time a) (time b)) (hdue : due.Pairwise (· < ·)) :
    (nextDay dayOf startOf time batch due = none ∧ batch = [] ∧ due = []) ∨
      ∃ day these rest left, nextDay dayOf startOf time batch due = some (day, these, rest, left) ∧
        TakesDay dayOf time batch due day these rest left := by
  cases batch with
  | nil =>
    cases due with
    | nil => exact .inl ⟨rfl, rfl, rfl⟩
    | cons day due => exact .inr ⟨day, [], [], due, rfl, .only_due (by simp) hdue⟩
  | cons b batch =>
    right
    cases due with
    | nil => exact ⟨_, _, _, _, rfl, .of_first hbatch (by simp) (List.Sublist.refl _) (by simp)⟩
    | cons day due =>
      have hday := (pairwise_cons.mp hdue).1
      by_cases hle : dayOf (time b) ≤ day
      · by_cases heq : dayOf (time b) = day
        · subst heq
          exact ⟨_, _, _, due, by simp only [nextDay, le_refl, if_true],
            .of_first hbatch hday (sublist_cons_self _ _) (by simp)⟩
        · refine ⟨_, _, _, day :: due, by simp only [nextDay, hle, heq, if_true, if_false],
            .of_first hbatch ?_ (List.Sublist.refl _) fun d => .inr⟩
          refine forall_mem_cons.mpr ⟨by omega, fun d hd => ?_⟩
          have := hday d hd
          omega
      · refine ⟨day, [], b :: batch, due, by simp [nextDay, hle], .only_due ?_ hdue⟩
        refine forall_mem_cons.mpr ⟨by omega, fun x hx => ?_⟩
        have := ((pairwise_cons.mp hbatch).1 x hx).le
        omega

theorem FiledByDay.cons {these rest : List β} {left : List ℤ} {day : ℤ} {calls : List (ℤ × List β)}
    (h : FiledByDay dayOf time rest left calls) (hlow : ∀ c ∈ calls, day + 1 ≤ c.1)
    (htakes : TakesDay dayOf time batch due day these rest left) :
    FiledByDay dayOf time batch due ((day, these) :: calls) where
  whole := by rw [flatMap_cons, h.whole, htakes.split]
  own_day := forall_mem_cons.mpr ⟨htakes.own_day, h.own_day⟩
  in_order := by
    refine pairwise_cons.mpr ⟨fun d hd => ?_, h.in_order⟩
    obtain ⟨c, hc, rfl⟩ := mem_map.mp hd
    exact hlow c hc
  due_taken d hd := by
    rcases htakes.due_taken d hd with rfl | hd
    · exact mem_cons_self
    · exact mem_cons_of_mem _ (h.due_taken d hd)
  called := forall_mem_cons.mpr
    ⟨htakes.called, fun c hc => (h.called c hc).imp_right fun hd => htakes.left_sublist.subset hd⟩

theorem FiledByDay.nil : FiledByDay dayOf time [] [] [] := ⟨rfl, by simp, by simp, by simp, by simp⟩

/-- The whole loop, with what bounds its days from below. -/
theorem dayLoop_filed {n : ℕ} (hn : batch.length + due.length ≤ n)
    (hbatch : batch.Pairwise fun a b => CutsAt dayOf startOf (time a) (time b)) (hdue : due.Pairwise (· < ·)) :
    FiledByDay dayOf time batch due (dayLoop dayOf startOf time n batch due) ∧
      ∀ low, (∀ b ∈ batch, low ≤ dayOf (time b)) → (∀ d ∈ due, low ≤ d) →
        ∀ c ∈ dayLoop dayOf startOf time n batch due, low ≤ c.1 := by
  induction n generalizing batch due with
  | zero =>
    obtain rfl : batch = [] := length_eq_zero_iff.mp (by omega)
    obtain rfl : due = [] := length_eq_zero_iff.mp (by omega)
    exact ⟨FiledByDay.nil, nofun⟩
  | succ n ih =>
    rcases nextDay_takes hbatch hdue with ⟨hnext, rfl, rfl⟩ | ⟨day, these, rest, left, hnext, htakes⟩
    · exact ⟨FiledByDay.nil, nofun⟩
    · have hrest : rest.Sublist batch := htakes.split ▸ sublist_append_right these rest
      have hshorter := htakes.shorter
      obtain ⟨hfiled, hlow⟩ := ih (by omega) (hbatch.sublist hrest) (hdue.sublist htakes.left_sublist)
      rw [dayLoop, hnext]
      refine ⟨hfiled.cons (hlow _ htakes.rest_later htakes.left_later) htakes, fun low hb hd => ?_⟩
      refine forall_mem_cons.mpr ⟨?_, hlow low (fun b h => hb b (hrest.subset h)) fun d h =>
        hd d (htakes.left_sublist.subset h)⟩
      rcases htakes.called with hne | hmem
      · obtain ⟨r, hr⟩ := exists_mem_of_ne_nil these hne
        rw [← htakes.own_day r hr]
        exact hb r (htakes.split ▸ mem_append_left rest hr)
      · exact hd day hmem

/-- The flush's own step from day to day is the loop's. -/
theorem Flush.next_eq {V Id : Type*} (env : Env V Id) (fl : Flush) (batch : List (Buffered (Record V Id))) :
    fl.next env batch =
      (nextDay env.calendar.dayOf env.calendar.startOf Buffered.time (batch.drop fl.done) fl.due).map
        fun r => (r.1, fl.done + r.2.1.length, r.2.2.2) := by
  rw [Flush.next]
  cases hb : batch[fl.done]? with
  | none =>
    rw [drop_eq_nil_of_le (getElem?_eq_none_iff.mp hb)]
    cases fl.due <;> rfl
  | some b =>
    obtain ⟨hlt, rfl⟩ := List.getElem?_eq_some_iff.mp hb
    have hstop : ∀ n, fl.done + 1 + n = fl.done + (n + 1) := by omega
    rw [drop_eq_getElem_cons hlt]
    cases fl.due with
    | nil =>
      simp only [nextDay, Buffered.day, hstop]
      rfl
    | cons day due =>
      by_cases hle : env.calendar.dayOf batch[fl.done].time ≤ day
      · simp only [nextDay, Buffered.day, hstop, if_pos hle]
        rfl
      · simp only [nextDay, Buffered.day, if_neg hle]
        exact if_neg hle

section Days

variable {V Id : Type*} (env : Env V Id)

/-- The days a flush goes through from where it stands, each with its part of the batch: a day written and one
held back alike end where the next begins. -/
def Flush.days (batch : List (Buffered (Record V Id))) : ℕ → Flush → List (Day × List (Buffered (Record V Id)))
  | 0, _ => []
  | n + 1, fl =>
    match fl.next env batch with
    | none => []
    | some (day, stop, due) =>
      (day, (batch.drop fl.done).take (stop - fl.done)) :: days batch n (fl.pass stop due)

theorem nextDay_split {β : Type*} {dayOf startOf : ℤ → ℤ} {time : β → ℤ} {batch these rest : List β} {due left : List ℤ}
    {day : ℤ} (h : nextDay dayOf startOf time batch due = some (day, these, rest, left)) : these ++ rest = batch := by
  cases batch with
  | nil =>
    cases due <;> cases h
    rfl
  | cons b batch =>
    cases due with
    | nil =>
      cases h
      simp
    | cons d due =>
      simp only [nextDay] at h
      split_ifs at h <;> cases h <;> simp

theorem Flush.days_eq (batch : List (Buffered (Record V Id))) (n : ℕ) (fl : Flush) : fl.days env batch n =
    dayLoop env.calendar.dayOf env.calendar.startOf Buffered.time n (batch.drop fl.done) fl.due := by
  induction n generalizing fl with
  | zero => rfl
  | succ n ih =>
    rw [days, dayLoop, Flush.next_eq]
    cases hnext : nextDay env.calendar.dayOf env.calendar.startOf Buffered.time (batch.drop fl.done) fl.due with
    | none => rfl
    | some r =>
      obtain ⟨day, these, rest, left⟩ := r
      have hsplit := nextDay_split hnext
      have hthese : (batch.drop fl.done).take these.length = these := by rw [← hsplit, take_left]
      have hrest : batch.drop (fl.done + these.length) = rest := by rw [← drop_drop, ← hsplit, drop_left]
      simp only [map_some, ih, Flush.pass, Nat.add_sub_cancel_left, hthese, hrest]

variable {env}

/-- A flush goes through its batch and the days due a day at a time, in order, each record with its own day,
and stops only when nothing of either is left. -/
theorem Flush.days_filed {batch : List (Buffered (Record V Id))} {fl : Flush} {n : ℕ}
    (hn : (batch.drop fl.done).length + fl.due.length ≤ n)
    (hbatch : (batch.drop fl.done).Pairwise fun a b => CutsAt env.calendar.dayOf env.calendar.startOf a.time b.time)
    (hdue : fl.due.Pairwise (· < ·)) :
    FiledByDay env.calendar.dayOf Buffered.time (batch.drop fl.done) fl.due (fl.days env batch n) ∧
      (fl.next env batch = none ↔ batch.length ≤ fl.done ∧ fl.due = []) := by
  refine ⟨Flush.days_eq env batch n fl ▸ (dayLoop_filed hn hbatch hdue).1, ?_⟩
  rw [Flush.next_eq, map_eq_none_iff, ← drop_eq_nil_iff]
  rcases nextDay_takes hbatch hdue with ⟨hnone, hnil, hleft⟩ | ⟨day, these, rest, left, hnext, htakes⟩
  · exact iff_of_true hnone ⟨hnil, hleft⟩
  · refine iff_of_false (by simp [hnext]) ?_
    rintro ⟨hnil, hleft⟩
    have hshorter := htakes.shorter
    simp [hnil, hleft] at hshorter

end Days

theorem utc_cutsAt {t u : ℤ} (h : t ≤ u) : CutsAt Calendar.utc.dayOf Calendar.utc.startOf t u := by
  constructor <;> simp only [Calendar.utc] <;> omega

/-- A value of a day. -/
def dayValue (day : ℤ) : Buffered (Record ℕ ℕ) :=
  { item := .value { index := 1, data := { sourceTimestamp := some (day * 864000000000) } }, sequence := 0, bytes := 8 }

/-- A flush of two values of day 1 and one of day 3, with the days 1 and 5 due. -/
theorem dayOne_filed :
    let fl : Flush := { taken := 0, due := [1, 5], nextIndex := 0 }
    let batch := [dayValue 1, dayValue 1, dayValue 3]
    fl.days plainHost batch 5 = [(1, [dayValue 1, dayValue 1]), (3, [dayValue 3]), (5, [])] ∧
      FiledByDay plainHost.calendar.dayOf Buffered.time batch [1, 5] (fl.days plainHost batch 5) := by
  intro fl batch
  have hsorted : batch.Pairwise fun a b => a.time ≤ b.time := by decide
  have hdue : fl.due.Pairwise (· < ·) := by decide
  have hn : (batch.drop fl.done).length + fl.due.length ≤ 5 := by decide
  exact ⟨by decide, (Flush.days_filed hn (hsorted.imp utc_cutsAt) hdue).1⟩

end Loop

section Filed

variable (z : Zone)

/-- The local date never goes back. -/
structure Zone.Forward : Prop where
  dates : ∀ w t, HasFile w → HasFile t → w ≤ t → z.date w ≤ z.date t
  /-- No midnight up to a date is still to come: its own, or that after an earlier date. -/
  started : ∀ t d, HasFile t → (d = z.date t ∨ d ≤ z.date t ∧ ∃ w ≤ t, HasFile w ∧ z.date w + 1 = d) →
    ∀ v, z.toLocal v = Zone.midnight d → ∃ w ≤ t, z.toLocal w = Zone.midnight d
  /-- Before there were files, no clock had shown the date after it. -/
  before : ∀ t w, HasFile t → w < -epochSeconds →
    (z.toLocal w = Zone.midnight (z.date t + 1) ∨ ∀ u, z.toLocal u ≠ Zone.midnight (z.date t + 1)) → z.date w ≤ z.date t

/-- Every batch is filed by day, each record by its time and which it is. -/
def Zone.FilesByDay : Prop :=
  ∀ (batch : List (ℤ × ℕ)) (due : List ℤ), (∀ r ∈ batch, Fileable r.1) → batch.Pairwise (fun a b => a.1 ≤ b.1) →
    due.Pairwise (· < ·) → FiledByDay z.dayOf Prod.fst batch due (prepares z.dayOf z.startOf Prod.fst batch due)

def Zone.Bounds : Prop := ∀ t, Fileable t → z.startOf (z.dayOf t) ≤ t ∧ t < z.startOf (z.dayOf t + 1)

variable {z}

theorem Zone.Forward.bounds (h : z.Forward) : z.Bounds := by
  intro t ht
  have hheld := hasFile_second ht
  rw [startOf_le_iff ht, lt_startOf_iff ht, dayOf, toSys_midnight_le_iff le_rfl, lt_toSys_midnight_iff]
  refine ⟨h.started _ _ hheld (.inl rfl), fun w hw hor => Int.lt_add_one_iff.mpr ?_⟩
  by_cases hlow : w < -epochSeconds
  · exact h.before _ w hheld hlow hor
  · have hhigh := hheld.2
    exact h.dates w _ ⟨by omega, by omega⟩ hheld hw

theorem Zone.Forward.cutsAt (h : z.Forward) {t u : ℤ} (ht : Fileable t) (hu : Fileable u) (htu : t ≤ u) :
    CutsAt z.dayOf z.startOf t u := by
  have hle : z.dayOf t ≤ z.dayOf u := h.dates _ _ (hasFile_second ht) (hasFile_second hu) (second_mono htu)
  refine ⟨hle, fun hlt => ?_, fun heq => ?_⟩
  · by_contra hne
    have hnext : z.dayOf t + 1 ≤ z.dayOf u := by omega
    refine absurd hlt (not_lt.mpr ((startOf_le_iff hu).mpr ((toSys_midnight_le_iff hnext).mpr ?_)))
    exact h.started _ _ (hasFile_second hu) (.inr ⟨hnext, second t, second_mono htu, hasFile_second ht, rfl⟩)
  · rw [← heq]
    exact (h.bounds u hu).2

/-- Two records on their own, of one day or of two. -/
theorem prepares_pair (w t : ℤ) : prepares z.dayOf z.startOf fst [(w, 0), (t, 1)] [] =
      if t < z.startOf (z.dayOf w + 1) then [(z.dayOf w, [(w, 0), (t, 1)])]
      else [(z.dayOf w, [(w, 0)]), (z.dayOf t, [(t, 1)])] := by
  split_ifs with h <;> simp [prepares, dayLoop, nextDay, h]

/-- Every batch is filed by day and every time within its day's bounds exactly if the local date never goes back. -/
theorem filed_on_own_day_iff (z : Zone) : z.FilesByDay ∧ z.Bounds ↔ z.Forward := by
  constructor
  · rintro ⟨hfiles, hbounds⟩
    have hcuts : ∀ w t, Fileable w → Fileable t → w ≤ t →
        z.dayOf w ≤ z.dayOf t ∧ (z.dayOf w < z.dayOf t → z.startOf (z.dayOf w + 1) ≤ t) := by
      intro w t hw ht hwt
      have hpair := hfiles [(w, 0), (t, 1)] [] (by simp [hw, ht]) (by simp [hwt]) List.Pairwise.nil
      rw [prepares_pair] at hpair
      split_ifs at hpair with hlt
      · have heq : z.dayOf t = z.dayOf w := hpair.own_day _ mem_cons_self (t, 1) (by simp)
        omega
      · have hdays := hpair.in_order
        simp only [map_cons, map_nil, pairwise_cons, mem_cons, not_mem_nil, or_false,
          forall_eq] at hdays
        exact ⟨hdays.1.le, fun _ => not_lt.mp hlt⟩
    refine ⟨fun w t hw ht hwt => ?_, fun t d ht hd v hv => ?_, fun t w ht hw hor => ?_⟩
    · obtain ⟨hfw, hsw⟩ := tickOf_fileable hw
      obtain ⟨hft, hst⟩ := tickOf_fileable ht
      have hle := (hcuts _ _ hfw hft (tickOf_mono hwt)).1
      rwa [Zone.dayOf, Zone.dayOf, hsw, hst] at hle
    · obtain ⟨hft, hst⟩ := tickOf_fileable ht
      rcases hd with rfl | ⟨hle, w, hwt, hw, rfl⟩
      · have hstart := (Zone.startOf_le_iff hft).mp (hbounds _ hft).1
        rw [Zone.dayOf, hst] at hstart
        exact ⟨_, hstart, (Zone.toSys_of_shown hv).1⟩
      · obtain ⟨hfw, hsw⟩ := tickOf_fileable hw
        have hcut := (hcuts _ _ hfw hft (tickOf_mono hwt)).2
        rw [Zone.dayOf, Zone.dayOf, hsw, hst, Zone.startOf_le_iff hft, hst] at hcut
        exact ⟨_, hcut (by omega), (Zone.toSys_of_shown hv).1⟩
    · obtain ⟨hft, hst⟩ := tickOf_fileable ht
      have hlt := (Zone.lt_startOf_iff hft).mp (hbounds _ hft).2
      rw [Zone.dayOf, hst, Zone.lt_toSys_midnight_iff] at hlt
      have hlow := ht.1
      exact Int.lt_add_one_iff.mp (hlt w (by omega) hor)
  · intro h
    refine ⟨fun batch due hbatch hsorted hdue => ?_, h.bounds⟩
    refine (dayLoop_filed le_rfl ?_ hdue).1
    exact hsorted.imp_of_mem fun {a b} ha hb hab => h.cutsAt (hbatch a ha) (hbatch b hb) hab

/-- Clocks put back an hour at a minute past midnight. -/
def clocksBack : Zone where
  base := 0
  transitions := [(8640060, -3600)]
  sorted := pairwise_singleton _ _

/-- A record of half a minute past midnight, and one of two minutes later, when it is the day before again. -/
theorem clocksBack_misfiled :
    prepares clocksBack.dayOf clocksBack.startOf Prod.fst [(tickOf 8640030, 0), (tickOf 8640150, 1)] [] =
        [(100, [(tickOf 8640030, 0), (tickOf 8640150, 1)])] ∧
      clocksBack.dayOf (tickOf 8640150) = 99 ∧ clocksBack.startOf 100 ≤ tickOf 8640150 ∧
      Fileable (tickOf 8640030) ∧ Fileable (tickOf 8640150) := by
  decide

end Filed

end OpcHub.Historian
