import OpcHub.Log.Frames
import OpcHub.Lib.Pages

/-! A query of the log's entries, a page of them in the order asked for. The daily log
and the day's archives are read newest first or oldest first, only the days the filter's
time bounds name, and the read stops with the file that fills the page. That takes the
daily log for newer than every archive: it also holds what came late. And the daily log
is not read where the query ends before the bound it is said to start at. -/

namespace OpcHub.Log

open Lib List

/-- The machine's `uint`, whose sums wrap. -/
abbrev Uint : Type := Fin 18446744073709551616

/-- A `LogEntryFile` as a query sees it, its texts resolved. -/
structure LogEntry where
  time : TimePoint
  level : ℕ := 0
  tags : ℕ := 0
  line : ℕ := 0
  userPK : ℕ := 0
  appPK : ℕ := 0
  appInstancePK : ℕ := 0
  file : String := ""
  function : String := ""
  message : String := ""
  deriving DecidableEq

inductive SortField where
  | time
  | file
  | function
  | level
  | line
  | message
  | tags
  | user
  /-- A name the sort does not know. -/
  | other
  deriving DecidableEq

def SortField.compare : SortField → LogEntry → LogEntry → Ordering
  | .time => compareOn LogEntry.time
  | .file => compareOn LogEntry.file
  | .function => compareOn LogEntry.function
  | .level => compareOn LogEntry.level
  | .line => compareOn LogEntry.line
  | .message => compareOn LogEntry.message
  | .tags => compareOn LogEntry.tags
  | .user => compareOn LogEntry.userPK
  | .other => fun _ _ => .eq

/-- A field in the direction asked for. -/
def directed (f : SortField) : Bool → LogEntry → LogEntry → Ordering
  | true => f.compare
  | false => fun a b => f.compare b a

/-- The first field in which two entries differ decides; `true` is ascending. -/
def compareBy : List (SortField × Bool) → LogEntry → LogEntry → Ordering
  | [] => fun _ _ => .eq
  | (f, asc) :: orderBy => compareLex (directed f asc) (compareBy orderBy)

/-- What a criterion names: its text, and the time `ToTimePoint` reads it as. -/
structure TimeLiteral where
  text : String
  time : TimePoint

/-- The shape `makeTimes` asks for. -/
def TimeLiteral.timed (x : TimeLiteral) : Bool := 19 ≤ x.text.length ∧ x.text.toList[10]? = some 'T'

/-- A criterion on the time; the operators other than gt and lt by what they accept. -/
inductive TimeCriterion where
  | greater (x : TimeLiteral)
  | less (x : TimeLiteral)
  | other (accepts : TimePoint → Bool)

/-- `FilterValue::Test`: a literal `makeTimes` does not take is compared with the time's text. -/
def TimeCriterion.test (iso : TimePoint → String) (t : TimePoint) : TimeCriterion → Bool
  | .greater x => if x.timed then x.time < t else x.text < iso t
  | .less x => if x.timed then t < x.time else iso t < x.text
  | .other accepts => accepts t

def TimeCriterion.greater? : TimeCriterion → Option TimeLiteral
  | .greater x => some x
  | .less _ => none
  | .other _ => none

def TimeCriterion.less? : TimeCriterion → Option TimeLiteral
  | .greater _ => none
  | .less x => some x
  | .other _ => none

/-- What a query asks for but its page: the criteria on the time, the rest of its filter, and the instances it may not see. -/
structure LogQuery where
  time : List TimeCriterion
  /-- A time as `ToIsoString` writes it. -/
  iso : TimePoint → String
  test : LogEntry → Bool
  hidden : List ℕ
  orderBy : List (SortField × Bool)

namespace LogQuery

variable (q : LogQuery)

def visible (e : LogEntry) : Bool := e.appPK = 0 ∨ e.appInstancePK ∉ q.hidden

/-- What the query keeps. -/
def keeps (e : LogEntry) : Bool := q.visible e && (q.time.all (TimeCriterion.test q.iso e.time) && q.test e)

/-- `TimeBounds`: the last of each kind. -/
def start : Option TimePoint := (q.time.filterMap TimeCriterion.greater?).getLast?.map TimeLiteral.time

def end_ : Option TimePoint := (q.time.filterMap TimeCriterion.less?).getLast?.map TimeLiteral.time

/-- The order starts with the time, so a full page ends the read. -/
def byTime : Bool := q.orderBy.head?.any fun o => o.1 = .time

def timeAsc : Bool := q.orderBy.head? = some (.time, true)

/-- `IsComplete`, on the number of entries read. -/
def isComplete (limit offset : Uint) (n : ℕ) : Bool := limit.val ≠ 0 ∧ q.byTime ∧ (limit + offset).val ≤ n

/-- `Sort`: by time first, as the entries are kept. -/
def sort (entries : List LogEntry) : List LogEntry :=
  let y := stableSort LogEntry.time entries
  if q.orderBy = [] ∨ q.orderBy = [(.time, true)] then y
  else y.insertionSort fun a b => (compareBy q.orderBy a b).isLE = true

end LogQuery

def dayLength : ℤ := 86400000000000

/-- The log that is queried: its zone, its daily log with the bound it is said to start at, and its archives. -/
structure Store where
  toLocal : TimePoint → ℤ
  dailyFileStart : TimePoint
  daily : List LogEntry
  archives : OrdMap ℤ (List LogEntry)
  own_day : ∀ a ∈ archives.entries, ∀ e ∈ a.2, toLocal e.time / dayLength = a.1
  length_lt : (daily ++ archives.values.flatten).length < 18446744073709551616

namespace Store

variable (store : Store) (q : LogQuery)

/-- A time's day, and the first day that starts at or after it. -/
def floorDay (t : TimePoint) : ℤ := store.toLocal t / dayLength

def ceilDay (t : TimePoint) : ℤ := -(-store.toLocal t / dayLength)

def readLocal : Bool := q.end_.elim true fun t => store.dailyFileStart < t

/-- The days the time bounds name. -/
def inBounds (day : ℤ) : Bool :=
  (q.start.elim true fun t => store.floorDay t ≤ day) && (q.end_.elim true fun t => day ≤ store.ceilDay t)

/-- The archives in bounds, oldest first. -/
def days : List (List LogEntry) := (store.archives.entries.filter fun a => store.inBounds q a.1).map Prod.snd

def today : List (List LogEntry) := if store.readLocal q then [store.daily] else []

/-- What is read: the daily log and the days it names, newest first unless the oldest are asked for. -/
def read (limit offset : Uint) : List LogEntry :=
  let kept := List.map fun f : List LogEntry => f.filter q.keeps
  if q.timeAsc then readUntil (q.isComplete limit offset) [] (kept (store.days q ++ store.today q))
  -- the daily log is read first without asking whether the page is full
  else readUntil (q.isComplete limit offset) (kept (store.today q)).flatten (kept (store.days q).reverse)

/-- `ToJson`: the entries not skipped for their place. -/
def shown (limit offset : Uint) (entries : List LogEntry) : List LogEntry :=
  if limit.val = 0 then entries.drop offset else (entries.take (offset + limit).val).drop offset

/-- The answer. -/
def logs (limit offset : Uint) : List LogEntry := shown limit offset (q.sort (store.read q limit offset))

/-- All the query asks for, in the daily log and the archives. -/
def matching : List LogEntry := (store.daily ++ store.archives.values.flatten).filter q.keeps

end Store

section Compare

instance : Std.TransCmp fun _ _ : LogEntry => Ordering.eq where
  eq_swap := rfl
  isLE_trans _ _ := rfl

instance (f : SortField) : Std.TransCmp f.compare := by
  cases f with
  | other => exact inferInstanceAs (Std.TransCmp fun _ _ => Ordering.eq)
  | _ => exact inferInstanceAs (Std.TransCmp (compareOn _))

instance (f : SortField) (asc : Bool) : Std.TransCmp (directed f asc) := by
  cases asc
  · exact inferInstanceAs (Std.TransCmp fun a b => f.compare b a)
  · exact inferInstanceAs (Std.TransCmp f.compare)

instance (orderBy : List (SortField × Bool)) : Std.TransCmp (compareBy orderBy) := by
  induction orderBy with
  | nil => exact inferInstanceAs (Std.TransCmp fun _ _ => Ordering.eq)
  | cons o orderBy ih => exact inferInstanceAs (Std.TransCmp (compareLex (directed o.1 o.2) (compareBy orderBy)))

end Compare

namespace LogQuery

variable (q : LogQuery)

/-- The order asked for. -/
def le (a b : LogEntry) : Prop := (compareBy q.orderBy a b).isLE = true

instance : DecidableRel q.le := fun _ _ => inferInstanceAs (Decidable (_ = true))

instance : IsTrans LogEntry q.le := ⟨fun _ _ _ => Std.TransCmp.isLE_trans⟩

instance : Std.Total q.le where
  total a b := by
    have hswap : compareBy q.orderBy b a = (compareBy q.orderBy a b).swap := Std.OrientedCmp.eq_swap
    rw [le, le, hswap]
    cases compareBy q.orderBy a b <;> simp [Ordering.swap]

variable {q} in
theorem le_of_timeAsc (h : q.timeAsc = true) {a b : LogEntry} (hlt : a.time < b.time) : q.le a b := by
  obtain ⟨orderBy, ho⟩ := head?_eq_some_iff.mp (of_decide_eq_true h)
  have hcmp : compareOn LogEntry.time a b = .lt := Nat.compare_eq_lt.mpr hlt
  simp [le, ho, compareBy, compareLex, directed, SortField.compare, hcmp]

variable {q} in
theorem le_of_not_timeAsc (hby : q.byTime = true) (h : q.timeAsc = false) {a b : LogEntry} (hlt : b.time < a.time) :
    q.le a b := by
  obtain ⟨o, orderBy, ho⟩ : ∃ o orderBy, q.orderBy = o :: orderBy := by
    cases ho : q.orderBy with
    | nil => simp [byTime, ho] at hby
    | cons o orderBy => exact ⟨o, orderBy, rfl⟩
  obtain ⟨f, asc⟩ := o
  obtain rfl : f = .time := by simpa [byTime, ho] using hby
  obtain rfl : asc = false := by simpa [timeAsc, ho] using h
  have hcmp : compareOn LogEntry.time b a = .lt := Nat.compare_eq_lt.mpr hlt
  simp [le, ho, compareBy, compareLex, directed, SortField.compare, hcmp]

variable (entries : List LogEntry)

theorem sort_perm : (q.sort entries).Perm entries := by
  rw [sort]
  split_ifs
  · exact stableSort_perm entries
  · exact (perm_insertionSort _ _).trans (stableSort_perm entries)

theorem sort_pairwise : (q.sort entries).Pairwise q.le := by
  rw [sort]
  split_ifs with h
  · refine (sortedBy_stableSort entries).imp fun {a b} hab => ?_
    rcases h with h | h
    · simp [le, h, compareBy]
    · have hle : (compareOn LogEntry.time a b).isLE = true := Nat.isLE_compare.mpr hab
      simpa [le, h, compareBy, compareLex, directed, SortField.compare] using hle
  · exact pairwise_insertionSort q.le _

end LogQuery

namespace Store

variable (store : Store) (q : LogQuery)

/-- What is asked for of each file, in the order they are read in. -/
def files : List (List LogEntry) :=
  (if q.timeAsc then store.days q ++ store.today q else store.today q ++ (store.days q).reverse).map fun f => f.filter q.keeps

/-- The files the time bounds leave out. -/
def skipped : List (List LogEntry) :=
  (if store.readLocal q then [] else [store.daily]) ++
    (store.archives.entries.filter fun a => !store.inBounds q a.1).map Prod.snd

/-- No file left out has anything that is asked for. -/
def Covered : Prop := ∀ f ∈ store.skipped q, ∀ e ∈ f, q.keeps e = false

instance : Decidable (store.Covered q) := inferInstanceAs (Decidable (∀ f ∈ store.skipped q, ∀ e ∈ f, q.keeps e = false))

/-- If the read may stop early, nothing asked for stands before what an earlier file has. -/
def InOrder : Prop := q.byTime → (store.files q).Pairwise fun f g => ∀ a ∈ f, ∀ b ∈ g, q.le a b

/-- The sum of limit and offset is past the machine's numbers. -/
def Wraps (limit offset : Uint) : Prop := 18446744073709551616 ≤ limit.val + offset.val

instance (limit offset : Uint) : Decidable (Wraps limit offset) := inferInstanceAs (Decidable (_ ≤ _))

variable {store q}

variable {limit offset : Uint}

variable (h : ¬ Wraps limit offset)
include h

theorem val_add_of_not_wraps : (limit + offset).val = limit.val + offset.val := by
  rw [Wraps] at h
  omega

theorem isComplete_eq :
    q.isComplete limit offset = fun n => q.byTime && fills limit offset n := by
  funext n
  simp only [LogQuery.isComplete, fills, val_add_of_not_wraps h]
  cases q.byTime <;> simp

theorem read_eq :
    store.read q limit offset = readUntil (fun n => q.byTime && fills limit offset n) [] (store.files q) := by
  have hzero : fills limit offset 0 = false := by
    simp only [fills, decide_eq_false_iff_not]
    omega
  rw [read, files, isComplete_eq h]
  split_ifs
  · rfl
  · rw [today]
    split_ifs
    · simp [readUntil, hzero]
    · simp

theorem shown_eq (entries : List LogEntry) :
    shown limit offset entries = page limit offset entries := by
  rw [shown, page]
  split_ifs
  · rfl
  · have hcomm : (offset + limit).val = (limit + offset).val := by rw [Fin.val_add, Fin.val_add, Nat.add_comm]
    rw [hcomm, val_add_of_not_wraps h, drop_take, Nat.add_sub_cancel]

omit h

theorem shown_of_wraps (h : Wraps limit offset) (entries : List LogEntry) : shown limit offset entries = [] := by
  rw [Wraps] at h
  have hsum : (offset + limit).val ≤ offset.val := by
    omega
  have hlimit : limit.val ≠ 0 := by omega
  rw [shown, if_neg hlimit]
  exact drop_eq_nil_of_le ((length_take_le _ _).trans hsum)

/-- What is asked for in the files the time bounds leave out. -/
def outside (store : Store) (q : LogQuery) : List LogEntry := (store.skipped q).flatten.filter q.keeps

theorem covered_iff : store.Covered q ↔ store.outside q = [] := by
  simp only [Covered, outside, filter_eq_nil_iff, mem_flatten, Bool.not_eq_true]
  constructor
  · rintro h e ⟨f, hf, he⟩
    exact h f hf e he
  · intro h f hf e he
    exact h e ⟨f, hf, he⟩

/-- The files read and those left out are the log. -/
theorem read_skipped_perm (store : Store) (q : LogQuery) : ((store.today q ++ store.days q).flatten ++
    (store.skipped q).flatten).Perm (store.daily ++ store.archives.values.flatten) := by
  have hdays : ((store.days q).flatten ++ ((store.archives.entries.filter fun a =>
      !store.inBounds q a.1).map Prod.snd).flatten).Perm store.archives.values.flatten := by
    rw [days, ← flatten_append, ← map_append]
    exact ((filter_append_perm _ _).map Prod.snd).flatten
  rw [today, skipped]
  split_ifs
  · simpa [append_assoc] using hdays.append_left store.daily
  · rw [nil_append, flatten_append, flatten_singleton]
    refine perm_append_comm_assoc _ _ _ |>.trans ?_
    exact hdays.append_left store.daily

theorem files_perm (store : Store) (q : LogQuery) : ((store.files q).flatten ++ store.outside q).Perm (store.matching q) := by
  have hfiles : (store.files q).flatten.Perm ((store.today q ++ store.days q).flatten.filter q.keeps) := by
    rw [files, ← filter_flatten]
    refine List.Perm.filter _ ?_
    split_ifs
    · exact perm_append_comm.flatten
    · exact ((reverse_perm _).append_left _).flatten
  refine (hfiles.append_right _).trans ?_
  rw [outside, ← filter_append]
  exact (read_skipped_perm store q).filter _

theorem files_length_lt (store : Store) (q : LogQuery) : (store.files q).flatten.length < 18446744073709551616 := by
  have h := (files_perm store q).length_eq
  have hle := length_filter_le q.keeps (store.daily ++ store.archives.values.flatten)
  have hlt := store.length_lt
  rw [matching] at h
  rw [length_append] at h
  omega

theorem logs_eq (h : ¬ Wraps limit offset) : store.logs q limit offset =
      page limit offset (q.sort (readUntil (fun n => q.byTime && fills limit offset n) [] (store.files q))) := by
  rw [logs, shown_eq h, read_eq h]

theorem logs_zero : store.logs q 0 0 = q.sort (store.files q).flatten := by
  have hnever : ∀ n, (q.byTime && fills 0 0 n) = false := by simp [fills]
  rw [logs_eq (by simp [Wraps])]
  simp only [Fin.val_zero]
  rw [readUntil_all hnever, nil_append]
  rfl

theorem isPage_of_wraps_iff (h : Wraps limit offset) :
    IsPage q.le limit offset (store.matching q) (store.logs q limit offset) ↔ (store.matching q).length ≤ offset := by
  have hlimit : limit.val ≠ 0 := by
    rw [Wraps] at h
    omega
  have hpage : ∀ l : List LogEntry, [] = page limit offset l ↔ l.length ≤ offset := by
    intro l
    rw [page, if_neg hlimit, eq_comm, take_eq_nil_iff, or_iff_right hlimit, drop_eq_nil_iff]
  rw [logs, shown_of_wraps h]
  constructor
  · rintro ⟨l, hl, -, hnil⟩
    rw [← hl.length_eq]
    exact (hpage l).mp hnil
  · intro hlen
    refine ⟨q.sort (store.matching q), q.sort_perm _, q.sort_pairwise _, (hpage _).mpr ?_⟩
    rwa [(q.sort_perm _).length_eq]

theorem covered_of_isPage (h : IsPage q.le 0 0 (store.matching q) (store.logs q 0 0)) : store.Covered q := by
  obtain ⟨l, hl, -, hlogs⟩ := h
  have hlen : (store.files q).flatten.length = (store.matching q).length := by
    rw [← hl.length_eq, ← (q.sort_perm _).length_eq, ← logs_zero, hlogs]
    rfl
  have hall := (files_perm store q).length_eq
  rw [length_append] at hall
  exact covered_iff.mpr (length_eq_zero_iff.mp (by omega))

theorem Covered.perm (h : store.Covered q) : (store.files q).flatten.Perm (store.matching q) := by
  have hall := files_perm store q
  rwa [covered_iff.mp h, append_nil] at hall

theorem isPage_of_not_byTime (h : ¬ Wraps limit offset) (hby : q.byTime = false)
    (hcovered : store.Covered q) : IsPage q.le limit offset (store.matching q) (store.logs q limit offset) := by
  refine ⟨q.sort (store.files q).flatten, (q.sort_perm _).trans hcovered.perm, q.sort_pairwise _, ?_⟩
  rw [logs_eq h, readUntil_all (by simp [hby]), nil_append]

/-- A page that would end past the machine's numbers comes back empty. All others are pages of the whole log exactly if
no file left out has anything asked for and the files are read in order. -/
theorem logs_isPage_iff (store : Store) (q : LogQuery) : (∀ limit offset, Wraps limit offset →
      (IsPage q.le limit offset (store.matching q) (store.logs q limit offset) ↔ (store.matching q).length ≤ offset)) ∧
    ((∀ limit offset, ¬ Wraps limit offset →
      IsPage q.le limit offset (store.matching q) (store.logs q limit offset)) ↔ store.Covered q ∧ store.InOrder q) := by
  refine ⟨fun limit offset h => isPage_of_wraps_iff h, ?_⟩
  have hordered := isPage_readUntil_iff q.sort_perm q.sort_pairwise (files_length_lt store q)
  constructor
  · intro h
    have hcovered : store.Covered q := covered_of_isPage (h 0 0 (by simp [Wraps]))
    refine ⟨hcovered, fun hby => hordered.mp fun limit offset hlt => ?_⟩
    have hnot : ¬ Wraps ⟨limit, by omega⟩ ⟨offset, by omega⟩ := by
      simp only [Wraps]
      omega
    have hpage := h _ _ hnot
    rw [logs_eq hnot] at hpage
    simpa only [hby, Bool.true_and] using (isPage_congr hcovered.perm).mpr hpage
  · rintro ⟨hcovered, hin⟩ limit offset hnot
    cases hby : q.byTime with
    | false => exact isPage_of_not_byTime hnot hby hcovered
    | true =>
      have hlt : limit.val + offset.val < 18446744073709551616 := not_le.mp hnot
      have hpage := hordered.mpr (hin hby) limit offset hlt
      rw [logs_eq hnot]
      simpa only [hby, Bool.true_and] using (isPage_congr hcovered.perm).mp hpage

open TimeCriterion

theorem mem_of_start {t : TimePoint} (h : q.start = some t) : ∃ x, greater x ∈ q.time ∧ x.time = t := by
  obtain ⟨x, hx, rfl⟩ := Option.map_eq_some_iff.mp h
  obtain ⟨c, hc, hgreater⟩ := mem_filterMap.mp (mem_of_getLast? hx)
  cases c with
  | greater x =>
    cases hgreater
    exact ⟨x, hc, rfl⟩
  | less | other => cases hgreater

theorem mem_of_end {t : TimePoint} (h : q.end_ = some t) : ∃ x, less x ∈ q.time ∧ x.time = t := by
  obtain ⟨x, hx, rfl⟩ := Option.map_eq_some_iff.mp h
  obtain ⟨c, hc, hless⟩ := mem_filterMap.mp (mem_of_getLast? hx)
  cases c with
  | greater | other => cases hless
  | less x =>
    cases hless
    exact ⟨x, hc, rfl⟩

/-- Every literal that bounds the read is one `makeTimes` takes. -/
def Timed (q : LogQuery) : Prop := ∀ c ∈ q.time, (∀ x ∈ c.greater?, x.timed) ∧ ∀ x ∈ c.less?, x.timed

section Newer

variable (htimed : Timed q)

include htimed

theorem lt_of_start {t : TimePoint} (h : q.start = some t) {e : LogEntry} (he : q.keeps e = true) : t < e.time := by
  obtain ⟨x, hx, rfl⟩ := mem_of_start h
  simp only [LogQuery.keeps, Bool.and_eq_true, all_eq_true] at he
  simpa [test, (htimed _ hx).1 x rfl] using he.2.1 _ hx

theorem lt_of_end {t : TimePoint} (h : q.end_ = some t) {e : LogEntry} (he : q.keeps e = true) : e.time < t := by
  obtain ⟨x, hx, rfl⟩ := mem_of_end h
  simp only [LogQuery.keeps, Bool.and_eq_true, all_eq_true] at he
  simpa [test, (htimed _ hx).2 x rfl] using he.2.1 _ hx

variable (hmono : ∀ t u : TimePoint, t ≤ u → store.toLocal t ≤ store.toLocal u)
  (hbound : ∀ e ∈ store.daily, store.dailyFileStart ≤ e.time)

include hmono hbound

/-- Where the clocks are never put back and the daily log holds nothing before its bound, the time bounds leave out no
file they should not. -/
theorem covered_of_monotone : store.Covered q := by
  intro file hfile e he
  by_contra hkept
  rw [Bool.not_eq_false] at hkept
  rcases mem_append.mp hfile with hdaily | hday
  · cases hend : q.end_ with
    | none => simp [readLocal, hend] at hdaily
    | some t =>
      split_ifs at hdaily with hread
      · cases hdaily
      obtain rfl := mem_singleton.mp hdaily
      have hle : t ≤ store.dailyFileStart := by simpa [readLocal, hend] using hread
      exact absurd (lt_of_end htimed hend hkept) (not_lt.mpr (hle.trans (hbound e he)))
  · obtain ⟨a, ha, rfl⟩ := mem_map.mp hday
    obtain ⟨ha, hout⟩ := mem_filter.mp ha
    have hstart : q.start.elim true (fun t => store.floorDay t ≤ a.1) = true := by
      cases ht : q.start with
      | none => rfl
      | some t =>
        simp only [Option.elim, decide_eq_true_eq, ← store.own_day a ha e he]
        exact Int.ediv_le_ediv (by decide) (hmono _ _ (lt_of_start htimed ht hkept).le)
    have hend : q.end_.elim true (fun t => a.1 ≤ store.ceilDay t) = true := by
      cases ht : q.end_ with
      | none => rfl
      | some t =>
        have hle := hmono _ _ (lt_of_end htimed ht hkept).le
        simp only [Option.elim, decide_eq_true_eq, ← store.own_day a ha e he, ceilDay, dayLength]
        omega
    rw [inBounds, hstart, hend] at hout
    exact absurd hout (by decide)

omit htimed hbound

theorem time_lt_of_day_lt {a b : ℤ × List LogEntry} (ha : a ∈ store.archives.entries) (hb : b ∈ store.archives.entries)
    (hday : a.1 < b.1) {e f : LogEntry} (he : e ∈ a.2) (hf : f ∈ b.2) : e.time < f.time := by
  by_contra hle
  have hfloor := Int.ediv_le_ediv (by decide : 0 < dayLength) (hmono _ _ (not_lt.mp hle))
  rw [store.own_day a ha e he, store.own_day b hb f hf] at hfloor
  omega

theorem days_pairwise : (store.days q).Pairwise fun f g => ∀ a ∈ f, ∀ b ∈ g, a.time < b.time := by
  refine pairwise_map.mpr ((store.archives.sorted.filter _).imp_of_mem fun {a b} ha hb hday e he f hf => ?_)
  exact time_lt_of_day_lt hmono (mem_of_mem_filter ha) (mem_of_mem_filter hb) hday he hf

variable (hnewer : ∀ e ∈ store.daily, ∀ a ∈ store.archives.entries, ∀ f ∈ a.2, f.time < e.time)

include hnewer

/-- The daily log newer than every archive, as the read takes it, every file is read in its turn. -/
theorem inOrder_of_newer : store.InOrder q := by
  intro hby
  have htoday : ∀ f ∈ store.today q, f = store.daily := by
    rw [today]
    split_ifs <;> simp
  have hdays : ∀ f ∈ store.days q, ∃ a ∈ store.archives.entries, a.2 = f := by
    intro f hf
    obtain ⟨a, ha, rfl⟩ := mem_map.mp hf
    exact ⟨a, mem_of_mem_filter ha, rfl⟩
  have hone : (store.today q).Pairwise fun f g => ∀ a ∈ f, ∀ b ∈ g, q.le a b := by
    rw [today]
    split_ifs
    · exact pairwise_singleton _ _
    · exact List.Pairwise.nil
  have hall : (if q.timeAsc then store.days q ++ store.today q else store.today q ++ (store.days q).reverse).Pairwise
      fun f g => ∀ a ∈ f, ∀ b ∈ g, q.le a b := by
    split_ifs with hasc
    · refine pairwise_append.mpr ⟨(days_pairwise hmono).imp fun h a ha b hb => ?_, hone, ?_⟩
      · exact LogQuery.le_of_timeAsc hasc (h a ha b hb)
      · intro f hf g hg a ha b hb
        obtain ⟨day, hday, rfl⟩ := hdays f hf
        obtain rfl := htoday g hg
        exact LogQuery.le_of_timeAsc hasc (hnewer b hb day hday a ha)
    · have hdesc := Bool.not_eq_true _ ▸ hasc
      refine pairwise_append.mpr ⟨hone, pairwise_reverse.mpr ((days_pairwise hmono).imp fun h a ha b hb => ?_), ?_⟩
      · exact LogQuery.le_of_not_timeAsc hby hdesc (h b hb a ha)
      · intro f hf g hg a ha b hb
        obtain rfl := htoday f hf
        obtain ⟨day, hday, rfl⟩ := hdays g (mem_reverse.mp hg)
        exact LogQuery.le_of_not_timeAsc hby hdesc (hnewer a ha day hday b hb)
  exact pairwise_map.mpr (hall.imp fun h a ha b hb => h a (mem_of_mem_filter ha) b (mem_of_mem_filter hb))

include htimed hbound

/-- Every page within the machine's numbers is then one of the whole log. -/
theorem logs_isPage_of_newer (h : ¬ Wraps limit offset) :
    IsPage q.le limit offset (store.matching q) (store.logs q limit offset) := by
  have hcovered : store.Covered q := covered_of_monotone htimed hmono hbound
  cases hby : q.byTime with
  | false => exact isPage_of_not_byTime h hby hcovered
  | true =>
    have hordered := isPage_readUntil_iff q.sort_perm q.sort_pairwise (files_length_lt store q)
    have hpage := hordered.mpr (inOrder_of_newer hmono hnewer hby) limit offset (not_le.mp h)
    rw [logs_eq h]
    simpa only [hby, Bool.true_and] using (isPage_congr hcovered.perm).mp hpage

end Newer

/-- An entry that came to the daily log after its day was archived, with a newer one in it. -/
def late : LogEntry := { time := .ofNat 110 }

def newest : LogEntry := { time := .ofNat 150 }

def lateInDaily : Store where
  toLocal t := t.val
  dailyFileStart := .ofNat 110
  daily := [late]
  archives := OrdMap.empty.insert 0 [newest]
  own_day := by decide
  length_lt := by decide

def newestFirst : LogQuery where
  time := []
  iso _ := ""
  test _ := true
  hidden := []
  orderBy := [(.time, false)]

theorem lateInDaily_not_page : ¬ Wraps 1 0 ∧ lateInDaily.logs newestFirst 1 0 = [late] ∧
      ¬ IsPage newestFirst.le 1 0 (lateInDaily.matching newestFirst) (lateInDaily.logs newestFirst 1 0) := by
  refine ⟨by decide, by decide, ?_⟩
  rintro ⟨l, hl, hle, hpage⟩
  have hhead : l.take 1 = [late] := hpage.symm
  obtain ⟨rest, rfl⟩ : ∃ rest, l = late :: rest := by
    cases l with
    | nil => cases hhead
    | cons e rest =>
      cases hhead
      exact ⟨rest, rfl⟩
  have hnewest : newest ∈ rest := by
    have hmem : newest ∈ late :: rest := hl.mem_iff.mpr (by decide)
    exact (mem_cons.mp hmem).resolve_left (by decide)
  exact absurd (rel_of_pairwise_cons hle hnewest) (by decide)

def newestInDaily : Store where
  toLocal t := t.val
  dailyFileStart := .ofNat 110
  daily := [newest]
  archives := OrdMap.empty.insert 0 [late]
  own_day := by decide
  length_lt := by decide

/-- Of the entries before a time, the newest first. -/
def newestBefore : LogQuery :=
  { newestFirst with time := [.less ⟨"1970-01-01T00:00:00.0000002Z", .ofNat 200⟩] }

theorem newestInDaily_page : ¬ Wraps 1 0 ∧ newestInDaily.logs newestBefore 1 0 = [newest] ∧
    IsPage newestBefore.le 1 0 (newestInDaily.matching newestBefore) (newestInDaily.logs newestBefore 1 0) := by
  refine ⟨by decide, by decide +kernel, logs_isPage_of_newer ?_ (fun _ _ h => Int.ofNat_le.mpr h) (by decide)
    (by decide) (by decide)⟩
  intro c hc
  obtain rfl := mem_singleton.mp hc
  exact ⟨by simp [greater?], fun x hx => by cases hx; decide +kernel⟩

-- an entry flushed while its archiving round ran stands before the bound, and is not read
example : ¬ { newestInDaily with dailyFileStart := .ofNat 1000 : Store }.Covered newestBefore := by decide +kernel

end Store

end OpcHub.Log
