import Mathlib.Data.List.Basic
import Mathlib.Tactic.Ring
import OpcHub.Historian.Zone

/-! The pages of an at-time or a processed read: each ends by its limit, by its day or
within the nodes of one time or interval, and the next starts where it ended. A page
cut by its day ends at the bounds of the first time's date, so it is of that date alone
where no time between a date's bounds is of another. -/

namespace OpcHub.Historian

open List

variable {β : Type}

/-- How a read names its values. -/
inductive EMode where
  | atTime | processed
  deriving DecidableEq, Repr

/-- Where a read resumes: the first time or interval not done, and which of its nodes are. -/
structure Continuation where
  crc : ℕ
  next : ℕ
  counts : List ℕ
  deriving DecidableEq, Repr

/-- The continuation a request comes with; `foreign` is what doesn't parse. -/
inductive PageToken where
  | empty | foreign | of (c : Continuation)
  deriving DecidableEq, Repr

/-- A read but for its page: `count` times or intervals, each with a value for each node. -/
structure SlotRead (β : Type) where
  mode : EMode
  crc : ℕ
  nodes : ℕ
  count : ℕ
  time : ℕ → Ticks
  value : ℕ → ℕ → β

/-- What a request asks of its page. -/
structure PageRequest where
  limit : ℕ
  oneDay : Bool

structure Paging where
  limit : ℕ
  next : ℕ := 0
  had : ℕ → Bool := fun _ => false

/-- An earlier page returned the value of a slot. -/
def Paging.returned (p : Paging) (c : ℕ × ℕ) : Bool := c.1 == p.next && p.had c.2

namespace SlotRead

variable (r : SlotRead β)

def paging (readLimit limit : ℕ) : PageToken → Except String Paging
  | token =>
    let limit := if limit ≠ 0 ∧ limit < readLimit then limit else readLimit
    if r.nodes = 0 then .error "A read names no nodes."
    else match token with
      | .empty => .ok { limit }
      | .foreign => .error "The continuation isn't one of the historian's."
      | .of c =>
        if c.counts.length ≠ r.nodes ∨ r.count ≤ c.next then
          .error "The continuation isn't one of the historian's."
        else if c.crc ≠ r.crc then
          .error (match r.mode with
            | .atTime => "The continuation is for a an at-time read with other arguments."
            | .processed => "The continuation is for a a processed read with other arguments.")
        else .ok { limit, next := c.next, had := fun j => c.counts.getD j 0 != 0 }

/-- The last the page reaches, with `n` of them ahead: where its limit's values end. -/
def lastFrom (p : Paging) : ℕ → ℕ → ℕ
  | 0, _ => r.count - 1
  | n + 1, values =>
    let i := r.count - (n + 1)
    let values := values + (r.nodes - if i = p.next then (List.range r.nodes).countP p.had else 0)
    if p.limit ≤ values then i else lastFrom p n values

def last (p : Paging) : ℕ := r.lastFrom p (r.count - p.next) 0

/-- The end of the run whose times fall on the day of `next`, with `n` ahead of `last`. -/
def oneDayFrom (calendar : Calendar) (p : Paging) (last : ℕ) : ℕ → ℕ
  | 0 => last
  | n + 1 =>
    let i := last - n
    let day := calendar.dayOf (r.time p.next)
    if r.time i < calendar.startOf day ∨ calendar.startOf (day + 1) ≤ r.time i then i - 1
    else oneDayFrom calendar p last n

def oneDay (calendar : Calendar) (p : Paging) (last : ℕ) : ℕ := r.oneDayFrom calendar p last (last - p.next)

/-- The loop over the slots of each time or interval in turn: what was returned is passed over, and the page
is cut where it is full. -/
def emitLoop (p : Paging) : List (ℕ × ℕ) → List β → List β × Option (ℕ × ℕ)
  | [], out => (out, none)
  | c :: rest, out =>
    if p.returned c then emitLoop p rest out
    else if out.length = p.limit then (out, some c)
    else emitLoop p rest (out ++ [r.value c.1 c.2])

/-- The continuation at a cut: every slot before it is done by then. -/
def cut (i slot : ℕ) : PageToken :=
  .of { crc := r.crc, next := i, counts := (List.range r.nodes).map fun j => if j < slot then 1 else 0 }

def emit (p : Paging) (last : ℕ) : List β × PageToken :=
  match r.emitLoop p ((List.range' p.next (last + 1 - p.next)).flatMap fun i => (List.range r.nodes).map (i, ·)) [] with
  | (out, some (i, slot)) => (out, r.cut i slot)
  | (out, none) => (out, if last + 1 < r.count then r.cut (last + 1) 0 else .empty)

/-- The page of a request, and the continuation it returns. -/
def page (calendar : Calendar) (readLimit : ℕ) (request : PageRequest) (token : PageToken) :
    Except String (List β × PageToken) := do
  let p ← r.paging readLimit request.limit token
  let last := r.last p
  return r.emit p (if request.oneDay then r.oneDay calendar p last else last)

/-- The pages of the requests from the `j`th on, until one returns no continuation. -/
def follow (calendar : Calendar) (readLimit : ℕ) (requests : ℕ → PageRequest) : ℕ → ℕ → PageToken → Option (List (List β))
  | 0, _, _ => none
  | n + 1, j, token => match r.page calendar readLimit (requests j) token with
    | .error _ => none
    | .ok (values, token) =>
      if token = .empty then some [values]
      else (follow calendar readLimit requests n (j + 1) token).map (values :: ·)

/-! ### Positions -/

variable {r}

/-- The time or interval and the slot at a position, counted slot by slot. -/
def place (r : SlotRead β) (k : ℕ) : ℕ × ℕ := (k / r.nodes, k % r.nodes)

/-- The values from one position to another. -/
def cells (r : SlotRead β) (a b : ℕ) : List β := (List.range' a (b - a)).map fun k => r.value (r.place k).1 (r.place k).2

theorem length_cells (a b : ℕ) : (r.cells a b).length = b - a := by simp [cells]

theorem range'_split {a b c : ℕ} (hab : a ≤ b) (hbc : b ≤ c) :
    range' a (b - a) ++ range' b (c - b) = range' a (c - a) := by
  have := range'_append_1 (s := a) (m := b - a) (n := c - b)
  rwa [Nat.add_sub_cancel' hab, show b - a + (c - b) = c - a by omega] at this

theorem places_eq (hnodes : 0 < r.nodes) (a n : ℕ) :
    (range' a n).flatMap (fun i => (range r.nodes).map (i, ·)) =
      (range' (a * r.nodes) (n * r.nodes)).map r.place := by
  induction n generalizing a with
  | zero => simp
  | succ n ih =>
    rw [range'_succ, flatMap_cons, ih, Nat.succ_mul n, Nat.add_comm (n * r.nodes), ← range'_append_1,
      map_append, ← Nat.succ_mul, range'_eq_map_range (n := r.nodes), map_map]
    congr 1
    refine map_congr_left fun slot hslot => ?_
    have hslot := mem_range.1 hslot
    simp [place, Nat.mul_comm a, Nat.mul_add_div hnodes, Nat.div_eq_of_lt hslot, Nat.mod_eq_of_lt hslot]

variable {p : Paging} {n k : ℕ} {calendar : Calendar} {token : PageToken}

theorem lastFrom_bounds {values : ℕ} (h : p.next < r.count) (hn : n ≤ r.count - p.next) :
    p.next ≤ r.lastFrom p n values ∧ r.lastFrom p n values < r.count := by
  induction n generalizing values with
  | zero => simp only [lastFrom]; omega
  | succ n ih =>
    simp only [lastFrom]
    split_ifs
    · omega
    · exact ih (by omega)
    · omega
    · exact ih (by omega)

/-- The first's own time, or one between the starts of its date and the next. -/
def Within (calendar : Calendar) (first t : Ticks) : Prop := t = first ∨
  calendar.startOf (calendar.dayOf first) ≤ t ∧ t < calendar.startOf (calendar.dayOf first + 1)

theorem oneDayFrom_spec (calendar : Calendar) {last : ℕ} (h : p.next ≤ last) (hn : n ≤ last - p.next)
    (hd : ∀ i, p.next ≤ i → i ≤ last - n → Within calendar (r.time p.next) (r.time i)) :
    p.next ≤ r.oneDayFrom calendar p last n ∧ r.oneDayFrom calendar p last n ≤ last ∧
      ∀ i, p.next ≤ i → i ≤ r.oneDayFrom calendar p last n → Within calendar (r.time p.next) (r.time i) := by
  induction n with
  | zero => exact ⟨h, le_refl _, hd⟩
  | succ n ih =>
    simp only [oneDayFrom]
    split_ifs with ho
    · exact ⟨by omega, by omega, fun i h₀ h₁ => hd i h₀ (by omega)⟩
    · refine ih (by omega) fun i h₀ h₁ => ?_
      obtain hlt | rfl : i ≤ last - (n + 1) ∨ i = last - n := by omega
      · exact hd i h₀ hlt
      · rw [not_or, not_lt, not_le] at ho
        exact .inr ho

theorem emitLoop_eq (p : Paging) (l : List (ℕ × ℕ)) (out : List β) (ho : out.length ≤ p.limit) : r.emitLoop p l out =
      (out ++ ((l.filter fun c => !p.returned c).take (p.limit - out.length)).map (fun c => r.value c.1 c.2),
        ((l.filter fun c => !p.returned c).drop (p.limit - out.length)).head?) := by
  induction l generalizing out with
  | nil => simp [emitLoop]
  | cons c rest ih =>
    rw [emitLoop, filter_cons]
    cases p.returned c with
    | true => simpa using ih out ho
    | false =>
      by_cases hfull : out.length = p.limit
      · simp [hfull]
      · have hroom : p.limit - out.length = p.limit - (out ++ [r.value c.1 c.2]).length + 1 := by
          rw [length_append, length_singleton]
          omega
        rw [if_neg Bool.false_ne_true, if_neg hfull, ih _ (by rw [length_append]; exact ho.lt_of_ne hfull), hroom]
        simp

/-- A page goes on from a position: its row, and the slots before it. -/
def Paging.At (p : Paging) (r : SlotRead β) (k : ℕ) : Prop :=
  p.next = k / r.nodes ∧ ∀ slot < r.nodes, p.had slot = decide (slot < k % r.nodes)

/-- The continuation at a position. -/
def tokenAt (r : SlotRead β) (k : ℕ) : PageToken :=
  if k < r.count * r.nodes then r.cut (k / r.nodes) (k % r.nodes) else .empty

/-- What was returned of the page's rows is what stands before its position. -/
theorem Paging.At.returned_eq {x : ℕ} (hp : Paging.At p r k) (hnodes : 0 < r.nodes)
    (hx : p.next * r.nodes ≤ x) : p.returned (r.place x) = decide (x < k) := by
  have hk := Nat.div_add_mod' k r.nodes
  have hx' := Nat.div_add_mod' x r.nodes
  rw [← hp.1] at hk
  rw [Paging.returned, place, hp.2 _ (Nat.mod_lt _ hnodes)]
  by_cases hrow : x / r.nodes = p.next
  · rw [hrow] at hx' ⊢
    simp only [beq_self_eq_true, Bool.true_and, decide_eq_decide]
    omega
  · have hlt : p.next + 1 ≤ x / r.nodes := lt_of_le_of_ne ((Nat.le_div_iff_mul_le hnodes).2 hx) (Ne.symm hrow)
    have hle := Nat.mul_le_mul_right r.nodes hlt
    have hmod := Nat.mod_lt k hnodes
    rw [Nat.add_mul, Nat.one_mul] at hle
    rw [beq_eq_false_iff_ne.2 hrow, Bool.false_and, eq_comm, decide_eq_false_iff_not]
    omega

/-- A page holds what stands from its position on, as far as its limit or its last. -/
theorem emit_eq {last q : ℕ} (hp : Paging.At p r k) (hnodes : 0 < r.nodes) (hlast : p.next ≤ last)
    (hcount : last < r.count) (hq : q = min (k + p.limit) ((last + 1) * r.nodes)) :
    r.emit p last = (r.cells k q, r.tokenAt q) := by
  have hdiv := Nat.div_add_mod' k r.nodes
  rw [← hp.1] at hdiv
  have hk : k < (last + 1) * r.nodes := (Nat.div_lt_iff_lt_mul hnodes).1 (by have := hp.1; omega)
  have hrows : p.next * r.nodes + (last + 1 - p.next) * r.nodes = (last + 1) * r.nodes := by
    rw [← Nat.add_mul, Nat.add_sub_cancel' (by omega)]
  have hfresh : ((range' (p.next * r.nodes) ((last + 1 - p.next) * r.nodes)).map r.place).filter
      (fun c => !p.returned c) = (range' k ((last + 1) * r.nodes - k)).map r.place := by
    have hsplit := range'_split (a := p.next * r.nodes) (b := k) (c := (last + 1) * r.nodes) (by omega) (by omega)
    rw [show (last + 1) * r.nodes - p.next * r.nodes = (last + 1 - p.next) * r.nodes by omega] at hsplit
    rw [← hsplit, map_append, filter_append, filter_eq_nil_iff.2, filter_eq_self.2, nil_append]
    · intro c hc
      obtain ⟨x, hx, rfl⟩ := mem_map.1 hc
      rw [mem_range'_1] at hx
      rw [hp.returned_eq hnodes (by omega)]
      simp [hx.1]
    · intro c hc
      obtain ⟨x, hx, rfl⟩ := mem_map.1 hc
      rw [mem_range'_1] at hx
      rw [hp.returned_eq hnodes hx.1]
      simp
      omega
  have htop : (last + 1) * r.nodes ≤ r.count * r.nodes := Nat.mul_le_mul_right _ hcount
  rw [emit, places_eq hnodes, emitLoop_eq p _ [] (Nat.zero_le _), hfresh, ← map_take, ← map_drop,
    drop_range', head?_map, head?_range', length_nil, Nat.sub_zero, Nat.mul_one]
  by_cases hcut : k + p.limit < (last + 1) * r.nodes
  · obtain rfl : q = k + p.limit := by omega
    rw [if_neg (by omega), ← range'_split (Nat.le_add_right k p.limit) hcut.le, take_left' (by simp)]
    simp [cells, tokenAt, hcut.trans_le htop, place]
  · obtain rfl : q = (last + 1) * r.nodes := by omega
    rw [if_pos (by omega), take_of_length_le (by rw [length_range']; omega)]
    simp [cells, tokenAt, place, hnodes]

theorem paging_at (readLimit limit : ℕ) (ht : token = r.tokenAt k ∨ k = 0 ∧ token = .empty)
    (hk : k < r.count * r.nodes) : ∃ p, r.paging readLimit limit token = .ok p ∧ Paging.At p r k ∧
      p.limit = if limit ≠ 0 ∧ limit < readLimit then limit else readLimit := by
  have hnodes : r.nodes ≠ 0 := by rintro h; rw [h] at hk; omega
  obtain rfl | ⟨rfl, rfl⟩ := ht
  · have hnext : ¬ r.count ≤ k / r.nodes := by
      rw [Nat.le_div_iff_mul_le (by omega)]
      omega
    simp only [paging, if_neg hnodes, tokenAt, if_pos hk, cut, length_map, length_range, hnext, ne_eq,
      not_true, or_self, ↓reduceIte]
    exact ⟨_, rfl, ⟨rfl, fun slot hslot => by
      simp [hslot]
      split_ifs <;> simp_all⟩, rfl⟩
  · simp only [paging, if_neg hnodes]
    exact ⟨_, rfl, ⟨(Nat.zero_div _).symm, fun slot _ => by simp⟩, rfl⟩

/-- What a page of a request holds. -/
structure Holds (r : SlotRead β) (calendar : Calendar) (readLimit : ℕ) (request : PageRequest) (page : List β) : Prop where
  nonempty : page ≠ []
  length_le : page.length ≤ if request.limit ≠ 0 ∧ request.limit < readLimit then request.limit else readLimit
  oneDay : request.oneDay → ∃ first, ∀ v ∈ page, ∃ i slot, Within calendar first (r.time i) ∧ v = r.value i slot

/-- The values of slots on one day. -/
def OnOneDay (r : SlotRead β) (calendar : Calendar) (page : List β) : Prop :=
  ∃ day, ∀ v ∈ page, ∃ i slot, calendar.dayOf (r.time i) = day ∧ v = r.value i slot

theorem page_spec (calendar : Calendar) (request : PageRequest) {readLimit : ℕ}
    (ht : token = r.tokenAt k ∨ k = 0 ∧ token = .empty) (hk : k < r.count * r.nodes) (hlimit : 0 < readLimit) :
    ∃ q, k < q ∧ q ≤ r.count * r.nodes ∧ r.page calendar readLimit request token = .ok (r.cells k q, r.tokenAt q) ∧
      Holds r calendar readLimit request (r.cells k q) := by
  obtain ⟨p, hp, hat, hl⟩ := paging_at readLimit request.limit ht hk
  have hnodes : 0 < r.nodes := Nat.pos_of_mul_pos_left (Nat.zero_lt_of_lt hk)
  obtain ⟨hle, hlt⟩ : p.next ≤ r.last p ∧ r.last p < r.count := lastFrom_bounds
    (by rw [hat.1]; exact (Nat.div_lt_iff_lt_mul hnodes).2 hk) (le_refl _)
  obtain ⟨hle', hlt', hday⟩ := oneDayFrom_spec calendar hle (le_refl _)
    fun i h₀ h₁ => .inl (by rw [show i = p.next by omega])
  -- the page's last, by its day or its limit alone
  obtain ⟨last, hlast, h₀, h₁, hd⟩ : ∃ last,
      last = (if request.oneDay then r.oneDay calendar p (r.last p) else r.last p) ∧ p.next ≤ last ∧ last < r.count ∧
        (request.oneDay → ∀ i, p.next ≤ i → i ≤ last → Within calendar (r.time p.next) (r.time i)) := by
    refine ⟨_, rfl, ?_⟩
    split_ifs with ho
    · exact ⟨hle', hlt'.trans_lt hlt, fun _ => hday⟩
    · exact ⟨hle, hlt, fun h => absurd h ho⟩
  have htop : (last + 1) * r.nodes ≤ r.count * r.nodes := Nat.mul_le_mul_right _ h₁
  have hk' : k < (last + 1) * r.nodes := (Nat.div_lt_iff_lt_mul hnodes).1 (by have := hat.1; omega)
  have hpos : 0 < p.limit := by rw [hl]; split_ifs <;> omega
  refine ⟨min (k + p.limit) ((last + 1) * r.nodes), by omega, by omega, ?_, ?_, ?_, fun ho => ⟨r.time p.next, fun v hv => ?_⟩⟩
  · rw [page, hp, ← emit_eq hat hnodes h₀ h₁ rfl, hlast]
    rfl
  · rw [← length_pos_iff, length_cells]
    omega
  · rw [length_cells, ← hl]
    omega
  · obtain ⟨x, hx, rfl⟩ := mem_map.1 hv
    rw [mem_range'_1] at hx
    refine ⟨_, _, hd ho _ ?_ ?_, rfl⟩
    · exact hat.1.trans_le (Nat.div_le_div_right hx.1)
    · have : x < (last + 1) * r.nodes := by omega
      exact Nat.lt_succ_iff.1 ((Nat.div_lt_iff_lt_mul hnodes).2 this)

theorem follow_spec (calendar : Calendar) (requests : ℕ → PageRequest) {readLimit j : ℕ} (hlimit : 0 < readLimit)
    (ht : token = r.tokenAt k ∨ k = 0 ∧ token = .empty) (hk : k < r.count * r.nodes)
    (hn : r.count * r.nodes - k ≤ n) : ∃ pages, r.follow calendar readLimit requests n j token = some pages ∧
      pages.flatten = r.cells k (r.count * r.nodes) ∧
      ∀ l page, pages[l]? = some page → Holds r calendar readLimit (requests (j + l)) page := by
  induction n generalizing j k token with
  | zero => omega
  | succ n ih =>
    obtain ⟨q, hkq, hq, he, hpage⟩ := page_spec calendar (requests j) ht hk hlimit
    by_cases hend : q < r.count * r.nodes
    · obtain ⟨pages, hf, hflat, hall⟩ := ih (j := j + 1) (.inl rfl) hend (by omega)
      refine ⟨r.cells k q :: pages, ?_, ?_, ?_⟩
      · simp only [follow, he]
        rw [if_neg (by simp [tokenAt, hend, cut]), hf, Option.map_some]
      · rw [flatten_cons, hflat, cells, cells, cells, ← map_append, range'_split hkq.le hq]
      · rintro (_ | l) page hl
        · cases hl
          exact hpage
        · rw [Nat.add_comm l, ← Nat.add_assoc]
          exact hall l page hl
    · obtain rfl : q = r.count * r.nodes := le_antisymm hq (not_lt.1 hend)
      refine ⟨[r.cells k (r.count * r.nodes)], ?_, flatten_singleton, ?_⟩
      · simp only [follow, he, tokenAt, if_neg hend, ↓reduceIte]
      · rintro (_ | l) page hl <;> cases hl
        exact hpage

end SlotRead

/-- No time between the starts of a date and the next is of another date. -/
def Calendar.Whole (calendar : Calendar) : Prop := ∀ t u, calendar.startOf (calendar.dayOf t) ≤ u →
  u < calendar.startOf (calendar.dayOf t + 1) → calendar.dayOf u = calendar.dayOf t

namespace SlotRead

theorem Holds.onOneDay {calendar : Calendar} {r : SlotRead β} {readLimit : ℕ} {request : PageRequest} {page : List β}
    (h : Holds r calendar readLimit request page) (hwhole : calendar.Whole) (hday : request.oneDay) :
    OnOneDay r calendar page := by
  obtain ⟨first, hfirst⟩ := h.oneDay hday
  refine ⟨calendar.dayOf first, fun v hv => ?_⟩
  obtain ⟨i, slot, hin, rfl⟩ := hfirst v hv
  refine ⟨i, slot, ?_, rfl⟩
  rcases hin with heq | ⟨hle, hlt⟩
  · rw [heq]
  · exact hwhole first _ hle hlt

/-- One node at two times. -/
def pair (t u : Ticks) : SlotRead ℕ where
  mode := .atTime
  crc := 0
  nodes := 1
  count := 2
  time i := if i = 0 then t else u
  value i _ := i

/-- A time within the other's day goes with it on one page. -/
theorem pair_follow {calendar : Calendar} {t u : Ticks} (hle : calendar.startOf (calendar.dayOf t) ≤ u)
    (hlt : u < calendar.startOf (calendar.dayOf t + 1)) :
    (pair t u).follow calendar 2 (fun _ => ⟨0, true⟩) 2 0 .empty = some [[0, 1]] := by
  have hpaging : (pair t u).paging 2 0 .empty = .ok { limit := 2 } := rfl
  have hlast : (pair t u).last { limit := 2 } = 1 := rfl
  have hday : (pair t u).oneDay calendar { limit := 2 } 1 = 1 := by
    have hin : ¬ ((pair t u).time 1 < calendar.startOf (calendar.dayOf ((pair t u).time 0)) ∨
        calendar.startOf (calendar.dayOf ((pair t u).time 0) + 1) ≤ (pair t u).time 1) :=
      not_or.mpr ⟨not_lt.mpr hle, not_le.mpr hlt⟩
    simp only [oneDay, oneDayFrom, Nat.sub_zero, hin, if_false]
  have hpage : (pair t u).page calendar 2 ⟨0, true⟩ .empty = .ok ([0, 1], .empty) := by
    rw [page, hpaging]
    simp only [bind, Except.bind, hlast, if_true, hday]
    rfl
  simp only [follow, hpage, if_true]

/-- Following the continuations ends, with one value for each slot and node in order, in pages that are not
empty and hold what their limits allow. Those cut by their day are each of one day, for every read, exactly if no
time between the starts of a date and the next is of another. -/
theorem follow_returns_each_once_iff (calendar : Calendar) :
    (∀ (β : Type) (r : SlotRead β) (readLimit : ℕ) (requests : ℕ → PageRequest), 0 < readLimit → 0 < r.nodes →
      0 < r.count → ∃ pages, r.follow calendar readLimit requests (r.count * r.nodes) 0 .empty = some pages ∧
        pages.flatten = (List.range r.count).flatMap (fun i => (List.range r.nodes).map (r.value i)) ∧
        ∀ j page, pages[j]? = some page → Holds r calendar readLimit (requests j) page) ∧
    ((∀ (β : Type) (r : SlotRead β) (readLimit : ℕ) (requests : ℕ → PageRequest), 0 < readLimit → 0 < r.nodes →
      0 < r.count → ∀ pages, r.follow calendar readLimit requests (r.count * r.nodes) 0 .empty = some pages →
        ∀ j page, pages[j]? = some page → (requests j).oneDay → OnOneDay r calendar page) ↔ calendar.Whole) := by
  have hfollow : ∀ (β : Type) (r : SlotRead β) (readLimit : ℕ) (requests : ℕ → PageRequest), 0 < readLimit →
      0 < r.nodes → 0 < r.count →
      ∃ pages, r.follow calendar readLimit requests (r.count * r.nodes) 0 .empty = some pages ∧
        pages.flatten = (List.range r.count).flatMap (fun i => (List.range r.nodes).map (r.value i)) ∧
        ∀ j page, pages[j]? = some page → Holds r calendar readLimit (requests j) page := by
    intro β r readLimit requests hlimit hnodes hcount
    obtain ⟨pages, hf, hflat, hall⟩ := follow_spec calendar requests (j := 0) hlimit
      (.inr ⟨rfl, rfl⟩) (Nat.mul_pos hcount hnodes) (Nat.sub_le _ _)
    refine ⟨pages, hf, ?_, fun j => by simpa using hall j⟩
    have hplaces := congrArg (List.map fun c => r.value c.1 c.2) (places_eq hnodes 0 r.count)
    simp only [Nat.zero_mul, map_map, map_flatMap] at hplaces
    rw [hflat, cells, Nat.sub_zero, range_eq_range' (n := r.count)]
    exact hplaces.symm
  refine ⟨hfollow, fun h t u hle hlt => ?_, fun hwhole β r readLimit requests hlimit hnodes hcount pages hpages j
    page hpage hday => ?_⟩
  · obtain ⟨day, hpage⟩ := h ℕ (pair t u) 2 (fun _ => ⟨0, true⟩) two_pos one_pos two_pos _
      (pair_follow hle hlt) 0 _ rfl rfl
    obtain ⟨i, -, ht, rfl⟩ := hpage 0 (by simp)
    obtain ⟨j, -, hu, rfl⟩ := hpage 1 (by simp)
    exact hu.trans ht.symm
  · obtain ⟨pages', hpages', -, hall⟩ := hfollow β r readLimit requests hlimit hnodes hcount
    cases hpages.symm.trans hpages'
    exact (hall j page hpage).onOneDay hwhole hday

/-- Two times of one page by day, half a minute past midnight and two minutes later, when clocks put back have it
the day before again. -/
theorem clocksBack_twoDays : ∃ page : List ℕ,
    (pair (tickOf 8640030) (tickOf 8640150)).follow ⟨clocksBack.startOf, clocksBack.dayOf⟩ 2 (fun _ => ⟨0, true⟩) 2 0 .empty =
        some [page] ∧
      ¬ OnOneDay (pair (tickOf 8640030) (tickOf 8640150)) ⟨clocksBack.startOf, clocksBack.dayOf⟩ page := by
  refine ⟨[0, 1], by decide, ?_⟩
  rintro ⟨day, hpage⟩
  obtain ⟨i, -, ht, rfl⟩ := hpage 0 (by simp)
  obtain ⟨j, -, hu, rfl⟩ := hpage 1 (by simp)
  exact absurd (hu.trans ht.symm) (by decide)

end SlotRead

end OpcHub.Historian
