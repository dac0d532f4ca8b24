import OpcHub.Records.Reader

/-! Recovery from a crash. A live file is made of appends, the first with its
opening; a crash cuts it at any byte, and may leave zero bytes past the cut. The
first-open scan keeps the whole runs the file begins with, the cut drops the
rest, and the next appends go on from there: unless zero bytes made a frame of a
torn FileStart, which the scan takes for the start of another program's file. -/

namespace OpcHub.Records

open List Appender

variable {T : Type*}

/-- One append to a file, with what opens the file if nothing is kept of it. -/
structure Append (T : Type*) where
  opening : Opening T
  run : List T

/-- An append of records its owner writes, to a live file. -/
structure Append.Writes (o : Owner T) (x : Append T) : Prop where
  range : x.opening.start.InRange
  live : x.opening.start.generation = 0
  own_opening : ∀ r ∈ x.opening.prologue ++ x.opening.records, o.own r
  own_run : ∀ r ∈ x.run, o.own r

/-- An append at a file's size and chain; a file with nothing kept opens with its FileStart. -/
def Built.append (o : Traits T) (file : Built T) (x : Append T) : Built T :=
  file.after (buildAppend o file.bytes.length file.chain (if file.bytes = [] then some x.opening else none) x.run)

def appendAll (o : Traits T) (xs : List (Append T)) (file : Built T) : Built T := xs.foldl (Built.append o) file

section Appends

variable {o : Traits T} {f : FileStart} {first : List T} {rest : List (List T)}

theorem lay_bytes_ne_nil (o : Traits T) (f : FileStart) (first : List T) (rest : List (List T)) :
    (lay o (liveParts f first rest)).bytes ≠ [] := by
  obtain ⟨more, hbytes⟩ := lay_start o f first rest
  have hpos := varintSize32_pos (makeTag o.startField)
  rw [← hbytes, ← length_pos_iff, length_append, encodeStart, Cursor.frame_length]
  omega

theorem append_lay (x : Append T) :
    (lay o (liveParts f first rest)).append o x = lay o (liveParts f first (rest ++ [x.run])) := by
  have hparts : liveParts f first (rest ++ [x.run]) = liveParts f first rest ++ partsOf none x.run := by
    simp [liveParts, partsOf]
  rw [Built.append, if_neg (lay_bytes_ne_nil o f first rest), hparts, lay_append]

theorem append_empty (x : Append T) : ({} : Built T).append o x =
      lay o (liveParts x.opening.start (x.opening.prologue ++ x.opening.records) [x.run]) := by
  rfl

theorem appendAll_lay (xs : List (Append T)) :
    appendAll o xs (lay o (liveParts f first rest)) = lay o (liveParts f first (rest ++ xs.map Append.run)) := by
  induction xs generalizing rest with
  | nil => simp [appendAll]
  | cons x xs ih =>
    have hstep : appendAll o xs (lay o (liveParts f first (rest ++ [x.run]))) = _ := ih
    rw [appendAll, foldl_cons, append_lay]
    rwa [append_assoc] at hstep

/-- The runs of a file's appends. -/
def Append.parts (x : Append T) (xs : List (Append T)) : List (Piece T) :=
  liveParts x.opening.start (x.opening.prologue ++ x.opening.records) (x.run :: xs.map Append.run)

theorem appendAll_eq (x : Append T) (xs : List (Append T)) : appendAll o (x :: xs) {} = lay o (Append.parts x xs) := by
  rw [appendAll, foldl_cons, append_empty]
  exact appendAll_lay xs

theorem Append.writable {o : Owner T} {x : Append T} {xs : List (Append T)} (h : ∀ y ∈ x :: xs, y.Writes o) :
    Writable o x.opening.start (x.opening.prologue ++ x.opening.records) (x.run :: xs.map Append.run) := by
  have hx := h x mem_cons_self
  refine ⟨hx.range, hx.live, hx.own_opening, fun records hrecords => ?_⟩
  obtain rfl | hmem := mem_cons.mp hrecords
  · exact hx.own_run
  · obtain ⟨y, hy, rfl⟩ := mem_map.mp hmem
    exact (h y (mem_cons_of_mem _ hy)).own_run

end Appends

/-- The records of a run an appender whose state stands at `chain` takes: one no frame holds is left out,
and the run goes on without it. -/
def Traits.kept (o : Traits T) : ℤ → List T → List T
  | _, [] => []
  | chain, r :: rs => if refuses o (o.toDisk r chain).1 then kept o chain rs else r :: kept o (o.toDisk r chain).2 rs

/-- The state after a run. -/
def Traits.chainAfter (o : Traits T) : ℤ → List T → ℤ
  | chain, [] => chain
  | chain, r :: rs => chainAfter o (if refuses o (o.toDisk r chain).1 then chain else (o.toDisk r chain).2) rs

/-- What runs laid one after the other hold of the records given for each. -/
def heldRuns (o : Traits T) : ℤ → List (List T) → List (List T)
  | _, [] => []
  | chain, rs :: rest => o.kept chain rs :: heldRuns o (o.chainAfter chain rs) rest

section Held

variable {o : Owner T} {f : FileStart} {first : List T} {rest : List (List T)}

theorem heldRuns_concat (o : Traits T) (chain : ℤ) (runs : List (List T)) (rs : List T) :
    heldRuns o chain (runs ++ [rs]) = heldRuns o chain runs ++
      [o.kept (runs.foldl o.chainAfter chain) rs] := by
  induction runs generalizing chain with
  | nil => rfl
  | cons run runs ih => rw [cons_append, heldRuns, heldRuns, ih, foldl_cons, cons_append]

theorem foldl_tryAdd_noted {rs : List T} (hown : ∀ r ∈ rs, o.own r) (a : Appender T) :
    (rs.foldl (tryAdd o) a).noted = a.noted ++ o.kept a.chain rs ∧
      (rs.foldl (tryAdd o) a).chain = o.chainAfter a.chain rs := by
  induction rs generalizing a with
  | nil => simp [Traits.kept, Traits.chainAfter]
  | cons r rs ih =>
    have hmemory := o.toMemory_toDisk r a.chain (hown r mem_cons_self)
    have hstep := ih (fun r hr => hown r (mem_cons_of_mem _ hr)) (a.tryAdd o r)
    rw [foldl_cons, hstep.1, hstep.2, Traits.kept, Traits.chainAfter]
    by_cases hrefuses : refuses o (o.toDisk r a.chain).1 = true <;> simp [tryAdd, hrefuses, hmemory]

theorem lay_noted (h : Writable o f first rest) : (lay o (liveParts f first rest)).noted =
        heldRuns o (o.toDisk (o.setStart f) 0).2 (first :: rest) ∧
      (lay o (liveParts f first rest)).chain =
        (first :: rest).foldl o.chainAfter (o.toDisk (o.setStart f) 0).2 := by
  induction rest using reverseRecOn with
  | nil =>
    have hfirst := foldl_tryAdd_noted h.own_first (({ chain := 0 } : Appender T).start o f)
    exact ⟨congrArg (fun l => [l]) hfirst.1, hfirst.2⟩
  | append_singleton rest records ih =>
    obtain ⟨hnoted, hchain⟩ := ih (h.of_subset (subset_append_left _ _))
    have hrun := foldl_tryAdd_noted (h.own_rest records (by simp))
      ({ chain := (lay o (liveParts f first rest)).chain } : Appender T)
    rw [lay_cons, Built.add_noted, Built.add_chain, hnoted, ← cons_append, heldRuns_concat, ← hchain,
      foldl_append, ← hchain]
    exact ⟨congrArg (fun l => heldRuns _ _ _ ++ [l]) hrun.1, hrun.2⟩

end Held

section Whole

variable {o : Traits T} {file : Bytes}

theorem whole_prefix (parts : List (Piece T)) {b : Built T} (hb : b.bytes <+: file) : (whole o file parts b).bytes <+: file := by
  induction parts generalizing b with
  | nil => exact hb
  | cons part parts ih =>
    rw [whole]
    split
    · exact ih ‹_›
    · exact hb

theorem whole_lay (f : FileStart) (first : List T) (done rest : List (List T)) :
    ∃ n, whole o file (rest.map fun records => ⟨none, records⟩) (lay o (liveParts f first done)) =
      lay o (liveParts f first (done ++ rest.take n)) := by
  induction rest generalizing done with
  | nil => exact ⟨0, by simp [whole]⟩
  | cons records rest ih =>
    rw [map_cons, whole, ← lay_cons]
    split
    · obtain ⟨n, hn⟩ := ih (done ++ [records])
      exact ⟨n + 1, by rw [hn, take_succ_cons, append_assoc, singleton_append]⟩
    · exact ⟨0, by simp⟩

theorem whole_cases (f : FileStart) (first : List T) (rest : List (List T)) :
    whole o file (liveParts f first rest) {} = {} ∨
      ∃ n, whole o file (liveParts f first rest) {} = lay o (liveParts f first (rest.take n)) := by
  rw [liveParts, whole]
  split
  · exact .inr (whole_lay f first [] rest)
  · exact .inl rfl

end Whole

section Opens

variable {o : Owner T}

theorem opens_zeros (z : ℕ) : Opens o.toTraits (replicate z 0) := by
  intro bytes e hpre he hstop
  have hbytes : ∃ n, bytes = replicate n 0 := ⟨bytes.length, by
    rw [eq_replicate_iff]
    exact ⟨rfl, fun b hb => eq_of_mem_replicate (hpre.subset hb)⟩⟩
  obtain ⟨n, rfl⟩ := hbytes
  cases n with
  | zero =>
    cases he
    simp at hstop
  | succ n =>
    cases he
    simp at hstop

/-- A tag, a length a FileStart can have, and any bytes. -/
theorem opens_short {file : Bytes} (hfile : ∀ b, file.head? = some b → b = UInt8.ofNat (makeTag o.startField))
    (hlength : ∀ b ∈ file.tail.head?, b.toNat ≤ 22) : Opens o.toTraits file := by
  intro bytes e hpre he hstop
  obtain ⟨more, rfl⟩ := hpre
  match bytes with
  | [] =>
    cases he
    simp at hstop
  | [b] =>
    obtain rfl := hfile b rfl
    rw [next_tag o.start_pos o.start_lt] at he
    cases he
    exact ⟨rfl, by decide⟩
  | b :: n :: bytes =>
    obtain rfl := hfile b rfl
    have hn := hlength n rfl
    have hnat : n = UInt8.ofNat n.toNat := by simp
    rw [hnat, next_short o.start_pos o.start_lt (by omega)] at he
    split at he
    · cases he
      refine ⟨rfl, ?_⟩
      dsimp only
      unfold maxStartFrame
      omega
    · simp at he

/-- A live file is never judged too soon, wherever it is cut. -/
theorem opens_cut (o : Owner T) (f : FileStart) (more : Bytes) (c z : ℕ) :
    Opens o.toTraits ((encodeStart o.startField f ++ more).take c ++ replicate z 0) := by
  have hbody := startBody_length_le f.checked
  have hstart : encodeStart o.startField f = UInt8.ofNat (makeTag o.startField) ::
      UInt8.ofNat (startBody f.checked).length :: startBody f.checked :=
    frame_eq o.start_lt (show (startBody f.checked).length < 128 by omega)
  match c with
  | 0 => exact opens_zeros z
  | 1 =>
    rw [hstart]
    refine opens_short (by simp) ?_
    cases z <;> simp [replicate_succ]
  | c + 2 =>
    rw [hstart]
    refine opens_short (by simp) ?_
    simp
    omega

end Opens

/-- What recovering a file comes to: its scan keeps the runs of `kept` and nothing else, the cut leaves
their bytes, and a file appended to from there reads as those runs and the new ones. -/
structure Recovered (o : Owner T) (consumes : Bool) (window : ℕ → ℕ) (sealedWindow : ℕ) (file : Bytes) (f : FileStart)
    (kept : Built T) (p : Progress T) : Prop where
  keeps : Keeps o file.length f kept p
  keep : p.y.keep = false
  cut : ∃ y, truncate file p.y.toScanned = .ok (kept.bytes, y)
  appended : ∀ more : List (Append T), (∀ x ∈ more, x.Writes o) →
    let grown := appendAll o more
      { bytes := kept.bytes, chain := p.y.chain, runs := p.y.runs, noted := kept.noted }
    ∃ g q, scan o consumes window sealedWindow grown.bytes = .ok q ∧
      Keeps o grown.bytes.length g grown q

section Recover

variable {o : Owner T} {consumes : Bool} {window : ℕ → ℕ} {sealedWindow : ℕ} {f : FileStart} {first : List T}
  {rest : List (List T)} {file : Bytes}

/-- A sealed append takes a byte and its checkpoint at least. -/
theorem SealedAppend.lt_length {field size s q : ℕ} (h : SealedAppend field file size s q) :
    size + checkpointBytes < file.length := by
  obtain ⟨-, hroom, -⟩ := occursAt_checkpoint.mp h.checkpoint
  have := h.nonempty
  obtain hs | ⟨hs, -⟩ := h.start <;> omega

variable {p : Progress T} {kept : Built T}

theorem Keeps.dropped {fileSize : ℕ} {b : Built T} (h : Keeps o fileSize f b p) :
    Keeps o fileSize f b { p with decoder := p.decoder.dropped } :=
  ⟨h.y, h.proved⟩

theorem lay_noted_ne_nil (o : Traits T) (f : FileStart) (first : List T) (rest : List (List T)) :
    (lay o (liveParts f first rest)).noted ≠ [] := by
  induction rest using reverseRecOn with
  | nil => simp [lay, liveParts]
  | append_singleton rest records ih => simp [lay_cons]

theorem frames_nil (o : Traits T) (consumes : Bool) (p : Progress T) : p.frames o consumes [] = p.stopped .end :=
  frames_of_error (e := ⟨.end, 0⟩) rfl

theorem scan_lay (h : Writable o f first rest) (consumes : Bool) (hwindow : ∀ n, 0 < window n) (hsealed : 0 < sealedWindow) :
    ∃ p, scan o consumes window sealedWindow (lay o (liveParts f first rest)).bytes = .ok p ∧
      Keeps o (lay o (liveParts f first rest)).bytes.length f
        (lay o (liveParts f first rest)) p ∧ p.y.stop = .end := by
  obtain ⟨more, hbytes⟩ := lay_start o f first rest
  have hopens := opens_cut o f more (lay o (liveParts f first rest)).bytes.length 0
  rw [hbytes, take_length, replicate_zero, append_nil] at hopens
  have hframes : (Progress.fresh _).frames o.toTraits consumes (_ ++ []) = _ :=
    frames_lay h (lay o (liveParts f first rest)).bytes.length []
  rw [append_nil, frames_nil] at hframes
  refine ⟨_, scan_eq hopens hwindow hsealed hframes rfl rfl fun s q hs => ?_, Keeps.dropped ?_, rfl⟩
  · exact Nat.not_lt.mpr (Nat.le_add_right _ _) hs.lt_length
  · exact Keeps.of_kept (lay_noted_ne_nil _ _ _ _) (Base.kept_stopped rfl rfl (Nat.zero_le _) _)

theorem scan_nil (o : Owner T) (consumes : Bool) (hwindow : ∀ n, 0 < window n) (hsealed : 0 < sealedWindow)
    (f : FileStart) :
    ∃ p, scan o consumes window sealedWindow [] = .ok p ∧ Keeps o.toTraits 0 f {} p :=
  ⟨_, scan_eq (opens_zeros 0) hwindow hsealed (frames_nil _ _ _) rfl rfl fun _ _ hs =>
    Nat.not_lt_zero _ hs.lt_length, Keeps.dropped ⟨rfl, rfl⟩⟩

/-- A file appended to from what a scan kept reads as what was kept and what was appended. -/
theorem scan_grown
    (hkept : kept = {} ∨ ∃ rest, Writable o f first rest ∧ kept = lay o (liveParts f first rest))
    (hwindow : ∀ n, 0 < window n) (hsealed : 0 < sealedWindow) {more : List (Append T)} (hmore : ∀ x ∈ more, x.Writes o) :
    ∃ g q, scan o consumes window sealedWindow (appendAll o more kept).bytes = .ok q ∧
      Keeps o (appendAll o more kept).bytes.length g (appendAll o more kept) q := by
  obtain rfl | ⟨rest, h, rfl⟩ := hkept
  · cases more with
    | nil =>
      obtain ⟨q, hq, hkeeps⟩ := scan_nil o consumes hwindow hsealed f
      exact ⟨f, q, hq, hkeeps⟩
    | cons x xs =>
      obtain ⟨q, hq, hkeeps, -⟩ := scan_lay (Append.writable hmore) consumes hwindow hsealed
      rw [appendAll_eq]
      exact ⟨_, q, hq, hkeeps⟩
  · have hrest : Writable o f first (rest ++ more.map Append.run) := by
      refine ⟨h.range, h.live, h.own_first, fun records hrecords => ?_⟩
      obtain hmem | hmem := mem_append.mp hrecords
      · exact h.own_rest records hmem
      · obtain ⟨x, hx, rfl⟩ := mem_map.mp hmem
        exact (hmore x hx).own_run
    obtain ⟨q, hq, hkeeps, -⟩ := scan_lay hrest consumes hwindow hsealed
    rw [appendAll_lay]
    exact ⟨f, q, hq, hkeeps⟩

theorem truncate_of_keeps (h : Keeps o file.length f kept p)
    (hpre : kept.bytes <+: file) (hkeep : p.y.keep = false) :
    ∃ y, truncate file p.y.toScanned = .ok (kept.bytes, y) := by
  have hsize : p.y.size = kept.bytes.length := by rw [h.y]
  have hfile : p.y.fileSize = file.length := by rw [h.y]
  have htake : file.take kept.bytes.length = kept.bytes := (prefix_iff_eq_take.mp hpre).symm
  rw [truncate, hkeep, hsize, hfile]
  simp only [Bool.false_eq_true, if_false, ne_eq, not_true_eq_false]
  split
  · rename_i hwhole
    rw [hwhole, take_length] at htake
    exact ⟨_, by rw [htake]⟩
  · exact ⟨_, by rw [htake]⟩

theorem Keeps.recovered (h : Keeps o file.length f kept p)
    (hpre : kept.bytes <+: file) (hkeep : p.y.keep = false)
    (hkept : kept = {} ∨ ∃ rest, Writable o f first rest ∧ kept = lay o (liveParts f first rest))
    (hwindow : ∀ n, 0 < window n) (hsealed : 0 < sealedWindow) :
    Recovered o consumes window sealedWindow file f kept p := by
  refine ⟨h, hkeep, truncate_of_keeps h hpre hkeep, fun more hmore => ?_⟩
  have hchain : p.y.chain = kept.chain := by rw [h.y]
  have hruns : p.y.runs = kept.runs := by rw [h.y]
  rw [hchain, hruns]
  exact scan_grown hkept hwindow hsealed hmore

/-- A scan that stops at no other program's start is recovered from. -/
theorem Keeps.scan_recovered
    (hp : (Progress.fresh file.length).frames o consumes file = p) (h : Keeps o file.length f kept p)
    (hpre : kept.bytes <+: file)
    (hkept : kept = {} ∨ ∃ rest, Writable o f first rest ∧ kept = lay o (liveParts f first rest))
    (hstop : p.y.stopOffset = 0 → p.y.stop = .length ∨ p.y.stop = .empty ∨ file = [])
    (hopens : Opens o.toTraits file) (hquiet : ∀ s q, ¬ SealedAppend o.checkpointField file kept.bytes.length s q)
    (hwindow : ∀ n, 0 < window n) (hsealed : 0 < sealedWindow) :
    ∃ p, scan o consumes window sealedWindow file = .ok p ∧
      Recovered o consumes window sealedWindow file f kept p := by
  have hsize : p.y.size = kept.bytes.length := by rw [h.y]
  have hfile : p.y.fileSize = file.length := by rw [h.y]
  have hnone : p.y.sealedAfter = none := by rw [h.y]
  have hkeep : p.y.keep = false := by
    simp only [Scanned.keep, hsize, hfile, hnone]
    by_cases hzero : p.y.stopOffset = 0
    · obtain hs | hs | rfl := hstop hzero <;> simp [*]
    · simp [hzero]
  exact ⟨_, scan_eq hopens hwindow hsealed hp hfile hnone (hsize ▸ hquiet),
    h.dropped.recovered hpre hkeep hkept hwindow hsealed⟩

/-- A file as a crash leaves it: its bytes cut, and zero bytes past the cut. -/
def crashed (bytes : Bytes) (c z : ℕ) : Bytes := bytes.take c ++ List.replicate z 0

/-- A crashed file is recovered unless zero bytes make a frame of its torn FileStart. -/
theorem recovered_iff (o : Owner T) (x : Append T) (xs : List (Append T)) (hwrites : ∀ y ∈ x :: xs, y.Writes o)
    (consumes : Bool) (window : ℕ → ℕ) (hwindow : ∀ n, 0 < window n) (sealedWindow : ℕ) (hsealed : 0 < sealedWindow)
    (c z : ℕ)
    (hquiet : ∀ s q, ¬ SealedAppend o.checkpointField (crashed (appendAll o.toTraits (x :: xs) {}).bytes c z)
      (whole o.toTraits (crashed (appendAll o.toTraits (x :: xs) {}).bytes c z) (Append.parts x xs) {}).bytes.length s q) :
    (∃ p, scan o.toTraits consumes window sealedWindow (crashed (appendAll o.toTraits (x :: xs) {}).bytes c z) = .ok p ∧
        Recovered o consumes window sealedWindow (crashed (appendAll o.toTraits (x :: xs) {}).bytes c z)
          x.opening.start
          (whole o.toTraits (crashed (appendAll o.toTraits (x :: xs) {}).bytes c z) (Append.parts x xs) {}) p) ↔
      ¬ Garbled (encodeStart o.startField x.opening.start) c z := by
  have hwritable := Append.writable hwrites
  rw [appendAll_eq] at hquiet ⊢
  unfold Append.parts at hquiet ⊢
  generalize x.run :: xs.map Append.run = rest at *
  generalize x.opening.prologue ++ x.opening.records = first at *
  generalize x.opening.start = f at *
  obtain ⟨more, hbytes⟩ := lay_start o f first rest
  have hopens := opens_cut o f more c z
  rw [hbytes] at hopens
  have hcut : c < (encodeStart o.startField f).length →
      crashed (lay o (liveParts f first rest)).bytes c z =
        (encodeStart o.startField f).take c ++ List.replicate z 0 := by
    intro hc
    rw [crashed, ← hbytes, take_append_of_le_length hc.le]
  have hkept : whole o (crashed (lay o (liveParts f first rest)).bytes c z) (liveParts f first rest) {} = {} ∨
      ∃ rest', Writable o f first rest' ∧
        whole o (crashed (lay o (liveParts f first rest)).bytes c z) (liveParts f first rest) {} =
          lay o (liveParts f first rest') :=
    (whole_cases f first rest).imp_right fun ⟨n, hn⟩ => ⟨rest.take n, hwritable.of_subset (take_subset n rest), hn⟩
  have hpre := whole_prefix (o := o) (liveParts f first rest)
    (show ({} : Built T).bytes <+: crashed (lay o (liveParts f first rest)).bytes c z from nil_prefix)
  by_cases hstart : encodeStart o.startField f <+: crashed (lay o (liveParts f first rest)).bytes c z
  · -- the FileStart is whole
    have hgarbled : ¬ Garbled (encodeStart o.startField f) c z := fun hg => hg.other (hcut hg.lt ▸ hstart)
    obtain ⟨hkeeps, hpos⟩ : Keeps o.toTraits (crashed (lay o (liveParts f first rest)).bytes c z).length f _
        ((Progress.fresh _).frames o.toTraits consumes _) ∧ 0 < _ := frames_file hwritable rfl hstart
    exact iff_of_true (hkeeps.scan_recovered rfl hpre hkept (fun hzero => absurd hzero hpos.ne') hopens hquiet hwindow
      hsealed) hgarbled
  · -- it is torn, and nothing is kept
    rw [whole_eq_empty hstart] at hquiet hpre hkept ⊢
    have htorn := hcut (lt_of_not_starts (lay_start _ _ _ _) hstart)
    obtain ⟨stop, hframes, hcases⟩ : ∃ stop,
        (Progress.fresh (crashed (lay o (liveParts f first rest)).bytes c z).length).frames
          o.toTraits consumes _ = _ ∧ _ :=
      frames_torn_start hwritable.range hwritable.live (htorn ▸ hstart)
    rw [← htorn] at hframes hcases
    obtain ⟨hgarbled, rfl⟩ | ⟨hgarbled, hstop⟩ := hcases
    · refine iff_of_false ?_ (not_not.mpr hgarbled)
      rintro ⟨p, hscan, hrecovered⟩
      have hscan' := scan_eq hopens hwindow hsealed hframes rfl rfl hquiet
      obtain rfl := Except.ok.inj (hscan.symm.trans hscan')
      have hpos : 0 < (crashed (lay o (liveParts f first rest)).bytes c z).length := by
        have := hgarbled.pos
        have := hgarbled.lt
        rw [htorn, length_append, length_take]
        omega
      have hkeep := hrecovered.keep
      simp [Scanned.keep, Progress.stopped, Progress.fresh, hpos] at hkeep
    · exact iff_of_true (Keeps.scan_recovered hframes ⟨rfl, rfl⟩ hpre hkept (fun _ => hstop) hopens hquiet hwindow
        hsealed) hgarbled

end Recover

/-- An owner's records that are times alone. -/
inductive Beat where
  | start (f : FileStart)
  | beat (t : ℤ)
  | checkpoint
  deriving DecidableEq

/-- Each time a delta from the one before, the first from the FileStart's. -/
def beatTraits : Traits Beat where
  startField := 1
  checkpointField := 3
  known field := decide (1 ≤ field ∧ field ≤ 3)
  time
    | .beat t => some t
    | _ => none
  toDisk r state := match r with
    | .start f => (.start f, f.ts)
    | .beat t => (.beat (wrap (t - state)), t)
    | .checkpoint => (.checkpoint, state)
  toMemory r state := match r with
    | .start f => (.start f, f.ts)
    | .beat t => (.beat (wrap (state + t)), wrap (state + t))
    | .checkpoint => (.checkpoint, state)
  setStart := .start
  serialize
    | .beat t => frame 2 (writeVarint 10 (uint64 t))
    | _ => []
  parse bytes := match Cursor.next bytes with
    | .error _ => none
    | .ok raw =>
      match raw.field with
      | 1 => (mergeStart raw.body.length raw.body {}).map .start
      | 2 => (readVarint 10 raw.body).map fun x => .beat (int64 x.1)
      | 3 => some .checkpoint
      | _ => none

theorem beat_framed (t : ℤ) : Cursor.Framed 2 (writeVarint 10 (uint64 t)) :=
  short_framed (by decide) (by decide) ((writeVarint_length_le 10 (uint64 t)).trans_lt (by decide))

def beatOwner : Owner Beat where
  toTraits := beatTraits
  own r := ∃ t, r = .beat t ∧ -9223372036854775808 ≤ t ∧ t < 9223372036854775808
  start_pos := by decide
  start_lt := by decide
  checkpoint_pos := by decide
  checkpoint_lt := by decide
  start_ne := by decide
  known_start := rfl
  known_checkpoint := rfl
  own_toDisk := by
    rintro _ s ⟨t, rfl, -, -⟩
    exact ⟨_, rfl, le_wrap _, wrap_lt _⟩
  toMemory_toDisk := by
    rintro _ s ⟨t, rfl, hle, hlt⟩
    have hwrap := wrap_add_wrap_sub s hle hlt
    simp [beatTraits, hwrap]
  serialize_eq := by
    rintro _ ⟨t, rfl, -, -⟩ -
    exact ⟨2, _, rfl, by decide, by decide, rfl, by decide, by decide⟩
  parse_serialize := by
    rintro _ ⟨t, rfl, hle, hlt⟩ -
    have hnext := Cursor.next_frame (beat_framed t) []
    have hread := readVarint_ts t []
    rw [append_nil] at hnext hread
    simp [beatTraits, hnext, hread, int64_uint64 hle hlt]
  parse_start := by
    intro f hf
    have hnext : Cursor.next (encodeStart 1 f ++ []) = _ := Cursor.next_frame
      (short_framed (by decide) (by decide) ((startBody_length_le f.checked).trans_lt (by decide))) []
    rw [append_nil] at hnext
    obtain ⟨fuel, hfuel⟩ := three_le_startBody f.checked
    simp only [beatTraits, hnext, hfuel, mergeStart_body hf.checked]
    rfl
  toMemory_start _ _ _ := rfl
  time_start _ := rfl
  parse_checkpoint crc := by
    have hnext : Cursor.next (encodeCheckpoint 3 crc ++ []) = _ := Cursor.next_frame
      (short_framed (by decide) (by decide) (by simp)) []
    rw [append_nil] at hnext
    exact ⟨.checkpoint, by simp only [beatTraits, hnext], fun _ => rfl⟩

/-- A first append: its day starts at 1000, and a beat is 7 past that. -/
def oneBeat : Append Beat := ⟨⟨{ ts := 1000 }, [], []⟩, [.beat 1007]⟩

theorem oneBeat_writes : ∀ y ∈ [oneBeat], y.Writes beatOwner := by
  intro y hy
  obtain rfl := mem_singleton.mp hy
  exact ⟨⟨by decide, by decide, by decide⟩, rfl, by simp [oneBeat], by
    intro r hr
    obtain rfl := mem_singleton.mp hr
    exact ⟨1007, rfl, by decide, by decide⟩⟩

/-- The scan's own windows. -/
def scanWindow (_ : ℕ) : ℕ := windowBytes

/-- A beat torn past its tag and length, and three zero bytes: the file's opening is kept. -/
theorem oneBeat_recovered : ∃ p, scan beatOwner.toTraits true scanWindow sealedWindowBytes
        (crashed (appendAll beatOwner.toTraits [oneBeat] {}).bytes 21 3) = .ok p ∧
      Recovered beatOwner true scanWindow sealedWindowBytes
        (crashed (appendAll beatOwner.toTraits [oneBeat] {}).bytes 21 3) oneBeat.opening.start
        (whole beatOwner.toTraits (crashed (appendAll beatOwner.toTraits [oneBeat] {}).bytes 21 3)
          (Append.parts oneBeat []) {}) p := by
  have hkept : (whole beatOwner.toTraits (crashed (appendAll beatOwner.toTraits [oneBeat] {}).bytes 21 3)
      (Append.parts oneBeat []) {}).bytes.length = 19 := by decide +kernel
  have hsize : (crashed (appendAll beatOwner.toTraits [oneBeat] {}).bytes 21 3).length = 24 := by decide +kernel
  refine (recovered_iff beatOwner oneBeat [] oneBeat_writes true scanWindow (fun _ => show 0 < windowBytes by decide)
    sealedWindowBytes (by decide) 21 3 fun s q h => ?_).mpr fun h => absurd h.lt (by decide +kernel)
  have hlt := h.lt_length
  rw [hkept, hsize] at hlt
  exact absurd hlt (by decide)

/-- A FileStart torn after its tag, and a zero byte: the scan holds on to the file. -/
theorem tornStart_kept :
    (∀ s q, ¬ SealedAppend beatOwner.checkpointField (crashed (appendAll beatOwner.toTraits [oneBeat] {}).bytes 1 1) 0 s q) ∧
      ∃ p, scan beatOwner.toTraits true scanWindow sealedWindowBytes
          (crashed (appendAll beatOwner.toTraits [oneBeat] {}).bytes 1 1) = .ok p ∧
        p.y.keep = true ∧
        truncate (crashed (appendAll beatOwner.toTraits [oneBeat] {}).bytes 1 1) p.y.toScanned = .error .kept := by
  have hfile : crashed (appendAll beatOwner.toTraits [oneBeat] {}).bytes 1 1 = [0x0A, 0] := by decide +kernel
  refine ⟨fun s q h => ?_, ?_⟩
  · have hlt := h.lt_length
    exact absurd hlt (by decide)
  · have hscan : (scan beatOwner.toTraits true scanWindow sealedWindowBytes [0x0A, 0]).toOption.map
        (fun p => p.y.keep) = some true := by decide +kernel
    obtain ⟨p, hp, hkeep⟩ := Option.map_eq_some_iff.mp hscan
    rw [hfile]
    exact ⟨p, by
      cases hs : scan beatOwner.toTraits true scanWindow sealedWindowBytes [0x0A, 0] with
      | error e =>
        rw [hs] at hp
        simp [Except.toOption] at hp
      | ok q =>
        rw [hs] at hp
        simpa [Except.toOption] using hp, hkeep, truncate_of_keep hkeep⟩

end OpcHub.Records
