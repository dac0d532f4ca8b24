import OpcHub.Records.Scan

/-! A live file as its process knows it: from its first-open scan, and from its
own appends since. Each append is handed out at the size the process knows, is
written, and is then committed; a write can fail part-way, a commit can fail to
make the file's name durable, and someone else can remove the file at any time.
Before each append the file's size on disk is compared with the one known. -/

namespace OpcHub.Records

open Lib List Option Bool

variable {σ ρ : Type*}

/-- What one append comes to: its bytes, the owner's state after them, and each run of them that
holds a record with a time. -/
structure Appended (σ ρ : Type*) where
  bytes : Bytes
  chain : σ
  runs : List ρ

/-- An append handed out and not yet committed: where it went, and the farthest it could have written. -/
structure Outstanding where
  offset : ℕ
  end_ : ℕ
  deriving DecidableEq

/-- A file as the process knows it. -/
structure FileState (σ ρ : Type*) [Inhabited σ] where
  /-- Through its last checkpoint, where the next append goes. -/
  size : ℕ := 0
  /-- Where the owner's state stands. -/
  chain : σ := default
  runs : List ρ := []
  /-- Its scan, until the first append drops a torn tail by it. -/
  unopened : Option Scanned := none
  /-- The process has made its name durable. -/
  named : Bool := false
  /-- The owner won't write to it. -/
  refused : Bool := false
  outstanding : Option Outstanding := none

/-- Why a file is scanned again before its next write. -/
inductive VerifyError where
  | holds (actual size : ℕ)

namespace FileState

variable [Inhabited σ]

/-- Notes an append handed out at `offset`: one that fails before cutting the file to its offset
leaves what an earlier one did. -/
def hand (file : FileState σ ρ) (offset end_ : ℕ) : FileState σ ρ :=
  { file with
    outstanding := some (match file.outstanding with
      | some o => if o.offset = offset then ⟨offset, max o.end_ end_⟩ else ⟨offset, end_⟩
      | none => ⟨offset, end_⟩) }

/-- Its write has returned. -/
def committed (file : FileState σ ρ) (end_ : ℕ) (chain : σ) (runs : List ρ) : FileState σ ρ :=
  { file with named := true, outstanding := none, size := end_, chain := chain, runs := file.runs ++ runs }

/-- Whether the bytes past `size` are within an outstanding append's own. -/
def reaches (file : FileState σ ρ) (size actual : ℕ) : Bool :=
  file.outstanding.any fun o => decide (o.offset = size) && decide (actual ≤ o.end_)

/-- Whether the file on disk is the one the process knows, before a write, and whether the write
begins it again. -/
def verify (file : FileState σ ρ) (disk : Option Bytes) (rewrite restart : Bool) : Except VerifyError Bool :=
  let actual := (disk.getD []).length
  let size := if restart then 0 else file.size
  let scanned := (if rewrite && !restart then file.unopened.map Scanned.fileSize else none).getD size
  -- purged since
  if actual = 0 ∧ size ≠ 0 then .ok true
  else if actual < size ∨ size < actual ∧ actual ≠ scanned ∧ (size = 0 ∨ file.reaches size actual = false) then
    .error (.holds actual size)
  else .ok restart

end FileState

/-- The first-open scan of the owner's files. -/
structure Opener (σ ρ : Type*) where
  scan : Bytes → Scanned
  chain : Bytes → σ
  runs : Bytes → List ρ
  size_le : ∀ file, (scan file).size ≤ file.length

/-- What the process knows of a file, with the appends it knows it by: those a scan kept, as one, and
those committed since. -/
structure Known (σ ρ : Type*) [Inhabited σ] where
  file : FileState σ ρ := {}
  log : List (Appended σ ρ) := []

/-- An append handed out. -/
structure Pending (σ ρ : Type*) where
  offset : ℕ
  restart : Bool
  built : Appended σ ρ
  written : Bool := false

/-- The size the append brings the file to. -/
def Pending.end_ (p : Pending σ ρ) : ℕ := p.offset + p.built.bytes.length

/-- How a write comes out: it fails before the cut, fails with some of its bytes written, or returns. -/
inductive Outcome where
  | untouched
  | left (bytes : ℕ)
  | done

inductive FileAction (σ ρ : Type*) where
  /-- A flush prepares its append; `changed`: the file is another than the refused one. -/
  | prepare (changed : Bool) (build : ℕ → σ → Appended σ ρ)
  | write (outcome : Outcome)
  /-- `synced`: its directories' names are durable. -/
  | commit (synced : Bool)
  /-- Someone else removes the file. -/
  | remove

/-- A live file, on disk and as its process knows it. -/
structure Live (σ ρ : Type*) [Inhabited σ] where
  disk : Option Bytes
  known : Option (Known σ ρ) := none
  pending : Option (Pending σ ρ) := none

variable [Inhabited σ]

/-- The bytes of the appends the file is known by. -/
def Known.bytes (k : Known σ ρ) : Bytes := k.log.flatMap Appended.bytes

/-- The file once its torn tail is dropped. -/
def Known.opened (k : Known σ ρ) : Known σ ρ := { k with file := { k.file with unopened := none } }

/-- The first time the process opens the file. -/
def Opener.open_ (o : Opener σ ρ) : Option Bytes → Known σ ρ
  | none => {}
  | some file =>
    let y := o.scan file
    { file :=
        { size := y.size, chain := o.chain file, runs := o.runs file, refused := y.keep
          unopened := if y.size < y.fileSize then some y else none }
      log := [⟨file.take y.size, o.chain file, o.runs file⟩] }

namespace Live

/-- What is known of the file, which a file that is not known, or a refused one that changed, is scanned for. -/
def reopen (o : Opener σ ρ) (changed : Bool) (s : Live σ ρ) : Known σ ρ :=
  match s.known with
  | some k => if k.file.refused && changed then o.open_ s.disk else k
  | none => o.open_ s.disk

/-- Verifies the file and hands out the append; other bytes than the process wrote are scanned again. -/
def append (k : Known σ ρ) (restart : Bool) (build : ℕ → σ → Appended σ ρ) (s : Live σ ρ) : Live σ ρ :=
  match k.file.verify s.disk false restart with
  | .error _ => { s with known := none }
  | .ok restart =>
    let fresh : FileState σ ρ := if restart then {} else k.file
    let p : Pending σ ρ := { offset := fresh.size, restart := restart, built := build fresh.size fresh.chain }
    { s with known := some { k with file := k.file.hand p.offset p.end_ }, pending := some p }

/-- Drops the torn tail the scan found, before the first append. -/
def dropTail (k : Known σ ρ) (y : Scanned) (build : ℕ → σ → Appended σ ρ) (s : Live σ ρ) : Live σ ρ :=
  match s.disk with
  | none => { s with known := none }
  | some file =>
    match truncate file y with
    | .error _ => { s with known := none }
    | .ok (file, _) =>
      append k.opened false build { s with disk := some file }

/-- Prepares a live append. -/
def prepare (o : Opener σ ρ) (changed : Bool) (build : ℕ → σ → Appended σ ρ) (s : Live σ ρ) : Live σ ρ :=
  let k := s.reopen o changed
  if k.file.refused then
    -- its records are dropped until it is repaired or removed
    if s.disk.isSome then { s with known := some k } else s.append k true build
  else
    match k.file.unopened with
    | none => s.append k false build
    | some y => s.dropTail k y build

/-- The bytes a write at `offset` keeps, where the file holds as many. -/
def cut (s : Live σ ρ) (offset : ℕ) : Option Bytes :=
  if offset ≤ (s.disk.getD []).length then some ((s.disk.getD []).take offset) else none

/-- Writes the append. One that fails is prepared again. -/
def write (p : Pending σ ρ) (s : Live σ ρ) : Outcome → Live σ ρ
  | .untouched => { s with pending := none }
  | .left n =>
    match s.cut p.offset with
    | none => { s with pending := none }
    | some kept => { s with disk := some (kept ++ p.built.bytes.take n), pending := none }
  | .done =>
    match s.cut p.offset with
    | none => { s with pending := none }
    | some kept => { s with disk := some (kept ++ p.built.bytes), pending := some { p with written := true } }

/-- Commits an append that was written. -/
def commit (p : Pending σ ρ) (k : Known σ ρ) (synced : Bool) (s : Live σ ρ) : Live σ ρ :=
  if (p.restart || !k.file.named) && !synced then { s with pending := none }
  else
    let k := if p.restart then {} else k
    { s with
      known := some ⟨k.file.committed p.end_ p.built.chain p.built.runs, k.log ++ [p.built]⟩
      pending := none }

/-- One step of the flush, or of someone else. -/
def step (o : Opener σ ρ) (s : Live σ ρ) : FileAction σ ρ → Option (Live σ ρ)
  | .prepare changed build => if s.pending.isNone then some (s.prepare o changed build) else none
  | .write outcome =>
    match s.pending with
    | some p => if p.written then none else some (s.write p outcome)
    | none => none
  | .commit synced =>
    match s.pending, s.known with
    | some p, some k => if p.written then some (s.commit p k synced) else none
    | _, _ => none
  | .remove => some { s with disk := none }

def run (o : Opener σ ρ) : List (FileAction σ ρ) → Live σ ρ → Option (Live σ ρ)
  | [], s => some s
  | a :: acts, s => (s.step o a).bind (run o acts)

/-- What a step that fails leaves of a file begun again. -/
def leaves (s : Live σ ρ) (p : Pending σ ρ) : FileAction σ ρ → Option Bytes
  | .write (.left n) => some (p.built.bytes.take n)
  | .commit false => s.disk
  | _ => none

/-- Whether a step leaves of a file begun again what its next append can tell from the file that was
removed: bytes of another number, or the same bytes. -/
def tells (s : Live σ ρ) (a : FileAction σ ρ) : Bool :=
  match s.known, s.pending with
  | some k, some p =>
    k.file.refused || !p.restart ||
      (s.leaves p a).all fun b => b.length != k.file.size || b == k.bytes
  | _, _ => true

/-- Whether every step of a run does. -/
def tellsAll (o : Opener σ ρ) : List (FileAction σ ρ) → Live σ ρ → Bool
  | [], _ => true
  | a :: acts, s => s.tells a && (s.step o a).all (tellsAll o acts)

end Live

/-- The runs and the owner's state the process keeps are those of the appends it knows the file by. -/
structure Known.Describes (k : Known σ ρ) : Prop where
  size : k.file.size = k.bytes.length
  runs : k.file.runs = k.log.flatMap Appended.runs
  chain : k.file.chain = (k.log.getLast?.map Appended.chain).getD default

/-- The append goes at the end of the appends the file is known by, which its first bytes are. -/
structure Live.Consistent (s : Live σ ρ) (p : Pending σ ρ) (k : Known σ ρ) : Prop where
  describes : k.Describes
  offset : p.offset = k.file.size
  bytes : (s.disk.getD []).take k.file.size = k.bytes

/-- What a failed write of a file begun again leaves, told from the file that was removed by its size. -/
def Known.Left (k : Known σ ρ) (file : Bytes) : Prop :=
  0 < k.file.size ∧ file.length ≠ k.file.size ∧ ∃ e, k.file.outstanding = some ⟨0, e⟩

/-- A file on disk the process would write to: it is as the appends left it, or a write of it begun
again failed. -/
def Known.Stands (k : Known σ ρ) (file : Bytes) : Prop := file.take k.file.size = k.bytes ∨ k.Left file

/-- A file whose scan is still to be acted on is as the scan found it. -/
def Known.AsScanned (k : Known σ ρ) : Prop :=
  ∀ y ∈ k.file.unopened, y.size = k.file.size ∧ k.file.outstanding = none

/-- A pending append at the end of the known file. -/
structure Known.Extends (k : Known σ ρ) (disk : Option Bytes) (p : Pending σ ρ) : Prop where
  refused : k.file.refused = false
  unopened : k.file.unopened = none
  offset : p.offset = k.file.size
  kept : ∀ file ∈ disk, file.take k.file.size = k.bytes
  written : p.written = true → ∀ file ∈ disk, file = k.bytes ++ p.built.bytes

/-- A pending append that begins the file again. -/
structure Known.Restarts (k : Known σ ρ) (disk : Option Bytes) (p : Pending σ ρ) : Prop where
  offset : p.offset = 0
  outstanding : ∃ e, k.file.outstanding = some ⟨0, e⟩
  size_pos : k.file.refused = false → 0 < k.file.size
  written : p.written = true → ∀ file ∈ disk, file = p.built.bytes

/-- What every step that tells keeps. -/
structure Live.Sound (s : Live σ ρ) : Prop where
  describes : ∀ k ∈ s.known, k.Describes
  scanned : ∀ k ∈ s.known, k.file.refused = false → k.AsScanned
  stands : (∀ p ∈ s.pending, p.written = false) → ∀ k ∈ s.known, k.file.refused = false →
    ∀ file ∈ s.disk, k.Stands file
  pending : ∀ p ∈ s.pending, ∃ k ∈ s.known,
    p.restart = false ∧ k.Extends s.disk p ∨ p.restart = true ∧ k.Restarts s.disk p

namespace FileState

variable {file : FileState σ ρ} {disk : Option Bytes} {restart : Bool}

theorem hand_outstanding (file : FileState σ ρ) (offset end_ : ℕ) :
    ∃ e, (file.hand offset end_).outstanding = some ⟨offset, e⟩ := by
  unfold hand
  split
  · split <;> exact ⟨_, rfl⟩
  · exact ⟨_, rfl⟩

/-- A file is begun again only where nothing is left of it. -/
theorem verify_eq_true (h : file.verify disk false restart = .ok true) :
    disk.getD [] = [] ∧ (restart = true ∨ 0 < file.size) := by
  simp only [verify, Bool.false_and, Bool.false_eq_true, if_false, getD_none] at h
  cases restart <;> split_ifs at h <;> grind

/-- A file that stays is as long as it is known to be, or longer by an outstanding append's bytes. -/
theorem verify_eq_false (h : file.verify disk false restart = .ok false) :
    restart = false ∧ file.size ≤ (disk.getD []).length ∧
      ((disk.getD []).length = file.size ∨ file.reaches file.size (disk.getD []).length = true) := by
  simp only [verify, Bool.false_and, Bool.false_eq_true, if_false, getD_none] at h
  cases restart <;> split_ifs at h <;> grind

end FileState

theorem take_of_truncate {file kept : Bytes} {y y' : Scanned} (h : truncate file y = .ok (kept, y')) :
    kept.take y.size = file.take y.size := by
  unfold truncate at h
  split_ifs at h with hkeep hsize hlength
  · cases h
    rfl
  · cases h
    exact take_take.trans (by rw [Nat.min_self])

section Describes

variable {k : Known σ ρ} {o : Opener σ ρ}

theorem Known.Describes.hand (h : k.Describes) (offset end_ : ℕ) :
    Known.Describes { k with file := k.file.hand offset end_ } :=
  { h with }

open Known

theorem Known.Describes.committed (h : k.Describes) {p : Pending σ ρ} (hp : p.offset = k.file.size) :
    Known.Describes ⟨k.file.committed p.end_ p.built.chain p.built.runs, k.log ++ [p.built]⟩ where
  size := by
    have hsize := h.size
    simp only [FileState.committed, Pending.end_, bytes, flatMap_append, flatMap_singleton,
      length_append] at hsize ⊢
    omega
  runs := by
    simp only [FileState.committed, flatMap_append, flatMap_singleton, h.runs]
  chain := by simp [FileState.committed]

theorem Known.describes_fresh : (({} : Known σ ρ)).Describes := ⟨rfl, rfl, rfl⟩

theorem Opener.open_describes (o : Opener σ ρ) (disk : Option Bytes) : (o.open_ disk).Describes := by
  cases disk with
  | none => exact describes_fresh
  | some file => exact ⟨by simp [Opener.open_, bytes, o.size_le], by simp [Opener.open_], by simp [Opener.open_]⟩

theorem Opener.open_stands (o : Opener σ ρ) (disk : Option Bytes) : ∀ file ∈ disk, (o.open_ disk).Stands file := by
  rintro file rfl
  exact .inl (by simp [Opener.open_, bytes])

theorem Opener.open_asScanned (o : Opener σ ρ) (disk : Option Bytes) : (o.open_ disk).AsScanned := by
  intro y hy
  cases disk with
  | none => cases hy
  | some file =>
    simp only [Opener.open_] at hy ⊢
    split at hy <;> simp_all

theorem Known.bytes_concat (file : FileState σ ρ) (log : List (Appended σ ρ)) (x : Appended σ ρ) :
    bytes ⟨file, log ++ [x]⟩ = log.flatMap Appended.bytes ++ x.bytes := by
  simp [bytes]

theorem Known.Describes.stands (h : k.Describes) {file : Bytes} (hfile : file = k.bytes) : k.Stands file :=
  .inl (by rw [hfile, h.size, take_length])

/-- What a file begun again may be left as. -/
theorem Known.Restarts.stands {disk : Option Bytes} {p : Pending σ ρ} (h : k.Restarts disk p)
    (hrefused : k.file.refused = false) {file : Bytes}
    (htells : file.length ≠ k.file.size ∨ file = k.bytes) : k.Stands file := by
  by_cases hlength : file.length = k.file.size
  · obtain rfl := htells.resolve_left (not_not.mpr hlength)
    exact .inl (by rw [← hlength, take_length])
  · exact .inr ⟨h.size_pos hrefused, hlength, h.outstanding⟩

end Describes

/-- A known file the process would write to, with nothing written pending. -/
structure Known.Sound (k : Known σ ρ) (disk : Option Bytes) : Prop where
  describes : k.Describes
  scanned : k.file.refused = false → k.AsScanned
  stands : k.file.refused = false → ∀ file ∈ disk, k.Stands file

namespace Live

variable {o : Opener σ ρ} {s s' : Live σ ρ} {k : Known σ ρ} {build : ℕ → σ → Appended σ ρ}

theorem Sound.reopen (h : s.Sound) (hpending : s.pending = none) (changed : Bool) :
    (s.reopen o changed).Sound s.disk := by
  have hopen : (o.open_ s.disk).Sound s.disk :=
    ⟨o.open_describes s.disk, fun _ => o.open_asScanned s.disk, fun _ => o.open_stands s.disk⟩
  unfold Live.reopen
  split
  · split
    · exact hopen
    · have hnone : ∀ p ∈ s.pending, p.written = false := by simp [hpending]
      exact ⟨h.describes _ ‹_›, h.scanned _ ‹_›, h.stands hnone _ ‹_›⟩
  · exact hopen

theorem Sound.forget (h : s.pending = none) : Sound { s with known := none } :=
  ⟨nofun, nofun,
    nofun, fun _ hp => absurd (h ▸ hp) (not_mem_none _)⟩

theorem Sound.of_known (hknown : s.known = some k) (hk : k.Sound s.disk) (hpending : ∀ p ∈ s.pending,
      p.restart = false ∧ k.Extends s.disk p ∨ p.restart = true ∧ k.Restarts s.disk p) : s.Sound where
  describes _ hk' := some.inj (hk'.symm.trans hknown) ▸ hk.describes
  scanned _ hk' := some.inj (hk'.symm.trans hknown) ▸ hk.scanned
  stands _ _ hk' := some.inj (hk'.symm.trans hknown) ▸ hk.stands
  pending p hp := ⟨k, hknown, hpending p hp⟩

theorem append_sound (hpending : s.pending = none) (hk : k.Sound s.disk) {restart : Bool}
    (hlive : restart = false → k.file.refused = false ∧ k.file.unopened = none)
    (hagain : restart = true → k.file.refused = true) : (s.append k restart build).Sound := by
  unfold Live.append
  split
  · exact Sound.forget hpending
  · rename_i r hverify
    cases r with
    | true =>
      obtain ⟨hempty, hsize⟩ := FileState.verify_eq_true hverify
      have hpos : k.file.refused = false → restart = false ∧ 0 < k.file.size := by
        intro hrefused
        have hr : restart = false := by
          by_contra hr
          exact false_ne_true (hrefused.symm.trans (hagain (not_eq_false _ ▸ hr)))
        exact ⟨hr, hsize.resolve_left (by simp [hr])⟩
      refine Sound.of_known rfl ⟨hk.describes.hand _ _, fun hrefused y hy => ?_, fun hrefused file hfile => ?_⟩ fun p hp => ?_
      · exact absurd ((hlive (hpos hrefused).1).2 ▸ hy) (not_mem_none _)
      · rw [hfile, getD_some] at hempty
        exact .inr ⟨(hpos hrefused).2, hempty ▸ (hpos hrefused).2.ne, k.file.hand_outstanding _ _⟩
      · obtain rfl := mem_some.mp hp
        exact .inr ⟨rfl, rfl, k.file.hand_outstanding _ _, fun h => (hpos h).2, nofun⟩
    | false =>
      obtain ⟨rfl, hle, hreach⟩ := FileState.verify_eq_false hverify
      obtain ⟨hrefused, hunopened⟩ := hlive rfl
      have hkept : ∀ file ∈ s.disk, file.take k.file.size = k.bytes := by
        intro file hfile
        refine (hk.stands hrefused file hfile).resolve_right ?_
        -- a file begun again stands out by its size
        rintro ⟨hpos, hne, e, he⟩
        rw [mem_def.mp hfile, getD_some] at hreach
        have hzero : 0 = k.file.size ∧ file.length ≤ e := by
          simpa [FileState.reaches, he] using hreach.resolve_left hne
        exact hpos.ne hzero.1
      refine Sound.of_known rfl ⟨hk.describes.hand _ _, fun _ y hy => ?_, fun _ file hfile => .inl (hkept file hfile)⟩
        fun p hp => ?_
      · exact absurd (hunopened ▸ hy) (not_mem_none _)
      · obtain rfl := mem_some.mp hp
        exact .inl ⟨rfl, hrefused, hunopened, rfl, hkept, nofun⟩

theorem prepare_sound (h : s.Sound) (hpending : s.pending = none) (changed : Bool) :
    (s.prepare o changed build).Sound := by
  have hk := h.reopen (o := o) hpending changed
  unfold Live.prepare
  generalize s.reopen o changed = k at hk
  dsimp only
  split
  · rename_i hrefused
    split
    · exact Sound.of_known rfl hk fun p hp => absurd (hpending ▸ hp) (not_mem_none _)
    · exact append_sound hpending hk (fun h => absurd h.symm false_ne_true) fun _ => hrefused
  · rename_i hrefused
    have hrefused := (not_eq_true _).mp hrefused
    split
    · exact append_sound hpending hk (fun _ => ⟨hrefused, ‹_›⟩) nofun
    · rename_i y hy
      obtain ⟨hsize, hnone⟩ := hk.scanned hrefused y hy
      unfold dropTail
      split
      · exact Sound.forget hpending
      · rename_i file hfile
        split
        · exact Sound.forget hpending
        · rename_i kept _ htruncate
          have hkept : kept.take k.file.size = k.bytes := by
            have hfile := (hk.stands hrefused file hfile).resolve_right fun ⟨_, _, _, he⟩ => by simp [hnone] at he
            rw [← hfile, ← hsize]
            exact take_of_truncate htruncate
          have hopened : k.opened.Sound (some kept) :=
            ⟨⟨hk.describes.size, hk.describes.runs, hk.describes.chain⟩,
              nofun, fun _ _ hfile => .inl (mem_some.mp hfile ▸ hkept)⟩
          exact append_sound (s := { s with disk := some kept }) hpending hopened (fun _ => ⟨hrefused, rfl⟩)
            nofun

variable {kept : Bytes} {p : Pending σ ρ}

theorem cut_eq_some {offset : ℕ} (h : s.cut offset = some kept) :
    kept = (s.disk.getD []).take offset ∧ offset ≤ (s.disk.getD []).length := by
  unfold cut at h
  split at h
  · exact ⟨(some.inj h).symm, ‹_›⟩
  · cases h

/-- An append at the end of the file keeps the bytes it is known by, and one that begins it again none. -/
theorem cut_extends (hk : k.Describes) (h : k.Extends s.disk p)
    (hcut : s.cut p.offset = some kept) : kept = k.bytes := by
  obtain ⟨rfl, hle⟩ := cut_eq_some hcut
  rw [h.offset] at hle ⊢
  cases hdisk : s.disk with
  | none =>
    have hzero : k.bytes.length = 0 := by simpa [hdisk, hk.size] using hle
    simp [length_eq_zero_iff.mp hzero]
  | some file => exact h.kept file hdisk

theorem cut_restarts (h : k.Restarts s.disk p) (hcut : s.cut p.offset = some kept) : kept = [] := by
  rw [(cut_eq_some hcut).1, h.offset, take_zero]

theorem tells_iff (hk : s.known = some k) (hp : s.pending = some p) (a : FileAction σ ρ) :
    s.tells a = true ↔ (k.file.refused = false → p.restart = true → ∀ file ∈ s.leaves p a,
      file.length ≠ k.file.size ∨ file = k.bytes) := by
  simp only [tells, hk, hp]
  cases k.file.refused <;> cases p.restart <;> cases s.leaves p a <;> simp

theorem Sound.failed (h : s.Sound) {disk : Option Bytes}
    (hstands : ∀ k ∈ s.known, k.file.refused = false → ∀ file ∈ disk, k.Stands file) :
    Sound { s with disk := disk, pending := none } :=
  ⟨h.describes, h.scanned, fun _ => hstands, nofun⟩

theorem write_sound (h : s.Sound) (hp : s.pending = some p) (hwritten : p.written = false)
    {outcome : Outcome} (htells : s.tells (.write outcome) = true) : (s.write p outcome).Sound := by
  obtain ⟨k, hk, hpending⟩ := h.pending p hp
  have hdescribes := h.describes k hk
  have hfailed : Sound { s with pending := none } :=
    h.failed (h.stands fun p' hp' => by rw [← some.inj (hp.symm.trans hp'), hwritten])
  cases outcome with
  | untouched => exact hfailed
  | left n =>
    simp only [write]
    split
    · exact hfailed
    · rename_i kept hcut
      refine h.failed fun k' hk' hrefused file hfile => ?_
      obtain rfl := some.inj (hk.symm.trans hk')
      obtain rfl := mem_some.mp hfile
      obtain ⟨-, hextends⟩ | ⟨hrestart, hrestarts⟩ := hpending
      · rw [cut_extends hdescribes hextends hcut]
        exact .inl (take_left' hdescribes.size.symm)
      · rw [cut_restarts hrestarts hcut, nil_append]
        exact hrestarts.stands hrefused ((tells_iff hk hp _).mp htells hrefused hrestart _ rfl)
  | done =>
    simp only [write]
    split
    · exact hfailed
    · rename_i kept hcut
      refine ⟨h.describes, h.scanned, fun hnone => ?_, fun p' hp' => ⟨k, hk, ?_⟩⟩
      · exact absurd (hnone _ rfl).symm false_ne_true
      · obtain rfl := mem_some.mp hp'
        obtain ⟨hrestart, hextends⟩ | ⟨hrestart, hrestarts⟩ := hpending
        · refine .inl ⟨hrestart, hextends.refused, hextends.unopened, hextends.offset, fun file hfile => ?_, fun _ file hfile => ?_⟩
          · obtain rfl := mem_some.mp hfile
            rw [cut_extends hdescribes hextends hcut]
            exact take_left' hdescribes.size.symm
          · obtain rfl := mem_some.mp hfile
            rw [cut_extends hdescribes hextends hcut]
        · refine .inr ⟨hrestart, hrestarts.offset, hrestarts.outstanding, hrestarts.size_pos, fun _ file hfile => ?_⟩
          obtain rfl := mem_some.mp hfile
          rw [cut_restarts hrestarts hcut, nil_append]

theorem commit_sound (h : s.Sound) (hp : s.pending = some p) (hk : s.known = some k)
    (hwritten : p.written = true) {synced : Bool} (htells : s.tells (.commit synced) = true) :
    (s.commit p k synced).Sound := by
  have hdescribes := h.describes k hk
  obtain ⟨k', hk', hpending⟩ := h.pending p hp
  obtain rfl := some.inj (hk.symm.trans hk')
  unfold commit
  split
  · rename_i hsync
    have hsynced : synced = false := by simpa using (and_eq_true_iff.mp hsync).2
    subst hsynced
    refine h.failed fun k' hk' hrefused file hfile => ?_
    obtain rfl := some.inj (hk.symm.trans hk')
    obtain ⟨-, hextends⟩ | ⟨hrestart, hrestarts⟩ := hpending
    · exact .inl (hextends.kept file hfile)
    · exact hrestarts.stands hrefused ((tells_iff hk hp _).mp htells hrefused hrestart _ hfile)
  · obtain ⟨hrestart, hextends⟩ | ⟨hrestart, hrestarts⟩ := hpending
    · rw [hrestart]
      have hcommitted := hdescribes.committed hextends.offset
      refine Sound.of_known rfl ⟨hcommitted, fun _ => ?_, fun _ file hfile => hcommitted.stands ?_⟩
        nofun
      · exact fun _ hy => absurd (hextends.unopened ▸ hy) (not_mem_none _)
      · rw [hextends.written hwritten file hfile, Known.bytes_concat]
        rfl
    · rw [hrestart]
      have hfresh : ({} : Known σ ρ).Describes := Known.describes_fresh
      have hcommitted := hfresh.committed hrestarts.offset
      refine Sound.of_known rfl ⟨hcommitted, fun _ => ?_, fun _ file hfile => hcommitted.stands ?_⟩
        nofun
      · exact nofun
      · rw [hrestarts.written hwritten file hfile, Known.bytes_concat]
        rfl

theorem remove_sound (h : s.Sound) : Sound { s with disk := none } where
  describes := h.describes
  scanned := h.scanned
  stands _ _ _ _ _ hfile := absurd hfile (not_mem_none _)
  pending p hp := by
    obtain ⟨k, hk, hpending⟩ := h.pending p hp
    have hnone : ∀ {P : Bytes → Prop}, ∀ file ∈ (none : Option Bytes), P file :=
      nofun
    refine ⟨k, hk, hpending.imp ?_ ?_⟩
    · exact fun ⟨hrestart, hk⟩ => ⟨hrestart, hk.refused, hk.unopened, hk.offset, hnone, fun _ => hnone⟩
    · exact fun ⟨hrestart, hk⟩ => ⟨hrestart, hk.offset, hk.outstanding, hk.size_pos, fun _ => hnone⟩

theorem step_prepare {changed : Bool} (h : s.step o (.prepare changed build) = some s') :
    s.pending = none ∧ s.prepare o changed build = s' := by
  simpa only [step, isNone_iff_eq_none, ite_none_right_eq_some, some.injEq] using h

theorem step_sound (h : s.Sound) {a : FileAction σ ρ} (htells : s.tells a = true)
    (hstep : s.step o a = some s') : s'.Sound := by
  cases a with
  | prepare changed build =>
    obtain ⟨hpending, rfl⟩ := step_prepare hstep
    exact prepare_sound h hpending changed
  | write outcome =>
    simp only [step] at hstep
    split at hstep
    · rename_i p hp
      split at hstep
      · cases hstep
      · rename_i hwritten
        cases hstep
        exact write_sound h hp ((not_eq_true _).mp hwritten) htells
    · cases hstep
  | commit synced =>
    simp only [step] at hstep
    split at hstep
    · rename_i p k hp hk
      split at hstep
      · cases hstep
        exact commit_sound h hp hk ‹_› htells
      · cases hstep
    · cases hstep
  | remove =>
    cases hstep
    exact remove_sound h

theorem run_sound {acts : List (FileAction σ ρ)} (h : s.Sound) (htells : s.tellsAll o acts = true)
    (hrun : s.run o acts = some s') : s'.Sound := by
  induction acts generalizing s with
  | nil => exact some.inj hrun ▸ h
  | cons a acts ih =>
    obtain ⟨mid, hstep, hrun⟩ := bind_eq_some_iff.mp hrun
    obtain ⟨ha, hrest⟩ := and_eq_true_iff.mp htells
    rw [hstep, all_some] at hrest
    exact ih (step_sound h ha hstep) hrest hrun

theorem sound_start (disk : Option Bytes) : ({ disk := disk } : Live σ ρ).Sound :=
  Sound.forget (s := { disk := disk }) rfl

/-- A failed write of a file begun again that is as long as the one removed, and another. -/
structure Mistaken (s : Live σ ρ) (k : Known σ ρ) (file : Bytes) : Prop where
  state : s = { disk := some file, known := some k }
  refused : k.file.refused = false
  unopened : k.file.unopened = none
  length : file.length = k.file.size
  ne : file ≠ k.bytes

theorem mistaken_of_not_tells (h : s.Sound) {a : FileAction σ ρ} (hstep : s.step o a = some s')
    (htells : s.tells a = false) : ∃ k file, s'.Mistaken k file := by
  cases hp : s.pending with
  | none => simp [tells, hp] at htells
  | some p =>
    obtain ⟨k, hk, hpending⟩ := h.pending p hp
    have hnot := mt (tells_iff hk hp a).mpr (by simp [htells])
    push Not at hnot
    obtain ⟨hrefused, hrestart, file, hfile, hlength, hne⟩ := hnot
    have hrestarts : k.Restarts s.disk p := (hpending.resolve_left fun h => by simp [hrestart] at h).2
    have hunopened : k.file.unopened = none := by
      obtain ⟨e, he⟩ := hrestarts.outstanding
      refine eq_none_iff_forall_not_mem.mpr fun y hy => ?_
      rw [(h.scanned k hk hrefused y hy).2] at he
      cases he
    refine ⟨k, file, ?_, hrefused, hunopened, hlength, hne⟩
    cases a with
    | prepare | remove => simp [leaves] at hfile
    | write outcome =>
      cases outcome with
      | untouched | done => simp [leaves] at hfile
      | left n =>
        have hcut : s.cut p.offset = some [] := by simp [cut, hrestarts.offset]
        obtain rfl := mem_some.mp hfile
        simp only [step, hp, write, hcut, nil_append] at hstep
        split at hstep
        · cases hstep
        · rw [← some.inj hstep, hk]
    | commit synced =>
      cases synced with
      | true => simp [leaves] at hfile
      | false =>
        simp only [step, hp, mem_def.mp hk, commit, hrestart, Bool.true_or, Bool.not_false, Bool.and_true,
          if_true] at hstep
        split at hstep
        · rw [← some.inj hstep, ← mem_def.mp hfile]
          rfl
        · cases hstep

/-- A file of the size known is taken for the known one. -/
theorem Mistaken.prepare {file : Bytes} (h : s.Mistaken k file) (changed : Bool) :
    ∃ k' : Known σ ρ, (s.prepare o changed build).known = some k' ∧ (s.prepare o changed build).disk = some file ∧
      k'.file.size = k.file.size ∧ k'.bytes = k.bytes := by
  have hverify : k.file.verify (some file) false false = .ok false := by
    simp [FileState.verify, h.length]
  rw [h.state]
  simp only [Live.prepare, Live.reopen, h.refused, Bool.false_and, Bool.false_eq_true, if_false, h.unopened,
    Live.append, hverify]
  exact ⟨_, rfl, trivial, rfl, rfl⟩

/-- An append that does not begin its file again goes no farther than the file reaches. -/
theorem append_offset_le (hpending : s.pending = none) {restart : Bool}
    (hp : (s.append k restart build).pending = some p) (hlive : p.restart = false) :
    p.offset ≤ ((s.append k restart build).disk.getD []).length := by
  unfold Live.append at hp ⊢
  split at hp
  · exact absurd (hp.symm.trans hpending) (some_ne_none _)
  · rename_i r hverify
    cases hp
    obtain rfl : r = false := hlive
    exact (FileState.verify_eq_false hverify).2.1

theorem prepare_eq (s : Live σ ρ) (o : Opener σ ρ) (changed : Bool) (build : ℕ → σ → Appended σ ρ) :
    (s.prepare o changed build).pending = s.pending ∨
      ∃ s₁ k restart, s₁.pending = s.pending ∧ s.prepare o changed build = append k restart build s₁ := by
  unfold Live.prepare dropTail
  dsimp only
  split
  · split
    · exact .inl rfl
    · exact .inr ⟨s, _, _, rfl, rfl⟩
  · split
    · exact .inr ⟨s, _, _, rfl, rfl⟩
    · split
      · exact .inl rfl
      · split
        · exact .inl rfl
        · exact .inr ⟨{ s with disk := some _ }, _, _, rfl, rfl⟩

theorem prepare_offset_le (hpending : s.pending = none) {changed : Bool}
    (hp : (s.prepare o changed build).pending = some p) (hlive : p.restart = false) :
    p.offset ≤ ((s.prepare o changed build).disk.getD []).length := by
  obtain hnone | ⟨s₁, k, restart, hs₁, heq⟩ := s.prepare_eq o changed build
  · rw [hnone, hpending] at hp
    cases hp
  · rw [heq] at hp ⊢
    exact append_offset_le (hs₁.trans hpending) hp hlive

theorem tells_prepare (s : Live σ ρ) (changed : Bool) (build : ℕ → σ → Appended σ ρ) :
    s.tells (.prepare changed build) = true := by
  unfold tells
  split <;> simp [leaves]

/-- An append that does not begin its file again goes at the end of the appends the file is known by,
which the file's first bytes are, unless the step before left, of a file begun again after a removal,
as many bytes as the removed one held. -/
theorem append_consistent_iff {disk : Option Bytes} {acts : List (FileAction σ ρ)} {a : FileAction σ ρ} {changed : Bool}
    {s₁ s₂ : Live σ ρ} {p : Pending σ ρ} (hrun : ({ disk := disk } : Live σ ρ).run o acts = some s)
    (htells : ({ disk := disk } : Live σ ρ).tellsAll o acts = true) (hstep : s.step o a = some s₁)
    (hprepare : s₁.step o (.prepare changed build) = some s₂) (hp : s₂.pending = some p) (hlive : p.restart = false) :
    (∃ k, s₂.known = some k ∧ s₂.Consistent p k) ↔ s.tells a = true := by
  have hsound := run_sound (sound_start disk) htells hrun
  constructor
  · rintro ⟨k₂, hk₂, hconsistent⟩
    by_contra hnot
    obtain ⟨k, file, hmistaken⟩ := mistaken_of_not_tells hsound hstep ((Bool.not_eq_true _).mp hnot)
    obtain ⟨-, rfl⟩ := step_prepare hprepare
    obtain ⟨k', hk', hdisk, hsize, hbytes⟩ := hmistaken.prepare (o := o) changed
    obtain rfl := Option.some.inj (hk'.symm.trans hk₂)
    have hkept := hconsistent.bytes
    rw [hdisk, getD_some, hsize, hbytes, ← hmistaken.length, take_length] at hkept
    exact hmistaken.ne hkept
  · intro ha
    have hsound₂ := step_sound (step_sound hsound ha hstep) (tells_prepare s₁ changed build) hprepare
    obtain ⟨k, hk, hpending⟩ := hsound₂.pending p hp
    have hextends : k.Extends s₂.disk p := (hpending.resolve_right fun h => by simp [hlive] at h).2
    refine ⟨k, hk, hsound₂.describes k hk, hextends.offset, ?_⟩
    obtain ⟨hnone, rfl⟩ := step_prepare hprepare
    have hcut : (s₁.prepare o changed build).cut p.offset = some _ := if_pos (prepare_offset_le hnone hp hlive)
    rw [← hextends.offset]
    exact cut_extends (hsound₂.describes k hk) hextends hcut

end Live

/-- An append's run, sealed by its checkpoint. -/
def sealRun (bytes : Bytes) : Bytes := bytes ++ encodeCheckpoint 6 (calc32c bytes)

/-- The record of a value without a value, `t` ticks after the one before. -/
def valueAfter (t : UInt8) : Bytes := sealRun (frame 4 [0x08, 1, 0x10, 2 * t])

/-- A file's first append, its FileStart sealed on its own, and a run of one record. -/
def firstAppend (t : UInt8) (_ : ℕ) (_ : ℤ) : Appended ℤ ℕ where
  bytes := sealRun (frame 1 ([0x08, 0, 0x10, 0, 0x1D] ++ writeLittleEndian32 (calc32c (List.replicate 12 0)))) ++
    valueAfter t
  chain := t.toNat
  runs := [18]

/-- An append of one record. -/
def nextAppend (t : UInt8) (size : ℕ) (chain : ℤ) : Appended ℤ ℕ where
  bytes := valueAfter t
  chain := chain + t.toNat
  runs := [size]

/-- A scan that finds no run. -/
def nothingKept : Opener ℤ ℕ where
  scan file := ⟨0, file.length, .length, 0, none⟩
  chain _ := 0
  runs _ := []
  size_le _ := Nat.zero_le _

/-- A file made, and an append to it. -/
def appending : List (FileAction ℤ ℕ) :=
  [.prepare false (firstAppend 5), .write .done, .commit true, .prepare false (nextAppend 9)]

/-- The append fails after three bytes, which the next append cuts. -/
theorem appending_consistent : ∃ s s₁ s₂ p, ({ disk := none } : Live ℤ ℕ).run nothingKept appending = some s ∧
    s.step nothingKept (.write (.left 3)) = some s₁ ∧
    s₁.step nothingKept (.prepare false (nextAppend 9)) = some s₂ ∧ s₂.pending = some p ∧ p.restart = false ∧
    ∃ k, s₂.known = some k ∧ s₂.Consistent p k := by
  have htells : ({ disk := none } : Live ℤ ℕ).tellsAll nothingKept appending = true := by decide +kernel
  have hrun : ((({ disk := none } : Live ℤ ℕ).run nothingKept appending).bind fun s =>
      (s.step nothingKept (.write (.left 3))).bind fun s₁ =>
        (s₁.step nothingKept (.prepare false (nextAppend 9))).bind fun s₂ =>
          s₂.pending.map fun p => (s.tells (.write (.left 3)), p.restart)) = some (true, false) := by
    decide +kernel
  obtain ⟨s, hs, hrun⟩ := bind_eq_some_iff.mp hrun
  obtain ⟨s₁, hs₁, hrun⟩ := bind_eq_some_iff.mp hrun
  obtain ⟨s₂, hs₂, hrun⟩ := bind_eq_some_iff.mp hrun
  obtain ⟨p, hp, hrun⟩ := map_eq_some_iff.mp hrun
  obtain ⟨hlast, hlive⟩ := Prod.mk.inj hrun
  exact ⟨s, s₁, s₂, p, hs, hs₁, hs₂, hp, hlive,
    (Live.append_consistent_iff hs htells hs₁ hs₂ hp hlive).mpr hlast⟩

/-- A file made, removed, and made again by a write whose sync fails. -/
def removed : List (FileAction ℤ ℕ) :=
  [.prepare false (firstAppend 5), .write .done, .commit true, .remove, .prepare false (firstAppend 9),
    .write (.left 31)]

/-- The file made again, of the removed one's size, is appended to as that one: the next record's
time counts from a record the file does not hold. -/
theorem removed_mistaken : ∃ s p k, ({ disk := none } : Live ℤ ℕ).run nothingKept
      (removed ++ [.prepare false (nextAppend 1)]) = some s ∧ s.pending = some p ∧ p.restart = false ∧
    s.known = some k ∧ p.offset = 31 ∧ p.built.chain = 6 ∧ k.bytes = (firstAppend 5 0 0).bytes ∧
    s.disk = some (firstAppend 9 0 0).bytes ∧ ¬ s.Consistent p k := by
  have hrun : ((({ disk := none } : Live ℤ ℕ).run nothingKept (removed ++ [.prepare false (nextAppend 1)])).bind fun s =>
      s.pending.bind fun p => s.known.map fun k =>
        ((p.restart, p.offset, p.built.chain, k.file.size), k.bytes, s.disk)) =
      some ((false, 31, 6, 31), (firstAppend 5 0 0).bytes, some (firstAppend 9 0 0).bytes) := by
    decide +kernel
  obtain ⟨s, hs, hrun⟩ := bind_eq_some_iff.mp hrun
  obtain ⟨p, hp, hrun⟩ := bind_eq_some_iff.mp hrun
  obtain ⟨k, hk, hrun⟩ := map_eq_some_iff.mp hrun
  simp only [Prod.mk.injEq] at hrun
  obtain ⟨⟨hlive, hoffset, hchain, hsize⟩, hbytes, hdisk⟩ := hrun
  refine ⟨s, p, k, hs, hp, hlive, hk, hoffset, hchain, hbytes, hdisk, fun h => ?_⟩
  have hkept := h.bytes
  rw [hsize, hbytes, hdisk] at hkept
  revert hkept
  decide +kernel

end OpcHub.Records
